/-
  Paayatam.Booking.Seated

  Nobody is seated on an event that is not going to happen.

  Two operations seat a guest, and neither looks at the event's status or its
  start: the host's `accept` and the seeding.  And the sweep that expires an
  event nobody came to counts the guests who are accepted, not the ones whose
  attendance was already decided.  What follows is what the rest of the code
  guarantees where these three act on the events they are meant for.
-/

import Paayatam.Booking.Seats

namespace Paayatam

open Lib

/-- An event that is not going to happen. -/
def EventStatus.Off (st : EventStatus) : Prop := st = .EXPIRED ∨ st = .CANCELLED_BY_HOST

instance (st : EventStatus) : Decidable st.Off := inferInstanceAs (Decidable (_ ∨ _))

/-- No expired or called-off event has a guest who sits, sat or should have sat. -/
def NobodySeatedOff (db : Db) : Prop :=
  ∀ ev ∈ db.events.rows, ev.status.Off →
    ∀ p ∈ db.participants.rows, p.eventId = ev.id → p.status ∉ SEATED

instance (db : Db) : Decidable (NobodySeatedOff db) :=
  inferInstanceAs (Decidable (∀ ev ∈ db.events.rows, _))

/-! ## Who seats, and what ends an event -/

section Step

variable {env : Env} {k : Kind} {s s' : Db}

/-- What an acceptance found: a request, and a free seat. -/
theorem Change.seat_spec {p : ParticipantId} (h : Change env (.seat p) s s') :
    ∃ q ∈ s.participants.rows, q.id = p ∧ (q.status = .PENDING ∨ q.status = .WAITLISTED) ∧
      ∃ ev ∈ s.events.rows, ev.id = q.eventId ∧ ev.acceptedCount < ev.capacity := by
  cases h with
  | seat hev hst hroom he hp => exact ⟨_, hp.mem, rfl, hst, _, he.mem, hev, hroom⟩

theorem Change.seed_spec {e : EventId} (h : Change env (.seed e) s s') :
    ∃ ev ∈ s.events.rows, ev.id = e ∧ ev.acceptedCount < ev.capacity := by
  cases h with
  | seed hroom he => exact ⟨_, he.mem, rfl, hroom⟩

theorem Change.retire_participants {e : EventId} (h : Change env (.retire e) s s') :
    s'.participants = s.participants := by
  cases h with
  | retire _ _ _ _ hp => exact hp

/-- A participation becomes seated by an acceptance, or stays seated. -/
theorem GuestMove.seated {p q : ParticipantRow} (h : GuestMove env s k p q)
    (hq : q.status ∈ SEATED) : p.status ∈ SEATED ∨ k = .seat p.id := by
  cases h with
  | same => exact .inl hq
  | seat => exact .inr rfl
  | complete hst | absent hst | release hst => exact .inl (by simp [hst, SEATED])
  | overturn hst =>
      left
      rcases hst with hst | hst <;> simp [hst, SEATED]
  | close _ hp' =>
      rcases hp' with rfl | rfl <;>
        simp [ParticipantRow.rejected, ParticipantRow.expired, SEATED] at hq
  | callOff hst =>
      simp only [ParticipantRow.calledOff, cancelledStatus] at hq
      split at hq <;> simp [SEATED] at hq
  | lapse | withdraw | promote =>
      simp [ParticipantRow.expired, ParticipantRow.withdrawn, ParticipantRow.promoted,
        SEATED] at hq

/-- An event goes off by its host, or by the sweep that finds it published and empty. -/
theorem EventMove.off {ev ev' : EventRow} (h : EventMove env s k ev ev') (hoff : ev'.status.Off) :
    ev.status.Off ∨ k = .callOff ev.id ∨
      (k = .retire ev.id ∧ ev.status = .PUBLISHED ∧
        guestCount s.participants ev.id [.ACCEPTED] = 0) := by
  cases h with
  | same | requested | seats | stamped => exact .inl hoff
  | cancelled => exact .inr (.inl rfl)
  | retired _ hnext =>
      right; right
      simp only [EventRow.retired, hnext, retiredStatus] at hoff
      split at hoff
      · next hc => exact ⟨rfl, hc⟩
      · split at hoff <;> rcases hoff with hst | hst <;> cases hst
  | @edited _ d hed hout =>
      left
      cases ho : d.outcome with
      | none => simpa [EventEdit.apply, ho] using hoff
      | some o =>
          simp only [EventEdit.apply, ho, Option.map_some, Option.getD_some] at hoff
          rcases hout o (by simp [ho]) with hst | hst <;> rw [hst] at hoff <;>
            rcases hoff with hoff | hoff <;> cases hoff
  | reviewed _ hw =>
      rcases hoff with hst | hst <;> rcases hw with hw | hw | hw <;>
        simp [StatusWrite.apply, hw] at hst

/-- An off event has no seated guest after a change that seats nobody on one, and
    that ends no event somebody has sat through. -/
theorem Change.nobodySeatedOff (h : Change env k s s') (hs : NobodySeatedOff s)
    (hseat : ∀ q ∈ s.participants.rows, k = .seat q.id → ∀ ev ∈ s.events.rows,
      ev.id = q.eventId → ¬ ev.status.Off)
    (hseed : ∀ ev ∈ s.events.rows, k = .seed ev.id → ¬ ev.status.Off)
    (hend : ∀ ev ∈ s.events.rows, (k = .callOff ev.id ∨ (k = .retire ev.id ∧
      ev.status = .PUBLISHED ∧ guestCount s.participants ev.id [.ACCEPTED] = 0)) →
      ∀ p ∈ s.participants.rows, p.eventId = ev.id → ¬ p.status.Finished) :
    NobodySeatedOff s' := by
  intro x hx hoff q hq hqx hseated
  rcases h.event_origin hx with ⟨ev, hev, hmove⟩ | ⟨-, -, -, hnew, -⟩
  · have hqev : q.eventId = ev.id := hqx.trans hmove.id
    rcases hmove.off hoff with hwas | hends
    · -- off before: its guests were not seated, and nobody is seated on it now
      rcases h.guest_origin hq with ⟨p, hp, hpq⟩ | hnew
      · have hpev : p.eventId = ev.id := hpq.keeps.2.1.symm.trans hqev
        rcases hpq.seated hseated with hsat | rfl
        · exact hs ev hev hwas p hp hpev hsat
        · exact hseat p hp rfl ev hev hpev.symm hwas
      · cases hnew with
        | request hev₀ hlive _ =>
            obtain rfl := Table.eq_of_key hev hev₀ hqev.symm
            rcases hwas with hwas | hwas <;> simp [hlive.2.1] at hwas
        | seed hev₀ _ =>
            obtain rfl := Table.eq_of_key hev hev₀ hqev.symm
            exact hseed ev hev rfl hwas
    · have hfinished := hend ev hev hends
      rcases hends with rfl | ⟨rfl, -, hnone⟩
      · rcases h.callOff_ends hq hqev with hended | ⟨hq, hfin⟩
        · rcases hended with h | h | h | h <;> simp [h, SEATED] at hseated
        · exact hfinished q hq hqev hfin
      · rw [h.retire_participants] at hq
        have hnot := guestCount_eq_zero.1 hnone q hq hqev
        have hfin := hfinished q hq hqev
        cases hst : q.status <;> simp_all [SEATED, ParticipantStatus.Finished]
  · rcases hnew with hnew | hnew <;> rcases hoff with hoff | hoff <;> simp [hnew] at hoff

end Step

/-! ## Runs -/

/-- Where a request is accepted or a seed guest planted, and a seat is free, the event
    is live. -/
def SeatsLive (w : World) (c : Call) : Prop :=
  (∀ p ∈ c.op.accepts, ∀ q ∈ w.db.participants.rows, q.id = p →
    (q.status = .PENDING ∨ q.status = .WAITLISTED) → ∀ ev ∈ w.db.events.rows,
    ev.id = q.eventId → ev.acceptedCount < ev.capacity → ev.Live c.env.now) ∧
  ∀ e ∈ c.op.seeds, ∀ ev ∈ w.db.events.rows, ev.id = e → ev.acceptedCount < ev.capacity →
    ev.Live c.env.now

/-- No event is called off, or expired by the sweep, that somebody has sat through
    or stayed away from. -/
def EndsUnattended (w : World) (c : Call) : Prop :=
  ∀ ev ∈ w.db.events.rows, (c.op.callsOff = some ev.id ∨ (c.op.retires = some ev.id ∧
    ev.status = .PUBLISHED ∧ guestCount w.db.participants ev.id [.ACCEPTED] = 0)) →
    ∀ p ∈ w.db.participants.rows, p.eventId = ev.id → ¬ p.status.Finished

instance (w : World) (c : Call) : Decidable (SeatsLive w c) :=
  inferInstanceAs (Decidable ((∀ p ∈ c.op.accepts, _) ∧ ∀ e ∈ c.op.seeds, _))

instance (st : ParticipantStatus) : Decidable st.Finished := inferInstanceAs (Decidable (_ ∨ _))

instance (w : World) (c : Call) : Decidable (EndsUnattended w c) :=
  inferInstanceAs (Decidable (∀ ev ∈ w.db.events.rows, _))

/-- An event that is live is not off. -/
theorem EventRow.Live.not_off {ev : EventRow} {now : Instant} (h : ev.Live now) :
    ¬ ev.status.Off := by
  rintro (hst | hst) <;> simp [h.2.1] at hst

theorem NobodySeatedOff.step {w w' : World} {c : Call} (h : NobodySeatedOff w.db)
    (hstep : w.Step c w') (hlive : SeatsLive w c) (hends : EndsUnattended w c) :
    NobodySeatedOff w'.db := by
  rcases World.step_effect hstep with hc | ⟨k, hk, hc⟩
  · exact hc.change.nobodySeatedOff h (by simp) (by simp) (by simp)
  · refine hc.change.nobodySeatedOff h ?_ ?_ ?_
    · rintro q hq rfl ev hev hid
      obtain ⟨q', hq', hqid, hst, ev', hev', hid', hroom⟩ := hc.change.seat_spec
      obtain rfl := Table.eq_of_key hq' hq hqid
      obtain rfl := Table.eq_of_key hev' hev (hid'.trans hid.symm)
      exact (hlive.1 _ (Op.accepts_of_does hk) q' hq' rfl hst ev' hev' hid' hroom).not_off
    · rintro ev hev rfl
      obtain ⟨ev', hev', hid', hroom⟩ := hc.change.seed_spec
      obtain rfl := Table.eq_of_key hev' hev hid'
      exact (hlive.2 _ (Op.seeds_of_does hk) ev' hev' rfl hroom).not_off
    · rintro ev hev (rfl | ⟨rfl, hrest⟩)
      · exact hends ev hev (.inl (Op.callsOff_of_does hk))
      · exact hends ev hev (.inr ⟨Op.retires_of_does hk, hrest⟩)

/-- Who is accepted by a step was accepted, or planted, on a live event. -/
theorem accepted_live {w w' : World} {c : Call} (hstep : w.Step c w') (hlive : SeatsLive w c)
    {q : ParticipantRow} (hq : q ∈ w'.db.participants.rows) (hst : q.status = .ACCEPTED)
    (hnew : ∀ p ∈ w.db.participants.rows, p.id = q.id → p.status ≠ .ACCEPTED) :
    ∃ ev ∈ w.db.events.rows, ev.id = q.eventId ∧ ev.Live c.env.now := by
  have hmoves : ∀ k, (c.op.Does k ∨ k = .books) → Change c.env k w.db w'.db →
      ∃ ev ∈ w.db.events.rows, ev.id = q.eventId ∧ ev.Live c.env.now := by
    intro k hk hc
    rcases hc.guest_origin hq with ⟨p, hp, hmove⟩ | hguest
    · have hwas := hnew p hp hmove.keeps.1.symm
      rcases hmove.seated (by simp [hst, SEATED]) with hseated | rfl
      · -- seated and not accepted is finished, and that is never undone
        have hfin : p.status.Finished := by
          cases hp' : p.status <;> simp_all [SEATED, ParticipantStatus.Finished]
        rcases hmove.finished hfin with h | h <;> simp [h] at hst
      · obtain ⟨q', hq', hqid, hst', ev, hev, hid, hroom⟩ := hc.seat_spec
        obtain rfl := Table.eq_of_key hq' hp hqid
        refine ⟨ev, hev, hid.trans hmove.keeps.2.1.symm, ?_⟩
        rcases hk with hk | hk
        · exact hlive.1 _ (Op.accepts_of_does hk) q' hq' rfl hst' ev hev hid hroom
        · cases hk
    · cases hguest with
      | @request ev user newId _ _ _ =>
          rcases requestRow_status c.env ev user newId (roomToAsk w.db ev) with h | h <;>
            simp [h] at hst
      | @seed ev _ _ _ hev _ =>
          refine ⟨ev, hev, rfl, ?_⟩
          obtain ⟨ev', hev', hid, hroom⟩ := hc.seed_spec
          obtain rfl := Table.eq_of_key hev' hev hid
          rcases hk with hk | hk
          · exact hlive.2 _ (Op.seeds_of_does hk) ev' hev' rfl hroom
          · cases hk
  rcases World.step_effect hstep with hc | ⟨k, hk, hc⟩
  · exact hmoves _ (.inr rfl) hc.change
  · exact hmoves k (.inl hk) hc.change

theorem NobodySeatedOff.initial {w : World} (h : w.Init) : NobodySeatedOff w.db := by
  rw [h.1]
  simp [NobodySeatedOff, Db.initial]

/-- In every run in which guests are seated on live events only, and no event ends
    as expired or called off with attendance decided, a participation moves to
    ACCEPTED only on a live event, and no event that is off has a seated guest. -/
theorem seated_on_live_events {w : World}
    (h : World.Reached (fun w c => SeatsLive w c ∧ EndsUnattended w c) w) :
    NobodySeatedOff w.db ∧
    ∀ c w', SeatsLive w c → w.Step c w' → ∀ q ∈ w'.db.participants.rows, q.status = .ACCEPTED →
      (∀ p ∈ w.db.participants.rows, p.id = q.id → p.status ≠ .ACCEPTED) →
      ∃ ev ∈ w.db.events.rows, ev.id = q.eventId ∧ ev.Live c.env.now := by
  refine ⟨?_, fun c w' hlive hstep q hq hst hnew => accepted_live hstep hlive hq hst hnew⟩
  refine Reach.invariant (I := fun w : World => NobodySeatedOff w.db) (fun _ => .initial) ?_ h
  exact fun _ _ _ hI hg hstep => hI.step hstep hg.1 hg.2

/-- A guest is accepted, the evening happens, and attendance is settled. -/
def attendedCalls : List Call :=
  [callAt 0 (.moveCoins (onboardingReward 1 100)), callAt 0 (.moveCoins (onboardingReward 2 100)),
   callAt 1 (.create 1 (demoEvent 100 2) false 7), callAt 2 (.join 2 7 21), callAt 3 (.accept 1 21),
   callAt 101 (.retireOne 7), callAt 103 (.retireOne 7), callAt 130 .scanAttendance,
   callAt 130 (.settleOne 7)]

/-- The guest was seated on a live event, and the settled evening has one who attended. -/
theorem seated_on_live_evening : ∃ w, World.play attendedCalls = some w ∧ NobodySeatedOff w.db ∧
    w.db.participants.rows.map (·.status) = [.COMPLETED] := by
  have hplay : (World.play attendedCalls).any (fun w =>
      w.db.participants.rows.map (·.status) == [.COMPLETED]) = true := by decide +kernel
  obtain ⟨w, hw, hattended⟩ := World.exists_of_play hplay
  refine ⟨w, hw, (seated_on_live_events ?_).1, by simpa using hattended⟩
  exact World.reached_of_play (g := fun w c => decide (SeatsLive w c ∧ EndsUnattended w c))
    (fun _ _ h => of_decide_eq_true h) (by decide +kernel) hw

/-- The host answers a request after the sweep has expired the event. -/
def lateAcceptCalls : List Call :=
  [callAt 0 (.moveCoins (onboardingReward 1 100)), callAt 0 (.moveCoins (onboardingReward 2 100)),
   callAt 1 (.create 1 (demoEvent 100 2) false 7), callAt 90 (.join 2 7 21),
   callAt 101 (.retireOne 7), callAt 102 (.accept 1 21)]

/-- The expired event has an accepted guest. -/
theorem seated_on_expired_event :
    ¬ ∀ w, World.Reached (fun _ _ => True) w → NobodySeatedOff w.db := by
  intro h
  have hplay : (World.play lateAcceptCalls).any (fun w => !decide (NobodySeatedOff w.db)) = true := by
    decide +kernel
  obtain ⟨w, hw, hnot⟩ := World.exists_of_play hplay
  simp [h w (World.reachable_of_play hw)] at hnot

end Paayatam
