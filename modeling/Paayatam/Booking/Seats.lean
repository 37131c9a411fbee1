/-
  Paayatam.Booking.Seats

  Seat accounting: `accepted_count` is the number of guests who hold a seat or
  held one to the end, and nobody sits in an event its host called off.

  The counter and the statuses are written in different statements of a dozen
  operations.  One lemma per side of the equation says how far a change moves
  it; the invariant is that they move together.  The one operation that can
  break it is the seeding of a synthetic guest, which looks at the seats of an
  event and not at its status.
-/

import Paayatam.Booking.Grounded

namespace Paayatam

open Lib

/-- Every event's counter is the number of its guests who hold a seat or held it
    to the end, is zero once the host called the event off, and is within the
    capacity. -/
def SeatsCounted (db : Db) : Prop :=
  ∀ ev ∈ db.events.rows,
    ev.acceptedCount = guestCount db.participants ev.id SEATED ∧
    (ev.status = .CANCELLED_BY_HOST → ev.acceptedCount = 0) ∧
    0 ≤ ev.acceptedCount ∧ ev.acceptedCount ≤ ev.capacity

instance (db : Db) : Decidable (SeatsCounted db) :=
  inferInstanceAs (Decidable (∀ ev ∈ db.events.rows, _))

/-- The counter of every event in `t` counts the seated guests in `p`. -/
def Counted (t : Table EventRow) (p : Table ParticipantRow) : Prop :=
  ∀ ev ∈ t.rows, ev.acceptedCount = guestCount p ev.id SEATED

/-- Every participation of a called-off event has ended. -/
def Vacated (db : Db) : Prop :=
  ∀ ev ∈ db.events.rows, ev.status = .CANCELLED_BY_HOST →
    ∀ p ∈ db.participants.rows, p.eventId = ev.id → p.status.Ended

theorem Counted.same {t : Table EventRow} {p p' : Table ParticipantRow} (h : Counted t p)
    (hcount : ∀ e, guestCount p' e SEATED = guestCount p e SEATED) : Counted t p' := by
  intro ev hev
  rw [hcount]
  exact h ev hev

/-- The counter of one event and the number of its guests move by the same. -/
theorem Counted.rewrites {t t' : Table EventRow} {p p' : Table ParticipantRow} {ev : EventRow}
    {f : EventRow → EventRow} {n : Int} (h : Counted t p) (he : t.Rewrites ev f t')
    (hid : (f ev).id = ev.id) (hn : (f ev).acceptedCount = ev.acceptedCount + n)
    (hcount : ∀ e, (guestCount p' e SEATED : Int) =
      guestCount p e SEATED + if ev.id = e then n else 0) : Counted t' p' := by
  intro x hx
  rcases he.cases hx with rfl | ⟨hx, hne⟩
  · rw [hid, hn, hcount, if_pos rfl, h ev he.mem]
  · have hkey : ev.id ≠ x.id := (he.key_ne hx hne).symm
    rw [hcount, if_neg hkey, add_zero]
    exact h x hx

/-- A rewrite of an event that leaves its counter alone. -/
theorem Counted.kept {t t' : Table EventRow} {p p' : Table ParticipantRow} {ev : EventRow}
    {f : EventRow → EventRow} (h : Counted t p) (he : t.Rewrites ev f t')
    (hid : (f ev).id = ev.id) (hn : (f ev).acceptedCount = ev.acceptedCount)
    (hcount : ∀ e, guestCount p' e SEATED = guestCount p e SEATED) : Counted t' p' :=
  h.rewrites he hid (n := 0) (by omega) fun e => by simp [hcount]

@[simp] theorem weight_seated_accepted : weight SEATED .ACCEPTED = 1 := rfl
@[simp] theorem weight_seated_completed : weight SEATED .COMPLETED = 1 := rfl
@[simp] theorem weight_seated_noShow : weight SEATED .NO_SHOW = 1 := rfl
@[simp] theorem weight_seated_pending : weight SEATED .PENDING = 0 := rfl
@[simp] theorem weight_seated_waitlisted : weight SEATED .WAITLISTED = 0 := rfl
@[simp] theorem weight_seated_expired : weight SEATED .EXPIRED = 0 := rfl
@[simp] theorem weight_seated_rejected : weight SEATED .REJECTED = 0 := rfl
@[simp] theorem weight_seated_cancelled : weight SEATED .CANCELLED_BY_PARTICIPANT = 0 := rfl

section Step

variable {env : Env} {k : Kind} {s s' : Db}

/-- A status rewritten on its own side of the seats. -/
theorem seated_same {p : ParticipantRow} {f : ParticipantRow → ParticipantRow}
    {t t' : Table ParticipantRow} (hp : t.Rewrites p f t') (hid : (f p).eventId = p.eventId)
    (hw : weight SEATED (f p).status = weight SEATED p.status) (e : EventId) :
    guestCount t' e SEATED = guestCount t e SEATED := by
  have := guestCount_rewrites e SEATED hp hid
  rw [hw, sub_self, ite_self, add_zero] at this
  exact_mod_cast this

theorem seated_promotes {ev : EventRow} {t t' : Table ParticipantRow} (h : Promotes env ev t t')
    (e : EventId) : guestCount t' e SEATED = guestCount t e SEATED :=
  guestCount_fill e SEATED h rfl

/-- An absent guest's evening counted as attended keeps the seat. -/
theorem seated_attended {t t' : Table ParticipantRow} {e₀ : EventId} {st : ParticipantStatus}
    (hst : st = .ACCEPTED ∨ st = .NO_SHOW)
    (h : t.RewritesAll (isGuestOf e₀ [st]) ParticipantRow.attendedNow t') (e : EventId) :
    guestCount t' e SEATED = guestCount t e SEATED := by
  refine guestCount_rewritesAll e SEATED h fun r hr => ?_
  obtain ⟨-, hr⟩ := isGuestOf_iff.1 hr
  rw [List.mem_singleton] at hr
  rcases hst with rfl | rfl <;> simp only [isGuestOf, ParticipantRow.attendedNow, hr] <;> rfl

/-- A change that calls no event off moves counters and statuses together. -/
theorem Change.counted (h : Change env k s s') (hs : Counted s.events s.participants)
    (hanchored : ∀ p ∈ s.participants.rows, ∃ ev ∈ s.events.rows, ev.id = p.eventId)
    (hk : ∀ e, k ≠ .callOff e) : Counted s'.events s'.participants := by
  cases h with
  | books he hp | pay he hp => rwa [he, hp]
  | create hid hcount _ _ he hp =>
      intro x hx
      have hnew := fun q hq => (Table.compatible_of_insert he (x := q) hq).1
      rw [he, List.mem_append, List.mem_singleton] at hx
      rw [hp]
      rcases hx with hx | rfl
      · exact hs x hx
      · -- nobody takes part in an event that has just been created
        rw [hcount, eq_comm, Nat.cast_eq_zero, guestCount_eq_zero]
        intro p hpm hpe
        obtain ⟨ev, hev, hid'⟩ := hanchored p hpm
        exact absurd (hid'.trans hpe) (hnew ev hev)
  | @request ev user newId _ _ hlive he hp =>
      refine hs.kept he rfl rfl fun e => ?_
      have hcount := guestCount_insert e SEATED hp
      rcases requestRow_status env ev user newId (roomToAsk s ev) with hst | hst <;>
        rw [hst] at hcount <;> simpa using hcount
  | @seat ev p grace _ _ hev hst _ he hp =>
      refine hs.rewrites he rfl (n := 1) rfl fun e => ?_
      rw [guestCount_rewrites e SEATED hp rfl, hev]
      rcases hst with hst | hst <;> simp [ParticipantRow.accepted, hst]
  | seed _ he hp =>
      refine hs.rewrites he rfl (n := 1) rfl fun e => ?_
      rw [guestCount_insert e SEATED hp]
      rfl
  | close _ _ hst hf he hp hfill =>
      rw [he]
      refine hs.same fun e => ?_
      rw [seated_promotes hfill e]
      rcases hf with rfl | rfl <;> rcases hst with hst | hst <;>
        exact seated_same hp rfl (by simp [ParticipantRow.rejected, ParticipantRow.expired, hst]) e
  | lapse _ _ hst _ he hp =>
      rw [he]
      exact hs.same (seated_same hp rfl (by simp [ParticipantRow.expired, hst]))
  | withdrawRequest _ _ hst he hp hfill =>
      rw [he]
      refine hs.same fun e => ?_
      rw [seated_promotes hfill e]
      rcases hst with hst | hst <;>
        exact seated_same hp rfl (by simp [ParticipantRow.withdrawn, hst]) e
  | withdrawSeat hid hst he hp hfill =>
      refine hs.rewrites he rfl (n := -1) rfl fun e => ?_
      rw [seated_promotes hfill e, guestCount_rewrites e SEATED hp rfl, hid]
      simp [ParticipantRow.withdrawn, hst]
  | fill _ _ he hfill =>
      rw [he]
      exact hs.same (seated_promotes hfill)
  | complete he hp =>
      rw [he]
      exact hs.same (seated_attended (.inl rfl) hp)
  | absent _ _ hst _ he hp =>
      rw [he]
      exact hs.same (seated_same hp rfl (by simp [ParticipantRow.markedAbsent, hst]))
  | overturn hst _ he hp =>
      rw [he]
      refine hs.same (seated_same hp rfl ?_)
      rcases hst with hst | hst <;> simp [ParticipantRow.attendedNow, hst]
  | callOff => exact absurd rfl (hk _)
  | retire _ _ _ he hp | edit _ _ _ he hp | review _ _ he hp =>
      exact hs.kept he rfl rfl fun e => by rw [hp]
  | stamp _ he hp => exact hs.kept he rfl rfl (seated_attended (.inr rfl) hp)

/-- Calling an event off ends the participation of every live guest. -/
theorem Change.callOff_ends {e : EventId} (h : Change env (.callOff e) s s') {q : ParticipantRow}
    (hq : q ∈ s'.participants.rows) (hqe : q.eventId = e) :
    q.status.Ended ∨ (q ∈ s.participants.rows ∧ q.status.Finished) := by
  cases h with
  | callOff _ _ _ hp =>
      rcases hp.cases hq with ⟨p, -, -, rfl⟩ | ⟨hq, hlive⟩
      · left
        simp only [ParticipantRow.calledOff, cancelledStatus]
        split
        · exact .inr (.inr (.inr rfl))
        · exact .inr (.inl rfl)
      · have hnot := isGuestOf_eq_false.1 hlive hqe
        rcases q.status.live_or_finished_or_ended with hlive | hfin | hended
        · exact absurd hlive hnot
        · exact .inr ⟨hq, hfin⟩
        · exact .inl hended

/-- An event that is called off after a change was called off before it, or is
    called off by it. -/
theorem Change.cancelled_origin (h : Change env k s s') (hedit : ∀ e c, k ≠ .edit e c)
    {x : EventRow} (hx : x ∈ s'.events.rows) (hst : x.status = .CANCELLED_BY_HOST) :
    ∃ ev ∈ s.events.rows, ev.id = x.id ∧ (ev.status = .CANCELLED_BY_HOST ∨
      (k = .callOff x.id ∧ env.now < ev.startsAt)) := by
  rcases h.event_origin hx with ⟨ev, hev, hmove⟩ | ⟨-, -, -, hnew, -⟩
  · refine ⟨ev, hev, hmove.id.symm, ?_⟩
    cases hmove with
    | cancelled hstart _ => exact .inr ⟨rfl, hstart⟩
    | retired _ hnext =>
        simp only [EventRow.retired, hnext, retiredStatus] at hst
        split at hst
        · cases hst
        · split at hst <;> cases hst
    | edited => exact absurd rfl (hedit _ _)
    | reviewed _ hw => rcases hw with hw | hw | hw <;> simp [StatusWrite.apply, hw] at hst
    | same | requested | seats | stamped => exact .inl hst
  · rcases hnew with hnew | hnew <;> simp [hnew] at hst

/-- Who is left in a called-off event: those who had ended before, and the live
    guests its cancellation ended. -/
theorem Change.vacated {clock : Instant} {queue : List EventId} (h : Change env k s s')
    (hs : Vacated s) (hg : Grounded clock queue s) (hnow : clock ≤ env.now)
    (hedit : ∀ e c, k ≠ .edit e c)
    (hseed : ∀ e, k = .seed e → ∀ ev ∈ s.events.rows, ev.id = e → ev.status ≠ .CANCELLED_BY_HOST) :
    Vacated s' := by
  intro x hx hst q hq hqx
  obtain ⟨ev, hev, hid, hcancelled | ⟨rfl, hstart⟩⟩ := h.cancelled_origin hedit hx hst
  · rcases h.guest_origin hq with ⟨p, hp, hmove⟩ | hnew
    · have hended := hs ev hev hcancelled p hp (by rw [hid, ← hqx, hmove.keeps.2.1])
      rw [hmove.ended hended]
      exact hended
    · -- nobody asks to join a called-off event, and no seed is planted in one
      cases hnew with
      | request hev₀ hlive _ =>
          obtain rfl := Table.eq_of_key hev hev₀ (hid.trans hqx.symm)
          simp [hlive.2.1] at hcancelled
      | seed hev₀ _ => exact absurd hcancelled (hseed _ rfl ev hev (hid.trans hqx.symm))
  · rcases h.callOff_ends hq hqx with hended | ⟨hq, hfin⟩
    · exact hended
    · -- a finished guest's event is over, and this one has not started
      have hover := hg.endsAt_le hq hfin hev (hid.trans hqx.symm)
      have hvalid := EventRow.startsAt_lt_endsAt (s.events.valid ev hev)
      exact absurd (hover.trans hnow) (not_le.2 (hstart.trans hvalid))

/-- The counters after an event is called off: zero for it, and nobody left to
    count. -/
theorem Change.counted_callOff {e : EventId} (h : Change env (.callOff e) s s')
    (hs : Counted s.events s.participants) (hvacated : Vacated s') :
    Counted s'.events s'.participants := by
  have hzero : guestCount s'.participants e SEATED = 0 := by
    cases h with
    | callOff _ _ he _ =>
        rw [guestCount_eq_zero]
        intro q hq hqe hst
        rcases hvacated _ he.self rfl q hq hqe with h | h | h | h <;> simp [h, SEATED] at hst
  cases h with
  | @callOff ev reason _ _ _ _ he hp =>
      intro x hx
      rcases he.cases hx with rfl | ⟨hx, hne⟩
      · change (0 : Int) = guestCount s'.participants ev.id SEATED
        rw [hzero]
        rfl
      · have hkey : x.id ≠ ev.id := he.key_ne hx hne
        rw [hs x hx]
        congr 1
        refine (guestCount_rewritesAll _ _ hp fun r hr => ?_).symm
        obtain ⟨hre, -⟩ := isGuestOf_iff.1 hr
        simp [isGuestOf, ParticipantRow.calledOff, hre, hkey.symm]

end Step

/-! ## Runs -/

/-- A seed guest is not planted in an event its host has called off. -/
def SeedsStanding (w : World) (c : Call) : Prop :=
  ∀ e ∈ c.op.seeds, ∀ ev ∈ w.db.events.rows, ev.id = e → ev.status ≠ .CANCELLED_BY_HOST

instance (w : World) (c : Call) : Decidable (SeedsStanding w c) :=
  inferInstanceAs (Decidable (∀ e ∈ c.op.seeds, _))

/-- What the runs carry: grounded, counted, vacated. -/
structure SeatInvariant (w : World) : Prop where
  grounded : Grounded w.clock w.settleQueue w.db
  counted : Counted w.db.events w.db.participants
  vacated : Vacated w.db

theorem SeatInvariant.change {w : World} (h : SeatInvariant w) {env : Env} {k : Kind} {s' : Db}
    (hc : Change env k w.db s') (hnow : w.clock ≤ env.now) (hedit : ∀ e c, k ≠ .edit e c)
    (hseed : ∀ e, k = .seed e → ∀ ev ∈ w.db.events.rows, ev.id = e →
      ev.status ≠ .CANCELLED_BY_HOST) : Counted s'.events s'.participants ∧ Vacated s' := by
  have hvacated := hc.vacated h.vacated h.grounded hnow hedit hseed
  refine ⟨?_, hvacated⟩
  by_cases hoff : ∃ e, k = .callOff e
  · obtain ⟨e, rfl⟩ := hoff
    exact hc.counted_callOff h.counted hvacated
  · exact hc.counted h.counted h.grounded.anchored fun e he => hoff ⟨e, he⟩

theorem SeatInvariant.step {w w' : World} {c : Call} (h : SeatInvariant w) (hstep : w.Step c w')
    (hedit : c.op.edits = none) (hseed : SeedsStanding w c) : SeatInvariant w' := by
  have hgrounded := h.grounded.step hstep hedit
  have hnow := (World.step_iff.1 hstep).1
  rcases World.step_effect hstep with hc | ⟨k, hk, hc⟩
  · obtain ⟨hcounted, hvacated⟩ := h.change hc.change hnow (by simp) (by simp)
    exact ⟨hgrounded, hcounted, hvacated⟩
  · obtain ⟨hcounted, hvacated⟩ := h.change hc.change hnow
      (by
        rintro e cap rfl
        simp [Op.edits_of_does hk] at hedit)
      (by
        rintro e rfl
        exact hseed e (Op.seeds_of_does hk))
    exact ⟨hgrounded, hcounted, hvacated⟩

theorem SeatInvariant.initial {w : World} (h : w.Init) : SeatInvariant w := by
  refine ⟨.initial h, ?_, ?_⟩
  · rw [h.1]
    simp [Counted, Db.initial]
  · rw [h.1]
    simp [Vacated, Db.initial]

/-- One evening from its creation to its settlement: two guests join, both are
    accepted, one withdraws, one is marked absent. -/
def eveningCalls : List Call :=
  [callAt 0 (.moveCoins (onboardingReward 1 100)), callAt 0 (.moveCoins (onboardingReward 2 100)),
   callAt 0 (.moveCoins (onboardingReward 3 100)), callAt 1 (.create 1 (demoEvent 100 2) false 7),
   callAt 2 (.join 2 7 21), callAt 3 (.join 3 7 22), callAt 4 (.accept 1 21),
   callAt 5 (.accept 1 22), callAt 90 (.cancel 2 21 none), callAt 103 (.markNoShow 1 22),
   callAt 104 (.retireOne 7)]

/-- A seeded evening is called off, and the seeding goes on. -/
def seededAfterCancelCalls : List Call :=
  [callAt 0 (.moveCoins (onboardingReward 1 35)), callAt 1 (.create 1 (demoEvent 100 2) true 7),
   callAt 2 (.cancelByHost 1 7 none), callAt 3 (.seatSeedParticipant 7 2 9)]

end Paayatam
