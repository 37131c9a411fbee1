/-
  Paayatam.Booking.Promotion

  When the waiting list moves up.

  `fillFreedSeats` is called from four operations.  The sweep looks at the
  event first; a rejection, a withdrawal and an expiry do not, and can move the
  queue of an event that has started, ended or been hidden.  `Change.promotion`
  says which of these a promotion came from and what it found; the rest of the
  module is the deadline it set.
-/

import Paayatam.Booking.Grounded

namespace Paayatam

open Lib

/-! ## The deadline -/

/-- On an event that has not started, a floor of at least a minute puts the deadline
    in the future. -/
theorem hostDeadline_future {now startsAt : Instant} {hours minHoursBefore minResponse : Nat}
    (hstart : now < startsAt) (hfloor : 1 ≤ minResponse) :
    now < hostDeadline now startsAt hours minHoursBefore minResponse := by
  have hminutes : now < now + minResponse * msPerMinute := by
    refine lt_add_of_pos_right now (mul_pos ?_ (by decide))
    exact_mod_cast hfloor
  exact lt_max_of_lt_right (lt_min hminutes hstart)

/-- The start bounds every window the deadline is chosen from. -/
theorem hostDeadline_le_start (now startsAt : Instant) (hours minHoursBefore minResponse : Nat) :
    hostDeadline now startsAt hours minHoursBefore minResponse ≤ startsAt := by
  have hcutoff : startsAt - minHoursBefore * msPerHour ≤ startsAt :=
    sub_le_self startsAt (mul_nonneg (Int.natCast_nonneg _) (by decide))
  exact max_le ((min_le_right _ _).trans hcutoff) (min_le_right _ _)

/-- A later request never has the earlier deadline. -/
theorem hostDeadline_mono {now later : Instant} (h : now ≤ later) (startsAt : Instant)
    (hours minHoursBefore minResponse : Nat) :
    hostDeadline now startsAt hours minHoursBefore minResponse ≤
      hostDeadline later startsAt hours minHoursBefore minResponse := by
  have hwindow : min (now + hours * msPerHour) (startsAt - minHoursBefore * msPerHour) ≤
      min (later + hours * msPerHour) (startsAt - minHoursBefore * msPerHour) :=
    min_le_min (Int.add_le_add_right h _) le_rfl
  have hfloor : min (now + minResponse * msPerMinute) startsAt ≤
      min (later + minResponse * msPerMinute) startsAt :=
    min_le_min (Int.add_le_add_right h _) le_rfl
  exact max_le_max hwindow hfloor

/-- A request for an event that has not started is open for a while, until the start
    at most. -/
theorem request_not_born_expired {startsAt : Instant} {hours minHoursBefore minResponse : Nat}
    (hfloor : 1 ≤ minResponse) :
    (∀ now, now < startsAt →
      now < hostDeadline now startsAt hours minHoursBefore minResponse ∧
        hostDeadline now startsAt hours minHoursBefore minResponse ≤ startsAt) ∧
    ∀ now later, now ≤ later → hostDeadline now startsAt hours minHoursBefore minResponse ≤
      hostDeadline later startsAt hours minHoursBefore minResponse :=
  ⟨fun now hstart => ⟨hostDeadline_future hstart hfloor, hostDeadline_le_start now startsAt _ _ _⟩,
    fun _ _ h => hostDeadline_mono h startsAt _ _ _⟩

/-- Two hours before the start, where the cutoff of three hours has passed. -/
theorem request_not_born_expired_late :
    0 < hostDeadline 0 (2 * msPerHour) 24 3 5 ∧
      hostDeadline 0 (2 * msPerHour) 24 3 5 ≤ 2 * msPerHour :=
  (request_not_born_expired (by decide)).1 0 (by decide)

/-! ## What a promotion found -/

section Step

variable {env : Env} {k : Kind} {s s' : Db}

/-- The slots the end of `x` leaves free in `ev`. -/
def slotsFreedBy (s : Db) (ev : EventRow) (x : ParticipantRow) : Int :=
  ev.capacity - ev.acceptedCount - guestCount s.participants ev.id [.PENDING] +
    weight [.ACCEPTED, .PENDING] x.status

/-- A pass with no free slot promotes nobody. -/
theorem Promotes.room {ev : EventRow} {t t' : Table ParticipantRow} {q : ParticipantRow}
    (h : Promotes env ev t t') (hq : q ∈ t'.rows) (hnew : q ∉ t.rows) :
    ev.acceptedCount + guestCount t ev.id [.PENDING] < ev.capacity := by
  by_contra hfull
  have hzero : (ev.capacity - ev.acceptedCount - guestCount t ev.id [.PENDING]).toNat = 0 := by
    omega
  rw [Promotes, hzero] at h
  cases h with
  | full => exact hnew hq

/-- A rejection, an expiry and a withdrawal end one live participation and offer
    its slot to the queue of its event. -/
structure Frees (env : Env) (s s' : Db) (x : ParticipantRow) (f : ParticipantRow → ParticipantRow)
    (ev : EventRow) (n : Int) (t : Table ParticipantRow) : Prop where
  event : ev ∈ s.events.rows
  id : ev.id = x.eventId
  seat : n = -weight [.ACCEPTED] x.status
  rewrites : s.participants.Rewrites x f t
  keeps : (f x).id = x.id ∧ (f x).eventId = x.eventId
  ended : (f x).status.Ended
  fill : Promotes env (ev.addSeats n) t s'.participants

theorem Change.close_frees {p : ParticipantId} (h : Change env (.close p) s s') :
    ∃ x f ev n t, x.id = p ∧ Frees env s s' x f ev n t := by
  cases h with
  | @close ev x f _ _ t hev hid hst hf _ hp hfill =>
      have hseat : (0 : Int) = -weight [.ACCEPTED] x.status := by
        rcases hst with hst | hst <;> simp [hst, weight]
      have hsame : ev.addSeats 0 = ev := by simp [EventRow.addSeats]
      refine ⟨x, f, ev, 0, t, rfl, hev, hid, hseat, hp, ?_, ?_, by rwa [hsame]⟩
      · rcases hf with rfl | rfl <;> exact ⟨rfl, rfl⟩
      · rcases hf with rfl | rfl
        · exact .inl rfl
        · exact .inr (.inl rfl)

theorem Change.withdraw_frees {p : ParticipantId} (h : Change env (.withdraw p) s s') :
    ∃ x f ev n t, x.id = p ∧ Frees env s s' x f ev n t := by
  cases h with
  | @withdrawRequest ev x bucket reason ledgerId _ _ t hev hid hst _ hp hfill =>
      have hseat : (0 : Int) = -weight [.ACCEPTED] x.status := by
        rcases hst with hst | hst <;> simp [hst, weight]
      have hsame : ev.addSeats 0 = ev := by simp [EventRow.addSeats]
      exact ⟨x, _, ev, 0, t, rfl, hev, hid, hseat, hp, ⟨rfl, rfl⟩, .inr (.inr (.inl rfl)),
        by rwa [hsame]⟩
  | @withdrawSeat ev x bucket reason ledgerId _ _ t hid hst he hp hfill =>
      have hseat : (-1 : Int) = -weight [.ACCEPTED] x.status := by simp [hst, weight]
      exact ⟨x, _, ev, -1, t, rfl, he.mem, hid, hseat, hp, ⟨rfl, rfl⟩, .inr (.inr (.inl rfl)),
        hfill⟩

/-- An ended participation neither waits nor asks. -/
theorem ParticipantStatus.Ended.not_live {st : ParticipantStatus} (h : st.Ended) :
    st ∉ LIVE_PARTICIPANT_STATUSES := by
  rcases h with h | h | h | h <;> simp [h, LIVE_PARTICIPANT_STATUSES]

/-- Whoever is promoted by the end of `x` was waiting for the same event, is not `x`,
    and found a slot `x` left free. -/
theorem Frees.promoted {x : ParticipantRow} {f : ParticipantRow → ParticipantRow} {ev : EventRow}
    {n : Int} {t : Table ParticipantRow} (h : Frees env s s' x f ev n t) {p q : ParticipantRow}
    (hp : p ∈ s.participants.rows) (hq : q ∈ s'.participants.rows) (hid : q.id = p.id)
    (hwait : p.status = .WAITLISTED) (hask : q.status = .PENDING) :
    x ≠ p ∧ p.eventId = ev.id ∧ 0 < slotsFreedBy s ev x := by
  have hnew : q ∉ t.rows := by
    intro hq
    rcases h.rewrites.cases hq with rfl | ⟨hq, -⟩
    · exact h.ended.not_live (by simp [hask, LIVE_PARTICIPANT_STATUSES])
    · rw [Table.eq_of_key hq hp hid, hwait] at hask
      cases hask
  rcases promoted_move h.fill hq with hq' | ⟨y, hy, hye, hyst, rfl⟩
  · exact absurd hq' hnew
  have hyp : y ∈ s.participants.rows ∧ y ≠ x := by
    rcases h.rewrites.cases hy with rfl | hy
    · exact absurd (by simp [hyst, LIVE_PARTICIPANT_STATUSES]) h.ended.not_live
    · exact hy
  obtain rfl : y = p := Table.eq_of_key hyp.1 hp hid
  refine ⟨hyp.2.symm, hye, ?_⟩
  have hroom := h.fill.room hq hnew
  have hcount := guestCount_rewrites ev.id [.PENDING] h.rewrites h.keeps.2
  have hended : weight [.PENDING] (f x).status = 0 := by
    refine weight_of_not_mem fun hmem => h.ended.not_live ?_
    simp_all [LIVE_PARTICIPANT_STATUSES]
  have hsplit : weight [.ACCEPTED, .PENDING] x.status =
      weight [.ACCEPTED] x.status + weight [.PENDING] x.status := by
    cases x.status <;> rfl
  have hseat := h.seat
  rw [if_pos h.id.symm, hended] at hcount
  simp only [EventRow.addSeats] at hroom
  simp only [slotsFreedBy, hsplit]
  omega

/-- A participation is promoted by the sweep of a live event, or by the end of
    another one of its event that leaves a slot free; its deadline is that of a
    promotion. -/
theorem Change.promotion (h : Change env k s s') {p q : ParticipantRow}
    (hp : p ∈ s.participants.rows) (hq : q ∈ s'.participants.rows) (hid : q.id = p.id)
    (hwait : p.status = .WAITLISTED) (hask : q.status = .PENDING) :
    ∃ ev ∈ s.events.rows, ev.id = p.eventId ∧ q.hostDeadlineAt = some (promotionDeadline env ev) ∧
      ((k = .fill ev.id ∧ ev.Live env.now) ∨ ∃ x ∈ s.participants.rows, x ≠ p ∧
        x.eventId = ev.id ∧ (k = .close x.id ∨ k = .withdraw x.id) ∧ 0 < slotsFreedBy s ev x) := by
  rcases h.guest_origin hq with ⟨y, hy, hmove⟩ | hnew
  · obtain rfl : y = p := Table.eq_of_key hy hp (hmove.keeps.1.symm.trans hid)
    cases hmove with
    | @promote _ _ ev _ hev hide hk =>
        refine ⟨ev, hev, hide, rfl, ?_⟩
        rcases hk with ⟨x, rfl⟩ | ⟨x, rfl⟩ | ⟨rfl, hlive⟩
        · obtain ⟨x, f, ev', n, t, rfl, hfrees⟩ := h.close_frees
          obtain ⟨hne, hpe, hroom⟩ := hfrees.promoted hp hq hid hwait hask
          obtain rfl := Table.eq_of_key hfrees.event hev (hpe.symm.trans hide.symm)
          exact .inr ⟨x, hfrees.rewrites.mem, hne, hfrees.id.symm, .inl rfl, hroom⟩
        · obtain ⟨x, f, ev', n, t, rfl, hfrees⟩ := h.withdraw_frees
          obtain ⟨hne, hpe, hroom⟩ := hfrees.promoted hp hq hid hwait hask
          obtain rfl := Table.eq_of_key hfrees.event hev (hpe.symm.trans hide.symm)
          exact .inr ⟨x, hfrees.rewrites.mem, hne, hfrees.id.symm, .inr rfl, hroom⟩
        · exact .inl ⟨rfl, hlive⟩
    | same => simp [hwait] at hask
    | close _ hp' =>
        rcases hp' with rfl | rfl <;> simp [ParticipantRow.rejected, ParticipantRow.expired] at hask
    | callOff _ =>
        simp only [ParticipantRow.calledOff, cancelledStatus] at hask
        split at hask <;> cases hask
    | seat | lapse | withdraw | complete | absent | overturn | release => cases hask
  · exact absurd hid.symm (by
      cases hnew with
      | request _ _ hnew | seed _ hnew => exact hnew p hp)

end Step

/-! ## Steps -/

/-- Whoever moves from the waiting list to the host's questions does so on a live
    event, with a deadline in the future. -/
def PromotedLive (now : Instant) (s s' : Db) : Prop :=
  ∀ p ∈ s.participants.rows, ∀ q ∈ s'.participants.rows, q.id = p.id → p.status = .WAITLISTED →
    q.status = .PENDING → ∃ ev ∈ s.events.rows, ev.id = p.eventId ∧ ev.Live now ∧
      ∃ d ∈ q.hostDeadlineAt, now < d

instance (now : Instant) (s s' : Db) : Decidable (PromotedLive now s s') :=
  inferInstanceAs (Decidable (∀ p ∈ s.participants.rows, _))

/-- What ends offers no slot to a queue unless the event is live: it is live, or no
    slot is left free, or nobody else waits.  And the response floor is not zero. -/
def FillsLive (w : World) (c : Call) : Prop :=
  (c.op.fills = true → 1 ≤ c.env.settings.participation_min_response_minutes) ∧
  ∀ p ∈ c.op.frees, ∀ x ∈ w.db.participants.rows, x.id = p → ∀ ev ∈ w.db.events.rows,
    ev.id = x.eventId → ev.Live c.env.now ∨ slotsFreedBy w.db ev x ≤ 0 ∨
      ∀ q ∈ w.db.participants.rows, q.eventId = ev.id → q.status = .WAITLISTED → q = x

instance (w : World) (c : Call) : Decidable (FillsLive w c) :=
  inferInstanceAs (Decidable ((_ → _) ∧ ∀ p ∈ c.op.frees, _))

/-- A step that offers slots to live events only promotes onto live events, with a
    deadline in the future. -/
theorem FillsLive.promotedLive {w w' : World} {c : Call} (hguard : FillsLive w c)
    (hstep : w.Step c w') :
    PromotedLive c.env.now w.db w'.db := by
  intro p hp q hq hid hwait hask
  have hmoves : ∀ k, (c.op.Does k ∨ k = .books) → Change c.env k w.db w'.db →
      ∃ ev ∈ w.db.events.rows, ev.id = p.eventId ∧ ev.Live c.env.now ∧
        ∃ d ∈ q.hostDeadlineAt, c.env.now < d := by
    intro k hk hc
    obtain ⟨ev, hev, hide, hdead, hfrom⟩ := hc.promotion hp hq hid hwait hask
    have hlive : ev.Live c.env.now ∧ c.op.fills = true := by
      rcases hfrom with ⟨rfl, hlive⟩ | ⟨x, hx, hne, hxe, hkx, hroom⟩
      · rcases hk with hk | hk
        · exact ⟨hlive, Op.fills_of_fill hk⟩
        · cases hk
      · have hfrees : c.op.frees = some x.id := by
          rcases hkx with rfl | rfl <;> rcases hk with hk | hk
          · exact Op.frees_of_close hk
          · cases hk
          · exact Op.frees_of_withdraw hk
          · cases hk
        refine ⟨?_, Op.fills_of_frees hfrees⟩
        rcases hguard.2 _ hfrees x hx rfl ev hev hxe.symm with hlive | hfull | hnone
        · exact hlive
        · exact absurd hfull (not_le.2 hroom)
        · exact absurd (hnone p hp hide.symm hwait).symm hne
    exact ⟨ev, hev, hide, hlive.1, _, hdead, hostDeadline_future hlive.1.2.2 (hguard.1 hlive.2)⟩
  rcases World.step_effect hstep with hc | ⟨k, hk, hc⟩
  · exact hmoves _ (.inr rfl) hc.change
  · exact hmoves k (.inl hk) hc.change

/-- In every run that offers slots to live events only, every step promotes onto live
    events, with a deadline in the future. -/
theorem promotions_live {tr : List (World × Call × World)} {w : World}
    (h : World.Run FillsLive tr w) :
    ∀ x ∈ tr, PromotedLive x.2.1.env.now x.1.db x.2.2.db :=
  h.steps (P := fun w c w' => PromotedLive c.env.now w.db w'.db)
    fun _ _ _ _ hguard hstep => hguard.promotedLive hstep

/-- Two seats are taken, and a third guest waits. -/
def queuedCalls : List Call :=
  [callAt 0 (.moveCoins (onboardingReward 1 100)), callAt 0 (.moveCoins (onboardingReward 2 100)),
   callAt 0 (.moveCoins (onboardingReward 3 100)), callAt 0 (.moveCoins (onboardingReward 4 100)),
   callAt 1 (.create 1 (demoEvent 100 2) false 7), callAt 2 (.join 2 7 21), callAt 3 (.join 3 7 22),
   callAt 4 (.accept 1 21), callAt 5 (.accept 1 22), callAt 6 (.join 4 7 23)]

/-- A withdrawal before the start moves the third guest up, in time. -/
theorem promotions_live_before_start :
    (∀ x ∈ traceList World.exec (World.initial 0) (queuedCalls ++ [callAt 50 (.cancel 2 21 none)]),
      PromotedLive x.2.1.env.now x.1.db x.2.2.db) ∧
    (World.play (queuedCalls ++ [callAt 50 (.cancel 2 21 none)])).any (fun w =>
      w.db.participants.rows.any fun p => decide (p.id = 23 ∧ p.status = .PENDING)) = true := by
  have hplay : (World.play (queuedCalls ++ [callAt 50 (.cancel 2 21 none)])).any (fun w =>
      w.db.participants.rows.any fun p => decide (p.id = 23 ∧ p.status = .PENDING)) = true := by
    decide +kernel
  obtain ⟨w, hw, -⟩ := World.exists_of_play hplay
  refine ⟨promotions_live (w := w) ?_, hplay⟩
  exact World.run_of_play (g := fun w c => decide (FillsLive w c))
    (fun _ _ h => of_decide_eq_true h) (by decide +kernel) hw

/-- A call under the settings of `demoEnv`, with a response floor of zero minutes. -/
def callWithoutFloor (hours : Int) (op : Op) : Call where
  env := { demoEnv hours with
    settings := { Settings.defaults with participation_min_response_minutes := 0 } }
  op := op

/-- A withdrawal after the start moves the queue of an event that is under way, and
    one an hour before it sets, with the floor at zero, a deadline of now. -/
theorem promoted_after_start :
    (¬ ∀ w w' c, World.Reached (fun _ _ => True) w → w.Step c w' →
      PromotedLive c.env.now w.db w'.db) ∧
    ∃ w w', World.Reached (fun _ _ => True) w ∧
      w.Step (callWithoutFloor 99 (.cancel 2 21 none)) w' ∧
      ¬ PromotedLive (99 * msPerHour) w.db w'.db := by
  constructor
  · intro h
    have hplay : (World.play queuedCalls).any (fun w =>
        (w.exec (callAt 101 (.cancel 2 21 none))).any fun w' =>
          !decide (PromotedLive (101 * msPerHour) w.db w'.db)) = true := by decide +kernel
    obtain ⟨w, hw, hend⟩ := World.exists_of_play hplay
    obtain ⟨w', hstep, hnot⟩ := (Option.any_eq_true _ _).1 hend
    have hlive := h w w' _ (World.reachable_of_play hw) hstep
    simp only [callAt, demoEnv] at hlive
    simp [hlive] at hnot
  · have hplay : (World.play queuedCalls).any (fun w =>
        (w.exec (callWithoutFloor 99 (.cancel 2 21 none))).any fun w' =>
          !decide (PromotedLive (99 * msPerHour) w.db w'.db)) = true := by decide +kernel
    obtain ⟨w, hw, hend⟩ := World.exists_of_play hplay
    obtain ⟨w', hstep, hnot⟩ := (Option.any_eq_true _ _).1 hend
    exact ⟨w, w', World.reachable_of_play hw, hstep, by simpa using hnot⟩

end Paayatam
