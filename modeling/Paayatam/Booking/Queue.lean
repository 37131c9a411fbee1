/-
  Paayatam.Booking.Queue

  The host's questions and the waiting list, as two numbers per event.

  `asked` is what a host has to deal with: seats given and requests open.
  `waiting` is the length of the queue.  `Change.queue` says, for every change
  and every event, how the two move; the bound on questions and the absence of
  idle slots are arithmetic on it.
-/

import Paayatam.Booking.Grounded

namespace Paayatam

open Lib

/-- The seats given and the requests open. -/
def asked (s : Db) (ev : EventRow) : Int :=
  ev.acceptedCount + guestCount s.participants ev.id [.PENDING]

/-- The number of guests on the waiting list. -/
def waiting (s : Db) (ev : EventRow) : Nat := guestCount s.participants ev.id [.WAITLISTED]

theorem waiting_eq_zero {s : Db} {ev : EventRow} :
    waiting s ev = 0 ↔ ∀ p ∈ s.participants.rows, p.eventId = ev.id → p.status ≠ .WAITLISTED := by
  simp [waiting, guestCount_eq_zero]

/-- How a change of kind `k` moves the numbers of the event that is `x` after it. -/
inductive QueueMove (s s' : Db) (k : Kind) (x : EventRow) : Prop
  | empty (hasked : asked s' x = 0) (hwaiting : waiting s' x = 0)
  | kept {ev : EventRow} (hev : ev ∈ s.events.rows) (hid : ev.id = x.id)
      (hcap : x.capacity = ev.capacity) (hasked : asked s' x = asked s ev)
      (hwaiting : waiting s' x ≤ waiting s ev)
  | edited {ev : EventRow} {c : Option Int} (hev : ev ∈ s.events.rows) (hk : k = .edit ev.id c)
      (hid : ev.id = x.id) (hcap : x.capacity = c.getD ev.capacity) (hasked : asked s' x = asked s ev)
      (hwaiting : waiting s' x = waiting s ev)
  | admitted {ev : EventRow} (hev : ev ∈ s.events.rows) (hid : ev.id = x.id)
      (hcap : x.capacity = ev.capacity) (hroom : asked s ev < ev.capacity)
      (hasked : asked s' x = asked s ev + 1) (hwaiting : waiting s' x = waiting s ev)
  | queued {ev : EventRow} (hev : ev ∈ s.events.rows) (hid : ev.id = x.id)
      (hcap : x.capacity = ev.capacity) (hfull : ev.capacity ≤ asked s ev)
      (hasked : asked s' x = asked s ev)
  | taken {ev : EventRow} (hev : ev ∈ s.events.rows) (hid : ev.id = x.id)
      (hcap : x.capacity = ev.capacity)
      (hk : k = .seed ev.id ∨ ∃ p ∈ s.participants.rows, k = .seat p.id ∧ p.eventId = ev.id ∧
        p.status = .WAITLISTED)
      (hasked : asked s' x = asked s ev + 1) (hwaiting : waiting s' x ≤ waiting s ev)
  | filled {ev : EventRow} (hev : ev ∈ s.events.rows) (hid : ev.id = x.id)
      (hcap : x.capacity = ev.capacity) (hasked : asked s' x ≤ max (asked s ev) ev.capacity)
      (hidle : ev.capacity ≤ asked s' x ∨ waiting s' x = 0)

/-! ## The numbers after each change -/

@[simp] theorem weight_pending_pending : weight [.PENDING] .PENDING = 1 := rfl
@[simp] theorem weight_pending_waitlisted : weight [.PENDING] .WAITLISTED = 0 := rfl
@[simp] theorem weight_pending_accepted : weight [.PENDING] .ACCEPTED = 0 := rfl
@[simp] theorem weight_pending_expired : weight [.PENDING] .EXPIRED = 0 := rfl
@[simp] theorem weight_waitlisted_pending : weight [.WAITLISTED] .PENDING = 0 := rfl
@[simp] theorem weight_waitlisted_waitlisted : weight [.WAITLISTED] .WAITLISTED = 1 := rfl
@[simp] theorem weight_waitlisted_accepted : weight [.WAITLISTED] .ACCEPTED = 0 := rfl
@[simp] theorem weight_waitlisted_expired : weight [.WAITLISTED] .EXPIRED = 0 := rfl

section Step

variable {env : Env} {k : Kind} {s s' : Db}

/-- An event none of whose numbers moved. -/
theorem QueueMove.same {ev x : EventRow} (hev : ev ∈ s.events.rows) (hsame : SameEvening ev x)
    (hcount : x.acceptedCount = ev.acceptedCount)
    (hguests : ∀ sts ∈ [[ParticipantStatus.PENDING], [.WAITLISTED]],
      guestCount s'.participants ev.id sts = guestCount s.participants ev.id sts) :
    QueueMove s s' k x := by
  refine .kept hev hsame.id.symm hsame.capacity ?_ (le_of_eq ?_)
  · rw [asked, asked, hsame.id, hcount, hguests _ (by simp)]
  · rw [waiting, waiting, hsame.id, hguests _ (by simp)]

theorem SameEvening.refl (ev : EventRow) : SameEvening ev ev := ⟨rfl, rfl, rfl, rfl⟩

/-- A row rewritten between statuses that neither ask nor wait moves no number. -/
theorem guestCount_rewrites_quiet {p : ParticipantRow} {f : ParticipantRow → ParticipantRow}
    {t t' : Table ParticipantRow} {e : EventId} {sts : List ParticipantStatus}
    (h : t.Rewrites p f t') (hid : (f p).eventId = p.eventId)
    (hbefore : p.status ∉ sts) (hafter : (f p).status ∉ sts) :
    guestCount t' e sts = guestCount t e sts := by
  have hcount := guestCount_rewrites e sts h hid
  rw [weight_of_not_mem hbefore, weight_of_not_mem hafter] at hcount
  simpa using hcount

/-- Another event's participation moves no number of this one. -/
theorem guestCount_rewrites_other {p : ParticipantRow} {f : ParticipantRow → ParticipantRow}
    {t t' : Table ParticipantRow} {e : EventId} {sts : List ParticipantStatus}
    (h : t.Rewrites p f t') (hid : (f p).eventId = p.eventId) (hne : p.eventId ≠ e) :
    guestCount t' e sts = guestCount t e sts := by
  have hcount := guestCount_rewrites e sts h hid
  simpa [hne] using hcount

/-- The numbers after a pass over the queue, from those it started with. -/
theorem Promotes.filled {ev : EventRow} {t t' : Table ParticipantRow} (h : Promotes env ev t t') :
    ev.acceptedCount + guestCount t' ev.id [.PENDING] ≤
        max (ev.acceptedCount + guestCount t ev.id [.PENDING]) ev.capacity ∧
      (ev.capacity ≤ ev.acceptedCount + guestCount t' ev.id [.PENDING] ∨
        guestCount t' ev.id [.WAITLISTED] = 0) := by
  refine ⟨?_, h.exhausts.imp_right fun hnone => ?_⟩
  · have := (Fill.pending h).1
    omega
  · rw [guestCount_eq_zero]
    intro p hp hpe hst
    have := hnone p hp
    simp_all [waitsFor]

/-- A live participation ended and its slot offered to the queue: the numbers of
    its event, whose counter moved by `n`. -/
theorem QueueMove.freed {ev x : EventRow} {p : ParticipantRow} {f : ParticipantRow → ParticipantRow}
    {t : Table ParticipantRow} {n : Int} (hev : ev ∈ s.events.rows) (hid : ev.id = p.eventId)
    (hn : n ≤ 0) (hp : s.participants.Rewrites p f t) (hkeep : (f p).eventId = p.eventId)
    (hended : (f p).status ∉ [ParticipantStatus.PENDING])
    (hfill : Promotes env (ev.addSeats n) t s'.participants) (hx : x = ev.addSeats n) :
    QueueMove s s' k x := by
  subst hx
  have hcount := guestCount_rewrites ev.id [.PENDING] hp hkeep
  rw [if_pos hid.symm, weight_of_not_mem hended] at hcount
  have hweight : 0 ≤ weight [.PENDING] p.status := by
    cases p.status <;> decide
  obtain ⟨hle, hidle⟩ := hfill.filled
  refine .filled hev rfl rfl ?_ hidle
  simp only [EventRow.addSeats] at hle
  simp only [asked, EventRow.addSeats]
  omega

/-- …and of any other event. -/
theorem QueueMove.freed_other {ev x : EventRow} {p : ParticipantRow}
    {f : ParticipantRow → ParticipantRow} {t : Table ParticipantRow} {e : EventRow}
    (hx : x ∈ s.events.rows) (hid : ev.id = p.eventId) (hne : ev.id ≠ x.id)
    (hp : s.participants.Rewrites p f t) (hkeep : (f p).eventId = p.eventId) (he : e.id = ev.id)
    (hfill : Promotes env e t s'.participants) : QueueMove s s' k x := by
  refine .same hx (.refl x) rfl fun sts _ => ?_
  rw [guestCount_fill_other x.id sts hfill (he ▸ hne),
    guestCount_rewrites_other hp hkeep (hid ▸ hne)]

/-- A rewrite of one event that leaves the guests and its counter alone. -/
theorem QueueMove.event_only {ev x : EventRow} {f : EventRow → EventRow}
    (he : s.events.Rewrites ev f s'.events) (hp : s'.participants = s.participants)
    (hsame : SameEvening ev (f ev)) (hcount : (f ev).acceptedCount = ev.acceptedCount)
    (hx : x ∈ s'.events.rows) : QueueMove s s' k x := by
  rcases he.cases hx with rfl | ⟨hx, -⟩
  · exact .same he.mem hsame hcount fun sts _ => by rw [hp]
  · exact .same hx (.refl x) rfl fun sts _ => by rw [hp]

/-- Attended guests neither ask nor wait, before or after. -/
theorem guestCount_attended {sts₀ sts : List ParticipantStatus} {e₀ e : EventId}
    {t t' : Table ParticipantRow} (h : t.RewritesAll (isGuestOf e₀ sts₀) ParticipantRow.attendedNow t')
    (hsts₀ : ∀ st ∈ sts₀, st ∉ sts) (hsts : .COMPLETED ∉ sts) :
    guestCount t' e sts = guestCount t e sts := by
  refine guestCount_rewritesAll e sts h fun p hp => ?_
  obtain ⟨-, hst⟩ := isGuestOf_iff.1 hp
  have hbefore : isGuestOf e sts p = false := isGuestOf_eq_false.2 fun _ => hsts₀ _ hst
  have hafter : isGuestOf e sts p.attendedNow = false := isGuestOf_eq_false.2 fun _ => hsts
  rw [hbefore, hafter]

/-- Every change, by what it does to the numbers of each event. -/
theorem Change.queue (h : Change env k s s')
    (hanchored : ∀ p ∈ s.participants.rows, ∃ ev ∈ s.events.rows, ev.id = p.eventId)
    {x : EventRow} (hx : x ∈ s'.events.rows) : QueueMove s s' k x := by
  cases h with
  | books he hp | pay he hp =>
      rw [he] at hx
      exact .same hx (.refl x) rfl fun sts _ => by rw [hp]
  | @create e r _ _ hid hcount _ _ he hp =>
      have hnew := fun ev hev => (Table.compatible_of_insert he (x := ev) hev).1
      rw [he, List.mem_append, List.mem_singleton] at hx
      rcases hx with hx | rfl
      · exact .same hx (.refl x) rfl fun sts _ => by rw [hp]
      · -- no participation can name an event before it exists
        have hnone : ∀ sts, guestCount s'.participants x.id sts = 0 := by
          intro sts
          rw [hp, guestCount_eq_zero]
          intro p hpm hpe
          obtain ⟨ev, hev, hide⟩ := hanchored p hpm
          exact absurd (hide.trans hpe) (hnew ev hev)
        exact .empty (by simp [asked, hcount, hnone]) (hnone _)
  | @request ev user newId _ _ hlive he hp =>
      have hcount := fun e sts => guestCount_insert e sts hp
      rcases he.cases hx with rfl | ⟨hx, hne⟩
      · have hpending := hcount ev.id [.PENDING]
        have hwaiting := hcount ev.id [.WAITLISTED]
        cases hroom : roomToAsk s ev with
        | true =>
            simp only [hroom, requestRow, if_true, weight_pending_pending,
              weight_waitlisted_pending, add_zero] at hpending hwaiting
            refine .admitted he.mem rfl rfl ?_ ?_ ?_
            · simpa [roomToAsk, asked] using hroom
            · simp only [asked, EventRow.requested]
              omega
            · simp only [waiting, EventRow.requested]
              omega
        | false =>
            simp only [hroom, requestRow, if_true, Bool.false_eq_true, if_false,
              weight_pending_waitlisted, add_zero] at hpending
            refine .queued he.mem rfl rfl ?_ ?_
            · simpa [roomToAsk, asked] using hroom
            · simp only [asked, EventRow.requested]
              omega
      · have hkey : ev.id ≠ x.id := (he.key_ne hx hne).symm
        refine .same hx (.refl x) rfl fun sts _ => ?_
        have hother := hcount x.id sts
        simpa [requestRow, hkey] using hother
  | @seat ev p grace _ _ hid hst _ he hp =>
      rcases he.cases hx with rfl | ⟨hx, hne⟩
      · have hpending := guestCount_rewrites ev.id [.PENDING] hp rfl
        have hwaiting := guestCount_rewrites ev.id [.WAITLISTED] hp rfl
        rw [if_pos hid.symm] at hpending hwaiting
        rcases hst with hst | hst
        · simp only [ParticipantRow.accepted, hst, weight_pending_accepted, weight_pending_pending,
            weight_waitlisted_accepted, weight_waitlisted_pending] at hpending hwaiting
          refine .kept he.mem rfl rfl ?_ ?_
          · simp only [asked, EventRow.addSeats]
            omega
          · simp only [waiting, EventRow.addSeats]
            omega
        · simp only [ParticipantRow.accepted, hst, weight_pending_accepted,
            weight_pending_waitlisted, weight_waitlisted_accepted,
            weight_waitlisted_waitlisted] at hpending hwaiting
          refine .taken he.mem rfl rfl (.inr ⟨p, hp.mem, rfl, hid.symm, hst⟩) ?_ ?_
          · simp only [asked, EventRow.addSeats]
            omega
          · simp only [waiting, EventRow.addSeats]
            omega
      · have hkey : p.eventId ≠ x.id := hid ▸ (he.key_ne hx hne).symm
        exact .same hx (.refl x) rfl fun sts _ => guestCount_rewrites_other hp rfl hkey
  | @seed ev user newId grace _ _ _ he hp =>
      have hcount := fun e sts => guestCount_insert e sts hp
      rcases he.cases hx with rfl | ⟨hx, hne⟩
      · have hpending := hcount ev.id [.PENDING]
        have hwaiting := hcount ev.id [.WAITLISTED]
        simp only [seededRow, if_true, weight_pending_accepted, weight_waitlisted_accepted,
          add_zero] at hpending hwaiting
        refine .taken he.mem rfl rfl (.inl rfl) ?_ ?_
        · simp only [asked, EventRow.addSeats]
          omega
        · simp only [waiting, EventRow.addSeats]
          omega
      · have hkey : ev.id ≠ x.id := (he.key_ne hx hne).symm
        refine .same hx (.refl x) rfl fun sts _ => ?_
        have hother := hcount x.id sts
        simpa [seededRow, hkey] using hother
  | @close ev p f _ _ t hev hid hst hf he hp hfill =>
      rw [he] at hx
      have hkeep : (f p).eventId = p.eventId := by rcases hf with rfl | rfl <;> rfl
      by_cases hxe : x = ev
      · have hsame : ev.addSeats 0 = ev := by simp [EventRow.addSeats]
        refine .freed (n := 0) hev hid le_rfl hp hkeep ?_ (by rwa [hsame]) (by rw [hsame, hxe])
        rcases hf with rfl | rfl <;> simp [ParticipantRow.rejected, ParticipantRow.expired]
      · have hkey : ev.id ≠ x.id := fun hk => hxe (Table.eq_of_key hx hev hk.symm)
        exact .freed_other hx hid hkey hp hkeep rfl hfill
  | @lapse ev p _ _ hev hid hst _ he hp =>
      rw [he] at hx
      by_cases hxe : x = ev
      · subst hxe
        have hpending := guestCount_rewrites x.id [.PENDING] hp rfl
        have hwaiting := guestCount_rewrites x.id [.WAITLISTED] hp rfl
        rw [if_pos hid.symm] at hpending hwaiting
        simp only [ParticipantRow.expired, hst, weight_pending_expired, weight_pending_waitlisted,
          weight_waitlisted_expired, weight_waitlisted_waitlisted] at hpending hwaiting
        refine .kept hev rfl rfl ?_ ?_
        · simp only [asked]
          omega
        · simp only [waiting]
          omega
      · have hkey : p.eventId ≠ x.id := fun hk => hxe (Table.eq_of_key hx hev (hid.trans hk).symm)
        exact .same hx (.refl x) rfl fun sts _ => guestCount_rewrites_other hp rfl hkey
  | @withdrawRequest ev p _ _ _ _ _ t hev hid _ he hp hfill =>
      rw [he] at hx
      by_cases hxe : x = ev
      · have hsame : ev.addSeats 0 = ev := by simp [EventRow.addSeats]
        exact .freed (n := 0) hev hid le_rfl hp rfl (by simp [ParticipantRow.withdrawn])
          (by rwa [hsame]) (by rw [hsame, hxe])
      · have hkey : ev.id ≠ x.id := fun hk => hxe (Table.eq_of_key hx hev hk.symm)
        exact .freed_other hx hid hkey hp rfl rfl hfill
  | @withdrawSeat ev p _ _ _ _ _ t hid _ he hp hfill =>
      rcases he.cases hx with hxe | ⟨hx, hne⟩
      · exact .freed (n := -1) he.mem hid (by decide) hp rfl (by simp [ParticipantRow.withdrawn])
          hfill hxe
      · exact .freed_other (e := ev.addSeats (-1)) hx hid (he.key_ne hx hne).symm hp rfl rfl hfill
  | @fill ev _ _ hev _ he hfill =>
      rw [he] at hx
      by_cases hxe : x = ev
      · subst hxe
        obtain ⟨hle, hidle⟩ := hfill.filled
        exact .filled hev rfl rfl hle hidle
      · have hkey : ev.id ≠ x.id := fun hk => hxe (Table.eq_of_key hx hev hk.symm)
        exact .same hx (.refl x) rfl fun sts _ => guestCount_fill_other x.id sts hfill hkey
  | complete he hp =>
      rw [he] at hx
      refine .same hx (.refl x) rfl fun sts hsts => guestCount_attended hp ?_ ?_ <;>
        simp at hsts <;> rcases hsts with rfl | rfl <;> simp
  | absent _ _ hst _ he hp =>
      rw [he] at hx
      refine .same hx (.refl x) rfl fun sts hsts => guestCount_rewrites_quiet hp rfl ?_ ?_ <;>
        simp at hsts <;> rcases hsts with rfl | rfl <;> simp [hst, ParticipantRow.markedAbsent]
  | overturn hst _ he hp =>
      rw [he] at hx
      refine .same hx (.refl x) rfl fun sts hsts => guestCount_rewrites_quiet hp rfl ?_ ?_ <;>
        simp at hsts <;> rcases hsts with rfl | rfl <;> rcases hst with hst | hst <;>
        simp [hst, ParticipantRow.attendedNow]
  | @callOff ev reason _ _ _ _ he hp =>
      rcases he.cases hx with rfl | ⟨hx, hne⟩
      · have hnone : ∀ sts ∈ [[ParticipantStatus.PENDING], [.WAITLISTED]],
            guestCount s'.participants ev.id sts = 0 := by
          intro sts hsts
          rw [guestCount_eq_zero]
          intro q hq hqe hst
          rcases hp.cases hq with ⟨p, -, -, rfl⟩ | ⟨-, hnot⟩
          · simp only [ParticipantRow.calledOff, cancelledStatus] at hst
            simp at hsts
            split at hst <;> rcases hsts with rfl | rfl <;> simp at hst
          · refine isGuestOf_eq_false.1 hnot hqe ?_
            simp at hsts
            rcases hsts with rfl | rfl <;> simp_all [LIVE_PARTICIPANT_STATUSES]
        refine .empty ?_ (hnone _ (by simp))
        simp [asked, EventRow.cancelled, hnone]
      · have hkey : x.id ≠ ev.id := he.key_ne hx hne
        refine .same hx (.refl x) rfl fun sts _ => guestCount_rewritesAll _ _ hp fun p hpq => ?_
        obtain ⟨hpe, -⟩ := isGuestOf_iff.1 hpq
        simp [isGuestOf, ParticipantRow.calledOff, hpe, hkey.symm]
  | retire _ _ _ he hp | review _ _ he hp =>
      exact .event_only he hp ⟨rfl, rfl, rfl, rfl⟩ rfl hx
  | @edit ev d _ _ _ _ _ he hp =>
      rcases he.cases hx with rfl | ⟨hx, -⟩
      · refine .edited he.mem rfl rfl rfl ?_ ?_
        · simp only [asked, hp]
          rfl
        · simp only [waiting, hp]
          rfl
      · exact .same hx (.refl x) rfl fun sts _ => by rw [hp]
  | @stamp ev _ _ _ he hp =>
      have hguests : ∀ e, ∀ sts ∈ [[ParticipantStatus.PENDING], [.WAITLISTED]],
          guestCount s'.participants e sts = guestCount s.participants e sts := by
        intro e sts hsts
        simp at hsts
        refine guestCount_attended hp ?_ ?_ <;> rcases hsts with rfl | rfl <;> simp
      rcases he.cases hx with rfl | ⟨hx, -⟩
      · exact .same he.mem ⟨rfl, rfl, rfl, rfl⟩ rfl (hguests _)
      · exact .same hx (.refl x) rfl (hguests _)

end Step

/-! ## No more questions than seats -/

/-- The host of no event is asked about more guests than it has seats. -/
def WithinCapacity (s : Db) : Prop := ∀ ev ∈ s.events.rows, asked s ev ≤ ev.capacity

instance (s : Db) : Decidable (WithinCapacity s) :=
  inferInstanceAs (Decidable (∀ ev ∈ s.events.rows, _))

/-- No seed guest is planted, nobody is accepted off the waiting list of an event
    whose host has as many questions as seats, and no capacity is cut below that. -/
def AsksInside (w : World) (c : Call) : Prop :=
  c.op.seeds = none ∧
  (∀ p ∈ c.op.accepts, ∀ q ∈ w.db.participants.rows, q.id = p → q.status = .WAITLISTED →
    ∀ ev ∈ w.db.events.rows, ev.id = q.eventId → asked w.db ev < ev.capacity) ∧
  ∀ x ∈ c.op.edits, ∀ n ∈ x.2, ∀ ev ∈ w.db.events.rows, ev.id = x.1 → asked w.db ev ≤ n

instance (w : World) (c : Call) : Decidable (AsksInside w c) :=
  inferInstanceAs (Decidable (_ ∧ (∀ p ∈ c.op.accepts, _) ∧ ∀ x ∈ c.op.edits, _))

/-- Every participation's event exists. -/
def Anchored (s : Db) : Prop :=
  ∀ p ∈ s.participants.rows, ∃ ev ∈ s.events.rows, ev.id = p.eventId

theorem Anchored.step {w w' : World} {c : Call} (h : Anchored w.db) (hstep : w.Step c w') :
    Anchored w'.db := by
  rcases World.step_effect hstep with hc | ⟨k, -, hc⟩
  · exact hc.change.anchored h
  · exact hc.change.anchored h

theorem Anchored.initial {w : World} (h : w.Init) : Anchored w.db := by
  rw [h.1]
  simp [Anchored, Db.initial]

/-- The numbers of every event after a step. -/
theorem World.queue_step {w w' : World} {c : Call} (h : Anchored w.db) (hstep : w.Step c w')
    {x : EventRow} (hx : x ∈ w'.db.events.rows) :
    ∃ k, (k = .books ∨ c.op.Does k) ∧ QueueMove w.db w'.db k x := by
  rcases World.step_effect hstep with hc | ⟨k, hk, hc⟩
  · exact ⟨_, .inl rfl, hc.change.queue h hx⟩
  · exact ⟨k, .inr hk, hc.change.queue h hx⟩

theorem capacity_nonneg {s : Db} {x : EventRow} (hx : x ∈ s.events.rows) : 0 ≤ x.capacity := by
  have := EventRow.acceptedCount_bounds (s.events.valid x hx)
  omega

/-- Who takes a seat that was not asked for is planted, or accepted off the list. -/
theorem taken_by {s : Db} {op : Op} {k : Kind} {ev : EventRow} (hk : k = .books ∨ op.Does k)
    (hkind : k = .seed ev.id ∨ ∃ p ∈ s.participants.rows, k = .seat p.id ∧ p.eventId = ev.id ∧
      p.status = .WAITLISTED) :
    op.seeds = some ev.id ∨ ∃ p ∈ s.participants.rows, op.accepts = some p.id ∧
      p.eventId = ev.id ∧ p.status = .WAITLISTED := by
  rcases hk with rfl | hk
  · rcases hkind with hkind | ⟨_, _, hkind, -⟩ <;> cases hkind
  · rcases hkind with rfl | ⟨p, hp, rfl, hrest⟩
    · exact .inl (Op.seeds_of_does hk)
    · exact .inr ⟨p, hp, Op.accepts_of_does hk, hrest⟩

theorem WithinCapacity.step {w w' : World} {c : Call} (h : WithinCapacity w.db)
    (hanchored : Anchored w.db) (hstep : w.Step c w') (hguard : AsksInside w c) :
    WithinCapacity w'.db := by
  intro x hx
  obtain ⟨k, hk, hmove⟩ := World.queue_step hanchored hstep hx
  cases hmove with
  | empty hasked => exact hasked ▸ capacity_nonneg hx
  | kept hev _ hcap hasked =>
      rw [hasked, hcap]
      exact h _ hev
  | @edited ev n hev hkind _ hcap hasked =>
      rw [hasked, hcap]
      cases n with
      | none => exact h _ hev
      | some n =>
          rcases hk with rfl | hk
          · cases hkind
          · rw [hkind] at hk
            exact hguard.2.2 _ (Op.edits_of_does hk) n rfl ev hev rfl
  | admitted _ _ hcap hroom hasked =>
      rw [hasked, hcap]
      omega
  | queued hev _ hcap _ hasked =>
      rw [hasked, hcap]
      exact h _ hev
  | taken hev _ hcap hkind hasked =>
      rw [hasked, hcap]
      rcases taken_by hk hkind with hseed | ⟨p, hp, haccept, hpe, hst⟩
      · simp [hguard.1] at hseed
      · have := hguard.2.1 _ haccept p hp rfl hst _ hev hpe.symm
        omega
  | filled hev _ hcap hasked =>
      rw [hcap]
      exact hasked.trans (max_le (h _ hev) le_rfl)

/-- No step but a seeding and an acceptance off the waiting list asks a host about
    more guests than both the seats and what was asked before. -/
theorem asked_le {w w' : World} {c : Call} (hanchored : Anchored w.db) (hstep : w.Step c w')
    (hseeds : c.op.seeds = none) (haccepts : ∀ p ∈ c.op.accepts,
      ∀ q ∈ w.db.participants.rows, q.id = p → q.status ≠ .WAITLISTED)
    {x : EventRow} (hx : x ∈ w'.db.events.rows) :
    asked w'.db x ≤ x.capacity ∨
      ∃ ev ∈ w.db.events.rows, ev.id = x.id ∧ asked w'.db x ≤ asked w.db ev := by
  obtain ⟨k, hk, hmove⟩ := World.queue_step hanchored hstep hx
  cases hmove with
  | empty hasked => exact .inl (hasked ▸ capacity_nonneg hx)
  | kept hev hid _ hasked | queued hev hid _ _ hasked => exact .inr ⟨_, hev, hid, hasked.le⟩
  | edited hev _ hid _ hasked => exact .inr ⟨_, hev, hid, hasked.le⟩
  | admitted _ _ hcap hroom hasked =>
      left
      omega
  | taken _ _ _ hkind =>
      rcases taken_by hk hkind with hseed | ⟨p, hp, haccept, -, hst⟩
      · simp [hseeds] at hseed
      · exact absurd hst (haccepts _ haccept p hp rfl)
  | filled hev hid hcap hasked =>
      rcases le_max_iff.1 hasked with hle | hle
      · exact .inr ⟨_, hev, hid, hle⟩
      · exact .inl (hcap ▸ hle)

theorem Anchored.of_reached {guard : World → Call → Prop} {w : World}
    (h : World.Reached guard w) : Anchored w.db :=
  Reach.invariant (I := fun w : World => Anchored w.db) (fun _ => .initial)
    (fun _ _ _ hI _ hstep => hI.step hstep) h

theorem WithinCapacity.of_reached {w : World} (h : World.Reached AsksInside w) :
    WithinCapacity w.db := by
  refine Reach.invariant_of (J := fun w : World => Anchored w.db)
    (I := fun w : World => WithinCapacity w.db) (fun _ => .of_reached) ?_ ?_ h
  · intro w hw
    rw [hw.1]
    simp [WithinCapacity, Db.initial]
  · exact fun _ _ _ hI hJ _ hg hstep => hI.step hJ hstep hg

/-- In every run that accepts nobody off the list of a full event and cuts no capacity
    below what is asked, no host is asked about more guests than there are seats; and
    in any run, no step but such an acceptance raises the number above the seats. -/
theorem asked_within_capacity {w : World} (h : World.Reached (fun _ c => c.op.seeds = none) w) :
    (World.Reached AsksInside w → WithinCapacity w.db) ∧
    ∀ c w', w.Step c w' → c.op.seeds = none → (∀ p ∈ c.op.accepts,
      ∀ q ∈ w.db.participants.rows, q.id = p → q.status ≠ .WAITLISTED) →
      ∀ x ∈ w'.db.events.rows, asked w'.db x ≤ x.capacity ∨
        ∃ ev ∈ w.db.events.rows, ev.id = x.id ∧ asked w'.db x ≤ asked w.db ev :=
  ⟨.of_reached, fun _ _ hstep hseeds haccepts _ hx => asked_le (.of_reached h) hstep hseeds haccepts hx⟩

/-- Three requests for an event of `capacity` seats. -/
def crowdedCalls (capacity : Int) : List Call :=
  [callAt 0 (.moveCoins (onboardingReward 1 100)), callAt 0 (.moveCoins (onboardingReward 2 100)),
   callAt 0 (.moveCoins (onboardingReward 3 100)), callAt 0 (.moveCoins (onboardingReward 4 100)),
   callAt 0 (.moveCoins (onboardingReward 5 100)), callAt 1 (.create 1 (demoEvent 100 capacity) false 7),
   callAt 2 (.join 2 7 21), callAt 3 (.join 3 7 22), callAt 4 (.join 4 7 23)]

/-- Two of them are with the host, and a withdrawal keeps it so. -/
theorem asked_within_capacity_crowded : ∃ w w', World.play (crowdedCalls 2) = some w ∧
    WithinCapacity w.db ∧ w.Step (callAt 5 (.cancel 2 21 none)) w' ∧
    (∀ x ∈ w'.db.events.rows, asked w'.db x ≤ x.capacity ∨
      ∃ ev ∈ w.db.events.rows, ev.id = x.id ∧ asked w'.db x ≤ asked w.db ev) ∧
    w.db.events.rows.map (asked w.db) = [2] := by
  have hplay : (World.play (crowdedCalls 2)).any (fun w =>
      decide (w.db.events.rows.map (asked w.db) = [2]) &&
      (w.exec (callAt 5 (.cancel 2 21 none))).isSome) = true := by decide +kernel
  obtain ⟨w, hw, hend⟩ := World.exists_of_play hplay
  simp only [Bool.and_eq_true, decide_eq_true_eq, Option.isSome_iff_exists] at hend
  obtain ⟨hasked, w', hstep⟩ := hend
  have hreached : World.Reached AsksInside w :=
    World.reached_of_play (g := fun w c => decide (AsksInside w c))
      (fun _ _ h => of_decide_eq_true h) (by decide +kernel) hw
  obtain ⟨hwithin, hsteps⟩ := asked_within_capacity (hreached.mono fun _ _ hg => hg.1)
  exact ⟨w, w', hw, hwithin hreached, hstep, hsteps _ w' hstep rfl (by simp [callAt, Op.accepts]),
    hasked⟩

/-- The host accepts the guest who waits, or cuts the capacity of a larger event: three
    questions for two seats. -/
theorem asked_over_capacity :
    (¬ ∀ w, World.Reached (fun _ c => c.op.seeds = none ∧ c.op.edits = none) w →
      WithinCapacity w.db) ∧
    ¬ ∀ w, World.Reached (fun _ c => c.op.seeds = none ∧ c.op.accepts = none) w →
      WithinCapacity w.db := by
  constructor
  · intro h
    have hplay : (World.play (crowdedCalls 2 ++ [callAt 5 (.accept 1 23)])).any
        (fun w => !decide (WithinCapacity w.db)) = true := by decide +kernel
    obtain ⟨w, hw, hnot⟩ := World.exists_of_play hplay
    have hreached : World.Reached (fun _ c => c.op.seeds = none ∧ c.op.edits = none) w :=
      World.reached_of_play (g := fun _ c => decide (c.op.seeds = none ∧ c.op.edits = none))
        (fun _ _ h => of_decide_eq_true h) (by decide +kernel) hw
    simp [h w hreached] at hnot
  · intro h
    have hplay : (World.play (crowdedCalls 3 ++
        [callAt 5 (.update 1 7 { capacity := some 2 } none)])).any
        (fun w => !decide (WithinCapacity w.db)) = true := by decide +kernel
    obtain ⟨w, hw, hnot⟩ := World.exists_of_play hplay
    have hreached : World.Reached (fun _ c => c.op.seeds = none ∧ c.op.accepts = none) w :=
      World.reached_of_play (g := fun _ c => decide (c.op.seeds = none ∧ c.op.accepts = none))
        (fun _ _ h => of_decide_eq_true h) (by decide +kernel) hw
    simp [h w hreached] at hnot

/-! ## No idle slot, and no queue jumped -/

/-- The host has a question for every seat, or nobody waits. -/
def NoIdleSlot (s : Db) : Prop :=
  ∀ ev ∈ s.events.rows, ev.capacity ≤ asked s ev ∨ waiting s ev = 0

/-- The same with no question too many. -/
def ExactlyAsked (s : Db) : Prop :=
  ∀ ev ∈ s.events.rows, asked s ev = ev.capacity ∨ waiting s ev = 0

instance (s : Db) : Decidable (ExactlyAsked s) :=
  inferInstanceAs (Decidable (∀ ev ∈ s.events.rows, _))

/-- A request that `s'` has and `s` has not is put to the host only if nobody waits
    for the same event. -/
def NoQueueJump (s s' : Db) : Prop :=
  ∀ q ∈ s'.participants.rows, q.status = .PENDING → (∀ p ∈ s.participants.rows, p.id ≠ q.id) →
    ∀ p ∈ s.participants.rows, p.eventId = q.eventId → p.status ≠ .WAITLISTED

instance (s s' : Db) : Decidable (NoQueueJump s s') :=
  inferInstanceAs (Decidable (∀ q ∈ s'.participants.rows, _))

/-- No edit raises the capacity of an event above what its host is asked while
    somebody waits for it. -/
def EditsKeepFull (w : World) (c : Call) : Prop :=
  ∀ x ∈ c.op.edits, ∀ n ∈ x.2, ∀ ev ∈ w.db.events.rows, ev.id = x.1 →
    n ≤ asked w.db ev ∨ waiting w.db ev = 0

instance (w : World) (c : Call) : Decidable (EditsKeepFull w c) :=
  inferInstanceAs (Decidable (∀ x ∈ c.op.edits, _))

theorem NoIdleSlot.step {w w' : World} {c : Call} (h : NoIdleSlot w.db)
    (hanchored : Anchored w.db) (hstep : w.Step c w') (hguard : EditsKeepFull w c) :
    NoIdleSlot w'.db := by
  intro x hx
  obtain ⟨k, hk, hmove⟩ := World.queue_step hanchored hstep hx
  cases hmove with
  | empty _ hwaiting => exact .inr hwaiting
  | kept hev _ hcap hasked hwaiting =>
      have := h _ hev
      omega
  | @edited ev n hev hkind _ hcap hasked hwaiting =>
      rw [hasked, hcap, hwaiting]
      cases n with
      | none => exact h _ hev
      | some n =>
          rcases hk with rfl | hk
          · cases hkind
          · rw [hkind] at hk
            exact hguard _ (Op.edits_of_does hk) n rfl ev hev rfl
  | admitted hev _ hcap hroom hasked hwaiting =>
      -- there was room, so nobody waited
      have := h _ hev
      omega
  | queued hev _ hcap hfull hasked =>
      left
      omega
  | taken hev _ hcap _ hasked hwaiting =>
      have := h _ hev
      omega
  | filled hev _ hcap _ hidle => exact hidle.imp_left fun hle => hcap ▸ hle

/-- Where no slot is idle, a request that found room found nobody waiting. -/
theorem Change.noQueueJump {env : Env} {k : Kind} {s s' : Db} (h : Change env k s s')
    (hs : NoIdleSlot s) : NoQueueJump s s' := by
  intro q hq hst hnew p hp hpe
  rcases h.guest_origin hq with ⟨y, hy, hmove⟩ | hguest
  · exact absurd hmove.keeps.1.symm (hnew y hy)
  · cases hguest with
    | @request ev user newId hev _ _ =>
        have hroom : roomToAsk s ev = true := by
          by_contra hfull
          simp [requestRow, hfull] at hst
        rcases hs ev hev with hfull | hnone
        · simp only [roomToAsk, decide_eq_true_eq] at hroom
          simp only [asked] at hfull
          omega
        · exact waiting_eq_zero.1 hnone p hp hpe
    | seed => cases hst

theorem NoIdleSlot.of_reached {w : World} (h : World.Reached EditsKeepFull w) :
    NoIdleSlot w.db := by
  refine Reach.invariant_of (J := fun w : World => Anchored w.db)
    (I := fun w : World => NoIdleSlot w.db) (fun _ => .of_reached) ?_ ?_ h
  · intro w hw
    rw [hw.1]
    simp [NoIdleSlot, Db.initial]
  · exact fun _ _ _ hI hJ _ hg hstep => hI.step hJ hstep hg

/-- In every run whose edits raise no capacity over a waiting guest's head, no slot is
    idle while somebody waits and no request jumps the queue; and where no host is
    asked too much either, what is asked is exactly the capacity. -/
theorem no_idle_slot {w : World} (h : World.Reached EditsKeepFull w) :
    NoIdleSlot w.db ∧ (∀ c w', w.Step c w' → NoQueueJump w.db w'.db) ∧
    (World.Reached (fun w c => EditsKeepFull w c ∧ AsksInside w c) w → ExactlyAsked w.db) := by
  have hidle : NoIdleSlot w.db := .of_reached h
  refine ⟨hidle, fun c w' hstep => ?_, fun hboth ev hev => ?_⟩
  · rcases World.step_effect hstep with hc | ⟨k, -, hc⟩
    · exact hc.change.noQueueJump hidle
    · exact hc.change.noQueueJump hidle
  · have hwithin : WithinCapacity w.db := .of_reached (hboth.mono fun _ _ hg => hg.2)
    refine (hidle ev hev).imp_left fun hle => ?_
    exact le_antisymm (hwithin ev hev) hle

/-- The third of three guests waits for one of two seats. -/
theorem no_idle_slot_crowded : ∃ w w', World.play (crowdedCalls 2) = some w ∧ ExactlyAsked w.db ∧
    w.Step (callAt 5 (.join 5 7 24)) w' ∧ NoQueueJump w.db w'.db ∧
    w'.db.events.rows.map (waiting w'.db) = [2] := by
  have hplay : (World.play (crowdedCalls 2)).any (fun w =>
      (w.exec (callAt 5 (.join 5 7 24))).any fun w' =>
        decide (w'.db.events.rows.map (waiting w'.db) = [2])) = true := by decide +kernel
  obtain ⟨w, hw, hend⟩ := World.exists_of_play hplay
  simp only [Option.any_eq_true, decide_eq_true_eq] at hend
  obtain ⟨w', hstep, hwaiting⟩ := hend
  have hreached : World.Reached (fun w c => EditsKeepFull w c ∧ AsksInside w c) w :=
    World.reached_of_play (g := fun w c => decide (EditsKeepFull w c ∧ AsksInside w c))
      (fun _ _ h => of_decide_eq_true h) (by decide +kernel) hw
  obtain ⟨-, hjump, hexact⟩ := no_idle_slot (hreached.mono fun _ _ hg => hg.1)
  exact ⟨w, w', hw, hexact hreached, hstep, hjump _ w' hstep, hwaiting⟩

/-- Where one of two waiting guests is accepted, the host is asked more than the
    capacity; where the capacity is raised, the next request jumps the queue. -/
theorem idle_slot_and_queue_jump :
    (¬ ∀ w, World.Reached (fun _ c => c.op.seeds = none ∧ c.op.edits = none) w →
      ExactlyAsked w.db) ∧
    ¬ ∀ w w' c, World.Reached (fun _ c => c.op.seeds = none ∧ c.op.accepts = none) w →
      w.Step c w' → NoQueueJump w.db w'.db := by
  constructor
  · intro h
    have hplay : (World.play (crowdedCalls 2 ++ [callAt 5 (.join 5 7 24),
        callAt 6 (.accept 1 23)])).any (fun w => !decide (ExactlyAsked w.db)) = true := by
      decide +kernel
    obtain ⟨w, hw, hnot⟩ := World.exists_of_play hplay
    have hreached : World.Reached (fun _ c => c.op.seeds = none ∧ c.op.edits = none) w :=
      World.reached_of_play (g := fun _ c => decide (c.op.seeds = none ∧ c.op.edits = none))
        (fun _ _ h => of_decide_eq_true h) (by decide +kernel) hw
    simp [h w hreached] at hnot
  · intro h
    have hplay : (World.play (crowdedCalls 2 ++
        [callAt 5 (.update 1 7 { capacity := some 4 } none)])).any (fun w =>
        (w.exec (callAt 6 (.join 5 7 24))).any fun w' => !decide (NoQueueJump w.db w'.db)) =
        true := by decide +kernel
    obtain ⟨w, hw, hend⟩ := World.exists_of_play hplay
    obtain ⟨w', hstep, hnot⟩ := (Option.any_eq_true _ _).1 hend
    have hreached : World.Reached (fun _ c => c.op.seeds = none ∧ c.op.accepts = none) w :=
      World.reached_of_play (g := fun _ c => decide (c.op.seeds = none ∧ c.op.accepts = none))
        (fun _ _ h => of_decide_eq_true h) (by decide +kernel) hw
    simp [h w w' _ hreached hstep] at hnot

end Paayatam
