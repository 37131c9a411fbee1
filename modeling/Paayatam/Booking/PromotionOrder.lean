/-
  Paayatam.Booking.PromotionOrder

  One promotion pass, exactly.

  `fillFreedSeats` asks for the front of the queue anew in each round, from the
  rows the rounds before it left.  All rounds together serve a prefix of the
  queue as the pass found it, as long as the number of free slots or the whole
  queue, and touch no other participation.
-/

import Paayatam.Booking.EventOperations
import Paayatam.Lib.Front

namespace Paayatam

open Lib

/-! ## The queue -/

/-- Who waits for `e`, first come first. -/
def waitlist (t : Table ParticipantRow) (e : EventId) : List ParticipantRow :=
  inOrder queueKey (t.rows.filter (waitsFor e))

/-- The slots of `ev` that neither a seat nor an open request takes. -/
def freeSlots (db : Db) (ev : EventRow) : Nat :=
  (ev.capacity - ev.acceptedCount - guestCount db.participants ev.id [.PENDING]).toNat

section Queue

variable {t t₁ : Table ParticipantRow} {e : EventId} {p q : ParticipantRow} {now d : Instant}

theorem mem_waitlist : p ∈ waitlist t e ↔ p ∈ t.rows ∧ waitsFor e p = true := by
  rw [waitlist, mem_inOrder, List.mem_filter]

theorem length_waitlist : (waitlist t e).length = t.rows.countP (waitsFor e) := by
  rw [waitlist, length_inOrder, List.countP_eq_length_filter]

/-- Ids break the ties of the queue. -/
theorem queueKey_inj (h : queueKey p = queueKey q) : p.id = q.id :=
  congrArg (fun k : ℤ ×ₗ ℕ => (ofLex k).2) h

theorem waitlist_keysDiffer (t : Table ParticipantRow) (e : EventId) :
    KeysDiffer queueKey (t.rows.filter (waitsFor e)) := by
  intro p hp q hq hpq
  exact Table.eq_of_key (List.mem_of_mem_filter hp) (List.mem_of_mem_filter hq) (queueKey_inj hpq)

theorem waitsFor_promoted : waitsFor e (p.promoted now d) = false := by
  simp [waitsFor, ParticipantRow.promoted]

/-- A promotion takes one row out of the queue. -/
theorem filter_waitsFor_promoted (h : t.Rewrites p (ParticipantRow.promoted now d) t₁)
    (hp : waitsFor e p = true) :
    (t.rows.filter (waitsFor e)).Perm (p :: t₁.rows.filter (waitsFor e)) := by
  have hout : p ∉ t₁.rows.filter (waitsFor e) := by
    intro hmem
    rcases h.cases (List.mem_of_mem_filter hmem) with hself | ⟨-, hne⟩
    · have hwaits : waitsFor e (p.promoted now d) = true := by rw [← hself]; exact hp
      rw [waitsFor_promoted] at hwaits
      cases hwaits
    · exact hne rfl
  refine (List.perm_ext_iff_of_nodup ((nodup_rows t).filter _)
    (List.nodup_cons.2 ⟨hout, (nodup_rows t₁).filter _⟩)).2 fun q => ?_
  simp only [List.mem_cons, List.mem_filter]
  constructor
  · rintro ⟨hq, hw⟩
    by_cases hqp : q = p
    · exact .inl hqp
    · exact .inr ⟨h.other hq hqp, hw⟩
  · rintro (rfl | ⟨hq, hw⟩)
    · exact ⟨h.mem, hp⟩
    · rcases h.cases hq with rfl | ⟨hq, -⟩
      · rw [waitsFor_promoted] at hw
        cases hw
      · exact ⟨hq, hw⟩

/-- The queue after its front is promoted is the rest of it. -/
theorem waitlist_promoted (h : t.Rewrites p (ParticipantRow.promoted now d) t₁)
    (hp : waitsFor e p = true)
    (hfirst : ∀ q ∈ t.rows, waitsFor e q = true → queueKey p ≤ queueKey q) :
    waitlist t e = p :: waitlist t₁ e := by
  have hperm := filter_waitsFor_promoted h hp
  refine inOrder_eq_cons (waitlist_keysDiffer t e) hperm fun q hq => ?_
  have hq' : q ∈ t.rows.filter (waitsFor e) := hperm.mem_iff.2 (List.mem_cons_of_mem p hq)
  exact hfirst q (List.mem_of_mem_filter hq') (List.mem_filter.1 hq').2

end Queue

/-! ## Rounds -/

/-- The rows after the guests of `served` were promoted. -/
def afterPromoting (served : List ParticipantRow) (now d : Instant) (t : Table ParticipantRow) :
    List ParticipantRow :=
  t.rows.map fun p => if p ∈ served then p.promoted now d else p

section Rounds

variable {env : Env} {ev : EventRow} {d : Instant} {s s' : Db} {p : ParticipantRow}

/-- A waiting row passes the checks of its table when it is promoted. -/
theorem promoted_check (hp : Row.check p = true) (hwaits : p.status = .WAITLISTED)
    (now : Instant) : Row.check (p.promoted now d) = true := by
  simp only [Row.check, ParticipantRow.constraints, hwaits] at hp
  simp only [Row.check, ParticipantRow.constraints, ParticipantRow.promoted]
  simp_all

/-- The front of the queue is there to be promoted. -/
theorem promoteFront_succeeds (env : Env) (d : Instant) (hp : p ∈ s.participants.rows)
    (hw : waitsFor ev.id p = true) :
    Succeeds (updateRow p.id (ParticipantRow.promoted env.now d) : Act Unit) s :=
  succeeds_updateRow (Table.find?_of_mem hp) rfl
    (promoted_check (s.participants.valid p hp) (waitsFor_iff.1 hw).2 env.now) fun _ => rfl

theorem afterPromoting_cons {t t₁ : Table ParticipantRow} {served : List ParticipantRow}
    {now : Instant} (h : t.Rewrites p (ParticipantRow.promoted now d) t₁)
    (hserved : ∀ q ∈ served, q.status = .WAITLISTED) :
    afterPromoting served now d t₁ = afterPromoting (p :: served) now d t := by
  unfold afterPromoting
  rw [h.rows, List.map_map]
  refine List.map_congr_left fun x hx => ?_
  by_cases hxp : x = p
  · have hout : p.promoted now d ∉ served := fun hmem => by
      have hwaits := hserved _ hmem
      cases hwaits
    subst hxp
    simp [Table.updateAt, hout]
  · simp [Table.updateAt_other (h.key_ne hx hxp), hxp]

/-- One round after the other serves the front of the queue as it stood. -/
theorem promoteNext_serves (env : Env) (ev : EventRow) (d : Instant) : ∀ (n : Nat) (s : Db), ∃ s',
    Runs (promoteNext env ev d n) s (((waitlist s.participants ev.id).take n).map (·.id)) s' ∧
      s'.participants.rows =
        afterPromoting ((waitlist s.participants ev.id).take n) env.now d s.participants := by
  intro n
  induction n with
  | zero =>
      intro s
      exact ⟨s, by simp [promoteNext], by simp [afterPromoting]⟩
  | succ n ih =>
      intro s
      simp only [promoteNext, runs_findRows_bind, table_participants]
      cases hmin : (s.participants.rows.filter (waitsFor ev.id)).argmin queueKey with
      | none =>
          rw [List.argmin_eq_none] at hmin
          have hempty : waitlist s.participants ev.id = [] := by rw [waitlist, hmin]; rfl
          exact ⟨s, by simp [hempty], by simp [hempty, afterPromoting]⟩
      | some p =>
          obtain ⟨hp, hw⟩ := List.mem_filter.1 (List.argmin_mem hmin)
          have hwaits := (waitsFor_iff.1 hw).2
          obtain ⟨_, s₁, hupdate⟩ := promoteFront_succeeds env d hp hw
          obtain ⟨x, hx, t₁, ht, rfl⟩ := runs_updateRow.1 hupdate
          obtain rfl : x = p := find?_self (Table.find?_of_mem hp) hx
          have hqueue : waitlist s.participants ev.id = x :: waitlist t₁ ev.id :=
            waitlist_promoted ht hw fun q hq hwq =>
              List.le_of_mem_argmin (List.mem_filter.2 ⟨hq, hwq⟩) hmin
          obtain ⟨s', hrest, hrows⟩ := ih { s with
            participants := t₁
            outbox := s.outbox ++
              [.waitlist_promoted x.id ev.id ev.hostUserId x.userId d] }
          refine ⟨s', ?_, ?_⟩
          · simp only [runs_assertParticipantTransition_bind, runs_updateRow_bind, runs_emit_bind,
              table_participants, setTable_participants]
            refine ⟨by rw [hwaits]; decide, x, hx, t₁, ht, runs_bind.2 ⟨_, s', hrest, ?_⟩⟩
            rw [hqueue, List.take_succ_cons, List.map_cons, runs_pure]
            exact ⟨rfl, rfl⟩
          · rw [hrows, hqueue, List.take_succ_cons]
            refine afterPromoting_cons ht fun q hq => ?_
            exact (waitsFor_iff.1 (mem_waitlist.1 (List.mem_of_mem_take hq)).2).2

end Rounds

/-! ## A pass -/

/-- `waitlistRank` counts who stands before. -/
theorem runs_waitlistRank {s s' : Db} {p : ParticipantRow} {k : Nat} :
    Runs (waitlistRank p) s k s' ↔ s' = s ∧
      k = (s.participants.rows.filter (waitsFor p.eventId)).countP
        (fun q => decide (queueKey q < queueKey p)) + 1 := by
  have hahead : s.participants.rows.countP (fun q : ParticipantRow =>
      decide (q.eventId = p.eventId) && decide (q.status = .WAITLISTED) &&
        (decide (q.requestedAt < p.requestedAt) ||
          (decide (q.requestedAt = p.requestedAt) && decide (q.id < p.id)))) =
      (s.participants.rows.filter (waitsFor p.eventId)).countP
        (fun q => decide (queueKey q < queueKey p)) := by
    rw [List.countP_filter]
    refine List.countP_congr fun q _ => ?_
    have hbefore : queueKey q < queueKey p ↔
        q.requestedAt < p.requestedAt ∨ q.requestedAt = p.requestedAt ∧ q.id < p.id :=
      Prod.Lex.toLex_lt_toLex
    simp only [waitsFor, hbefore, Bool.and_eq_true, Bool.or_eq_true, decide_eq_true_eq]
    tauto
  simp only [waitlistRank, runs_countRows_bind, table_participants, runs_pure, hahead]
  tauto

/-- What one pass over `ev` does: `ids` are the guests it promotes. -/
structure FilledInOrder (env : Env) (ev : EventRow) (s : Db) (ids : List ParticipantId)
    (s' : Db) : Prop where
  count : ids.length =
    min (freeSlots s ev) (s.participants.rows.countP (waitsFor ev.id))
  order : ids = ((waitlist s.participants ev.id).take (freeSlots s ev)).map (·.id)
  first : ∀ p ∈ s.participants.rows, ∀ q ∈ s.participants.rows, p.id ∈ ids →
    waitsFor ev.id q = true → q.id ∉ ids → queueKey p < queueKey q
  rows : s'.participants.rows = s.participants.rows.map fun p =>
    if p.id ∈ ids then p.promoted env.now (promotionDeadline env ev) else p
  exhausted : ev.capacity ≤ ev.acceptedCount + guestCount s'.participants ev.id [.PENDING] ∨
    ∀ q ∈ s'.participants.rows, waitsFor ev.id q = false
  rank : ∀ p ∈ s.participants.rows, p.id ∈ ids →
    ∃ k, Runs (waitlistRank p) s k s ∧ k ≤ ids.length
  others : QueueOnly s s'

section Pass

variable {env : Env} {ev : EventRow} {s : Db} {p : ParticipantRow} {n : Nat}

/-- A row of the table is served when its id is among those served. -/
theorem mem_served (hp : p ∈ s.participants.rows) :
    p.id ∈ ((waitlist s.participants ev.id).take n).map (·.id) ↔
      p ∈ (waitlist s.participants ev.id).take n := by
  constructor
  · intro hid
    obtain ⟨q, hq, hqp⟩ := List.mem_map.1 hid
    have hsame : q = p := Table.eq_of_key (mem_waitlist.1 (List.mem_of_mem_take hq)).1 hp hqp
    rw [← hsame]
    exact hq
  · intro hmem
    exact List.mem_map.2 ⟨p, hmem, rfl⟩

/-- Whatever the database holds and whichever row of the event it was handed, a pass
    commits, and promotes the first of the queue into the free slots. -/
theorem freed_seats_filled_in_order (env : Env) (ev : EventRow) (s : Db) :
    ∃ ids s', Runs (fillFreedSeats env ev) s ids s' ∧ FilledInOrder env ev s ids s' := by
  obtain ⟨s', hruns, hrows⟩ :=
    promoteNext_serves env ev (promotionDeadline env ev) (freeSlots s ev) s
  have hpass : Runs (fillFreedSeats env ev) s
      (((waitlist s.participants ev.id).take (freeSlots s ev)).map (·.id)) s' := by
    simp only [fillFreedSeats, runs_countRows_bind, table_participants, countP_holdsSlot]
    exact hruns
  obtain ⟨hpromotes, hothers⟩ := fillFreedSeats_promotes hpass
  refine ⟨_, s', hpass, ?_, rfl, fun p hp q hq hserved hw hnot => ?_, ?_, hpromotes.exhausts,
    fun p hp hserved => ?_, hothers⟩
  · rw [List.length_map, List.length_take, length_waitlist]
  · have hqw : q ∈ s.participants.rows.filter (waitsFor ev.id) := List.mem_filter.2 ⟨hq, hw⟩
    rw [mem_served hp] at hserved
    rw [mem_served hq] at hnot
    refine lt_of_le_of_ne (le_of_served hserved hqw hnot) fun heq => hnot ?_
    rw [← Table.eq_of_key hp hq (queueKey_inj heq)]
    exact hserved
  · rw [hrows]
    refine List.map_congr_left fun p hp => ?_
    simp only [mem_served hp]
  · rw [mem_served hp] at hserved
    have hevent := (waitsFor_iff.1 (mem_waitlist.1 (List.mem_of_mem_take hserved)).2).1
    have hbefore := countP_before_served hserved
    refine ⟨_, runs_waitlistRank.2 ⟨rfl, rfl⟩, ?_⟩
    rw [List.length_map, hevent]
    exact hbefore

end Pass

end Paayatam
