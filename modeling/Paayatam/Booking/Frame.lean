/-
  Paayatam.Booking.Frame

  What changes keep, and how they move counts.

  Events are never removed and, edits apart, keep their hours and their
  capacity; participations are never removed, never change event or user, and
  move between statuses only as `PARTICIPANT_TRANSITIONS` lets them.  The
  counting lemmas say how the number of guests in a set of statuses moves when
  one row is rewritten, inserted or promoted, so that an invariant about such
  a number is an equation between two of them.
-/

import Paayatam.Booking.World

namespace Paayatam

open Lib

/-! ## Counting guests -/

/-- One if the status is counted. -/
def weight (sts : List ParticipantStatus) (st : ParticipantStatus) : Int :=
  if sts.contains st then 1 else 0

theorem weight_of_not_mem {sts : List ParticipantStatus} {st : ParticipantStatus} (h : st ∉ sts) :
    weight sts st = 0 := by
  simp [weight, h]

theorem ite_isGuestOf (e : EventId) (sts : List ParticipantStatus) (p : ParticipantRow) :
    ((if isGuestOf e sts p = true then 1 else 0 : Nat) : Int) =
      if p.eventId = e then weight sts p.status else 0 := by
  by_cases he : p.eventId = e <;> by_cases hs : p.status ∈ sts <;>
    simp [isGuestOf, weight, he, hs]

section Counting

variable {t t' : Table ParticipantRow} {p : ParticipantRow} {f : ParticipantRow → ParticipantRow}
  (e : EventId) (sts : List ParticipantStatus)

/-- One row rewritten: the count moves by what the row's status weighs. -/
theorem guestCount_rewrites (h : t.Rewrites p f t') (hid : (f p).eventId = p.eventId) :
    (guestCount t' e sts : Int) = guestCount t e sts +
      if p.eventId = e then weight sts (f p).status - weight sts p.status else 0 := by
  have hcount := congrArg (Nat.cast (R := Int)) (h.countP (isGuestOf e sts))
  simp only [Nat.cast_add, ite_isGuestOf, hid] at hcount
  unfold guestCount
  split at hcount
  · next he => simp only [he, if_true]; omega
  · next he => simp only [he, if_false]; omega

/-- One row inserted. -/
theorem guestCount_insert (h : t'.rows = t.rows ++ [p]) :
    (guestCount t' e sts : Int) = guestCount t e sts +
      if p.eventId = e then weight sts p.status else 0 := by
  rw [guestCount, h, List.countP_append, List.countP_singleton, Nat.cast_add, ite_isGuestOf]
  rfl

/-- Promotions do not move a count that takes both their statuses or neither. -/
theorem guestCount_fill {now d : Instant} {e₀ : EventId} {n : Nat} (h : Fill now e₀ d n t t')
    (hsts : sts.contains .PENDING = sts.contains .WAITLISTED) :
    guestCount t' e sts = guestCount t e sts := by
  refine h.countP_eq fun q hq => ?_
  rw [waitsFor_iff] at hq
  simp only [isGuestOf, ParticipantRow.promoted, hq.2, hsts]
  rfl

/-- Promotions for one event move no count of another. -/
theorem guestCount_fill_other {now d : Instant} {e₀ : EventId} {n : Nat}
    (h : Fill now e₀ d n t t') (hne : e₀ ≠ e) : guestCount t' e sts = guestCount t e sts := by
  refine h.countP_eq fun q hq => ?_
  rw [waitsFor_iff] at hq
  simp [isGuestOf, ParticipantRow.promoted, hq.1, hne]

/-- A bulk update that keeps every row on its side. -/
theorem guestCount_rewritesAll {q : ParticipantRow → Bool} (h : t.RewritesAll q f t')
    (hside : ∀ r, q r = true → isGuestOf e sts (f r) = isGuestOf e sts r) :
    guestCount t' e sts = guestCount t e sts := by
  rw [guestCount, h.countP, guestCount]
  congr 1
  funext r
  by_cases hr : q r = true
  · simp [Table.updateIf, hr, hside r hr]
  · simp [Table.updateIf, hr]

end Counting

/-! ## Events -/

/-- What a change of kind `k` can do to one event. -/
inductive EventMove (env : Env) (s : Db) : Kind → EventRow → EventRow → Prop
  | same {k : Kind} {ev : EventRow} : EventMove env s k ev ev
  | requested {ev : EventRow} (hlive : ev.Live env.now) :
      EventMove env s (.request ev.id) ev ev.requested
  | seats {k : Kind} {ev : EventRow} {n : Int} : EventMove env s k ev (ev.addSeats n)
  | cancelled {ev : EventRow} (hstart : env.now < ev.startsAt)
      (hedge : canTransition EVENT_TRANSITIONS ev.status .CANCELLED_BY_HOST = true) :
      EventMove env s (.callOff ev.id) ev ev.cancelled
  | retired {ev : EventRow} {next : EventStatus}
      (hst : ev.status = .PUBLISHED ∨ ev.status = .ONGOING)
      (hnext : next = retiredStatus ev.status (guestCount s.participants ev.id [.ACCEPTED]) ev.endsAt
        env.now) : EventMove env s (.retire ev.id) ev (ev.retired next)
  | edited {ev : EventRow} {d : EventEdit} (hed : isEditable ev.status = true)
      (hout : ∀ o ∈ d.outcome, o.status = .PUBLISHED ∨ o.status = .PENDING_MODERATION) :
      EventMove env s (.edit ev.id d.capacity) ev (d.apply ev)
  | reviewed {ev : EventRow} {w : StatusWrite}
      (hedge : canTransition EVENT_TRANSITIONS ev.status w.status = true)
      (hw : w.status = .HIDDEN ∨ w.status = .PUBLISHED ∨ w.status = .REJECTED) :
      EventMove env s (.review ev.id) ev (w.apply ev)
  | stamped {ev : EventRow} (hnone : ev.hostAbsentAt = none) :
      EventMove env s (.stamp ev.id) ev (ev.hostAbsent env.now)

/-- An event keeps its id. -/
theorem EventMove.id {env : Env} {s : Db} {k : Kind} {ev ev' : EventRow}
    (h : EventMove env s k ev ev') : ev'.id = ev.id := by
  cases h <;> rfl

/-- Same event, same hours, same capacity. -/
structure SameEvening (ev ev' : EventRow) : Prop where
  id : ev'.id = ev.id
  startsAt : ev'.startsAt = ev.startsAt
  endsAt : ev'.endsAt = ev.endsAt
  capacity : ev'.capacity = ev.capacity

/-- Only an edit moves an event's hours or its capacity. -/
theorem EventMove.sameEvening {env : Env} {s : Db} {k : Kind} {ev ev' : EventRow}
    (h : EventMove env s k ev ev') (hk : ∀ e c, k ≠ .edit e c) : SameEvening ev ev' := by
  cases h with
  | edited => exact absurd rfl (hk _ _)
  | _ => exact ⟨rfl, rfl, rfl, rfl⟩

section Events

variable {env : Env} {k : Kind} {s s' : Db} {x : EventRow}

/-- The move a change makes on the event it rewrites, and the row it makes. -/
theorem Change.event_rewrite (h : Change env k s s') :
    s'.events = s.events ∨
    (∃ ev f, s.events.Rewrites ev f s'.events ∧ EventMove env s k ev (f ev)) ∨
    ∃ r : EventRow, k = .create r.id ∧ r.acceptedCount = 0 ∧ r.hostAbsentAt = none ∧
      (r.status = .PUBLISHED ∨ r.status = .PENDING_MODERATION) ∧
      s'.events.rows = s.events.rows ++ [r] := by
  cases h with
  | books he | pay he | close _ _ _ _ he | lapse _ _ _ _ he | withdrawRequest _ _ _ he
  | fill _ _ he | complete he | absent _ _ _ _ he | overturn _ _ he => exact .inl he
  | create hid hcount habs hst he =>
      exact .inr (.inr ⟨_, by rw [hid], hcount, habs, hst, he⟩)
  | request hlive he => exact .inr (.inl ⟨_, _, he, .requested hlive⟩)
  | seat _ _ _ he | seed _ he | withdrawSeat _ _ he => exact .inr (.inl ⟨_, _, he, .seats⟩)
  | callOff hstart hedge he => exact .inr (.inl ⟨_, _, he, .cancelled hstart hedge⟩)
  | retire hst _ hnext he => exact .inr (.inl ⟨_, _, he, .retired hst hnext⟩)
  | edit hed _ hout he => exact .inr (.inl ⟨_, _, he, .edited hed hout⟩)
  | review hedge hw he => exact .inr (.inl ⟨_, _, he, .reviewed hedge hw⟩)
  | stamp hnone he => exact .inr (.inl ⟨_, _, he, .stamped hnone⟩)

/-- Every event before a change is there after it, moved or not. -/
theorem Change.event_fate (h : Change env k s s') (hx : x ∈ s.events.rows) :
    ∃ x' ∈ s'.events.rows, EventMove env s k x x' := by
  rcases h.event_rewrite with he | ⟨ev, f, he, hmove⟩ | ⟨r, -, -, -, -, he⟩
  · exact ⟨x, he ▸ hx, .same⟩
  · by_cases hxe : x = ev
    · exact ⟨f ev, he.self, hxe ▸ hmove⟩
    · exact ⟨x, he.other hx hxe, .same⟩
  · exact ⟨x, by simp [he, hx], .same⟩

/-- Every event after a change is an old one that moved, or the one just created. -/
theorem Change.event_origin (h : Change env k s s') (hx : x ∈ s'.events.rows) :
    (∃ ev ∈ s.events.rows, EventMove env s k ev x) ∨
    (k = .create x.id ∧ x.acceptedCount = 0 ∧ x.hostAbsentAt = none ∧
      (x.status = .PUBLISHED ∨ x.status = .PENDING_MODERATION) ∧
      ∀ ev ∈ s.events.rows, ev.id ≠ x.id) := by
  rcases h.event_rewrite with he | ⟨ev, f, he, hmove⟩ | ⟨r, hk, hcount, habs, hst, he⟩
  · exact .inl ⟨x, he ▸ hx, .same⟩
  · rcases he.cases hx with rfl | ⟨hx, -⟩
    · exact .inl ⟨ev, he.mem, hmove⟩
    · exact .inl ⟨x, hx, .same⟩
  · have hnew := fun q hq => (Table.compatible_of_insert he (x := q) hq).1
    rw [he, List.mem_append, List.mem_singleton] at hx
    rcases hx with hx | rfl
    · exact .inl ⟨x, hx, .same⟩
    · exact .inr ⟨hk, hcount, habs, hst, hnew⟩

end Events

/-! ## Participations -/

/-- What a change of kind `k` can do to one participation. -/
inductive GuestMove (env : Env) (s : Db) : Kind → ParticipantRow → ParticipantRow → Prop
  | same {k : Kind} {p : ParticipantRow} : GuestMove env s k p p
  | seat {p : ParticipantRow} {grace : Nat} (hst : p.status = .PENDING ∨ p.status = .WAITLISTED) :
      GuestMove env s (.seat p.id) p (p.accepted env.now grace)
  | close {p p' : ParticipantRow} (hst : p.status = .PENDING ∨ p.status = .WAITLISTED)
      (hp' : p' = p.rejected env.now ∨ p' = p.expired) : GuestMove env s (.close p.id) p p'
  | lapse {p : ParticipantRow} (hst : p.status = .WAITLISTED) :
      GuestMove env s (.lapse p.id) p p.expired
  | withdraw {p : ParticipantRow} {bucket : Option CancellationBucket} {reason : Option String}
      {ledgerId : Option LedgerId}
      (hst : p.status = .PENDING ∨ p.status = .WAITLISTED ∨ p.status = .ACCEPTED) :
      GuestMove env s (.withdraw p.id) p (p.withdrawn env.now bucket reason ledgerId)
  | promote {k : Kind} {p : ParticipantRow} {ev : EventRow} (hst : p.status = .WAITLISTED)
      (hev : ev ∈ s.events.rows) (hid : ev.id = p.eventId)
      (hk : (∃ q, k = .close q) ∨ (∃ q, k = .withdraw q) ∨ (k = .fill ev.id ∧ ev.Live env.now)) :
      GuestMove env s k p (p.promoted env.now (promotionDeadline env ev))
  | complete {p : ParticipantRow} (hst : p.status = .ACCEPTED) :
      GuestMove env s (.complete p.eventId) p p.attendedNow
  | absent {p : ParticipantRow} {ev : EventRow} {ledgerId : Option LedgerId}
      (hst : p.status = .ACCEPTED) (hev : ev ∈ s.events.rows) (hid : ev.id = p.eventId)
      (hover : ev.endsAt ≤ env.now) :
      GuestMove env s (.absent p.id) p (p.markedAbsent ledgerId env.now)
  | overturn {p : ParticipantRow} (hst : p.status = .ACCEPTED ∨ p.status = .NO_SHOW)
      (hcase : ∃ c ∈ s.cases.rows, c.trigger = .DISPUTE ∧ c.subjectType = .PARTICIPATION ∧
        c.subjectId = p.id) : GuestMove env s (.overturn p.id) p p.attendedNow
  | release {p : ParticipantRow} (hst : p.status = .NO_SHOW) :
      GuestMove env s (.stamp p.eventId) p p.attendedNow
  | callOff {p : ParticipantRow} {reason : Option String}
      (hst : p.status ∈ LIVE_PARTICIPANT_STATUSES) :
      GuestMove env s (.callOff p.eventId) p (p.calledOff p.status env.now reason)

/-- A participation that a change of kind `k` created. -/
inductive NewGuest (env : Env) (s : Db) : Kind → ParticipantRow → Prop
  | request {ev : EventRow} {user : UserId} {newId : ParticipantId} (hev : ev ∈ s.events.rows)
      (hlive : ev.Live env.now) (hnew : ∀ p ∈ s.participants.rows, p.id ≠ newId) :
      NewGuest env s (.request ev.id) (requestRow env ev user newId (roomToAsk s ev))
  | seed {ev : EventRow} {user : UserId} {newId : ParticipantId} {grace : Nat}
      (hev : ev ∈ s.events.rows) (hnew : ∀ p ∈ s.participants.rows, p.id ≠ newId) :
      NewGuest env s (.seed ev.id) (seededRow env ev.id user newId grace)

/-- A request is put to the host, or waits. -/
theorem requestRow_status (env : Env) (ev : EventRow) (user : UserId) (newId : ParticipantId)
    (b : Bool) : (requestRow env ev user newId b).status = .PENDING ∨
      (requestRow env ev user newId b).status = .WAITLISTED := by
  cases b <;> simp [requestRow]

/-- A participation keeps its id, its event and its guest. -/
theorem GuestMove.keeps {env : Env} {s : Db} {k : Kind} {p p' : ParticipantRow}
    (h : GuestMove env s k p p') :
    p'.id = p.id ∧ p'.eventId = p.eventId ∧ p'.userId = p.userId := by
  cases h with
  | close hst hp' => rcases hp' with rfl | rfl <;> exact ⟨rfl, rfl, rfl⟩
  | _ => exact ⟨rfl, rfl, rfl⟩

/-- Every status change of a participation is an edge of its transition table. -/
theorem GuestMove.edge {env : Env} {s : Db} {k : Kind} {p p' : ParticipantRow}
    (h : GuestMove env s k p p') :
    p'.status = p.status ∨ canTransition PARTICIPANT_TRANSITIONS p.status p'.status = true := by
  cases h with
  | same => exact .inl rfl
  | close hst hp' =>
      right
      rcases hp' with rfl | rfl <;> rcases hst with hst | hst <;> rw [hst] <;> rfl
  | callOff hst =>
      right
      have hmem : p.status = .PENDING ∨ p.status = .WAITLISTED ∨ p.status = .ACCEPTED := by
        simpa [LIVE_PARTICIPANT_STATUSES] using hst
      change canTransition PARTICIPANT_TRANSITIONS p.status (cancelledStatus p.status) = true
      rcases hmem with hst | hst | hst <;> rw [hst] <;> rfl
  | seat hst | overturn hst _ =>
      right
      rcases hst with hst | hst <;> rw [hst] <;> rfl
  | withdraw hst =>
      right
      rcases hst with hst | hst | hst <;> rw [hst] <;> rfl
  | lapse hst | promote hst _ _ _ | complete hst | absent hst _ _ _ | release hst =>
      right
      rw [hst]
      rfl

/-- A new participation is live. -/
theorem NewGuest.live {env : Env} {s : Db} {k : Kind} {p : ParticipantRow}
    (h : NewGuest env s k p) : p.status ∈ LIVE_PARTICIPANT_STATUSES := by
  cases h with
  | @request ev user newId _ _ _ =>
      rcases requestRow_status env ev user newId (roomToAsk s ev) with hst | hst <;>
        simp [hst, LIVE_PARTICIPANT_STATUSES]
  | seed => simp [seededRow, LIVE_PARTICIPANT_STATUSES]

section Origin

variable {env : Env} {k : Kind} {s s' : Db}

/-- A promotion inside a change, as a move. -/
theorem promoted_move {ev : EventRow} {t t' : Table ParticipantRow} {x : ParticipantRow}
    (hfill : Promotes env ev t t') (hx : x ∈ t'.rows) :
    x ∈ t.rows ∨ ∃ p ∈ t.rows, p.eventId = ev.id ∧ p.status = .WAITLISTED ∧
      x = p.promoted env.now (promotionDeadline env ev) := by
  rcases Fill.origin hfill hx with hx | ⟨p, hp, hw, rfl⟩
  · exact .inl hx
  · obtain ⟨he, hst⟩ := waitsFor_iff.1 hw
    exact .inr ⟨p, hp, he, hst, rfl⟩

/-- The rows after a request was closed and its slot filled. -/
theorem closed_origin {ev : EventRow} {p x : ParticipantRow} {f : ParticipantRow → ParticipantRow}
    {t : Table ParticipantRow} (hev : ∃ ev₀ ∈ s.events.rows, ev₀.id = ev.id ∧
      promotionDeadline env ev₀ = promotionDeadline env ev)
    (hp : s.participants.Rewrites p f t) (hfill : Promotes env ev t s'.participants)
    (hmove : GuestMove env s k p (f p)) (hleft : (f p).status ≠ .WAITLISTED)
    (hk : (∃ q, k = .close q) ∨ ∃ q, k = .withdraw q) (hx : x ∈ s'.participants.rows) :
    ∃ y ∈ s.participants.rows, GuestMove env s k y x := by
  rcases promoted_move hfill hx with hx | ⟨q, hq, heq, hst, rfl⟩
  · rcases hp.cases hx with rfl | ⟨hx, -⟩
    · exact ⟨p, hp.mem, hmove⟩
    · exact ⟨x, hx, .same⟩
  · rcases hp.cases hq with rfl | ⟨hq, -⟩
    · exact absurd hst hleft
    · obtain ⟨ev₀, hev₀, hid₀, hdead⟩ := hev
      rw [← hdead]
      exact ⟨q, hq, .promote hst hev₀ (hid₀.trans heq.symm) (hk.imp_right .inl)⟩

/-- Every participation after a change is an old one that moved, or a new one. -/
theorem Change.guest_origin (h : Change env k s s') {x : ParticipantRow}
    (hx : x ∈ s'.participants.rows) :
    (∃ p ∈ s.participants.rows, GuestMove env s k p x) ∨ NewGuest env s k x := by
  have hsame : s'.participants = s.participants →
      (∃ p ∈ s.participants.rows, GuestMove env s k p x) ∨ NewGuest env s k x :=
    fun hp => .inl ⟨x, hp ▸ hx, .same⟩
  have hone : ∀ {p : ParticipantRow} {f : ParticipantRow → ParticipantRow},
      s.participants.Rewrites p f s'.participants → GuestMove env s k p (f p) →
      (∃ p ∈ s.participants.rows, GuestMove env s k p x) ∨ NewGuest env s k x := by
    intro p f hp hmove
    rcases hp.cases hx with rfl | ⟨hx, -⟩
    · exact .inl ⟨p, hp.mem, hmove⟩
    · exact .inl ⟨x, hx, .same⟩
  have hmany : ∀ {q : ParticipantRow → Bool} {f : ParticipantRow → ParticipantRow},
      s.participants.RewritesAll q f s'.participants →
      (∀ p, q p = true → GuestMove env s k p (f p)) →
      (∃ p ∈ s.participants.rows, GuestMove env s k p x) ∨ NewGuest env s k x := by
    intro q f hp hmove
    rcases hp.cases hx with ⟨p, hp, hq, rfl⟩ | ⟨hx, -⟩
    · exact .inl ⟨p, hp, hmove p hq⟩
    · exact .inl ⟨x, hx, .same⟩
  cases h with
  | books _ hp | pay _ hp | create _ _ _ _ _ hp | retire _ _ _ _ hp | edit _ _ _ _ hp
  | review _ _ _ hp => exact hsame hp
  | request hlive he hp =>
      have hnew := fun q hq => (Table.compatible_of_insert hp (x := q) hq).1
      rw [hp, List.mem_append, List.mem_singleton] at hx
      rcases hx with hx | rfl
      · exact .inl ⟨x, hx, .same⟩
      · exact .inr (.request he.mem hlive hnew)
  | seed _ he hp =>
      have hnew := fun q hq => (Table.compatible_of_insert hp (x := q) hq).1
      rw [hp, List.mem_append, List.mem_singleton] at hx
      rcases hx with hx | rfl
      · exact .inl ⟨x, hx, .same⟩
      · exact .inr (.seed he.mem hnew)
  | seat _ hst _ _ hp => exact hone hp (.seat hst)
  | @close ev p f _ _ t hev hid hst hf _ hp hfill =>
      refine .inl (closed_origin ⟨ev, hev, rfl, rfl⟩ hp hfill ?_ ?_ (.inl ⟨_, rfl⟩) hx)
      · rcases hf with rfl | rfl
        · exact .close hst (.inl rfl)
        · exact .close hst (.inr rfl)
      · rcases hf with rfl | rfl <;> simp [ParticipantRow.rejected, ParticipantRow.expired]
  | lapse _ _ hst _ _ hp => exact hone hp (.lapse hst)
  | @withdrawRequest ev p _ _ _ _ _ t hev hid hst _ hp hfill =>
      refine .inl (closed_origin ⟨ev, hev, rfl, rfl⟩ hp hfill (.withdraw ?_) ?_ (.inr ⟨_, rfl⟩) hx)
      · exact hst.imp_right .inl
      · simp [ParticipantRow.withdrawn]
  | @withdrawSeat ev p _ _ _ _ _ t hid hst he hp hfill =>
      have hev : ∃ ev₀ ∈ s.events.rows, ev₀.id = (ev.addSeats (-1)).id ∧
          promotionDeadline env ev₀ = promotionDeadline env (ev.addSeats (-1)) :=
        ⟨ev, he.mem, rfl, rfl⟩
      refine .inl (closed_origin hev hp hfill (.withdraw ?_) ?_ (.inr ⟨_, rfl⟩) hx)
      · exact .inr (.inr hst)
      · simp [ParticipantRow.withdrawn]
  | @fill ev _ _ hev hlive _ hfill =>
      rcases promoted_move hfill hx with hx | ⟨q, hq, heq, hst, rfl⟩
      · exact .inl ⟨x, hx, .same⟩
      · exact .inl ⟨q, hq, .promote hst hev heq.symm (.inr (.inr ⟨rfl, hlive⟩))⟩
  | complete _ hp =>
      refine hmany hp fun p hq => ?_
      obtain ⟨rfl, hst⟩ := isGuestOf_iff.1 hq
      exact .complete (by simpa using hst)
  | absent hev hid hst hover _ hp => exact hone hp (.absent hst hev hid hover)
  | overturn hst hcase _ hp => exact hone hp (.overturn hst hcase)
  | callOff _ _ _ hp =>
      refine hmany hp fun p hq => ?_
      obtain ⟨he, hst⟩ := isGuestOf_iff.1 hq
      rw [← he]
      exact .callOff hst
  | stamp _ _ hp =>
      refine hmany hp fun p hq => ?_
      obtain ⟨he, hst⟩ := isGuestOf_iff.1 hq
      rw [← he]
      exact .release (by simpa using hst)

/-- No change removes a participation. -/
theorem Change.guest_persists (h : Change env k s s') {p : ParticipantRow}
    (hp : p ∈ s.participants.rows) : ∃ x ∈ s'.participants.rows, x.id = p.id := by
  have hone : ∀ {q : ParticipantRow} {f : ParticipantRow → ParticipantRow}
      {t : Table ParticipantRow}, s.participants.Rewrites q f t → (f q).id = q.id →
      ∃ x ∈ t.rows, x.id = p.id := by
    intro q f t hq hid
    by_cases hpq : p = q
    · exact ⟨f q, hq.self, by rw [hid, hpq]⟩
    · exact ⟨p, hq.other hp hpq, rfl⟩
  have hmany : ∀ {q : ParticipantRow → Bool} {f : ParticipantRow → ParticipantRow},
      s.participants.RewritesAll q f s'.participants → (∀ p, (f p).id = p.id) →
      ∃ x ∈ s'.participants.rows, x.id = p.id := by
    intro q f hq hid
    cases hqp : q p with
    | true => exact ⟨f p, hq.self hp hqp, hid p⟩
    | false => exact ⟨p, hq.other hp hqp, rfl⟩
  have hfilled : ∀ {ev : EventRow} {t t' : Table ParticipantRow}, Promotes env ev t t' →
      (∃ x ∈ t.rows, x.id = p.id) → ∃ x ∈ t'.rows, x.id = p.id := by
    rintro ev t t' hfill ⟨x, hx, hid⟩
    rcases Fill.fate hfill hx with hx | ⟨-, hx⟩
    · exact ⟨x, hx, hid⟩
    · exact ⟨_, hx, hid⟩
  cases h with
  | books _ hq | pay _ hq | create _ _ _ _ _ hq | retire _ _ _ _ hq | edit _ _ _ _ hq
  | review _ _ _ hq => exact ⟨p, hq ▸ hp, rfl⟩
  | request _ _ hq | seed _ _ hq => exact ⟨p, by simp [hq, hp], rfl⟩
  | seat _ _ _ _ hq | lapse _ _ _ _ _ hq | absent _ _ _ _ _ hq | overturn _ _ _ hq =>
      exact hone hq rfl
  | close _ _ _ hf _ hq hfill =>
      refine hfilled hfill (hone hq ?_)
      rcases hf with rfl | rfl <;> rfl
  | withdrawRequest _ _ _ _ hq hfill | withdrawSeat _ _ _ hq hfill =>
      exact hfilled hfill (hone hq rfl)
  | fill _ _ _ hfill => exact hfilled hfill ⟨p, hp, rfl⟩
  | complete _ hq | callOff _ _ _ hq | stamp _ _ hq => exact hmany hq fun _ => rfl

/-- Every participation before a change is there after it, moved or not. -/
theorem Change.guest_fate (h : Change env k s s') {p : ParticipantRow}
    (hp : p ∈ s.participants.rows) : ∃ x ∈ s'.participants.rows, GuestMove env s k p x := by
  obtain ⟨x, hx, hid⟩ := h.guest_persists hp
  refine ⟨x, hx, ?_⟩
  rcases h.guest_origin hx with ⟨q, hq, hmove⟩ | hnew
  · obtain rfl : q = p := Table.eq_of_key hq hp (hmove.keeps.1.symm.trans hid)
    exact hmove
  · cases hnew with
    | request _ _ hnew | seed _ hnew => exact absurd hid.symm (hnew p hp)

end Origin

end Paayatam
