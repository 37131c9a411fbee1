/-
  Paayatam.Booking.Change

  What one committed operation does to events, participations and the coin
  ledger, said once.

  `Change env k s s'` has one constructor for each thing an operation can do,
  and states everything the invariants of this development ask: which rows
  were rewritten and how, what guarded the step, which ledger rows may have
  been added, and which charges were given back.  The specifications in
  `Booking.Operations` reduce every service function to one `Change`; every
  invariant is then a case analysis on `Change` and never unfolds a service.

  `Fill` is the waiting list's part: the rounds of promotion that
  `fillFreedSeats` runs, as a relation between two participation tables.
-/

import Paayatam.Events.HostReward
import Paayatam.Moderation.EventReview

namespace Paayatam

open Lib

/-! ## Reading the tables -/

/-- The event will take place: published, not deleted, not started. -/
def EventRow.Live (ev : EventRow) (now : Instant) : Prop :=
  ev.deletedAt = none ∧ ev.status = .PUBLISHED ∧ now < ev.startsAt

instance (ev : EventRow) (now : Instant) : Decidable (ev.Live now) :=
  inferInstanceAs (Decidable (_ ∧ _))

/-- A participation of `e` whose status is one of `sts`. -/
def isGuestOf (e : EventId) (sts : List ParticipantStatus) (p : ParticipantRow) : Bool :=
  decide (p.eventId = e) && sts.contains p.status

/-- The participations of `e` whose status is one of `sts`, counted. -/
def guestCount (t : Table ParticipantRow) (e : EventId) (sts : List ParticipantStatus) : Nat :=
  t.rows.countP (isGuestOf e sts)

theorem isGuestOf_iff {e : EventId} {sts : List ParticipantStatus} {p : ParticipantRow} :
    isGuestOf e sts p = true ↔ p.eventId = e ∧ p.status ∈ sts := by
  simp [isGuestOf]

theorem isGuestOf_singleton (e : EventId) (st : ParticipantStatus) :
    isGuestOf e [st] = fun p => decide (p.eventId = e) && decide (p.status = st) := by
  funext p
  simp [isGuestOf]

theorem isGuestOf_eq_false {e : EventId} {sts : List ParticipantStatus} {p : ParticipantRow} :
    isGuestOf e sts p = false ↔ (p.eventId = e → p.status ∉ sts) := by
  simp [isGuestOf]

theorem waitsFor_iff {e : EventId} {p : ParticipantRow} :
    waitsFor e p = true ↔ p.eventId = e ∧ p.status = .WAITLISTED := by
  simp [waitsFor]

/-- What the code counts as outstanding is the PENDING guests. -/
theorem countP_holdsSlot (t : Table ParticipantRow) (e : EventId) :
    (t.rows.countP fun p => decide (p.eventId = e) && holdsSlot p.status) =
      guestCount t e [.PENDING] := by
  rfl

theorem guestCount_eq_zero {t : Table ParticipantRow} {e : EventId} {sts : List ParticipantStatus} :
    guestCount t e sts = 0 ↔ ∀ p ∈ t.rows, p.eventId = e → p.status ∉ sts := by
  simp only [guestCount, List.countP_eq_zero, isGuestOf_iff, not_and]

/-! ## The waiting list -/

/-- `n` rounds of promotion for the event `e`, with host deadline `d`: each moves
    the first of the queue, until the rounds or the queue run out. -/
inductive Fill (now : Instant) (e : EventId) (d : Instant) :
    Nat → Table ParticipantRow → Table ParticipantRow → Prop
  | full {t : Table ParticipantRow} : Fill now e d 0 t t
  | idle {n : Nat} {t : Table ParticipantRow} (h : ∀ q ∈ t.rows, waitsFor e q = false) :
      Fill now e d (n + 1) t t
  | promote {n : Nat} {t t₁ t' : Table ParticipantRow} {p : ParticipantRow}
      (hw : waitsFor e p = true)
      (hfirst : ∀ q ∈ t.rows, waitsFor e q = true → queueKey p ≤ queueKey q)
      (h₁ : t.Rewrites p (ParticipantRow.promoted now d) t₁) (h : Fill now e d n t₁ t') :
      Fill now e d (n + 1) t t'

/-- The host deadline a promotion sets. -/
def promotionDeadline (env : Env) (ev : EventRow) : Instant :=
  hostDeadline env.now ev.startsAt env.settings.waitlist_promotion_deadline_hours
    env.settings.waitlist_min_hours_before_event env.settings.participation_min_response_minutes

/-- The queue of `ev` was moved up into the slots that are free by `ev`'s own
    counter. -/
def Promotes (env : Env) (ev : EventRow) (t t' : Table ParticipantRow) : Prop :=
  Fill env.now ev.id (promotionDeadline env ev)
    (ev.capacity - ev.acceptedCount - guestCount t ev.id [.PENDING]).toNat t t'

namespace Fill

variable {now d : Instant} {e : EventId} {n : Nat} {t t' : Table ParticipantRow}

/-- Every row after the fill was there before, or is a promoted one. -/
theorem origin (h : Fill now e d n t t') {x : ParticipantRow} (hx : x ∈ t'.rows) :
    x ∈ t.rows ∨ ∃ p ∈ t.rows, waitsFor e p = true ∧ x = p.promoted now d := by
  induction h with
  | full => exact .inl hx
  | idle _ => exact .inl hx
  | @promote _ t t₁ _ p hw _ h₁ _ ih =>
      rcases ih hx with hx₁ | ⟨q, hq, hwq, rfl⟩
      · rcases h₁.cases hx₁ with rfl | ⟨hx₀, -⟩
        · exact .inr ⟨p, h₁.mem, hw, rfl⟩
        · exact .inl hx₀
      · rcases h₁.cases hq with rfl | ⟨hq₀, -⟩
        · -- a promoted guest no longer waits
          simp [waitsFor, ParticipantRow.promoted] at hwq
        · exact .inr ⟨q, hq₀, hwq, rfl⟩

/-- Every row before the fill is there after it, or was promoted. -/
theorem fate (h : Fill now e d n t t') {x : ParticipantRow} (hx : x ∈ t.rows) :
    x ∈ t'.rows ∨ (waitsFor e x = true ∧ x.promoted now d ∈ t'.rows) := by
  induction h generalizing x with
  | full => exact .inl hx
  | idle _ => exact .inl hx
  | @promote _ t t₁ _ p hw _ h₁ _ ih =>
      by_cases hxp : x = p
      · subst hxp
        rcases ih h₁.self with h' | ⟨h', -⟩
        · exact .inr ⟨hw, h'⟩
        · simp [waitsFor, ParticipantRow.promoted] at h'
      · exact ih (h₁.other hx hxp)

/-- A fill changes no count that takes a waiting guest and a promoted one alike. -/
theorem countP_eq (h : Fill now e d n t t') {P : ParticipantRow → Bool}
    (hP : ∀ p, waitsFor e p = true → P (p.promoted now d) = P p) :
    t'.rows.countP P = t.rows.countP P := by
  induction h with
  | full => rfl
  | idle _ => rfl
  | promote hw _ h₁ _ ih => rw [ih, h₁.countP_eq (hP _ hw)]

/-- After `n` rounds there are `n` more requests to answer, or nobody waits. -/
theorem pending (h : Fill now e d n t t') :
    guestCount t' e [.PENDING] ≤ guestCount t e [.PENDING] + n ∧
      (guestCount t' e [.PENDING] = guestCount t e [.PENDING] + n ∨
        ∀ q ∈ t'.rows, waitsFor e q = false) := by
  induction h with
  | full => exact ⟨le_rfl, .inl rfl⟩
  | idle hnone => exact ⟨by omega, .inr hnone⟩
  | @promote n t t₁ t' p hw _ h₁ _ ih =>
      have hcount := h₁.countP (isGuestOf e [.PENDING])
      rw [waitsFor_iff] at hw
      have hbefore : isGuestOf e [.PENDING] p = false := by simp [isGuestOf, hw.2]
      have hafter : isGuestOf e [.PENDING] (p.promoted now d) = true := by
        simp [isGuestOf, ParticipantRow.promoted, hw.1]
      simp only [hbefore, hafter] at hcount
      have hstep : guestCount t₁ e [.PENDING] = guestCount t e [.PENDING] + 1 := by
        simpa [guestCount] using hcount
      rw [hstep] at ih
      refine ⟨by omega, ih.2.imp_left fun h => ?_⟩
      omega

end Fill

/-- What is left of the queue after a promotion pass: the host has at least
    `capacity` things to answer, or nobody waits. -/
theorem Promotes.exhausts {env : Env} {ev : EventRow} {t t' : Table ParticipantRow}
    (h : Promotes env ev t t') :
    ev.capacity ≤ ev.acceptedCount + guestCount t' ev.id [.PENDING] ∨
      ∀ q ∈ t'.rows, waitsFor ev.id q = false := by
  rcases (Fill.pending h).2 with hn | hnone
  · left
    omega
  · exact .inr hnone

/-! ## Ledger rows by what wrote them -/

/-- A row that neither pays for a request nor pays a host. -/
def Ordinary (r : CoinLedgerRow) : Prop :=
  r.type ≠ .EVENT_JOIN_SPEND ∧
    ∀ e, r.idempotencyKey ≠ .hostDepositRefund e ∧ r.idempotencyKey ≠ .hostReward e

/-- A deposit refund or a bonus of the host of `e`. -/
def HostPayment (e : EventId) (r : CoinLedgerRow) : Prop :=
  r.idempotencyKey = .hostDepositRefund e ∨ r.idempotencyKey = .hostReward e

/-- The row that pays for the participation `p`. -/
def JoinCharge (p : ParticipantId) (r : CoinLedgerRow) : Prop :=
  r.type = .EVENT_JOIN_SPEND ∧ r.ref = some (.event_participant p)

instance (p : ParticipantId) (r : CoinLedgerRow) : Decidable (JoinCharge p r) :=
  inferInstanceAs (Decidable (_ ∧ _))

instance (e : EventId) (r : CoinLedgerRow) : Decidable (HostPayment e r) :=
  inferInstanceAs (Decidable (_ ∨ _))

theorem IsReversal.ordinary {r : CoinLedgerRow} (h : IsReversal r) : Ordinary r := by
  obtain ⟨l, ht, hk⟩ := h
  exact ⟨by simp [ht], fun e => by simp [hk]⟩

theorem IsPenalty.not_join {r : CoinLedgerRow} (h : IsPenalty r) : r.type ≠ .EVENT_JOIN_SPEND := by
  rcases h with h | h <;> simp [h]

/-- Every charge for the participation `p` has been reversed. -/
def Db.Refunded (db : Db) (p : ParticipantId) : Prop :=
  ∀ r ∈ db.coinLedger.rows, JoinCharge p r → db.isReversed r.id = true

/-- Every charge for a participation takes coins. -/
def Db.JoinDebits (db : Db) : Prop :=
  ∀ r ∈ db.coinLedger.rows, r.type = .EVENT_JOIN_SPEND → r.amount < 0

/-- No payment to the host of `e` stands. -/
def Db.HostUnpaid (db : Db) (e : EventId) : Prop :=
  ∀ r ∈ db.coinLedger.rows, HostPayment e r → db.isReversed r.id = true

/-- Refunded stays refunded while nothing is charged for the participation. -/
theorem Db.Refunded.grow {s s' : Db} {p : ParticipantId} {P : CoinLedgerRow → Prop}
    (h : s.Refunded p) (hl : LedgerGrows P s s') (hP : ∀ r, P r → ¬ JoinCharge p r) :
    s'.Refunded p := by
  intro r hr hj
  rcases hl.mem_or_new hr with hold | hnew
  · exact hl.isReversed (h r hold hj)
  · exact absurd hj (hP r hnew)

theorem Db.JoinDebits.grow {s s' : Db} {P : CoinLedgerRow → Prop} (h : s.JoinDebits)
    (hl : LedgerGrows P s s') (hP : ∀ r, P r → r.type = .EVENT_JOIN_SPEND → r.amount < 0) :
    s'.JoinDebits := by
  intro r hr ht
  rcases hl.mem_or_new hr with hold | hnew
  · exact h r hold ht
  · exact hP r hnew ht

theorem Db.HostUnpaid.grow {s s' : Db} {e : EventId} {P : CoinLedgerRow → Prop}
    (h : s.HostUnpaid e) (hl : LedgerGrows P s s') (hP : ∀ r, P r → ¬ HostPayment e r) :
    s'.HostUnpaid e := by
  intro r hr hj
  rcases hl.mem_or_new hr with hold | hnew
  · exact hl.isReversed (h r hold hj)
  · exact absurd hj (hP r hnew)

theorem Ordinary.not_joinCharge {r : CoinLedgerRow} (h : Ordinary r) (p : ParticipantId) :
    ¬ JoinCharge p r :=
  fun hj => h.1 hj.1

theorem Ordinary.not_hostPayment {r : CoinLedgerRow} (h : Ordinary r) (e : EventId) :
    ¬ HostPayment e r :=
  fun hj => hj.elim (h.2 e).1 (h.2 e).2

/-! ## Changes -/

/-- What an operation does, and to which row. -/
inductive Kind where
  | books
  | pay (e : EventId)
  | create (e : EventId)
  | request (e : EventId)
  | seat (p : ParticipantId)
  | seed (e : EventId)
  | close (p : ParticipantId)
  | lapse (p : ParticipantId)
  | withdraw (p : ParticipantId)
  | fill (e : EventId)
  | complete (e : EventId)
  | absent (p : ParticipantId)
  | overturn (p : ParticipantId)
  | callOff (e : EventId)
  | retire (e : EventId)
  | edit (e : EventId) (capacity : Option Int)
  | review (e : EventId)
  | stamp (e : EventId)

/-- One more seat taken, or one given back. -/
def EventRow.addSeats (n : Int) (e : EventRow) : EventRow :=
  { e with acceptedCount := e.acceptedCount + n }

/-- The update a request writes on its event. -/
def EventRow.requested (e : EventRow) : EventRow := { e with requestCount := e.requestCount + 1 }

/-- The update `retireOne` writes. -/
def EventRow.retired (next : EventStatus) (e : EventRow) : EventRow :=
  { e with status := next, version := e.version + 1 }

/-- The update `cancelByHost` writes. -/
def EventRow.cancelled (e : EventRow) : EventRow :=
  { e with status := .CANCELLED_BY_HOST, acceptedCount := 0, version := e.version + 1 }

/-- The update an upheld host absence writes. -/
def EventRow.hostAbsent (now : Instant) (e : EventRow) : EventRow :=
  { e with hostAbsentAt := some now }

/-- The host has room to be asked about one more guest. -/
def roomToAsk (s : Db) (ev : EventRow) : Bool :=
  decide (ev.acceptedCount + guestCount s.participants ev.id [.PENDING] < ev.capacity)

/-- The committed effect of one operation under `env`. -/
inductive Change (env : Env) : Kind → Db → Db → Prop
  | books {s s' : Db} (he : s'.events = s.events) (hp : s'.participants = s.participants)
      (hl : LedgerGrows Ordinary s s') : Change env .books s s'
  | pay {e : EventId} {s s' : Db} (he : s'.events = s.events)
      (hp : s'.participants = s.participants)
      (hl : LedgerGrows (fun r => HostPayment e r ∧ r.type ≠ .EVENT_JOIN_SPEND) s s') :
      Change env (.pay e) s s'
  | create {e : EventId} {r : EventRow} {s s' : Db} (hid : r.id = e)
      (hcount : r.acceptedCount = 0) (habs : r.hostAbsentAt = none)
      (hst : r.status = .PUBLISHED ∨ r.status = .PENDING_MODERATION)
      (he : s'.events.rows = s.events.rows ++ [r]) (hp : s'.participants = s.participants)
      (hl : LedgerGrows Ordinary s s') : Change env (.create e) s s'
  | request {ev : EventRow} {user : UserId} {newId : ParticipantId} {s s' : Db}
      (hlive : ev.Live env.now) (he : s.events.Rewrites ev EventRow.requested s'.events)
      (hp : s'.participants.rows =
        s.participants.rows ++ [requestRow env ev user newId (roomToAsk s ev)])
      (hl : LedgerGrows (fun r => JoinCharge newId r ∧ r.amount < 0 ∧
        r.idempotencyKey = .eventJoinSpend ev.id user) s s') :
      Change env (.request ev.id) s s'
  | seat {ev : EventRow} {p : ParticipantRow} {grace : Nat} {s s' : Db} (hev : ev.id = p.eventId)
      (hst : p.status = .PENDING ∨ p.status = .WAITLISTED) (hroom : ev.acceptedCount < ev.capacity)
      (he : s.events.Rewrites ev (EventRow.addSeats 1) s'.events)
      (hp : s.participants.Rewrites p (ParticipantRow.accepted env.now grace) s'.participants)
      (hl : s'.coinLedger = s.coinLedger) : Change env (.seat p.id) s s'
  | seed {ev : EventRow} {user : UserId} {newId : ParticipantId} {grace : Nat} {s s' : Db}
      (hroom : ev.acceptedCount < ev.capacity)
      (he : s.events.Rewrites ev (EventRow.addSeats 1) s'.events)
      (hp : s'.participants.rows = s.participants.rows ++ [seededRow env ev.id user newId grace])
      (hl : s'.coinLedger = s.coinLedger) : Change env (.seed ev.id) s s'
  | close {ev : EventRow} {p : ParticipantRow} {f : ParticipantRow → ParticipantRow} {s s' : Db}
      {t : Table ParticipantRow} (hev : ev ∈ s.events.rows) (hid : ev.id = p.eventId)
      (hst : p.status = .PENDING ∨ p.status = .WAITLISTED)
      (hf : f = ParticipantRow.rejected env.now ∨ f = ParticipantRow.expired)
      (he : s'.events = s.events) (hp : s.participants.Rewrites p f t)
      (hfill : Promotes env ev t s'.participants) (hl : LedgerGrows IsReversal s s')
      (hback : s.Linked → s'.Refunded p.id) : Change env (.close p.id) s s'
  | lapse {ev : EventRow} {p : ParticipantRow} {s s' : Db} (hev : ev ∈ s.events.rows)
      (hid : ev.id = p.eventId) (hst : p.status = .WAITLISTED) (hstart : ev.startsAt ≤ env.now)
      (he : s'.events = s.events)
      (hp : s.participants.Rewrites p ParticipantRow.expired s'.participants)
      (hl : LedgerGrows IsReversal s s') (hback : s.Linked → s'.Refunded p.id) :
      Change env (.lapse p.id) s s'
  | withdrawRequest {ev : EventRow} {p : ParticipantRow} {bucket : Option CancellationBucket}
      {reason : Option String} {ledgerId : Option LedgerId} {s s' : Db} {t : Table ParticipantRow}
      (hev : ev ∈ s.events.rows) (hid : ev.id = p.eventId)
      (hst : p.status = .PENDING ∨ p.status = .WAITLISTED) (he : s'.events = s.events)
      (hp : s.participants.Rewrites p (ParticipantRow.withdrawn env.now bucket reason ledgerId) t)
      (hfill : Promotes env ev t s'.participants) (hl : LedgerGrows Ordinary s s') :
      Change env (.withdraw p.id) s s'
  | withdrawSeat {ev : EventRow} {p : ParticipantRow} {bucket : Option CancellationBucket}
      {reason : Option String} {ledgerId : Option LedgerId} {s s' : Db} {t : Table ParticipantRow}
      (hid : ev.id = p.eventId) (hst : p.status = .ACCEPTED)
      (he : s.events.Rewrites ev (EventRow.addSeats (-1)) s'.events)
      (hp : s.participants.Rewrites p (ParticipantRow.withdrawn env.now bucket reason ledgerId) t)
      (hfill : Promotes env (ev.addSeats (-1)) t s'.participants)
      (hl : LedgerGrows Ordinary s s') : Change env (.withdraw p.id) s s'
  | fill {ev : EventRow} {s s' : Db} (hev : ev ∈ s.events.rows) (hlive : ev.Live env.now)
      (he : s'.events = s.events) (hfill : Promotes env ev s.participants s'.participants)
      (hl : s'.coinLedger = s.coinLedger) : Change env (.fill ev.id) s s'
  | complete {e : EventId} {s s' : Db} (he : s'.events = s.events)
      (hp : s.participants.RewritesAll (isGuestOf e [.ACCEPTED]) ParticipantRow.attendedNow
        s'.participants) (hl : LedgerGrows Ordinary s s') : Change env (.complete e) s s'
  | absent {ev : EventRow} {p : ParticipantRow} {ledgerId : Option LedgerId} {s s' : Db}
      (hev : ev ∈ s.events.rows) (hid : ev.id = p.eventId) (hst : p.status = .ACCEPTED)
      (hover : ev.endsAt ≤ env.now) (he : s'.events = s.events)
      (hp : s.participants.Rewrites p (ParticipantRow.markedAbsent ledgerId env.now)
        s'.participants) (hl : LedgerGrows Ordinary s s') : Change env (.absent p.id) s s'
  | overturn {p : ParticipantRow} {s s' : Db} (hst : p.status = .ACCEPTED ∨ p.status = .NO_SHOW)
      (hcase : ∃ c ∈ s.cases.rows, c.trigger = .DISPUTE ∧ c.subjectType = .PARTICIPATION ∧
        c.subjectId = p.id) (he : s'.events = s.events)
      (hp : s.participants.Rewrites p ParticipantRow.attendedNow s'.participants)
      (hl : LedgerGrows Ordinary s s') : Change env (.overturn p.id) s s'
  | callOff {ev : EventRow} {reason : Option String} {s s' : Db} (hstart : env.now < ev.startsAt)
      (hedge : canTransition EVENT_TRANSITIONS ev.status .CANCELLED_BY_HOST = true)
      (he : s.events.Rewrites ev EventRow.cancelled s'.events)
      (hp : s.participants.RewritesAll (isGuestOf ev.id LIVE_PARTICIPANT_STATUSES)
        (fun p => p.calledOff p.status env.now reason) s'.participants)
      (hl : LedgerGrows Ordinary s s')
      (hback : s.Linked → s.JoinDebits → ∀ p ∈ s.participants.rows, p.eventId = ev.id →
        p.status = .ACCEPTED → s'.Refunded p.id) : Change env (.callOff ev.id) s s'
  | retire {ev : EventRow} {next : EventStatus} {s s' : Db}
      (hst : ev.status = .PUBLISHED ∨ ev.status = .ONGOING) (hstart : ev.startsAt ≤ env.now)
      (hnext : next = retiredStatus ev.status (guestCount s.participants ev.id [.ACCEPTED]) ev.endsAt
        env.now)
      (he : s.events.Rewrites ev (EventRow.retired next) s'.events)
      (hp : s'.participants = s.participants) (hl : s'.coinLedger = s.coinLedger) :
      Change env (.retire ev.id) s s'
  | edit {ev : EventRow} {d : EventEdit} {s s' : Db} (hed : isEditable ev.status = true)
      (hcap : ∀ c ∈ d.capacity, ev.acceptedCount ≤ c)
      (hout : ∀ o ∈ d.outcome, o.status = .PUBLISHED ∨ o.status = .PENDING_MODERATION)
      (he : s.events.Rewrites ev d.apply s'.events) (hp : s'.participants = s.participants)
      (hl : s'.coinLedger = s.coinLedger) : Change env (.edit ev.id d.capacity) s s'
  | review {ev : EventRow} {w : StatusWrite} {s s' : Db}
      (hedge : canTransition EVENT_TRANSITIONS ev.status w.status = true)
      (hw : w.status = .HIDDEN ∨ w.status = .PUBLISHED ∨ w.status = .REJECTED)
      (he : s.events.Rewrites ev w.apply s'.events) (hp : s'.participants = s.participants)
      (hl : s'.coinLedger = s.coinLedger) : Change env (.review ev.id) s s'
  | stamp {ev : EventRow} {s s' : Db} (hnone : ev.hostAbsentAt = none)
      (he : s.events.Rewrites ev (EventRow.hostAbsent env.now) s'.events)
      (hp : s.participants.RewritesAll (isGuestOf ev.id [.NO_SHOW]) ParticipantRow.attendedNow
        s'.participants) (hl : LedgerGrows Ordinary s s')
      (hunpaid : s.Linked → s'.HostUnpaid ev.id) : Change env (.stamp ev.id) s s'

/-- A dispute about a participation is filed only about a recorded absence. -/
def DisputesKept (s s' : Db) : Prop :=
  ∀ c ∈ s'.cases.rows, c.trigger = .DISPUTE → c.subjectType = .PARTICIPATION →
    (∃ c₀ ∈ s.cases.rows, c₀.trigger = .DISPUTE ∧ c₀.subjectType = .PARTICIPATION ∧
      c₀.subjectId = c.subjectId) ∨
    ∃ p ∈ s.participants.rows, p.id = c.subjectId ∧ p.status = .NO_SHOW

/-- No case was opened, and none was made to be about something else. -/
def CasesKept (s s' : Db) : Prop :=
  ∀ c ∈ s'.cases.rows, ∃ c₀ ∈ s.cases.rows, c₀.trigger = c.trigger ∧
    c₀.subjectType = c.subjectType ∧ c₀.subjectId = c.subjectId

theorem CasesKept.of_eq {s s' : Db} (h : s'.cases = s.cases) : CasesKept s s' :=
  fun c hc => ⟨c, h ▸ hc, rfl, rfl, rfl⟩

theorem CasesKept.trans {s₁ s₂ s₃ : Db} (h₁ : CasesKept s₁ s₂) (h₂ : CasesKept s₂ s₃) :
    CasesKept s₁ s₃ := by
  intro c hc
  obtain ⟨c₂, hc₂, ht₂, hs₂, hi₂⟩ := h₂ c hc
  obtain ⟨c₁, hc₁, ht₁, hs₁, hi₁⟩ := h₁ c₂ hc₂
  exact ⟨c₁, hc₁, ht₁.trans ht₂, hs₁.trans hs₂, hi₁.trans hi₂⟩

theorem CasesKept.disputes {s s' : Db} (h : CasesKept s s') : DisputesKept s s' := by
  intro c hc ht hs
  obtain ⟨c₀, hc₀, ht₀, hs₀, hi₀⟩ := h c hc
  exact .inl ⟨c₀, hc₀, ht₀.trans ht, hs₀.trans hs, hi₀⟩

theorem DisputesKept.of_eq {s s' : Db} (h : s'.cases = s.cases) : DisputesKept s s' :=
  fun c hc ht hs => .inl ⟨c, h ▸ hc, ht, hs, rfl⟩

/-- A change, with what it left of the moderation cases. -/
structure Effect (env : Env) (k : Kind) (s s' : Db) : Prop where
  change : Change env k s s'
  disputes : DisputesKept s s'

end Paayatam
