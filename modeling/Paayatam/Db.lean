/-
  Paayatam.Db

  The rows of the schema the modelled services read and write, with the
  constraints the migrations put on them, and the database they live in.

  Every `CHECK` and every unique index of a modelled table is in its `Row`
  instance, so a `Db` in which a constraint fails does not exist and a write
  that would break one aborts its transaction.  Foreign keys are not modelled:
  no modelled transaction deletes a row another one points at.

  Idempotency keys are strings built from a fixed prefix and one or two ids;
  `CoinKey` and `TrustKey` have one constructor for each prefix.
-/

import Paayatam.Types

namespace Paayatam

open Lib

/-! ## Events and participations -/

/-- `event`. -/
structure EventRow where
  id : EventId
  hostUserId : UserId
  title : String
  description : String
  categoryId : CategoryId
  customCategoryLabel : Option String
  cityId : CityId
  districtId : Option DistrictId
  districtLabel : Option String
  startsAt : Instant
  endsAt : Instant
  hostAbsentAt : Option Instant
  capacity : Int
  acceptedCount : Int
  genderPreference : Option GenderPreference
  minAge : Option Int
  maxAge : Option Int
  status : EventStatus
  moderationStatus : EventModerationStatus
  publishedAt : Option Instant
  isSeeded : Bool
  requestCount : Nat
  version : Nat
  createdAt : Instant
  deletedAt : Option Instant
  deriving DecidableEq

/-- The `CHECK` constraints of `event`. -/
def EventRow.constraints (e : EventRow) : Bool :=
  -- event_accepted_count_within_capacity, event_capacity_range, event_ends_after_starts
  decide (0 ≤ e.acceptedCount) && decide (e.acceptedCount ≤ e.capacity) &&
  decide (1 ≤ e.capacity) && decide (e.capacity ≤ 1000) &&
  decide (e.startsAt < e.endsAt) &&
  -- event_title_length, event_description_length
  decide (3 ≤ e.title.length) && decide (e.title.length ≤ 80) &&
  decide (10 ≤ e.description.length) && decide (e.description.length ≤ 2000) &&
  -- event_age_range
  e.minAge.all (fun a => decide (18 ≤ a)) && e.maxAge.all (fun a => decide (18 ≤ a)) &&
  e.minAge.all (fun lo => e.maxAge.all fun hi => decide (lo ≤ hi)) &&
  -- event_published_at_present_when_published, event_district_one_answer
  (e.status != .PUBLISHED || e.publishedAt.isSome) &&
  (e.districtId.isNone || e.districtLabel.isNone)

instance : Row EventRow EventId where
  key e := e.id
  check := EventRow.constraints
  collide _ _ := false
  collide_comm _ _ := rfl

theorem EventRow.acceptedCount_bounds {e : EventRow} (h : Row.check e = true) :
    0 ≤ e.acceptedCount ∧ e.acceptedCount ≤ e.capacity := by
  simp only [Row.check, EventRow.constraints, Bool.and_eq_true, decide_eq_true_eq] at h
  omega

theorem EventRow.startsAt_lt_endsAt {e : EventRow} (h : Row.check e = true) :
    e.startsAt < e.endsAt := by
  simp only [Row.check, EventRow.constraints, Bool.and_eq_true, decide_eq_true_eq] at h
  exact h.1.1.1.1.1.1.1.1.1.2

/-- `event_participant`. -/
structure ParticipantRow where
  id : ParticipantId
  eventId : EventId
  userId : UserId
  status : ParticipantStatus
  requestedAt : Instant
  decidedAt : Option Instant
  acceptedAt : Option Instant
  cancelledAt : Option Instant
  graceExpiresAt : Option Instant
  hostDeadlineAt : Option Instant
  promotedAt : Option Instant
  cancellationReason : Option String
  cancellationBucket : Option CancellationBucket
  penaltyLedgerId : Option LedgerId
  attended : Option Bool
  noShowNotifiedAt : Option Instant
  version : Nat
  deriving DecidableEq

/-- The `CHECK` constraints of `event_participant`. -/
def ParticipantRow.constraints (p : ParticipantRow) : Bool :=
  -- event_participant_accepted_at_matches_status
  (match p.status with
    | .ACCEPTED => p.acceptedAt.isSome
    | .PENDING | .WAITLISTED | .REJECTED | .EXPIRED => p.acceptedAt.isNone
    | _ => true) &&
  -- event_participant_cancelled_at_present
  (match p.status with
    | .CANCELLED_BY_PARTICIPANT | .CANCELLED_BY_HOST => p.cancelledAt.isSome
    | _ => true) &&
  -- event_participant_promoted_not_waitlisted, event_participant_penalty_needs_bucket
  (p.promotedAt.isNone || p.status != .WAITLISTED) &&
  (p.penaltyLedgerId.isNone || p.cancellationBucket.isSome)

instance : Row ParticipantRow ParticipantId where
  key p := p.id
  check := ParticipantRow.constraints
  -- UNIQUE (event_id, user_id)
  collide p q := decide (p.eventId = q.eventId) && decide (p.userId = q.userId)
  collide_comm p q := by simp [eq_comm]

/-! ## Coins -/

/-- `coin_ledger.idempotency_key`, one constructor for each key function. -/
inductive CoinKey where
  | eventJoinSpend (eventId : EventId) (userId : UserId)
  | eventCreateSpend (eventId : EventId)
  | channelPostSpend (eventId : EventId) (republishSeq : Nat)
  | participantPenalty (participantId : ParticipantId)
  | hostPenalty (eventId : EventId)
  | hostAbsentPenalty (eventId : EventId)
  | hostDepositRefund (eventId : EventId)
  | hostReward (eventId : EventId)
  | reversal (ledgerId : LedgerId)
  /-- Any key of a service outside the model. -/
  | other (key : String)
  deriving DecidableEq

/-- `ref_type` and `ref_id`. -/
inductive LedgerRef where
  | event_participant (id : ParticipantId)
  | event (id : EventId)
  | review (id : ReviewId)
  | other (refType refId : String)
  deriving DecidableEq

/-- `coin_account`. -/
structure CoinAccountRow where
  userId : UserId
  balance : Int
  version : Nat

instance : Row CoinAccountRow UserId where
  key a := a.userId
  check a := decide (0 ≤ a.balance)
  collide _ _ := false
  collide_comm _ _ := rfl

/-- `coin_ledger`. -/
structure CoinLedgerRow where
  id : LedgerId
  userId : UserId
  idempotencyKey : CoinKey
  type : CoinLedgerType
  amount : Int
  balanceBefore : Int
  balanceAfter : Int
  reasonCode : String
  actorType : ActorType
  actorId : Option UserId
  ref : Option LedgerRef
  reversesLedgerId : Option LedgerId
  /-- `metadata.requestedAmount`: what a penalty asked for when it was capped. -/
  requestedAmount : Option Int
  createdAt : Instant
  deriving DecidableEq

/-- The `CHECK` constraints of `coin_ledger`. -/
def CoinLedgerRow.constraints (r : CoinLedgerRow) : Bool :=
  decide (r.amount ≠ 0) && decide (r.balanceAfter = r.balanceBefore + r.amount) &&
  decide (0 ≤ r.balanceAfter) && (decide (r.type = .REVERSAL) == r.reversesLedgerId.isSome)

instance : Row CoinLedgerRow LedgerId where
  key r := r.id
  check := CoinLedgerRow.constraints
  -- UNIQUE (idempotency_key), UNIQUE (reverses_ledger_id) with distinct NULLs
  collide r q := decide (r.idempotencyKey = q.idempotencyKey) ||
    (r.reversesLedgerId.isSome && decide (r.reversesLedgerId = q.reversesLedgerId))
  collide_comm r q := by
    cases hr : r.reversesLedgerId <;> cases hq : q.reversesLedgerId <;> simp [eq_comm]

/-! ## Trust -/

/-- `trust_score_ledger.idempotency_key`. -/
inductive TrustKey where
  | initial (userId : UserId)
  | participantPenalty (participantId : ParticipantId)
  | hostPenalty (eventId : EventId)
  | hostAbsent (eventId : EventId)
  | noShowDispute (participantId : ParticipantId)
  | attendance (participantId : ParticipantId)
  | review (reviewId : ReviewId)
  | other (key : String)
  deriving DecidableEq

/-- `trust_score`. -/
structure TrustScoreRow where
  userId : UserId
  score : Int

instance : Row TrustScoreRow UserId where
  key a := a.userId
  check a := decide (0 ≤ a.score) && decide (a.score ≤ 100)
  collide _ _ := false
  collide_comm _ _ := rfl

/-- `trust_score_ledger`. -/
structure TrustLedgerRow where
  id : LedgerId
  userId : UserId
  idempotencyKey : TrustKey
  type : TrustLedgerType
  delta : Int
  scoreBefore : Int
  scoreAfter : Int
  reasonCode : String
  actorType : ActorType
  actorId : Option UserId
  ref : Option LedgerRef
  reversesLedgerId : Option LedgerId
  /-- `metadata.requestedDelta`: what the policy asked for when it was clamped. -/
  requestedDelta : Option Int
  createdAt : Instant
  deriving DecidableEq

/-- The `CHECK` constraints of `trust_score_ledger`. -/
def TrustLedgerRow.constraints (r : TrustLedgerRow) : Bool :=
  decide (r.scoreAfter = r.scoreBefore + r.delta) &&
  decide (0 ≤ r.scoreBefore) && decide (r.scoreBefore ≤ 100) &&
  decide (0 ≤ r.scoreAfter) && decide (r.scoreAfter ≤ 100) &&
  (decide (r.type = .REVERSAL) == r.reversesLedgerId.isSome)

instance : Row TrustLedgerRow LedgerId where
  key r := r.id
  check := TrustLedgerRow.constraints
  collide r q := decide (r.idempotencyKey = q.idempotencyKey) ||
    (r.reversesLedgerId.isSome && decide (r.reversesLedgerId = q.reversesLedgerId))
  collide_comm r q := by
    cases hr : r.reversesLedgerId <;> cases hq : q.reversesLedgerId <;> simp [eq_comm]

/-! ## Moderation cases, absence claims, reviews -/

/-- `moderation_case`. -/
structure CaseRow where
  id : CaseId
  subjectType : ModerationSubjectType
  subjectId : Nat
  trigger : ModerationTrigger
  status : ModerationCaseStatus
  reportCount : Nat
  decision : Option String
  decisionNote : Option String
  decidedBy : Option UserId
  decidedAt : Option Instant
  assignedAdminId : Option UserId
  createdAt : Instant

instance : Row CaseRow CaseId where
  key c := c.id
  check _ := true
  collide _ _ := false
  collide_comm _ _ := rfl

/-- `no_show_claim`. -/
structure NoShowClaimRow where
  id : Nat
  eventId : EventId
  kind : NoShowClaimKind
  participantId : Option ParticipantId
  authorUserId : UserId
  statement : String
  moderationCaseId : Option CaseId
  createdAt : Instant

instance : Row NoShowClaimRow Nat where
  key c := c.id
  check c := decide (c.kind = .HOST_ABSENT_RESPONSE) == c.participantId.isNone
  -- UNIQUE (kind, event_id, author_user_id)
  collide c d := decide (c.kind = d.kind) && decide (c.eventId = d.eventId) &&
    decide (c.authorUserId = d.authorUserId)
  collide_comm c d := by simp [eq_comm]

/-- `review_pair`, by the unique participation it belongs to. -/
structure ReviewPairRow where
  participantId : ParticipantId
  eventId : EventId
  hostReviewId : Option ReviewId := none
  guestReviewId : Option ReviewId := none
  opensAt : Instant
  deadlineAt : Instant
  status : ReviewPairStatus := .PENDING
  revealedAt : Option Instant := none

/-- `review_pair_status_matches_contents`. -/
def ReviewPairRow.statusMatchesContents (p : ReviewPairRow) : Bool :=
  match p.status with
  | .PENDING => p.hostReviewId.isNone && p.guestReviewId.isNone
  | .PARTIAL => p.hostReviewId.isNone != p.guestReviewId.isNone
  | .REVEALED => p.hostReviewId.isSome && p.guestReviewId.isSome
  | .EXPIRED_PARTIAL => p.hostReviewId.isNone != p.guestReviewId.isNone
  | .EXPIRED_EMPTY => p.hostReviewId.isNone && p.guestReviewId.isNone

/-- The `CHECK` constraints of `review_pair`. -/
def ReviewPairRow.constraints (p : ReviewPairRow) : Bool :=
  decide (p.opensAt < p.deadlineAt) && p.statusMatchesContents &&
  (decide (p.status = .PENDING ∨ p.status = .PARTIAL) == p.revealedAt.isNone)

instance : Row ReviewPairRow ParticipantId where
  key r := r.participantId
  check := ReviewPairRow.constraints
  -- UNIQUE (host_review_id), UNIQUE (guest_review_id) with distinct NULLs
  collide p q := (p.hostReviewId.isSome && decide (p.hostReviewId = q.hostReviewId)) ||
    (p.guestReviewId.isSome && decide (p.guestReviewId = q.guestReviewId))
  collide_comm p q := by
    cases hp : p.hostReviewId <;> cases hq : q.hostReviewId <;> cases hp' : p.guestReviewId <;>
      cases hq' : q.guestReviewId <;> simp [eq_comm]

/-- `review`. -/
structure ReviewRow where
  id : ReviewId
  eventId : EventId
  participantId : ParticipantId
  reviewerUserId : UserId
  revieweeUserId : UserId
  rating : Int
  tags : List String
  comment : Option String
  status : ReviewStatus
  moderationStatus : EventModerationStatus
  submittedAt : Instant
  revealedAt : Option Instant
  editDeadlineAt : Instant

/-- The `CHECK` constraints of `review`. -/
def ReviewRow.constraints (r : ReviewRow) : Bool :=
  decide (1 ≤ r.rating) && decide (r.rating ≤ 5) && decide (r.reviewerUserId ≠ r.revieweeUserId) &&
  r.comment.all (fun c => decide (c.length ≤ 500)) &&
  (decide (r.status = .SUBMITTED) == r.revealedAt.isNone) && decide (r.tags.length ≤ 5)

instance : Row ReviewRow ReviewId where
  key r := r.id
  check := ReviewRow.constraints
  -- UNIQUE (participant_id, reviewer_user_id)
  collide r q := decide (r.participantId = q.participantId) &&
    decide (r.reviewerUserId = q.reviewerUserId)
  collide_comm r q := by simp [eq_comm]

/-! ## Outbox -/

inductive RecipientRole where
  | GUEST | HOST

/-- `event_type` of an outbox row, with the payload fields of that type.  The
    aggregate of a `participation.*` or `waitlist.*` row is the participation. -/
inductive DomainEvent where
  | participation_requested (participant : ParticipantId) (event : EventId) (host user : UserId)
      (status : ParticipantStatus)
  | participation_accepted (participant : ParticipantId) (event : EventId) (user : UserId)
  | participation_rejected (participant : ParticipantId) (event : EventId) (user : UserId)
      (coinsRefunded : Int)
  | participation_cancelled (participant : ParticipantId) (event : EventId) (host : UserId)
      (statusBefore : ParticipantStatus)
  | participation_expired (participant : ParticipantId) (event : EventId) (user : UserId)
      (coinsRefunded : Int) (waitlisted : Bool)
  | waitlist_promoted (participant : ParticipantId) (event : EventId) (host user : UserId)
      (hostDeadlineAt : Instant)
  | event_cancelled_by_host (event : EventId) (participants : List (ParticipantId × UserId × Bool))
  | participation_no_show (participant : ParticipantId) (event : EventId) (user : UserId)
      (coinsCharged : Int) (disputeClosesAt : Instant)
  | no_show_host_absent_reported (caseId : CaseId) (event : EventId) (host : UserId)
      (respondBy : Instant)
  | no_show_claim_decided (caseId : CaseId) (recipient : UserId) (role : RecipientRole)
      (kind : NoShowClaimKind) (upheld : Bool) (coins : Int)
  | moderation_content_hidden (event : EventId) (owner : UserId) (reportCount : Option Nat)
  | moderation_content_restored (event : EventId) (owner : UserId)
  | host_settled (event : EventId) (host : UserId) (attendees : Nat) (refund bonus : Int)
  | review_revealed (participant : ParticipantId) (event : EventId) (host guest : UserId)
      (outcome : ReviewPairStatus) (revealedAt : Instant)

/-! ## The database -/

structure Db where
  events : Table EventRow
  participants : Table ParticipantRow
  coinAccounts : Table CoinAccountRow
  coinLedger : Table CoinLedgerRow
  trustScores : Table TrustScoreRow
  trustLedger : Table TrustLedgerRow
  cases : Table CaseRow
  claims : Table NoShowClaimRow
  reviewPairs : Table ReviewPairRow
  reviews : Table ReviewRow
  outbox : List DomainEvent

/-- The database the first migration leaves behind. -/
def Db.initial : Db where
  events := .empty
  participants := .empty
  coinAccounts := .empty
  coinLedger := .empty
  trustScores := .empty
  trustLedger := .empty
  cases := .empty
  claims := .empty
  reviewPairs := .empty
  reviews := .empty
  outbox := []

instance : HasTable Db EventRow := ⟨Db.events, fun t db => { db with events := t }⟩
instance : HasTable Db ParticipantRow := ⟨Db.participants, fun t db => { db with participants := t }⟩
instance : HasTable Db CoinAccountRow := ⟨Db.coinAccounts, fun t db => { db with coinAccounts := t }⟩
instance : HasTable Db CoinLedgerRow := ⟨Db.coinLedger, fun t db => { db with coinLedger := t }⟩
instance : HasTable Db TrustScoreRow := ⟨Db.trustScores, fun t db => { db with trustScores := t }⟩
instance : HasTable Db TrustLedgerRow := ⟨Db.trustLedger, fun t db => { db with trustLedger := t }⟩
instance : HasTable Db CaseRow := ⟨Db.cases, fun t db => { db with cases := t }⟩
instance : HasTable Db NoShowClaimRow := ⟨Db.claims, fun t db => { db with claims := t }⟩
instance : HasTable Db ReviewPairRow := ⟨Db.reviewPairs, fun t db => { db with reviewPairs := t }⟩
instance : HasTable Db ReviewRow := ⟨Db.reviews, fun t db => { db with reviews := t }⟩

section TableLemmas

variable {db : Db}

@[simp] theorem table_events : (HasTable.table db : Table EventRow) = db.events := rfl
@[simp] theorem table_participants :
    (HasTable.table db : Table ParticipantRow) = db.participants := rfl
@[simp] theorem table_coinAccounts :
    (HasTable.table db : Table CoinAccountRow) = db.coinAccounts := rfl
@[simp] theorem table_coinLedger : (HasTable.table db : Table CoinLedgerRow) = db.coinLedger := rfl
@[simp] theorem table_trustScores :
    (HasTable.table db : Table TrustScoreRow) = db.trustScores := rfl
@[simp] theorem table_trustLedger :
    (HasTable.table db : Table TrustLedgerRow) = db.trustLedger := rfl
@[simp] theorem table_cases : (HasTable.table db : Table CaseRow) = db.cases := rfl
@[simp] theorem table_claims : (HasTable.table db : Table NoShowClaimRow) = db.claims := rfl
@[simp] theorem table_reviewPairs :
    (HasTable.table db : Table ReviewPairRow) = db.reviewPairs := rfl
@[simp] theorem table_reviews : (HasTable.table db : Table ReviewRow) = db.reviews := rfl

@[simp] theorem setTable_events {t : Table EventRow} :
    HasTable.setTable t db = { db with events := t } := rfl
@[simp] theorem setTable_participants {t : Table ParticipantRow} :
    HasTable.setTable t db = { db with participants := t } := rfl
@[simp] theorem setTable_coinAccounts {t : Table CoinAccountRow} :
    HasTable.setTable t db = { db with coinAccounts := t } := rfl
@[simp] theorem setTable_coinLedger {t : Table CoinLedgerRow} :
    HasTable.setTable t db = { db with coinLedger := t } := rfl
@[simp] theorem setTable_trustScores {t : Table TrustScoreRow} :
    HasTable.setTable t db = { db with trustScores := t } := rfl
@[simp] theorem setTable_trustLedger {t : Table TrustLedgerRow} :
    HasTable.setTable t db = { db with trustLedger := t } := rfl
@[simp] theorem setTable_cases {t : Table CaseRow} :
    HasTable.setTable t db = { db with cases := t } := rfl
@[simp] theorem setTable_claims {t : Table NoShowClaimRow} :
    HasTable.setTable t db = { db with claims := t } := rfl
@[simp] theorem setTable_reviewPairs {t : Table ReviewPairRow} :
    HasTable.setTable t db = { db with reviewPairs := t } := rfl
@[simp] theorem setTable_reviews {t : Table ReviewRow} :
    HasTable.setTable t db = { db with reviews := t } := rfl

end TableLemmas

/-- A transaction of the product. -/
abbrev Act (α : Type) := Tx Db AppError α

/-- `OutboxService.emit`: the row commits with the change that caused it. -/
def emit (m : DomainEvent) : Act Unit := modify fun db => { db with outbox := db.outbox ++ [m] }

@[simp] theorem runs_emit {m : DomainEvent} {s s' : Db} {u : Unit} :
    Runs (emit m) s u s' ↔ s' = { s with outbox := s.outbox ++ [m] } := by
  simp [emit]

@[simp] theorem runs_emit_bind {β : Type} {m : DomainEvent} {f : Unit → Act β} {s s' : Db} {b : β} :
    Runs (emit m >>= f) s b s' ↔ Runs (f ()) { s with outbox := s.outbox ++ [m] } b s' := by
  simp [emit]

/-- An id above every id in use, as a time-ordered uuid is. -/
def freshId (ids : List Nat) : Nat := ids.foldr max 0 + 1

theorem lt_freshId {ids : List Nat} {i : Nat} (h : i ∈ ids) : i < freshId ids := by
  induction ids with
  | nil => cases h
  | cons j ids ih =>
      simp only [freshId, List.foldr_cons] at ih ⊢
      rcases List.mem_cons.1 h with rfl | h
      · omega
      · have := ih h
        omega

/-! ## Reading the tables by what they are about -/

/-- The participations of one event. -/
def Db.guests (db : Db) (e : EventId) : List ParticipantRow :=
  db.participants.rows.filter fun p => decide (p.eventId = e)

/-- The number of participations of `e` whose status is one of `sts`. -/
def Db.countGuests (db : Db) (e : EventId) (sts : List ParticipantStatus) : Nat :=
  db.participants.rows.countP fun p => decide (p.eventId = e) && sts.contains p.status

/-- Some ledger row reverses the row `l`. -/
def Db.isReversed (db : Db) (l : LedgerId) : Bool :=
  db.coinLedger.rows.any fun r => decide (r.reversesLedgerId = some l)

end Paayatam
