/-
  Paayatam.Types

  The vocabulary of the product: identifiers, instants, the enumerations of
  the database schema, the error codes the services raise, and the
  transition tables every status change is checked against.

  Enumeration members keep the spelling the schema gives them.  An identifier
  stands for both the internal id and the public id of a row (the source
  carries the two side by side and either names one row).  Instants are
  milliseconds, as `Date.getTime` counts them.
-/

import Paayatam.Lib.Table

namespace Paayatam

open Lib

abbrev UserId := Nat
abbrev EventId := Nat
abbrev ParticipantId := Nat
abbrev LedgerId := Nat
abbrev CaseId := Nat
abbrev CityId := Nat
abbrev DistrictId := Nat
abbrev CategoryId := Nat
abbrev ReviewId := Nat

/-- Milliseconds since the epoch. -/
abbrev Instant := Int

def msPerMinute : Int := 60000
def msPerHour : Int := 3600000

/-! ## Enumerations of the schema -/

inductive UserStatus where
  | ACTIVE | SUSPENDED | BANNED | DELETED
  deriving DecidableEq

inductive OnboardingState where
  | NEW | TERMS_ACCEPTED | PROFILE_COMPLETE
  deriving DecidableEq

inductive Gender where
  | MALE | FEMALE | PREFER_NOT_SAY
  deriving DecidableEq

inductive GenderPreference where
  | MALE_ONLY | FEMALE_ONLY
  deriving DecidableEq

inductive ActorType where
  | USER | ADMIN | SYSTEM
  deriving DecidableEq

inductive EventStatus where
  | DRAFT | PENDING_MODERATION | PUBLISHED | HIDDEN | REJECTED | CANCELLED_BY_HOST
  | ONGOING | COMPLETED | EXPIRED | DELETED
  deriving DecidableEq

inductive EventModerationStatus where
  | PENDING | APPROVED | FLAGGED | REJECTED
  deriving DecidableEq

inductive ParticipantStatus where
  | PENDING | WAITLISTED | ACCEPTED | REJECTED | EXPIRED | CANCELLED_BY_PARTICIPANT
  | CANCELLED_BY_HOST | COMPLETED | NO_SHOW
  deriving DecidableEq

inductive CancellationBucket where
  | GRACE | GT_24H | H24_TO_H3 | LT_3H | NO_SHOW
  deriving DecidableEq

inductive CoinLedgerType where
  | ONBOARDING_REWARD | REFERRAL_REWARD | REVIEW_REWARD | GIFT_CODE_REDEEM | BOOST_SPEND
  | VIP_SPEND | EVENT_CREATE_SPEND | CHANNEL_POST_SPEND | INVITE_SPEND | EVENT_JOIN_SPEND
  | CANCELLATION_PENALTY | NO_SHOW_PENALTY | HOST_CANCELLATION_REFUND | ADMIN_ADJUSTMENT
  | REVERSAL | FOUNDING_REWARD | EVENT_DEPOSIT_REFUND | HOST_REWARD | COMEBACK_GRANT
  deriving DecidableEq

inductive TrustLedgerType where
  | INITIAL | PROFILE_COMPLETE | ATTENDANCE | REVIEW | CANCELLATION | NO_SHOW | MODERATION
  | REHABILITATION | ADMIN_ADJUSTMENT | REVERSAL
  deriving DecidableEq

inductive ModerationSubjectType where
  | EVENT | USER | MESSAGE | REVIEW | PARTICIPATION
  deriving DecidableEq

inductive ModerationTrigger where
  | AUTO_BLACKLIST | REPORT_THRESHOLD | MANUAL | DISPUTE
  deriving DecidableEq

inductive ModerationCaseStatus where
  | OPEN | IN_REVIEW | APPROVED | REJECTED | ESCALATED
  deriving DecidableEq

inductive NoShowClaimKind where
  | GUEST_ABSENT_DISPUTE | HOST_ABSENT_REPORT | HOST_ABSENT_RESPONSE
  deriving DecidableEq

inductive ReviewStatus where
  | SUBMITTED | REVEALED | HIDDEN
  deriving DecidableEq

inductive ReviewPairStatus where
  | PENDING | PARTIAL | REVEALED | EXPIRED_PARTIAL | EXPIRED_EMPTY
  deriving DecidableEq

/-- What a scan of the host's text concludes (ADR-0012). -/
inductive ScanDecision where
  | CLEAN | FLAG | BLOCK
  deriving DecidableEq

/-! ## Errors -/

inductive ErrorCode where
  | INTERNAL_ERROR | NOT_FOUND | VALIDATION_FAILED | UNAUTHENTICATED | FORBIDDEN
  | USER_BANNED | PROFILE_INCOMPLETE | CHANNEL_MEMBERSHIP_REQUIRED
  | INVALID_STATE_TRANSITION | EVENT_NOT_FOUND | EVENT_NOT_JOINABLE | EVENT_ALREADY_STARTED
  | EVENT_QUOTA_EXCEEDED | EVENT_ACTIVE_QUOTA_EXCEEDED | CONFLICT_STALE_VERSION
  | CITY_NOT_AVAILABLE | CITY_NOT_LAUNCHED | INVALID_DISTRICT
  | CUSTOM_LABEL_NOT_ALLOWED | CUSTOM_LABEL_REQUIRED
  | HOST_CANNOT_JOIN | DUPLICATE_REQUEST | NOT_ELIGIBLE_CITY | NOT_ELIGIBLE_GENDER
  | NOT_ELIGIBLE_AGE | CAPACITY_EXCEEDED | CAPACITY_BELOW_ACCEPTED | INSUFFICIENT_COINS
  | CLAIM_WINDOW_CLOSED | ALREADY_CLAIMED | WRONG_CASE_DECISION
  | REVIEW_WINDOW_CLOSED | ALREADY_REVIEWED | REVIEW_NOT_EDITABLE
  | GIFT_CODE_DISABLED | GIFT_CODE_INVALID | GIFT_CODE_EXPIRED | GIFT_CODE_EXHAUSTED
  | GIFT_CODE_ALREADY_REDEEMED
  | REFERRAL_WINDOW_CLOSED | INVALID_REFERRAL_CODE | SELF_REFERRAL | ALREADY_REFERRED
  | CHANNEL_UNAVAILABLE | EVENT_NOT_BOOSTABLE | EVENT_ALREADY_IN_CHANNEL
  | CANNOT_REPORT_OWN_CONTENT | ALREADY_REPORTED
  | INVALID_INIT_DATA | INIT_DATA_EXPIRED
  | EVENT_NOT_INVITABLE | MESSAGE_DRY_RUN | MESSAGE_FORMAT_INVALID
  deriving DecidableEq

/-- The structured payload an error carries beside its code. -/
inductive ErrorDetails where
  | none
  | participantTransition (id : Option ParticipantId) (old new : ParticipantStatus)
  | eventTransition (id : Option EventId) (old new : EventStatus)
  | reviewTransition (id : Option ReviewId) (old new : ReviewStatus)
  | reviewPairTransition (id : Option ParticipantId) (old new : ReviewPairStatus)
  | seats (capacity acceptedCount : Int)
  | coins (balance required : Int)
  | versions (expected actual : Nat)
  | limit (limit : Nat) (scope : String)
  | field (path message : String)
  deriving DecidableEq

/-- What aborts a transaction: an error the service raises, or a constraint. -/
inductive AppError where
  | raised (code : ErrorCode) (details : ErrorDetails)
  | db (e : DbError)
  deriving DecidableEq

instance : OfDbError AppError := ⟨AppError.db⟩

/-- `throw new AppError(code)`. -/
def AppError.of (code : ErrorCode) : AppError := .raised code .none

/-! ## Transition tables -/

abbrev TransitionTable (S : Type) := S → List S

def canTransition {S : Type} [DecidableEq S] (table : TransitionTable S) (old new : S) : Bool :=
  (table old).contains new

def PARTICIPANT_TRANSITIONS : TransitionTable ParticipantStatus
  | .PENDING => [.ACCEPTED, .REJECTED, .EXPIRED, .CANCELLED_BY_PARTICIPANT]
  | .WAITLISTED => [.PENDING, .ACCEPTED, .REJECTED, .CANCELLED_BY_PARTICIPANT, .EXPIRED]
  | .ACCEPTED => [.COMPLETED, .NO_SHOW, .CANCELLED_BY_HOST, .CANCELLED_BY_PARTICIPANT]
  | .REJECTED => []
  | .EXPIRED => []
  | .CANCELLED_BY_PARTICIPANT => []
  | .CANCELLED_BY_HOST => []
  | .COMPLETED => []
  | .NO_SHOW => [.COMPLETED]

def EVENT_TRANSITIONS : TransitionTable EventStatus
  | .DRAFT => [.PENDING_MODERATION, .DELETED]
  | .PENDING_MODERATION => [.PUBLISHED, .REJECTED, .DELETED]
  | .PUBLISHED => [.PENDING_MODERATION, .HIDDEN, .CANCELLED_BY_HOST, .ONGOING, .EXPIRED, .DELETED]
  | .HIDDEN => [.PUBLISHED, .REJECTED, .DELETED]
  | .REJECTED => [.DELETED]
  | .CANCELLED_BY_HOST => [.DELETED]
  | .ONGOING => [.COMPLETED, .DELETED]
  | .COMPLETED => [.DELETED]
  | .EXPIRED => [.DELETED]
  | .DELETED => []

def REVIEW_TRANSITIONS : TransitionTable ReviewStatus
  | .SUBMITTED => [.REVEALED, .HIDDEN]
  | .REVEALED => [.HIDDEN]
  | .HIDDEN => []

def REVIEW_PAIR_TRANSITIONS : TransitionTable ReviewPairStatus
  | .PENDING => [.PARTIAL, .EXPIRED_EMPTY]
  | .PARTIAL => [.REVEALED, .EXPIRED_PARTIAL]
  | .REVEALED => []
  | .EXPIRED_PARTIAL => []
  | .EXPIRED_EMPTY => []

/-- The statuses in which a pair's reviews are readable by anybody but their author. -/
def REVEALED_PAIR_STATUSES : List ReviewPairStatus := [.REVEALED, .EXPIRED_PARTIAL]

def SEAT_HOLDING_STATUSES : List ParticipantStatus := [.ACCEPTED]

def SLOT_HOLDING_STATUSES : List ParticipantStatus := [.PENDING]

def LIVE_PARTICIPANT_STATUSES : List ParticipantStatus := [.PENDING, .WAITLISTED, .ACCEPTED]

def holdsSeat (status : ParticipantStatus) : Bool := SEAT_HOLDING_STATUSES.contains status

def holdsSlot (status : ParticipantStatus) : Bool := SLOT_HOLDING_STATUSES.contains status

@[simp] theorem holdsSeat_iff {st : ParticipantStatus} : holdsSeat st = true ↔ st = .ACCEPTED := by
  cases st <;> decide

@[simp] theorem holdsSlot_iff {st : ParticipantStatus} : holdsSlot st = true ↔ st = .PENDING := by
  cases st <;> decide

/-- The error `assertParticipantTransition` raises. -/
def participantTransitionError (old new : ParticipantStatus) (id : Option ParticipantId) : AppError :=
  .raised .INVALID_STATE_TRANSITION (.participantTransition id old new)

/-- The error `assertEventTransition` raises. -/
def eventTransitionError (old new : EventStatus) (id : Option EventId) : AppError :=
  .raised .INVALID_STATE_TRANSITION (.eventTransition id old new)

/-- The error `assertReviewTransition` raises. -/
def reviewTransitionError (old new : ReviewStatus) (id : Option ReviewId) : AppError :=
  .raised .INVALID_STATE_TRANSITION (.reviewTransition id old new)

/-- The error `assertReviewPairTransition` raises. -/
def reviewPairTransitionError (old new : ReviewPairStatus) (id : Option ParticipantId) : AppError :=
  .raised .INVALID_STATE_TRANSITION (.reviewPairTransition id old new)

section Assertions

variable {σ : Type}

def assertParticipantTransition (old new : ParticipantStatus) (id : Option ParticipantId) :
    Tx σ AppError Unit :=
  guardTx (canTransition PARTICIPANT_TRANSITIONS old new = true)
    (participantTransitionError old new id)

def assertEventTransition (old new : EventStatus) (id : Option EventId) : Tx σ AppError Unit :=
  guardTx (canTransition EVENT_TRANSITIONS old new = true)
    (eventTransitionError old new id)

def assertReviewTransition (old new : ReviewStatus) (id : Option ReviewId) : Tx σ AppError Unit :=
  guardTx (canTransition REVIEW_TRANSITIONS old new = true) (reviewTransitionError old new id)

def assertReviewPairTransition (old new : ReviewPairStatus) (id : Option ParticipantId) :
    Tx σ AppError Unit :=
  guardTx (canTransition REVIEW_PAIR_TRANSITIONS old new = true)
    (reviewPairTransitionError old new id)

@[simp] theorem runs_assertParticipantTransition {old new : ParticipantStatus}
    {id : Option ParticipantId} {s s' : σ} {u : Unit} :
    Runs (assertParticipantTransition old new id) s u s' ↔
      canTransition PARTICIPANT_TRANSITIONS old new = true ∧ s' = s := by
  simp [assertParticipantTransition]

@[simp] theorem runs_assertEventTransition {old new : EventStatus} {id : Option EventId}
    {s s' : σ} {u : Unit} :
    Runs (assertEventTransition old new id) s u s' ↔
      canTransition EVENT_TRANSITIONS old new = true ∧ s' = s := by
  simp [assertEventTransition]

@[simp] theorem runs_assertParticipantTransition_bind {β : Type} {old new : ParticipantStatus}
    {id : Option ParticipantId} {f : Unit → Tx σ AppError β} {s s' : σ} {b : β} :
    Runs (assertParticipantTransition old new id >>= f) s b s' ↔
      canTransition PARTICIPANT_TRANSITIONS old new = true ∧ Runs (f ()) s b s' := by
  simp [assertParticipantTransition]

@[simp] theorem runs_assertEventTransition_bind {β : Type} {old new : EventStatus}
    {id : Option EventId} {f : Unit → Tx σ AppError β} {s s' : σ} {b : β} :
    Runs (assertEventTransition old new id >>= f) s b s' ↔
      canTransition EVENT_TRANSITIONS old new = true ∧ Runs (f ()) s b s' := by
  simp [assertEventTransition]

end Assertions

end Paayatam
