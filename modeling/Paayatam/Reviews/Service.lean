/-
  Paayatam.Reviews.Service

  `ReviewService`: one review from each side of a participation, blind until
  both are written or the deadline has passed.

  A pair holds the two review ids and a status; readability is a fact about
  the pair.  `submit` and `settleOne` read the pair first and write it later,
  `edit` does the same with its review, and none of the reads takes a lock, so
  each is split at its read.  The reveal reads the ratings it acts on when it
  already holds the pair's row: the rows of the other reviews as it read them
  are a parameter, `stale`, which is empty when nothing comes between.
-/

import Paayatam.Moderation.CaseDecision

namespace Paayatam

open Lib

namespace Reviews

def REVIEW_REWARD_REASON : String := "review.submitted"
def REVIEW_RATING_REASON : String := "review.rating"

def reviewRewardKey (reviewId : ReviewId) : CoinKey := .other s!"review-reward:{reviewId}"

def reviewTrustKey (reviewId : ReviewId) : TrustKey := .review reviewId

/-- Which side of the participation somebody is writing from. -/
inductive ReviewerRole where
  | HOST | GUEST
  deriving DecidableEq

structure SubmitReviewInput where
  rating : Int
  tags : Option (List String) := none
  comment : Option String := none

/-- `OwnReview`: what the caller wrote. -/
structure OwnReview where
  publicId : ReviewId
  participantId : ParticipantId
  rating : Int
  tags : List String
  comment : Option String
  submittedAt : Instant
  editableUntil : Option Instant
  revealed : Bool

/-! ## The two sides of a pair -/

/-- The column of a pair one side writes. -/
def slot (pair : ReviewPairRow) : ReviewerRole → Option ReviewId
  | .HOST => pair.hostReviewId
  | .GUEST => pair.guestReviewId

def fillSlot (pair : ReviewPairRow) (reviewId : ReviewId) : ReviewerRole → ReviewPairRow
  | .HOST => { pair with hostReviewId := some reviewId }
  | .GUEST => { pair with guestReviewId := some reviewId }

/-- The side of a participation a user is on. -/
def roleIn (db : Db) (participantId : ParticipantId) (userId : UserId) : Option ReviewerRole := do
  let participant ← db.participants.find? participantId
  let event ← db.events.find? participant.eventId
  if event.hostUserId = userId then some .HOST
  else if participant.userId = userId then some .GUEST
  else none

/-- The reviews of a pair, the host's first. -/
def reviewsOf (db : Db) (pair : ReviewPairRow) : List ReviewRow :=
  [pair.hostReviewId, pair.guestReviewId].filterMap fun id => id.bind db.reviews.find?

/-- A review as a transaction read it, where that was earlier. -/
def asRead (stale : List ReviewRow) (review : ReviewRow) : ReviewRow :=
  (stale.find? fun r => decide (r.id = review.id)).getD review

/-! ## Judging and rewarding -/

/-- `judge`: the status a comment gets, and whether its scan opens a case. -/
def judge (env : Env) (comment : Option String) : EventModerationStatus × Bool :=
  match comment with
  | none => (.APPROVED, false)
  | some text =>
    if trim text = "" then (.APPROVED, false)
    else match env.scanText text with
      | .CLEAN => (.APPROVED, false)
      | .FLAG => (.FLAGGED, true)
      | .BLOCK => (.PENDING, true)

/-- `CoinService.earnedSince` over rows of one type. -/
def earnedSince (db : Db) (userId : UserId) (since : Instant) (type : CoinLedgerType) : Int :=
  ((db.coinLedger.rows.filter fun r =>
    decide (r.userId = userId) && decide (r.type = type) &&
    decide (since ≤ r.createdAt)).map (·.amount)).sum

/-- `rewardFor`: what a review pays, after the rolling cap. -/
def rewardFor (env : Env) (db : Db) (userId : UserId) : Int :=
  let reward : Int := env.settings.economy_review_reward_coins
  let cap : Int := env.settings.economy_review_reward_cap
  let days : Int := env.settings.economy_earning_cap_days
  if reward ≤ 0 ∨ cap ≤ 0 ∨ days ≤ 0 then max reward 0
  else max 0 (min reward (cap - earnedSince db userId (env.now - days * 24 * msPerHour)
    .REVIEW_REWARD))

/-- The reward for writing a review, when there is one. -/
def payReward (env : Env) (userId : UserId) (reviewId : ReviewId) : Act Unit := do
  let db ← get
  let reward := rewardFor env db userId
  if 0 < reward then do
    let _ ← applyCoins env
      { userId := userId, amount := reward, type := .REVIEW_REWARD
        reasonCode := REVIEW_REWARD_REASON, idempotencyKey := reviewRewardKey reviewId
        actorType := .SYSTEM, ref := some (.review reviewId) }
  else return ()

/-! ## Revealing -/

/-- `RATING_TRUST_KEYS`, with the settings they name. -/
def ratingTrust (st : Settings) (rating : Int) : Option Int :=
  if rating = 5 then some st.trust_review_rating_5
  else if rating = 4 then some st.trust_review_rating_4
  else if rating = 3 then some st.trust_review_rating_3
  else if rating = 2 then some st.trust_review_rating_2
  else if rating = 1 then some st.trust_review_rating_1
  else none

/-- The trust movement of a review whose rating is worth `delta`. -/
def ratingMovement (review : ReviewRow) (delta : Int) : TrustMovementInput where
  userId := review.revieweeUserId
  delta := delta
  type := .REVIEW
  reasonCode := REVIEW_RATING_REASON
  idempotencyKey := reviewTrustKey review.id
  actorType := .SYSTEM
  ref := some (.review review.id)

def applyRatingTrust (env : Env) (review : ReviewRow) : Act Unit :=
  match ratingTrust env.settings review.rating with
  | none => return ()
  | some delta =>
    if delta = 0 then return ()
    else do
      let _ ← applyTrust env (ratingMovement review delta)

/-- The update that reveals a review. -/
def revealed (now : Instant) (review : ReviewRow) : ReviewRow :=
  { review with status := .REVEALED, revealedAt := some now }

/-- One review of a pair being revealed, as it was read. -/
def revealReview (env : Env) (affectsTrust : Bool) (review : ReviewRow) : Act Unit :=
  if review.status ≠ .SUBMITTED then return ()
  else do
    assertReviewTransition review.status .REVEALED (some review.id)
    updateRow review.id (revealed env.now)
    whenTx (affectsTrust = true) (applyRatingTrust env review)

def revealPair (env : Env) (pairId : ParticipantId) (outcome : ReviewPairStatus)
    (stale : List ReviewRow) : Act Unit := do
  let found ← findRow pairId
  let pair ← orThrow (.db .recordNotFound) (found : Option ReviewPairRow)
  let foundParticipant ← findRow pair.participantId
  let participant ← orThrow (.db .recordNotFound) (foundParticipant : Option ParticipantRow)
  let foundEvent ← findRow participant.eventId
  let event ← orThrow (.db .recordNotFound) (foundEvent : Option EventRow)
  let affectsTrust := decide (outcome = .REVEALED) ||
    decide (env.settings.review_partial_reveal_affects_trust = 1)
  let db ← get
  ((reviewsOf db pair).map (asRead stale)).forM (revealReview env affectsTrust)
  emit (.review_revealed participant.id event.id event.hostUserId participant.userId outcome env.now)

/-! ## Writing one side -/

/-- Everything `submit` needs of what `loadWritable` reads. -/
structure Writable where
  participantId : ParticipantId
  eventId : EventId
  pairStatus : ReviewPairStatus
  revieweeUserId : UserId
  role : ReviewerRole

def loadWritable (env : Env) (userId : UserId) (participantId : ParticipantId) : Act Writable := do
  let found ← findRow participantId
  let participant ← orThrow (.of .NOT_FOUND) (found : Option ParticipantRow)
  let foundEvent ← findRow participant.eventId
  let event ← orThrow (.db .recordNotFound) (foundEvent : Option EventRow)
  let isHost := decide (event.hostUserId = userId)
  let isGuest := decide (participant.userId = userId)
  guardTx (isHost = true ∨ isGuest = true) (.of .NOT_FOUND)
  let foundPair ← findRow participantId
  let pair ← orThrow (.of .REVIEW_WINDOW_CLOSED) (foundPair : Option ReviewPairRow)
  guardTx (pair.opensAt ≤ env.now ∧ env.now < pair.deadlineAt) (.of .REVIEW_WINDOW_CLOSED)
  guardTx (pair.status = .PENDING ∨ pair.status = .PARTIAL) (.of .REVIEW_WINDOW_CLOSED)
  return { participantId := participant.id, eventId := participant.eventId
           pairStatus := pair.status
           revieweeUserId := if isHost then participant.userId else event.hostUserId
           role := if isHost then .HOST else .GUEST }

/-- A rating is one to five stars. -/
def assertRating (input : SubmitReviewInput) : Act Unit :=
  guardTx (1 ≤ input.rating ∧ input.rating ≤ 5) (.raised .VALIDATION_FAILED (.field "rating" ""))

/-- The row `submit` creates. -/
def newReview (env : Env) (userId : UserId) (input : SubmitReviewInput) (context : Writable)
    (id : ReviewId) : ReviewRow where
  id := id
  eventId := context.eventId
  participantId := context.participantId
  reviewerUserId := userId
  revieweeUserId := context.revieweeUserId
  rating := input.rating
  tags := input.tags.getD []
  comment := input.comment
  status := .SUBMITTED
  moderationStatus := (judge env input.comment).1
  submittedAt := env.now
  revealedAt := none
  editDeadlineAt := env.now + env.settings.review_edit_window_minutes * msPerMinute

/-- The status a submission moves the pair to, from the one it read. -/
def nextStatus : ReviewPairStatus → ReviewPairStatus
  | .PENDING => .PARTIAL
  | _ => .REVEALED

/-- The update a submission writes to the pair. -/
def written (env : Env) (context : Writable) (id : ReviewId) (pair : ReviewPairRow) :
    ReviewPairRow :=
  { fillSlot pair id context.role with
    status := nextStatus context.pairStatus
    revealedAt := if nextStatus context.pairStatus = .REVEALED then some env.now
      else pair.revealedAt }

/-- The rest of `submit`, after `loadWritable`. -/
def finishSubmit (env : Env) (userId : UserId) (input : SubmitReviewInput) (context : Writable)
    (stale : List ReviewRow) : Act OwnReview := do
  let db ← get
  let review := newReview env userId input context (freshId (db.reviews.rows.map (·.id)))
  let inserted ← insertRowOrIgnore review
  guardTx (inserted = true) (.of .ALREADY_REVIEWED)
  whenTx ((judge env input.comment).2 = true)
    (openSubjectCase env .AUTO_BLACKLIST .REVIEW review.id 0)
  let next := nextStatus context.pairStatus
  assertReviewPairTransition context.pairStatus next (some context.participantId)
  updateRow context.participantId (written env context review.id)
  payReward env userId review.id
  whenTx (next = .REVEALED) (revealPair env context.participantId .REVEALED stale)
  return { publicId := review.id, participantId := context.participantId, rating := review.rating
           tags := review.tags, comment := review.comment, submittedAt := env.now
           editableUntil := if next = .REVEALED then none else some review.editDeadlineAt
           revealed := decide (next = .REVEALED) }

def submit (env : Env) (userId : UserId) (participantId : ParticipantId)
    (input : SubmitReviewInput) : Act OwnReview := do
  assertRating input
  let context ← loadWritable env userId participantId
  finishSubmit env userId input context []

/-! ## Editing -/

/-- The review `edit` may still change. -/
def loadEditable (env : Env) (userId : UserId) (participantId : ParticipantId) : Act ReviewRow := do
  let found ← findRow participantId
  let participant ← orThrow (.of .NOT_FOUND) (found : Option ParticipantRow)
  let own ← findRows fun r : ReviewRow =>
    decide (r.participantId = participant.id) && decide (r.reviewerUserId = userId)
  let review ← orThrow (.of .NOT_FOUND) own.head?
  guardTx (review.status = .SUBMITTED) (.of .REVIEW_NOT_EDITABLE)
  guardTx (env.now < review.editDeadlineAt) (.of .REVIEW_NOT_EDITABLE)
  return review

/-- The update an edit writes. -/
def edited (env : Env) (input : SubmitReviewInput) (review : ReviewRow) : ReviewRow :=
  { review with rating := input.rating, tags := input.tags.getD [], comment := input.comment
                moderationStatus := (judge env input.comment).1 }

/-- The rest of `edit`, after the review was read. -/
def finishEdit (env : Env) (input : SubmitReviewInput) (review : ReviewRow) : Act OwnReview := do
  updateRow review.id (edited env input)
  whenTx ((judge env input.comment).2 = true)
    (openSubjectCase env .AUTO_BLACKLIST .REVIEW review.id 0)
  return { publicId := review.id, participantId := review.participantId, rating := input.rating
           tags := input.tags.getD [], comment := input.comment, submittedAt := review.submittedAt
           editableUntil := some review.editDeadlineAt, revealed := false }

def edit (env : Env) (userId : UserId) (participantId : ParticipantId) (input : SubmitReviewInput) :
    Act OwnReview := do
  assertRating input
  let review ← loadEditable env userId participantId
  finishEdit env input review

/-! ## The deadline sweep -/

/-- The status a pair expires to, from the one that was read. -/
def expiredStatus : ReviewPairStatus → ReviewPairStatus
  | .PARTIAL => .EXPIRED_PARTIAL
  | _ => .EXPIRED_EMPTY

/-- The rest of `settleOne`, after the pair was read. -/
def finishSettle (env : Env) (pair : ReviewPairRow) (stale : List ReviewRow) :
    Act (Option ReviewPairStatus) :=
  if pair.status ≠ .PENDING ∧ pair.status ≠ .PARTIAL then return none
  else if env.now < pair.deadlineAt then return none
  else do
    let next := expiredStatus pair.status
    assertReviewPairTransition pair.status next (some pair.participantId)
    updateRow pair.participantId fun p : ReviewPairRow =>
      { p with status := next, revealedAt := some env.now }
    whenTx (next = .EXPIRED_PARTIAL) (revealPair env pair.participantId next stale)
    return some next

def settleOne (env : Env) (pairId : ParticipantId) : Act (Option ReviewPairStatus) := do
  let found ← findRow pairId
  let pair ← orThrow (.db .recordNotFound) (found : Option ReviewPairRow)
  finishSettle env pair []

/-- The pairs one `settleExpired` pass goes through, 200 at most when nothing else is said. -/
def settleExpired (env : Env) (db : Db) (limit : Nat) : List ParticipantId :=
  (((db.reviewPairs.rows.filter fun p =>
    decide (p.status = .PENDING ∨ p.status = .PARTIAL) && decide (p.deadlineAt ≤ env.now)).mergeSort
      fun p q => decide (p.deadlineAt ≤ q.deadlineAt)).take limit).map (·.participantId)

/-! ## Reading -/

/-- The pair a review is the host's or the guest's half of. -/
def pairOf (db : Db) (review : ReviewRow) : Option ReviewPairRow :=
  db.reviewPairs.rows.find? fun p =>
    decide (p.hostReviewId = some review.id) || decide (p.guestReviewId = some review.id)

/-- The filter of `visibleAbout` but for the reviewee: the review may be read by
    the person it is about, and by anybody. -/
def visible (db : Db) (review : ReviewRow) : Bool :=
  decide (review.status = .REVEALED) &&
  decide (review.moderationStatus = .APPROVED ∨ review.moderationStatus = .FLAGGED) &&
  (db.reviewPairs.rows.any fun p =>
    (decide (p.hostReviewId = some review.id) || decide (p.guestReviewId = some review.id)) &&
    REVEALED_PAIR_STATUSES.contains p.status)

/-- `visibleAbout`. -/
def visibleAbout (db : Db) (revieweeUserId : UserId) : List ReviewRow :=
  db.reviews.rows.filter fun r => decide (r.revieweeUserId = revieweeUserId) && visible db r

/-- A review as the world eventually sees it. -/
structure RevealedReview where
  publicId : ReviewId
  rating : Int
  tags : List String
  comment : Option String
  submittedAt : Instant
  revealedAt : Option Instant
  withoutCounterpart : Bool

/-- `listForUser`, of a user who exists; 50 at most when nothing else is said. -/
def listForUser (db : Db) (revieweeUserId : UserId) (limit : Nat) : List RevealedReview :=
  (((visibleAbout db revieweeUserId).mergeSort
    fun r q => decide (q.submittedAt ≤ r.submittedAt)).take (min (max limit 1) 100)).map fun r =>
      { publicId := r.id, rating := r.rating, tags := r.tags, comment := r.comment
        submittedAt := r.submittedAt, revealedAt := r.revealedAt
        withoutCounterpart := (pairOf db r).any fun p => decide (p.status = .EXPIRED_PARTIAL) }

end Reviews

end Paayatam
