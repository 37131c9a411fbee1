/-
  Paayatam.Participation.Service

  `ParticipationService`: asking to join, the host's answer, withdrawal,
  expiry and the waiting list.

  Every operation that can move `accepted_count` locks the event first and
  works on the row the lock returned; `takeSeat` and `releaseSeat` are the two
  places the counter moves, and hand back the row with the counter they wrote.
  A request that finds room is PENDING, one that does not is WAITLISTED, and
  `fillFreedSeats` moves the queue up until the host again has `capacity`
  things to answer.

  Reads made before a transaction opens (settings, the membership gate, the
  joiner's profile) are made in the same order here and from the same `Env`.
-/

import Paayatam.Economy.Penalty
import Mathlib.Data.List.MinMax
import Mathlib.Data.Prod.Lex

namespace Paayatam

open Lib

def EVENT_JOIN_REASON : String := "participation.requested"
def EVENT_JOIN_REFUND_REASON : String := "participation.rejected_refund"
def EVENT_JOIN_EXPIRY_REFUND_REASON : String := "participation.expired_refund"
def EVENT_JOIN_WAITLIST_REFUND_REASON : String := "participation.waitlist_refund"

/-- `ParticipationDetail`. -/
structure ParticipationDetail where
  publicId : ParticipantId
  eventPublicId : EventId
  status : ParticipantStatus
  requestedAt : Instant
  hostDeadlineAt : Option Instant
  graceExpiresAt : Option Instant
  acceptedAt : Option Instant
  cancelledAt : Option Instant
  cancellationBucket : Option CancellationBucket
  waitlistRank : Option Nat

/-- What eligibility is judged on. -/
structure Joiner where
  birthYear : Int
  gender : Gender
  cityId : CityId

/-! ## Locks and reads -/

/-- `lockEventByPublicIdForUpdate` and `lockEventForUpdate`. -/
def lockEvent (eventId : EventId) : Act (Option EventRow) := findRow eventId

/-- `lockEventByParticipantPublicIdForUpdate`: the event of a participation. -/
def lockEventByParticipant (participantId : ParticipantId) : Act (Option EventRow) := do
  let participant ← findRow participantId
  match (participant : Option ParticipantRow) with
  | some p => findRow p.eventId
  | none => return none

def readParticipantByPublicId (participantId : ParticipantId) : Act ParticipantRow := do
  let participant ← findRow participantId
  orThrow (.of .NOT_FOUND) participant

/-- The order of the queue, as the one instance its users find. -/
instance (priority := 2000) queueOrder : LinearOrder (ℤ ×ₗ ℕ) :=
  @Prod.Lex.instLinearOrder ℤ ℕ Int.instLinearOrder Nat.instLinearOrder

instance (priority := 2000) queuePreorder : Preorder (ℤ ×ₗ ℕ) :=
  queueOrder.toPartialOrder.toPreorder

instance (priority := 2000) queueDecidableLT : DecidableLT (ℤ ×ₗ ℕ) :=
  queueOrder.toDecidableLT

/-- `p` stands before `q` in the queue: `(requested_at, id)`. -/
def queueKey (p : ParticipantRow) : ℤ ×ₗ ℕ := toLex (p.requestedAt, p.id)

/-- Position in the queue, derived rather than stored. -/
def waitlistRank (participant : ParticipantRow) : Act Nat := do
  let ahead ← countRows fun p : ParticipantRow =>
    decide (p.eventId = participant.eventId) && decide (p.status = .WAITLISTED) &&
    (decide (p.requestedAt < participant.requestedAt) ||
      (decide (p.requestedAt = participant.requestedAt) && decide (p.id < participant.id)))
  return ahead + 1

/-- The rank of a participation that is waiting. -/
def rankWhileWaiting (participant : ParticipantRow) : Act (Option Nat) :=
  if participant.status = .WAITLISTED then some <$> waitlistRank participant else pure none

def toDetail (participant : ParticipantRow) (eventId : EventId) : Act ParticipationDetail := do
  let rank ← rankWhileWaiting participant
  return { publicId := participant.id, eventPublicId := eventId, status := participant.status,
           requestedAt := participant.requestedAt, hostDeadlineAt := participant.hostDeadlineAt,
           graceExpiresAt := participant.graceExpiresAt, acceptedAt := participant.acceptedAt,
           cancelledAt := participant.cancelledAt,
           cancellationBucket := participant.cancellationBucket, waitlistRank := rank }

/-! ## Eligibility -/

def assertAllowed (env : Env) (userId : UserId) (action : GatedAction) : Act Unit :=
  guardTx (env.membershipAllowed userId action = true) (.of .CHANNEL_MEMBERSHIP_REQUIRED)

def loadJoiner (env : Env) (userId : UserId) : Act Joiner := do
  let user ← orThrow (.of .UNAUTHENTICATED) (env.user userId)
  guardTx (user.status ≠ .BANNED) (.of .USER_BANNED)
  guardTx (user.onboardingState = .PROFILE_COMPLETE) (.of .PROFILE_INCOMPLETE)
  let profile ← orThrow (.of .PROFILE_INCOMPLETE) user.profile
  let birthYear ← orThrow (.of .PROFILE_INCOMPLETE) profile.birthYear
  return { birthYear := birthYear, gender := profile.gender, cityId := profile.cityId }

def assertJoinable (event : EventRow) (now : Instant) : Act Unit := do
  guardTx (event.deletedAt = none ∧ event.status = .PUBLISHED) (.of .EVENT_NOT_FOUND)
  guardTx (now < event.startsAt) (.of .EVENT_NOT_JOINABLE)

/-- The gender a restriction asks for. -/
def requiredGender : GenderPreference → Gender
  | .MALE_ONLY => .MALE
  | .FEMALE_ONLY => .FEMALE

def assertEligible (env : Env) (event : EventRow) (joiner : Joiner) : Act Unit := do
  guardTx (joiner.cityId = event.cityId) (.of .NOT_ELIGIBLE_CITY)
  guardTx (∀ g ∈ event.genderPreference, joiner.gender = requiredGender g) (.of .NOT_ELIGIBLE_GENDER)
  let age := env.gregorianYear env.now - joiner.birthYear
  guardTx ((∀ lo ∈ event.minAge, lo ≤ age) ∧ (∀ hi ∈ event.maxAge, age ≤ hi))
    (.of .NOT_ELIGIBLE_AGE)

/-! ## Seats, deadlines, buckets -/

def assertSeatAvailable (event : EventRow) : Act Unit :=
  guardTx (event.acceptedCount < event.capacity)
    (.raised .CAPACITY_EXCEEDED (.seats event.capacity event.acceptedCount))

/-- Takes a seat under the caller's lock; the row with the counter it wrote. -/
def takeSeat (event : EventRow) : Act EventRow := do
  assertSeatAvailable event
  updateRow event.id fun e : EventRow => { e with acceptedCount := e.acceptedCount + 1 }
  return { event with acceptedCount := event.acceptedCount + 1 }

def releaseSeat (event : EventRow) : Act EventRow := do
  updateRow event.id fun e : EventRow => { e with acceptedCount := e.acceptedCount - 1 }
  return { event with acceptedCount := event.acceptedCount - 1 }

/-- A seat for a participation that holds none yet. -/
def takeSeatUnlessHeld (event : EventRow) (status : ParticipantStatus) : Act Unit :=
  if holdsSeat status then return ()
  else do
    assertSeatAvailable event
    let _ ← takeSeat event
    return ()

/-- The seat of a participation that holds one goes back. -/
def releaseSeatIfHeld (event : EventRow) (status : ParticipantStatus) : Act EventRow :=
  if holdsSeat status then releaseSeat event else pure event

/-- The preferred deadline, floored a few minutes from now and never past the
    start. -/
def hostDeadline (now startsAt : Instant) (hours minHoursBefore minResponseMinutes : Nat) :
    Instant :=
  let byResponseWindow := now + hours * msPerHour
  let byEventStart := startsAt - minHoursBefore * msPerHour
  let preferred := min byResponseWindow byEventStart
  let floor := min (now + minResponseMinutes * msPerMinute) startsAt
  max preferred floor

/-- Which side of the thresholds a cancellation fell on; a request that never
    held a seat has no bucket. -/
def bucketFor (participant : ParticipantRow) (startsAt now : Instant) :
    Option CancellationBucket :=
  if participant.status ≠ .ACCEPTED then none
  else if participant.graceExpiresAt.any (fun g => decide (now ≤ g)) then some .GRACE
  else some (bucketForLateness startsAt now)

/-- The join charges of a participation that have not been reversed. -/
def Db.unrefundedJoinCharges (db : Db) (participantId : ParticipantId) : List CoinLedgerRow :=
  db.coinLedger.rows.filter fun r =>
    decide (r.ref = some (.event_participant participantId)) &&
    decide (r.type = .EVENT_JOIN_SPEND) && !db.isReversed r.id

def refundJoinCharge (env : Env) (participantId : ParticipantId) (reasonCode : String)
    (actorType : ActorType) (actorId : Option UserId) : Act Int := do
  let db ← get
  reverseCharges env (db.unrefundedJoinCharges participantId) reasonCode actorType actorId

/-! ## Waitlist promotion -/

/-- The row waits in the queue of `eventId`. -/
def waitsFor (eventId : EventId) (p : ParticipantRow) : Bool :=
  decide (p.eventId = eventId) && decide (p.status = .WAITLISTED)

/-- The update a promotion writes. -/
def ParticipantRow.promoted (now hostDeadlineAt : Instant) (p : ParticipantRow) : ParticipantRow :=
  { p with status := .PENDING, promotedAt := some now, hostDeadlineAt := some hostDeadlineAt
           version := p.version + 1 }

/-- Promotes up to `n` guests, oldest request first; the ids it promoted. -/
def promoteNext (env : Env) (event : EventRow) (hostDeadlineAt : Instant) :
    Nat → Act (List ParticipantId)
  | 0 => return []
  | n + 1 => do
    let waiting ← findRows (waitsFor event.id)
    match waiting.argmin queueKey with
    | none => return []
    | some next =>
      assertParticipantTransition next.status .PENDING (some next.id)
      updateRow next.id (ParticipantRow.promoted env.now hostDeadlineAt)
      emit (.waitlist_promoted next.id event.id event.hostUserId next.userId hostDeadlineAt)
      let rest ← promoteNext env event hostDeadlineAt n
      return next.id :: rest

/-- Moves the queue up until the host again has `capacity` things to answer.
    The source loops while `acceptedCount + outstanding < capacity`, counting
    `outstanding` up itself: that is as many rounds as there are free slots. -/
def fillFreedSeats (env : Env) (event : EventRow) : Act (List ParticipantId) := do
  let st := env.settings
  let outstanding ← countRows fun p : ParticipantRow =>
    decide (p.eventId = event.id) && holdsSlot p.status
  let hostDeadlineAt := hostDeadline env.now event.startsAt st.waitlist_promotion_deadline_hours
    st.waitlist_min_hours_before_event st.participation_min_response_minutes
  promoteNext env event hostDeadlineAt (event.capacity - event.acceptedCount - outstanding).toNat

/-- One event's promotion pass, under its own lock. -/
def promoteForEvent (env : Env) (eventId : EventId) : Act Nat := do
  let event ← lockEvent eventId
  match event with
  | none => return 0
  | some event =>
    if event.deletedAt ≠ none ∨ event.status ≠ .PUBLISHED then return 0
    else if event.startsAt ≤ env.now then return 0
    else do
      let promoted ← fillFreedSeats env event
      return promoted.length

/-! ## Asking, deciding, withdrawing -/

/-- What asking costs, last, so that every refusal before it costs nothing; a
    free request writes no row at all. -/
def chargeJoin (env : Env) (participant : ParticipantRow) : Act Unit :=
  let joinCost : Int := env.settings.economy_event_join_coins
  if 0 < joinCost then do
    let _ ← applyCoins env
      { userId := participant.userId, amount := -joinCost, type := .EVENT_JOIN_SPEND
        reasonCode := EVENT_JOIN_REASON
        idempotencyKey := .eventJoinSpend participant.eventId participant.userId
        actorType := .USER, actorId := some participant.userId
        ref := some (.event_participant participant.id) }
    return ()
  else return ()

/-- The row `join` inserts: PENDING with a deadline when the host has room to be
    asked, WAITLISTED otherwise. -/
def requestRow (env : Env) (event : EventRow) (userId : UserId) (newId : ParticipantId)
    (roomToAsk : Bool) : ParticipantRow :=
  let st := env.settings
  { id := newId, eventId := event.id, userId := userId
    status := if roomToAsk then .PENDING else .WAITLISTED
    requestedAt := env.now, decidedAt := none, acceptedAt := none, cancelledAt := none
    graceExpiresAt := none
    hostDeadlineAt := if roomToAsk then
        some (hostDeadline env.now event.startsAt st.participation_host_response_hours
          st.participation_min_hours_before_event st.participation_min_response_minutes)
      else none
    promotedAt := none, cancellationReason := none, cancellationBucket := none
    penaltyLedgerId := none, attended := none, noShowNotifiedAt := none, version := 0 }

/-- `join`.  `newId` is the id the insert generates. -/
def join (env : Env) (userId : UserId) (eventId : EventId) (newId : ParticipantId) :
    Act ParticipationDetail := do
  assertAllowed env userId .EVENT_JOIN
  let joiner ← loadJoiner env userId
  let locked ← lockEvent eventId
  let event ← orThrow (.of .EVENT_NOT_FOUND) locked
  assertJoinable event env.now
  guardTx (event.hostUserId ≠ userId) (.of .HOST_CANNOT_JOIN)
  assertEligible env event joiner
  -- Room in the host's queue, which is not the same as an empty seat.
  let outstanding ← countRows fun p : ParticipantRow =>
    decide (p.eventId = event.id) && holdsSlot p.status
  let roomToAsk := decide (event.acceptedCount + outstanding < event.capacity)
  let participant := requestRow env event userId newId roomToAsk
  let inserted ← insertRowOrIgnore participant
  guardTx (inserted = true) (.of .DUPLICATE_REQUEST)
  updateRow event.id fun e : EventRow => { e with requestCount := e.requestCount + 1 }
  emit (.participation_requested participant.id event.id event.hostUserId userId participant.status)
  chargeJoin env participant
  toDetail participant event.id

/-- `decide`: the locking and ownership check the host's two answers share. -/
def decideParticipation (hostUserId : UserId) (participantId : ParticipantId)
    (apply : EventRow → ParticipantRow → Act ParticipantRow) : Act ParticipationDetail := do
  let locked ← lockEventByParticipant participantId
  let event ← orThrow (.of .NOT_FOUND) locked
  guardTx (event.hostUserId = hostUserId) (.of .NOT_FOUND)
  let participant ← readParticipantByPublicId participantId
  let updated ← apply event participant
  toDetail updated event.id

/-- The update `accept` writes. -/
def ParticipantRow.accepted (now : Instant) (graceMinutes : Nat) (p : ParticipantRow) :
    ParticipantRow :=
  { p with status := .ACCEPTED, decidedAt := some now, acceptedAt := some now
           graceExpiresAt := some (now + graceMinutes * msPerMinute), version := p.version + 1 }

/-- The host says yes, and this is where a seat is taken. -/
def accept (env : Env) (hostUserId : UserId) (participantId : ParticipantId) :
    Act ParticipationDetail := do
  let graceMinutes := env.settings.participation_grace_minutes
  decideParticipation hostUserId participantId fun event participant => do
    assertParticipantTransition participant.status .ACCEPTED (some participant.id)
    takeSeatUnlessHeld event participant.status
    updateRow participant.id (ParticipantRow.accepted env.now graceMinutes)
    emit (.participation_accepted participant.id event.id participant.userId)
    return participant.accepted env.now graceMinutes

/-- The row `seatSeedParticipant` inserts. -/
def seededRow (env : Env) (eventId : EventId) (userId : UserId) (newId : ParticipantId)
    (graceMinutes : Nat) : ParticipantRow :=
  { id := newId, eventId := eventId, userId := userId, status := .ACCEPTED
    requestedAt := env.now, decidedAt := some env.now, acceptedAt := some env.now
    cancelledAt := none, graceExpiresAt := some (env.now + graceMinutes * msPerMinute)
    hostDeadlineAt := none, promotedAt := none, cancellationReason := none
    cancellationBucket := none, penaltyLedgerId := none, attended := none
    noShowNotifiedAt := none, version := 0 }

/-- Seats a synthetic guest of the marketing seed module directly. -/
def seatSeedParticipant (env : Env) (eventId : EventId) (userId : UserId) (newId : ParticipantId) :
    Act Unit := do
  let graceMinutes := env.settings.participation_grace_minutes
  let locked ← lockEvent eventId
  let event ← orThrow (.of .NOT_FOUND) locked
  assertSeatAvailable event
  let event ← takeSeat event
  insertRow (seededRow env event.id userId newId graceMinutes)

/-- The update `reject` writes. -/
def ParticipantRow.rejected (now : Instant) (p : ParticipantRow) : ParticipantRow :=
  { p with status := .REJECTED, decidedAt := some now, version := p.version + 1 }

/-- The host says no; the slot goes to the next in the queue and the coins back. -/
def reject (env : Env) (hostUserId : UserId) (participantId : ParticipantId) :
    Act ParticipationDetail :=
  decideParticipation hostUserId participantId fun event participant => do
    assertParticipantTransition participant.status .REJECTED (some participant.id)
    let event ← releaseSeatIfHeld event participant.status
    updateRow participant.id (ParticipantRow.rejected env.now)
    let refunded ← refundJoinCharge env participant.id EVENT_JOIN_REFUND_REASON .USER
      (some hostUserId)
    let _ ← fillFreedSeats env event
    emit (.participation_rejected participant.id event.id participant.userId refunded)
    return participant.rejected env.now

/-- The charge of a priced withdrawal, and its ledger row. -/
def chargeBucket (env : Env) (participantId : ParticipantId) (userId : UserId) :
    Option CancellationBucket → Act (Option LedgerId)
  | none => return none
  | some bucket => do
    let penalty ← chargeParticipant env participantId userId bucket
    return penalty.ledgerId

/-- The update `cancel` writes. -/
def ParticipantRow.withdrawn (now : Instant) (bucket : Option CancellationBucket)
    (reason : Option String) (penaltyLedgerId : Option LedgerId) (p : ParticipantRow) :
    ParticipantRow :=
  { p with status := .CANCELLED_BY_PARTICIPANT, cancelledAt := some now
           cancellationBucket := bucket, cancellationReason := reason
           penaltyLedgerId := penaltyLedgerId, version := p.version + 1 }

/-- The participant withdraws, and pays for it if they left it late. -/
def cancel (env : Env) (userId : UserId) (participantId : ParticipantId)
    (reason : Option String) : Act ParticipationDetail := do
  let locked ← lockEventByParticipant participantId
  let event ← orThrow (.of .NOT_FOUND) locked
  let participant ← readParticipantByPublicId participantId
  guardTx (participant.userId = userId) (.of .NOT_FOUND)
  assertParticipantTransition participant.status .CANCELLED_BY_PARTICIPANT (some participant.id)
  let event ← releaseSeatIfHeld event participant.status
  let bucket := bucketFor participant event.startsAt env.now
  let penaltyLedgerId ← chargeBucket env participant.id userId bucket
  let withdrawn := ParticipantRow.withdrawn env.now bucket reason penaltyLedgerId
  updateRow participant.id withdrawn
  emit (.participation_cancelled participant.id event.id event.hostUserId participant.status)
  let _ ← fillFreedSeats env event
  toDetail (withdrawn participant) event.id

/-! ## Expiry -/

/-- The update both expiries write. -/
def ParticipantRow.expired (p : ParticipantRow) : ParticipantRow :=
  { p with status := .EXPIRED, version := p.version + 1 }

/-- `expireOne`: a request whose host deadline has passed. -/
def expireOne (env : Env) (participantId : ParticipantId) : Act Bool := do
  let locked ← lockEventByParticipant participantId
  match locked with
  | none => return false
  | some event =>
    let participant ← readParticipantByPublicId participantId
    if participant.status ≠ .PENDING then return false
    else if participant.hostDeadlineAt.all (fun d => decide (env.now < d)) then return false
    else do
      assertParticipantTransition participant.status .EXPIRED (some participant.id)
      updateRow participant.id ParticipantRow.expired
      let refunded ← refundJoinCharge env participant.id EVENT_JOIN_EXPIRY_REFUND_REASON .SYSTEM none
      emit (.participation_expired participant.id event.id participant.userId refunded false)
      let _ ← fillFreedSeats env event
      return true

/-- `expireWaitlistedOne`: a waiting-list place whose activity has started. -/
def expireWaitlistedOne (env : Env) (participantId : ParticipantId) : Act Bool := do
  let locked ← lockEventByParticipant participantId
  match locked with
  | none => return false
  | some event =>
    if env.now < event.startsAt then return false
    else do
      let participant ← readParticipantByPublicId participantId
      if participant.status ≠ .WAITLISTED then return false
      else do
        assertParticipantTransition participant.status .EXPIRED (some participant.id)
        updateRow participant.id ParticipantRow.expired
        let refunded ← refundJoinCharge env participant.id EVENT_JOIN_WAITLIST_REFUND_REASON
          .SYSTEM none
        emit (.participation_expired participant.id event.id participant.userId refunded true)
        return true

end Paayatam
