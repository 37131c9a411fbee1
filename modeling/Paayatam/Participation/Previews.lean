/-
  Paayatam.Participation.Previews

  The three dialogs that quote before anything is charged: `previewJoin`,
  `previewCancellation` and `previewHostCancellation`.

  Each repeats the checks of the operation it quotes for, in its order and
  against the same clock and settings, and writes nothing.  None of them locks
  a row.
-/

import Paayatam.Economy.Funds
import Paayatam.Events.Service

namespace Paayatam

open Lib

/-! ## Asking to join -/

/-- `JoinPreview`. -/
structure JoinPreview where
  eventTitle : String
  /-- `economy.event_join_coins`, read now. -/
  coins : Int
  status : ParticipantStatus

/-- `previewJoin`: what asking to join would cost and where it would land. -/
def previewJoin (env : Env) (userId : UserId) (eventId : EventId) : Act JoinPreview := do
  assertAllowed env userId .EVENT_JOIN
  let joiner ← loadJoiner env userId
  let found ← findRow eventId
  let event ← orThrow (.of .EVENT_NOT_FOUND) (found : Option EventRow)
  assertJoinable event env.now
  guardTx (event.hostUserId ≠ userId) (.of .HOST_CANNOT_JOIN)
  assertEligible env event joiner
  let existing ← countRows fun p : ParticipantRow =>
    decide (p.eventId = event.id) && decide (p.userId = userId)
  let outstanding ← countRows fun p : ParticipantRow =>
    decide (p.eventId = event.id) && holdsSlot p.status
  guardTx (existing = 0) (.of .DUPLICATE_REQUEST)
  return { eventTitle := event.title, coins := env.settings.economy_event_join_coins
           status := if event.acceptedCount + outstanding < event.capacity then .PENDING
             else .WAITLISTED }

/-! ## Withdrawing -/

/-- `CancellationPreview`. -/
structure CancellationPreview where
  /-- `none` when this cancellation is not priced at all. -/
  bucket : Option CancellationBucket
  price : PenaltyPrice
  /-- The join charge this withdrawal keeps. -/
  joinCharge : Int
  status : ParticipantStatus

/-- `unrefundedJoinCharge`: the ledger's own figure, not today's price. -/
def unrefundedJoinCharge (participantId : ParticipantId) : Act Int := do
  let db ← get
  return |totalOf (db.unrefundedJoinCharges participantId)|

/-- What a cancellation in a bucket costs; outside the buckets it is free. -/
def priceOf (st : Settings) : Option CancellationBucket → PenaltyPrice
  | none => ⟨0, 0⟩
  | some bucket => priceFor st bucket

/-- `previewCancellation`: what withdrawing right now would cost. -/
def previewCancellation (env : Env) (userId : UserId) (participantId : ParticipantId) :
    Act CancellationPreview := do
  let found ← findRow participantId
  let participant ← orThrow (.of .NOT_FOUND) (found : Option ParticipantRow)
  -- the event is a required relation of the row, read with it
  let related ← findRow participant.eventId
  let event ← orThrow (.db .recordNotFound) (related : Option EventRow)
  guardTx (participant.userId = userId) (.of .NOT_FOUND)
  assertParticipantTransition participant.status .CANCELLED_BY_PARTICIPANT none
  let joinCharge ← unrefundedJoinCharge participant.id
  let bucket := bucketFor participant event.startsAt env.now
  return { bucket := bucket, price := priceOf env.settings bucket, joinCharge := joinCharge
           status := participant.status }

/-! ## Calling an event off -/

/-- `HostCancellationPreview`. -/
structure HostCancellationPreview where
  bucket : CancellationBucket
  affected : Nat
  price : PenaltyPrice

/-- `previewHostCancellation`: what cancelling this event would cost its host. -/
def previewHostCancellation (env : Env) (hostUserId : UserId) (eventId : EventId) :
    Act HostCancellationPreview := do
  let found ← findRow eventId
  let event ← orThrow (.of .EVENT_NOT_FOUND) (found : Option EventRow)
  guardTx (event.deletedAt = none ∧ event.hostUserId = hostUserId) (.of .EVENT_NOT_FOUND)
  assertEventTransition event.status .CANCELLED_BY_HOST none
  guardTx (env.now < event.startsAt) (.of .EVENT_ALREADY_STARTED)
  let affected ← countRows fun p : ParticipantRow =>
    decide (p.eventId = event.id) && decide (p.status = .ACCEPTED)
  let bucket := bucketForLateness event.startsAt env.now
  return { bucket := bucket, affected := affected
           price := if 0 < affected then hostPriceFor env.settings bucket else ⟨0, 0⟩ }

end Paayatam
