/-
  Paayatam.Events.Lifecycle

  `EventLifecycleService`: what the clock does to an event.

  `retireOne` moves a started event to ONGOING, to COMPLETED once it is over,
  or to EXPIRED when nobody was seated.  `settleAttendance` scans for finished
  events outside any transaction, and `settleOne` then marks the seated
  guests of each as having attended; it re-reads only whether the event was
  deleted, so what it relies on is what the scan saw.  `markNoShow` is the
  host's report that a guest did not come.
-/

import Paayatam.Events.Service

namespace Paayatam

open Lib

def ATTENDANCE_REASON : String := "attendance.completed"

/-! ## Retiring -/

/-- Where a started event goes, from the status and the number seated. -/
def retiredStatus (current : EventStatus) (seated : Nat) (endsAt now : Instant) : EventStatus :=
  if current = .PUBLISHED ∧ seated = 0 then .EXPIRED
  else if endsAt ≤ now then .COMPLETED
  else .ONGOING

/-- PUBLISHED → COMPLETED is not a legal edge, so such an event passes through
    ONGOING; any other retirement is one edge. -/
def assertRetirePath (locked : EventRow) (next : EventStatus) : Act Unit :=
  if next = .COMPLETED ∧ locked.status = .PUBLISHED then do
    assertEventTransition locked.status .ONGOING (some locked.id)
    updateRow locked.id fun e : EventRow => { e with status := .ONGOING }
    assertEventTransition .ONGOING .COMPLETED (some locked.id)
  else assertEventTransition locked.status next (some locked.id)

def retireOne (env : Env) (eventId : EventId) : Act (Option EventStatus) := do
  let found ← lockEvent eventId
  match found with
  | none => return none
  | some locked =>
    if locked.deletedAt ≠ none then return none
    else if locked.status ≠ .PUBLISHED ∧ locked.status ≠ .ONGOING then return none
    else if env.now < locked.startsAt then return none
    else do
      let seated ← countRows fun p : ParticipantRow =>
        decide (p.eventId = locked.id) && decide (p.status = .ACCEPTED)
      let next := retiredStatus locked.status seated locked.endsAt env.now
      if next = locked.status then return none
      else do
        assertRetirePath locked next
        updateRow locked.id fun e : EventRow => { e with status := next, version := e.version + 1 }
        return some next

/-! ## Settling attendance -/

/-- The candidates of one `settleAttendance` scan. -/
def attendanceCandidates (env : Env) (db : Db) : List EventId :=
  let settledBefore := env.now - env.settings.participation_settlement_delay_hours * msPerHour
  (db.events.rows.filter fun e =>
    decide (e.status = .COMPLETED) && e.deletedAt.isNone && decide (e.endsAt ≤ settledBefore) &&
    db.participants.rows.any fun p => decide (p.eventId = e.id) && decide (p.status = .ACCEPTED)).map
      (·.id)

/-- What a user's attendance has earned since midnight. -/
def Db.attendanceSince (db : Db) (userId : UserId) (since : Instant) : Int :=
  ((db.trustLedger.rows.filter fun r =>
    decide (r.userId = userId) && decide (r.type = .ATTENDANCE) && decide (since ≤ r.createdAt)).map
      (·.delta)).sum

/-- Trust for turning up, capped per local day. -/
def creditAttendance (env : Env) (userId : UserId) (participantId : ParticipantId) : Act Unit := do
  let delta : Int := env.settings.trust_attendance_delta
  let dailyCap : Int := env.settings.trust_attendance_daily_cap
  if delta ≤ 0 ∨ dailyCap ≤ 0 then return ()
  else do
    let db ← get
    let remaining := dailyCap - db.attendanceSince userId (env.startOfDay env.now)
    if remaining ≤ 0 then return ()
    else do
      let _ ← applyTrust env
        { userId := userId, delta := min delta remaining, type := .ATTENDANCE
          reasonCode := ATTENDANCE_REASON, idempotencyKey := .attendance participantId
          actorType := .SYSTEM, ref := some (.event_participant participantId) }

/-- `ReviewService.openForParticipant`: the review window, once per participation. -/
def openForParticipant (env : Env) (participantId : ParticipantId) (eventId : EventId)
    (endsAt : Instant) : Act Unit := do
  let _ ← (insertRowOrIgnore
    { participantId := participantId, eventId := eventId
      opensAt := endsAt + env.settings.review_window_opens_hours * msPerHour
      deadlineAt := endsAt + env.settings.review_window_deadline_days * 24 * msPerHour :
      ReviewPairRow } : Act Bool)

/-- `user.isSeed`. -/
def isSeedUser (env : Env) (userId : UserId) : Bool := (env.user userId).any (·.isSeed)

/-- The update that records an attended participation. -/
def ParticipantRow.attendedNow (p : ParticipantRow) : ParticipantRow :=
  { p with status := .COMPLETED, attended := some true, version := p.version + 1 }

/-- One seated guest of a finished event. -/
def settleGuest (env : Env) (event : EventRow) (attendee : ParticipantRow) : Act Unit := do
  assertParticipantTransition attendee.status .COMPLETED (some attendee.id)
  updateRow attendee.id ParticipantRow.attendedNow
  if isSeedUser env attendee.userId then return ()
  else do
    creditAttendance env attendee.userId attendee.id
    openForParticipant env attendee.id event.id event.endsAt

/-- `settleOne`, the transaction of it; the referral payouts that follow are
    transactions of another service.  Answers the users it settled. -/
def settleOne (env : Env) (eventId : EventId) : Act (List UserId) := do
  let found ← lockEvent eventId
  match found with
  | none => return []
  | some locked =>
    if locked.deletedAt ≠ none then return []
    else do
      let attendees ← findRows fun p : ParticipantRow =>
        decide (p.eventId = locked.id) && decide (p.status = .ACCEPTED)
      attendees.forM (settleGuest env locked)
      return (attendees.filter fun p => !isSeedUser env p.userId).map (·.userId)

/-! ## No-shows -/

/-- The update that records an absence. -/
def ParticipantRow.markedAbsent (penaltyLedgerId : Option LedgerId) (now : Instant)
    (p : ParticipantRow) : ParticipantRow :=
  { p with status := .NO_SHOW, attended := some false, cancellationBucket := some .NO_SHOW
           penaltyLedgerId := penaltyLedgerId, noShowNotifiedAt := some now
           version := p.version + 1 }

/-- The host reports that somebody did not turn up. -/
def markNoShow (env : Env) (hostUserId : UserId) (participantId : ParticipantId) : Act Unit := do
  let found ← lockEventByParticipant participantId
  let event ← orThrow (.of .NOT_FOUND) found
  guardTx (event.hostUserId = hostUserId) (.of .NOT_FOUND)
  let participant ← readParticipantByPublicId participantId
  assertParticipantTransition participant.status .NO_SHOW (some participant.id)
  guardTx (event.endsAt ≤ env.now) (.of .INVALID_STATE_TRANSITION)
  guardTx (event.hostAbsentAt = none) (.of .INVALID_STATE_TRANSITION)
  let penalty ← chargeParticipant env participant.id participant.userId .NO_SHOW
  updateRow participant.id (ParticipantRow.markedAbsent penalty.ledgerId env.now)
  emit (.participation_no_show participant.id event.id participant.userId penalty.coinsCharged
    (env.now + env.settings.cancellation_dispute_window_days * 24 * msPerHour))

end Paayatam
