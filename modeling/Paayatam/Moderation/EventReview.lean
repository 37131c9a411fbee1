/-
  Paayatam.Moderation.EventReview

  The moderators' and the reports' hands on an event's status:
  `AdminOperationsService.moderateEvent`, the effect of a decided case
  (`applyEventDecision`), and the hiding of a reported event (`escalate` in
  `ReportService`).

  None of the three locks the event.  Each reads it, decides from what it
  read, and writes the decided status on whatever row is there by then; the
  decision is a function of the row read and the write a function of the row
  found, as in `EventService.update`.
-/

import Paayatam.Events.Service

namespace Paayatam

open Lib

/-- A decided status, with the moderation verdict it carries. -/
structure StatusWrite where
  status : EventStatus
  moderationStatus : Option EventModerationStatus

/-- The write of a decided status, on whatever row it finds. -/
def StatusWrite.apply (w : StatusWrite) (e : EventRow) : EventRow :=
  { e with status := w.status, moderationStatus := w.moderationStatus.getD e.moderationStatus
           version := e.version + 1 }

inductive ModerationAction where
  | HIDE | PUBLISH | REJECT
  deriving DecidableEq

def ModerationAction.target : ModerationAction → EventStatus
  | .HIDE => .HIDDEN
  | .PUBLISH => .PUBLISHED
  | .REJECT => .REJECTED

/-- A moderator's verdict on a case. -/
inductive CaseDecision where
  | APPROVED | REJECTED
  deriving DecidableEq

/-- `assertEventTransition` in a decision made from the row that was read. -/
def checkEventTransition (existing : EventRow) (target : EventStatus) : Except AppError Unit :=
  require (canTransition EVENT_TRANSITIONS existing.status target = true)
    (eventTransitionError existing.status target (some existing.id))

/-- What `moderateEvent` decides from the row it read. -/
def planModerate (action : ModerationAction) (existing : EventRow) : Except AppError StatusWrite := do
  require (existing.deletedAt = none) (.of .EVENT_NOT_FOUND)
  checkEventTransition existing action.target
  return { status := action.target
           moderationStatus := some (if action = .PUBLISH then .APPROVED else .REJECTED) }

/-- What a decided case does to its event: only HIDDEN and PENDING_MODERATION
    have anywhere to go. -/
def planEventDecision (decision : CaseDecision) (existing : EventRow) :
    Except AppError (Option StatusWrite) := do
  if existing.status ≠ .HIDDEN ∧ existing.status ≠ .PENDING_MODERATION then return none
  else
    let next := if decision = .APPROVED then EventStatus.PUBLISHED else .REJECTED
    checkEventTransition existing next
    return some { status := next
                  moderationStatus := some (if decision = .APPROVED then .APPROVED else .REJECTED) }

/-- What the report threshold does to an event: a published one is hidden. -/
def planEscalate (existing : EventRow) : Except AppError (Option StatusWrite) := do
  if existing.status = .PUBLISHED then
    checkEventTransition existing .HIDDEN
    return some { status := .HIDDEN, moderationStatus := none }
  else return none

/-- What the host of a moderated event is told. -/
def announce (event : EventRow) : ModerationAction → Act Unit
  | .HIDE => emit (.moderation_content_hidden event.id event.hostUserId none)
  | .PUBLISH => emit (.moderation_content_restored event.id event.hostUserId)
  | .REJECT => return ()

/-- The rest of `moderateEvent`, after the event was read. -/
def finishModerate (action : ModerationAction) (event : EventRow) : Act EventStatus := do
  let write ← fromExcept (planModerate action event)
  updateRow event.id write.apply
  announce event action
  return write.status

/-- `moderateEvent`, of a moderator who may. -/
def moderateEvent (mayModerate : Bool) (eventId : EventId) (action : ModerationAction)
    (reason : String) : Act EventStatus := do
  guardTx (mayModerate = true) (.of .FORBIDDEN)
  guardTx (5 ≤ utf16Length (trim reason)) (.raised .VALIDATION_FAILED (.field "reason" ""))
  let found ← findRow eventId
  let event ← orThrow (.of .EVENT_NOT_FOUND) (found : Option EventRow)
  finishModerate action event

/-- Writes a decided status, if one was decided, and tells the host of a restored
    event. -/
def writeDecision (event : EventRow) : Option StatusWrite → Act Unit
  | none => return ()
  | some w => do
    updateRow event.id w.apply
    whenTx (w.status = .PUBLISHED) (emit (.moderation_content_restored event.id event.hostUserId))

/-- The rest of `applyEventDecision`, after the event was read. -/
def finishEventDecision (decision : CaseDecision) (event : EventRow) : Act Unit := do
  let write ← fromExcept (planEventDecision decision event)
  writeDecision event write

/-- `applyEventDecision`. -/
def applyEventDecision (eventId : EventId) (decision : CaseDecision) : Act Unit := do
  let found ← findRow eventId
  match (found : Option EventRow) with
  | none => return ()
  | some event => finishEventDecision decision event

/-- `decideCase` of the admin service, for the cases that are not disputes. -/
def decideCase (env : Env) (adminUserId : UserId) (mayModerate : Bool) (caseId : CaseId)
    (decision : CaseDecision) (note : String) : Act Unit := do
  guardTx (mayModerate = true) (.of .FORBIDDEN)
  guardTx (3 ≤ utf16Length (trim note)) (.of .VALIDATION_FAILED)
  let found ← findRow caseId
  let existing ← orThrow (.of .NOT_FOUND) (found : Option CaseRow)
  guardTx (existing.trigger ≠ .DISPUTE) (.of .WRONG_CASE_DECISION)
  guardTx (existing.status = .OPEN ∨ existing.status = .IN_REVIEW ∨ existing.status = .ESCALATED)
    (.of .INVALID_STATE_TRANSITION)
  updateRow caseId fun c : CaseRow =>
    { c with status := if decision = .APPROVED then .APPROVED else .REJECTED
             decision := some (if decision = .APPROVED then "APPROVED" else "REJECTED")
             decisionNote := some (trim note), decidedBy := some adminUserId
             decidedAt := some env.now }
  if existing.subjectType = .EVENT then applyEventDecision existing.subjectId decision
  else return ()

/-- An open case about an event, whatever opened it. -/
def isOpenEventCase (eventId : EventId) (c : CaseRow) : Bool :=
  decide (c.subjectType = .EVENT) && decide (c.subjectId = eventId) &&
  decide (c.status = .OPEN ∨ c.status = .IN_REVIEW ∨ c.status = .ESCALATED)

/-- The report count on the open case about an event, or a new case. -/
def countReports (env : Env) (eventId : EventId) (reportCount : Nat) : Option CaseRow → Act Unit
  | some c => updateRow c.id fun m : CaseRow => { m with reportCount := reportCount }
  | none => do
    let db ← get
    insertRow
      { id := freshId (db.cases.rows.map (·.id)), subjectType := .EVENT, subjectId := eventId
        trigger := .REPORT_THRESHOLD, status := .OPEN, reportCount := reportCount
        decision := none, decisionNote := none, decidedBy := none, decidedAt := none
        assignedAdminId := none, createdAt := env.now : CaseRow }

/-- The rest of `escalate` for an event, after the event was read.  While a report
    about safety stands, the host is told nothing. -/
def finishEscalate (reportCount : Nat) (notifyOwner : Bool) (event : EventRow) : Act Unit := do
  let write ← fromExcept (planEscalate event)
  writeDecision event write
  whenTx (notifyOwner = true)
    (emit (.moderation_content_hidden event.id event.hostUserId (some reportCount)))

/-- `escalate` for an event: find or open the case, hide the event, tell its host. -/
def escalateEvent (env : Env) (eventId : EventId) (reportCount : Nat) (notifyOwner : Bool) :
    Act Unit := do
  let existing ← findRows (isOpenEventCase eventId)
  countReports env eventId reportCount existing.head?
  let found ← findRow eventId
  let event ← orThrow (.db .recordNotFound) (found : Option EventRow)
  finishEscalate reportCount notifyOwner event

end Paayatam
