/-
  Paayatam.Events.NoShowClaim

  `NoShowClaimService`: a guest disputes an absence, guests report a host who
  did not come, and a moderator decides.

  An upheld dispute undoes one no-show.  An upheld host absence charges the
  host, reverses what the host was paid for the event, stamps `hostAbsentAt`,
  refunds every seated guest and undoes every no-show the host recorded.  Both
  run under the event lock; the case itself is read before it.
-/

import Paayatam.Events.Lifecycle

namespace Paayatam

open Lib

def NO_SHOW_DISPUTE_UPHELD_REASON : String := "no_show.dispute_upheld"
def HOST_ABSENT_REASON : String := "no_show.host_absent"
def MIN_STATEMENT : Nat := 10
def MAX_STATEMENT : Nat := 500

def OPEN_CASE_STATUSES : List ModerationCaseStatus := [.OPEN, .IN_REVIEW, .ESCALATED]

/-- `SEATED`: the statuses of a participation that had a place. -/
def SEATED : List ParticipantStatus := [.ACCEPTED, .COMPLETED, .NO_SHOW]

def validStatement (statement : String) : Except AppError String := do
  let text := trim statement
  require (MIN_STATEMENT ≤ utf16Length text ∧ utf16Length text ≤ MAX_STATEMENT)
    (.raised .VALIDATION_FAILED (.field "statement" ""))
  return text

/-! ## Filing -/

def assertNotClaimed (kind : NoShowClaimKind) (eventId : EventId) (authorUserId : UserId) :
    Act Unit := do
  let existing ← countRows fun c : NoShowClaimRow =>
    decide (c.kind = kind) && decide (c.eventId = eventId) && decide (c.authorUserId = authorUserId)
  guardTx (existing = 0) (.of .ALREADY_CLAIMED)

/-- `writeClaim`: a claim that lost the race to the unique index is ALREADY_CLAIMED. -/
def writeClaim (env : Env) (eventId : EventId) (kind : NoShowClaimKind)
    (participantId : Option ParticipantId) (authorUserId : UserId) (statement : String)
    (caseId : CaseId) : Act Unit := do
  let db ← get
  let inserted ← insertRowOrIgnore
    { id := freshId (db.claims.rows.map (·.id)), eventId := eventId, kind := kind
      participantId := participantId, authorUserId := authorUserId, statement := statement
      moderationCaseId := some caseId, createdAt := env.now : NoShowClaimRow }
  guardTx (inserted = true) (.of .ALREADY_CLAIMED)

/-- A case of this service: about one participation or one event, by dispute. -/
def isDisputeAbout (subjectType : ModerationSubjectType) (subjectId : Nat) (c : CaseRow) : Bool :=
  decide (c.subjectType = subjectType) && decide (c.subjectId = subjectId) &&
  decide (c.trigger = .DISPUTE) && OPEN_CASE_STATUSES.contains c.status

def openDispute (env : Env) (subjectType : ModerationSubjectType) (subjectId : Nat)
    (reportCount : Nat) : Act CaseId := do
  let db ← get
  let id := freshId (db.cases.rows.map (·.id))
  insertRow
    { id := id, subjectType := subjectType, subjectId := subjectId, trigger := .DISPUTE
      status := .OPEN, reportCount := reportCount, decision := none, decisionNote := none
      decidedBy := none, decidedAt := none, assignedAdminId := none, createdAt := env.now : CaseRow }
  return id

/-- `loadDisputable`: the participation a guest may dispute now. -/
def loadDisputable (env : Env) (userId : UserId) (participantId : ParticipantId) :
    Act ParticipantRow := do
  let found ← findRow participantId
  let participant ← orThrow (.of .NOT_FOUND) (found : Option ParticipantRow)
  guardTx (participant.userId = userId) (.of .NOT_FOUND)
  guardTx (participant.status = .NO_SHOW) (.of .INVALID_STATE_TRANSITION)
  let notifiedAt ← orThrow (.of .CLAIM_WINDOW_CLOSED) participant.noShowNotifiedAt
  guardTx (env.now ≤ notifiedAt +
    env.settings.cancellation_dispute_window_days * 24 * msPerHour) (.of .CLAIM_WINDOW_CLOSED)
  assertNotClaimed .GUEST_ABSENT_DISPUTE participant.eventId userId
  return participant

def dispute (env : Env) (userId : UserId) (participantId : ParticipantId) (statement : String) :
    Act Unit := do
  let text ← fromExcept (validStatement statement)
  let seat ← loadDisputable env userId participantId
  let caseId ← openDispute env .PARTICIPATION seat.id 1
  writeClaim env seat.eventId .GUEST_ABSENT_DISPUTE (some seat.id) userId text caseId

/-- `loadReportable`: the participation whose host may be reported absent now. -/
def loadReportable (env : Env) (userId : UserId) (participantId : ParticipantId) :
    Act ParticipantRow := do
  let found ← findRow participantId
  let participant ← orThrow (.of .NOT_FOUND) (found : Option ParticipantRow)
  guardTx (participant.userId = userId) (.of .NOT_FOUND)
  guardTx (SEATED.contains participant.status = true) (.of .INVALID_STATE_TRANSITION)
  let foundEvent ← findRow participant.eventId
  let event ← orThrow (.of .NOT_FOUND) (foundEvent : Option EventRow)
  guardTx (event.endsAt ≤ env.now) (.of .INVALID_STATE_TRANSITION)
  guardTx (event.hostAbsentAt = none) (.of .INVALID_STATE_TRANSITION)
  guardTx (env.now ≤ event.endsAt +
    env.settings.cancellation_dispute_window_days * 24 * msPerHour) (.of .CLAIM_WINDOW_CLOSED)
  assertNotClaimed .HOST_ABSENT_REPORT event.id userId
  return participant

/-- The open case about an evening, or a new one. -/
def joinOrOpenCase (env : Env) (eventId : EventId) : Option CaseRow → Act CaseId
  | some c => return c.id
  | none => openDispute env .EVENT eventId 0

def reportHostAbsent (env : Env) (userId : UserId) (participantId : ParticipantId)
    (statement : String) : Act Unit := do
  let text ← fromExcept (validStatement statement)
  let seat ← loadReportable env userId participantId
  let found ← lockEvent seat.eventId
  let event ← orThrow (.of .NOT_FOUND) found
  let existing ← findRows (isDisputeAbout .EVENT seat.eventId)
  let caseId ← joinOrOpenCase env seat.eventId existing.head?
  writeClaim env seat.eventId .HOST_ABSENT_REPORT (some seat.id) userId text caseId
  let reporters ← countRows fun c : NoShowClaimRow =>
    decide (c.moderationCaseId = some caseId) && decide (c.kind = .HOST_ABSENT_REPORT)
  updateRow caseId fun c : CaseRow => { c with reportCount := reporters }
  whenTx (existing.head? = none)
    (emit (.no_show_host_absent_reported caseId event.id event.hostUserId
      (env.now + env.settings.cancellation_response_window_hours * msPerHour)))

/-! ## Undoing one no-show -/

/-- The coin half of an undone no-show: the penalty row, unless already reversed. -/
def returnPenalty (env : Env) (adminUserId : UserId) : Option LedgerId → Act Int
  | none => return 0
  | some ledgerId => do
    let found ← findRow ledgerId
    let charge ← orThrow (.db .recordNotFound) (found : Option CoinLedgerRow)
    let db ← get
    if db.isReversed ledgerId then return 0
    else do
      let _ ← reverse env ledgerId NO_SHOW_DISPUTE_UPHELD_REASON .ADMIN (some adminUserId)
      return |charge.amount|

/-- The trust half: what the penalty actually took, given back under its own key. -/
def returnTrust (env : Env) (adminUserId : UserId) (participant : ParticipantRow) : Act Unit := do
  let db ← get
  match db.trustByKey (.participantPenalty participant.id) with
  | none => return ()
  | some taken =>
    if taken.delta < 0 then do
      let _ ← applyTrust env
        { userId := participant.userId, delta := -taken.delta, type := .MODERATION
          reasonCode := NO_SHOW_DISPUTE_UPHELD_REASON, idempotencyKey := .noShowDispute participant.id
          actorType := .ADMIN, actorId := some adminUserId
          ref := some (.event_participant participant.id) }
    else return ()

def reverseNoShow (env : Env) (adminUserId : UserId) (participantId : ParticipantId) : Act Int := do
  let found ← findRow participantId
  let participant ← orThrow (.db .recordNotFound) (found : Option ParticipantRow)
  assertParticipantTransition participant.status .COMPLETED (some participant.id)
  let coinsReturned ← returnPenalty env adminUserId participant.penaltyLedgerId
  returnTrust env adminUserId participant
  updateRow participant.id ParticipantRow.attendedNow
  return coinsReturned

/-! ## Deciding -/

/-- `settleDispute`. -/
def settleDispute (env : Env) (adminUserId : UserId) (caseId : CaseId)
    (participantId : ParticipantId) (upheld : Bool) : Act Unit := do
  let found ← findRow participantId
  let seat ← orThrow (.db .recordNotFound) (found : Option ParticipantRow)
  let locked ← lockEvent seat.eventId
  let event ← orThrow (.of .NOT_FOUND) locked
  if upheld then
    let coinsReturned ← reverseNoShow env adminUserId participantId
    emit (.no_show_claim_decided caseId event.hostUserId .HOST .GUEST_ABSENT_DISPUTE true 0)
    emit (.no_show_claim_decided caseId seat.userId .GUEST .GUEST_ABSENT_DISPUTE true coinsReturned)
  else
    emit (.no_show_claim_decided caseId seat.userId .GUEST .GUEST_ABSENT_DISPUTE false 0)

/-- The host's payments for an event that still stand. -/
def Db.standingHostPayments (db : Db) (eventId : EventId) : List CoinLedgerRow :=
  db.coinLedger.rows.filter fun r =>
    (decide (r.idempotencyKey = .hostDepositRefund eventId) ||
      decide (r.idempotencyKey = .hostReward eventId)) && !db.isReversed r.id

/-- The no-show an absent host recorded is undone, and any open dispute about it
    is answered by the same decision. -/
def undoRecordedAbsence (env : Env) (adminUserId : UserId) (caseId : CaseId)
    (guest : ParticipantRow) : Act Int :=
  if guest.status = .NO_SHOW then do
    let returned ← reverseNoShow env adminUserId guest.id
    updateRows (isDisputeAbout .PARTICIPATION guest.id) fun c : CaseRow =>
      { c with status := .APPROVED, decision := some "UPHELD"
               decisionNote := some s!"با پروندهٔ نیامدن میزبان ({caseId}) بسته شد."
               decidedBy := some adminUserId, decidedAt := some env.now }
    return returned
  else return 0

/-- What an upheld absence does for one seated guest. -/
def releaseSeatedGuest (env : Env) (adminUserId : UserId) (caseId : CaseId)
    (guest : ParticipantRow) : Act Unit := do
  let refunded ← refundParticipant env guest.id adminUserId .ADMIN HOST_ABSENT_REASON
  let returned ← undoRecordedAbsence env adminUserId caseId guest
  emit (.no_show_claim_decided caseId guest.userId .GUEST .HOST_ABSENT_REPORT true
    (refunded + returned))

/-- `settleHostAbsence`. -/
def settleHostAbsence (env : Env) (adminUserId : UserId) (caseId : CaseId) (eventId : EventId)
    (upheld : Bool) : Act Unit := do
  let found ← lockEvent eventId
  let event ← orThrow (.of .NOT_FOUND) found
  if upheld then
    guardTx (event.hostAbsentAt = none) (.of .INVALID_STATE_TRANSITION)
    let seated ← findRows fun p : ParticipantRow =>
      decide (p.eventId = event.id) && SEATED.contains p.status
    lockAccounts (event.hostUserId :: seated.map (·.userId))
    let penalty ← charge env .NO_SHOW (hostPriceFor env.settings .NO_SHOW)
      { userId := event.hostUserId, amount := 0, type := .NO_SHOW_PENALTY
        reasonCode := HOST_ABSENT_REASON, idempotencyKey := .hostAbsentPenalty event.id
        actorType := .ADMIN, actorId := some adminUserId, ref := some (.event event.id) }
      { userId := event.hostUserId, delta := 0, type := .NO_SHOW
        reasonCode := HOST_ABSENT_REASON, idempotencyKey := .hostAbsent event.id
        actorType := .ADMIN, actorId := some adminUserId, ref := some (.event event.id) }
    let db ← get
    let _ ← reverseCharges env (db.standingHostPayments event.id) HOST_ABSENT_REASON .ADMIN
      (some adminUserId)
    updateRow event.id fun e : EventRow => { e with hostAbsentAt := some env.now }
    seated.forM (releaseSeatedGuest env adminUserId caseId)
    emit (.no_show_claim_decided caseId event.hostUserId .HOST .HOST_ABSENT_REPORT true
      penalty.coinsCharged)
  else
    let reporters ← findRows fun c : NoShowClaimRow =>
      decide (c.moderationCaseId = some caseId) && decide (c.kind = .HOST_ABSENT_REPORT)
    reporters.forM fun c =>
      emit (.no_show_claim_decided caseId c.authorUserId .GUEST .HOST_ABSENT_REPORT false 0)
    emit (.no_show_claim_decided caseId event.hostUserId .HOST .HOST_ABSENT_REPORT false 0)

/-- The settlement a case calls for, by what it is about. -/
def settleClaim (env : Env) (adminUserId : UserId) (moderationCase : CaseRow) (upheld : Bool) :
    Act Unit :=
  match moderationCase.subjectType with
  | .PARTICIPATION =>
    settleDispute env adminUserId moderationCase.id moderationCase.subjectId upheld
  | .EVENT => settleHostAbsence env adminUserId moderationCase.id moderationCase.subjectId upheld
  | _ => throw (.of .WRONG_CASE_DECISION)

/-- `decide`, of a moderator who may review reports. -/
def decideClaim (env : Env) (adminUserId : UserId) (mayReview : Bool) (caseId : CaseId)
    (upheld : Bool) (note : String) : Act Unit := do
  guardTx (mayReview = true) (.of .FORBIDDEN)
  guardTx (3 ≤ utf16Length (trim note)) (.of .VALIDATION_FAILED)
  let found ← findRow caseId
  let moderationCase ← orThrow (.of .NOT_FOUND) (found : Option CaseRow)
  guardTx (moderationCase.trigger = .DISPUTE) (.of .WRONG_CASE_DECISION)
  guardTx (OPEN_CASE_STATUSES.contains moderationCase.status = true) (.of .INVALID_STATE_TRANSITION)
  settleClaim env adminUserId moderationCase upheld
  updateRow caseId fun c : CaseRow =>
    { c with status := if upheld then .APPROVED else .REJECTED
             decision := some (if upheld then "UPHELD" else "DISMISSED")
             decisionNote := some (trim note), decidedBy := some adminUserId
             decidedAt := some env.now }

end Paayatam
