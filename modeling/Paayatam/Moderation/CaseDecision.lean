/-
  Paayatam.Moderation.CaseDecision

  Working a moderation case: `triageCase` and `decideCase` of the admin
  service, and `decide` of the no-show claims.

  All three read the case without a lock, refuse one that is no longer open,
  and later write it by id.  `CaseOp.finish` is what each does from the row it
  read; `CaseOp.runs_act` says that the call is the read followed by it.
-/

import Paayatam.Events.NoShowClaim
import Paayatam.Moderation.EventReview

namespace Paayatam

open Lib

/-! ## Opening cases about other subjects -/

/-- An open case about a subject, whatever opened it. -/
def isOpenCaseAbout (subjectType : ModerationSubjectType) (subjectId : Nat) (c : CaseRow) : Bool :=
  decide (c.subjectType = subjectType) && decide (c.subjectId = subjectId) &&
  OPEN_CASE_STATUSES.contains c.status

/-- The case `escalate` and `openCase` insert about a subject that is no event. -/
def openSubjectCase (env : Env) (trigger : ModerationTrigger) (subjectType : ModerationSubjectType)
    (subjectId reportCount : Nat) : Act Unit := do
  let db ← get
  insertRow
    { id := freshId (db.cases.rows.map (·.id)), subjectType := subjectType, subjectId := subjectId
      trigger := trigger, status := .OPEN, reportCount := reportCount, decision := none
      decisionNote := none, decidedBy := none, decidedAt := none, assignedAdminId := none
      createdAt := env.now : CaseRow }

/-- The report count on the open case about a subject, or a new case. -/
def countSubjectReports (env : Env) (subjectType : ModerationSubjectType)
    (subjectId reportCount : Nat) : Option CaseRow → Act Unit
  | some c => updateRow c.id fun m : CaseRow => { m with reportCount := reportCount }
  | none => openSubjectCase env .REPORT_THRESHOLD subjectType subjectId reportCount

/-- `escalate` for a user, a chat or a review: nothing is hidden. -/
def escalateSubject (env : Env) (subjectType : ModerationSubjectType) (subjectId reportCount : Nat) :
    Act Unit := do
  let existing ← findRows (isOpenCaseAbout subjectType subjectId)
  countSubjectReports env subjectType subjectId reportCount existing.head?

/-! ## Triage -/

inductive TriageAction where
  | CLAIM | RELEASE | ESCALATE

/-- The update triage writes: CLAIM and ESCALATE put the caller's id on the case,
    RELEASE clears it. -/
def TriageAction.apply (adminUserId : UserId) (action : TriageAction) (c : CaseRow) : CaseRow :=
  match action with
  | .CLAIM => { c with status := .IN_REVIEW, assignedAdminId := some adminUserId }
  | .RELEASE => { c with status := .OPEN, assignedAdminId := none }
  | .ESCALATE => { c with status := .ESCALATED, assignedAdminId := some adminUserId }

/-- The rest of `triageCase`, after the case was read. -/
def finishTriage (adminUserId : UserId) (caseId : CaseId) (action : TriageAction)
    (existing : CaseRow) : Act Unit := do
  guardTx (OPEN_CASE_STATUSES.contains existing.status = true) (.of .INVALID_STATE_TRANSITION)
  updateRow caseId (action.apply adminUserId)

/-- `triageCase`. -/
def triageCase (adminUserId : UserId) (mayModerate : Bool) (caseId : CaseId)
    (action : TriageAction) : Act Unit := do
  guardTx (mayModerate = true) (.of .FORBIDDEN)
  let found ← findRow caseId
  let existing ← orThrow (.of .NOT_FOUND) (found : Option CaseRow)
  finishTriage adminUserId caseId action existing

/-! ## The two decisions, after the case was read -/

/-- What a decision writes on its case. -/
structure Verdict where
  status : ModerationCaseStatus
  decision : Option String
  decisionNote : Option String
  decidedBy : Option UserId
  decidedAt : Option Instant

def Verdict.apply (v : Verdict) (c : CaseRow) : CaseRow :=
  { c with status := v.status, decision := v.decision, decisionNote := v.decisionNote
           decidedBy := v.decidedBy, decidedAt := v.decidedAt }

/-- Nobody has decided the case yet. -/
def CaseRow.isOpen (c : CaseRow) : Bool := OPEN_CASE_STATUSES.contains c.status

theorem CaseRow.isOpen_of_verdict {c c' : CaseRow} (h : c'.status = c.status) :
    c'.isOpen = c.isOpen := by
  rw [CaseRow.isOpen, h, CaseRow.isOpen]

/-- The verdict on record. -/
def CaseRow.verdict (c : CaseRow) : Verdict :=
  { status := c.status, decision := c.decision, decisionNote := c.decisionNote
    decidedBy := c.decidedBy, decidedAt := c.decidedAt }

/-- The verdict of `decide`. -/
def claimVerdict (env : Env) (adminUserId : UserId) (upheld : Bool) (note : String) : Verdict :=
  { status := if upheld then .APPROVED else .REJECTED
    decision := some (if upheld then "UPHELD" else "DISMISSED")
    decisionNote := some (trim note), decidedBy := some adminUserId, decidedAt := some env.now }

/-- The verdict of `decideCase`. -/
def caseVerdict (env : Env) (adminUserId : UserId) (decision : CaseDecision) (note : String) :
    Verdict :=
  { status := if decision = .APPROVED then .APPROVED else .REJECTED
    decision := some (if decision = .APPROVED then "APPROVED" else "REJECTED")
    decisionNote := some (trim note), decidedBy := some adminUserId, decidedAt := some env.now }

/-- The verdict an upheld host absence writes on a dispute it answers. -/
def absenceVerdict (env : Env) (adminUserId : UserId) (caseId : CaseId) : Verdict :=
  { status := .APPROVED, decision := some "UPHELD"
    decisionNote := some s!"با پروندهٔ نیامدن میزبان ({caseId}) بسته شد."
    decidedBy := some adminUserId, decidedAt := some env.now }

/-- The rest of `decide`, after the case was read. -/
def finishDecideClaim (env : Env) (adminUserId : UserId) (caseId : CaseId) (upheld : Bool)
    (note : String) (moderationCase : CaseRow) : Act Unit := do
  guardTx (moderationCase.trigger = .DISPUTE) (.of .WRONG_CASE_DECISION)
  guardTx (OPEN_CASE_STATUSES.contains moderationCase.status = true) (.of .INVALID_STATE_TRANSITION)
  settleClaim env adminUserId moderationCase upheld
  updateRow caseId (claimVerdict env adminUserId upheld note).apply

/-- The rest of `decideCase`, after the case was read. -/
def finishDecideCase (env : Env) (adminUserId : UserId) (caseId : CaseId) (decision : CaseDecision)
    (note : String) (existing : CaseRow) : Act Unit := do
  guardTx (existing.trigger ≠ .DISPUTE) (.of .WRONG_CASE_DECISION)
  guardTx (existing.status = .OPEN ∨ existing.status = .IN_REVIEW ∨ existing.status = .ESCALATED)
    (.of .INVALID_STATE_TRANSITION)
  updateRow caseId (caseVerdict env adminUserId decision note).apply
  if existing.subjectType = .EVENT then applyEventDecision existing.subjectId decision
  else return ()

theorem decideClaim_eq {env : Env} {admin : UserId} {may upheld : Bool} {c : CaseId} {note : String} :
    decideClaim env admin may c upheld note = (do
      guardTx (may = true) (.of .FORBIDDEN)
      guardTx (3 ≤ utf16Length (trim note)) (.of .VALIDATION_FAILED)
      let found ← findRow c
      let m ← orThrow (.of .NOT_FOUND) (found : Option CaseRow)
      finishDecideClaim env admin c upheld note m) := rfl

theorem decideCase_eq {env : Env} {admin : UserId} {may : Bool} {c : CaseId}
    {decision : CaseDecision} {note : String} :
    decideCase env admin may c decision note = (do
      guardTx (may = true) (.of .FORBIDDEN)
      guardTx (3 ≤ utf16Length (trim note)) (.of .VALIDATION_FAILED)
      let found ← findRow c
      let m ← orThrow (.of .NOT_FOUND) (found : Option CaseRow)
      finishDecideCase env admin c decision note m) := rfl

/-! ## One type for the three -/

/-- The calls that work a case. -/
inductive CaseOp where
  | decide (admin : UserId) (mayReview : Bool) (c : CaseId) (upheld : Bool) (note : String)
  | decideCase (admin : UserId) (mayModerate : Bool) (c : CaseId) (decision : CaseDecision)
      (note : String)
  | triageCase (admin : UserId) (mayModerate : Bool) (c : CaseId) (action : TriageAction)

namespace CaseOp

/-- The case the call is about. -/
def caseId : CaseOp → CaseId
  | .decide _ _ c _ _ => c
  | .decideCase _ _ c _ _ => c
  | .triageCase _ _ c _ => c

/-- The whole call. -/
def act (env : Env) : CaseOp → Act Unit
  | .decide admin may c upheld note => decideClaim env admin may c upheld note
  | .decideCase admin may c decision note => Paayatam.decideCase env admin may c decision note
  | .triageCase admin may c action => Paayatam.triageCase admin may c action

/-- What the call checks before it reads: the permission and the note. -/
def admitted : CaseOp → Bool
  | .decide _ may _ _ note => may && Decidable.decide (3 ≤ utf16Length (trim note))
  | .decideCase _ may _ _ note => may && Decidable.decide (3 ≤ utf16Length (trim note))
  | .triageCase _ may _ _ => may

/-- What the call does once it has read its case. -/
def finish (env : Env) (read : CaseRow) : CaseOp → Act Unit
  | .decide admin _ c upheld note => finishDecideClaim env admin c upheld note read
  | .decideCase admin _ c decision note => finishDecideCase env admin c decision note read
  | .triageCase admin _ c action => finishTriage admin c action read

/-- The verdict the call records, if it is one that decides. -/
def verdict (env : Env) : CaseOp → Option Verdict
  | .decide admin _ _ upheld note => some (claimVerdict env admin upheld note)
  | .decideCase admin _ _ decision note => some (caseVerdict env admin decision note)
  | .triageCase _ _ _ _ => none

/-- A call is its read, followed by what it does from the row it read. -/
theorem runs_act {env : Env} {op : CaseOp} {s s' : Db} :
    Runs (op.act env) s () s' ↔
      op.admitted = true ∧ ∃ row, s.cases.find? op.caseId = some row ∧
        Runs (op.finish env row) s () s' := by
  cases op with
  | decide admin may c upheld note =>
      rw [act, decideClaim_eq]
      simp only [runs_guardTx_bind, runs_findRow_bind, runs_orThrow_bind, table_cases, admitted,
        Bool.and_eq_true, decide_eq_true_eq, caseId, finish, and_assoc]
  | decideCase admin may c decision note =>
      rw [act, decideCase_eq]
      simp only [runs_guardTx_bind, runs_findRow_bind, runs_orThrow_bind, table_cases, admitted,
        Bool.and_eq_true, decide_eq_true_eq, caseId, finish, and_assoc]
  | triageCase admin may c action =>
      rw [act, Paayatam.triageCase]
      simp only [runs_guardTx_bind, runs_findRow_bind, runs_orThrow_bind, table_cases, admitted,
        caseId, finish]

end CaseOp

end Paayatam
