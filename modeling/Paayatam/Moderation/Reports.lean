/-
  Paayatam.Moderation.Reports

  `ReportService`: a person's report of something, and the threshold that acts
  on the reports of one thing.

  `file` inserts the report, counts, and when the count reaches the threshold
  opens or reuses a case, attaches the reports to it and hides the event, in
  one transaction that locks nothing it reads.
-/

import Paayatam.Moderation.CaseDecision
import Paayatam.Lib.Within

namespace Paayatam

open Lib

/-! ## The table -/

/-- What a report is about. -/
structure ReportTarget where
  targetType : ModerationSubjectType
  targetId : Nat
  deriving DecidableEq

inductive ReportReason where
  | SPAM | HARASSMENT | INAPPROPRIATE | SCAM | IMPERSONATION | SAFETY | OTHER
  deriving DecidableEq

inductive ReportStatus where
  | OPEN | ACTIONED | DISMISSED
  deriving DecidableEq

/-- `report`. -/
structure ReportRow where
  target : ReportTarget
  reporterUserId : UserId
  reason : ReportReason
  description : Option String
  status : ReportStatus
  moderationCaseId : Option CaseId
  createdAt : Instant

/-- What names a report: its target and who filed it. -/
abbrev ReportKey := ReportTarget × UserId

instance : Row ReportRow ReportKey where
  -- UNIQUE (target_type, target_id, reporter_user_id)
  key r := (r.target, r.reporterUserId)
  -- report_description_length
  check r := r.description.all fun d => decide (d.length ≤ 1000)
  collide _ _ := false
  collide_comm _ _ := rfl

/-- The `audit_log` rows of the reports. -/
inductive ReportAudit where
  /-- `report.filed`. -/
  | filed (actorId : UserId) (target : ReportTarget) (reason : ReportReason) (reportCount : Nat)
      (triggered : Bool)
  /-- `event.auto_hidden`. -/
  | auto_hidden (eventId : EventId) (reportCount : Nat) (caseId : CaseId)

/-- A `moderation.content_hidden` whose subject is no event. -/
structure ContentHidden where
  caseId : CaseId
  subject : ReportTarget
  owner : UserId
  reportCount : Nat

/-- The database, with the reports. -/
structure ReportDb where
  db : Db
  reports : Table ReportRow
  audit : List ReportAudit
  told : List ContentHidden

instance : HasTable ReportDb ReportRow := ⟨ReportDb.reports, fun t s => { s with reports := t }⟩

@[simp] theorem table_reports {s : ReportDb} :
    (HasTable.table s : Table ReportRow) = s.reports := rfl

@[simp] theorem setTable_reports {s : ReportDb} {t : Table ReportRow} :
    HasTable.setTable t s = { s with reports := t } := rfl

/-- A transaction over all of them. -/
abbrev ReportAct := Tx ReportDb AppError

/-- Statements on the other tables. -/
def onTables {α : Type} (m : Act α) : ReportAct α :=
  within ReportDb.db (fun db s => { s with db := db }) m

/-- What `file` reads of tables that are not here. -/
structure ReportEnv where
  env : Env
  /-- There is an `anonymous_chat` with this id. -/
  anonymousChat : Nat → Bool

/-- The thresholds, as configured. -/
structure ReportSettings where
  moderation_report_threshold : Nat
  moderation_safety_report_threshold : Nat

/-- Their defaults. -/
def ReportSettings.defaults : ReportSettings where
  moderation_report_threshold := 3
  moderation_safety_report_threshold := 1

/-- The reports that count towards the threshold of a target: nobody refuted them. -/
def ReportRow.counts (t : ReportTarget) (r : ReportRow) : Bool :=
  decide (r.target = t) && decide (r.status ≠ .DISMISSED)

namespace ReportDb

variable (s : ReportDb)

/-- How many reports stand against a target. -/
def count (t : ReportTarget) : Nat := s.reports.rows.countP (ReportRow.counts t)

/-- The open cases about a target: which, and what opened them. -/
def openCases (t : ReportTarget) : List (CaseId × ModerationTrigger) :=
  (s.db.cases.rows.filter (isOpenCaseAbout t.targetType t.targetId)).map fun c => (c.id, c.trigger)

def isPublished (e : EventId) : Bool :=
  (s.db.events.find? e).any fun ev => decide (ev.status = .PUBLISHED)

/-- The events that were hidden automatically. -/
def autoHidden : List EventId := s.audit.filterMap fun
  | .auto_hidden e _ _ => some e
  | .filed .. => none

/-- The counts that were acted on. -/
def filedCounts : List (ReportTarget × Nat) := s.audit.filterMap fun
  | .auto_hidden .. => none
  | .filed _ t _ n _ => some (t, n)

end ReportDb

/-! ## Filing -/

structure FileReportInput where
  target : ReportTarget
  reason : ReportReason
  description : Option String

def SAFETY_REASONS : List ReportReason := [.SAFETY, .HARASSMENT]

/-- `resolveTarget`: who owns what is reported. -/
def resolveTarget (env : ReportEnv) (db : Db) (t : ReportTarget) :
    Except AppError (Option UserId) :=
  match t.targetType with
  | .EVENT =>
    match db.events.find? t.targetId with
    | some event =>
      if event.deletedAt = none then .ok (some event.hostUserId) else .error (.of .NOT_FOUND)
    | none => .error (.of .NOT_FOUND)
  -- the subject is the owner
  | .USER => if (env.env.user t.targetId).isSome then .ok (some t.targetId) else .error (.of .NOT_FOUND)
  | .REVIEW =>
    match db.reviews.find? t.targetId with
    | some review => .ok (some review.reviewerUserId)
    | none => .error (.of .NOT_FOUND)
  -- a chat, and its owner is nobody
  | .MESSAGE => if env.anonymousChat t.targetId then .ok none else .error (.of .NOT_FOUND)
  | .PARTICIPATION => .error (.of .NOT_FOUND)

/-- The owner of what is reported, who may not be the reporter. -/
def reportable (env : ReportEnv) (db : Db) (reporter : UserId) (t : ReportTarget) :
    Except AppError (Option UserId) := do
  let owner ← resolveTarget env db t
  require (owner ≠ some reporter) (.of .CANNOT_REPORT_OWN_CONTENT)
  return owner

def newReport (env : ReportEnv) (reporter : UserId) (input : FileReportInput) : ReportRow where
  target := input.target
  reporterUserId := reporter
  reason := input.reason
  description := input.description
  status := .OPEN
  moderationCaseId := none
  createdAt := env.env.now

/-- It counts towards the threshold for safety, which is for people only. -/
def ReportRow.countsSafety (t : ReportTarget) (r : ReportRow) : Bool :=
  r.counts t && decide (t.targetType = .USER) && SAFETY_REASONS.contains r.reason

def triggered (q : ReportSettings) (distinctReporters safetyReports : Nat) : Bool :=
  decide (q.moderation_report_threshold ≤ distinctReporters) ||
    (decide (0 < safetyReports) && decide (q.moderation_safety_report_threshold ≤ safetyReports))

/-- The insert, whose unique violation says that this person has reported it before. -/
def insertReport (r : ReportRow) : ReportAct Unit := attempt fun s =>
  match s.reports.insert r with
  | .ok t => .ok { s with reports := t }
  | .error .uniqueViolation => .error (.of .ALREADY_REPORTED)
  | .error e => .error (.db e)

theorem runs_insertReport {r : ReportRow} {s s' : ReportDb} {u : Unit} :
    Runs (insertReport r) s u s' ↔
      ∃ t : Table ReportRow, t.rows = s.reports.rows ++ [r] ∧ s' = { s with reports := t } := by
  simp only [insertReport, runs_attempt]
  cases hi : s.reports.insert r with
  | ok t =>
      have ht := Table.insert_eq_ok.1 hi
      constructor
      · intro h
        exact ⟨t, ht, (Except.ok.inj h).symm⟩
      · rintro ⟨t', ht', rfl⟩
        rw [Table.ext (ht'.trans ht.symm)]
  | error e =>
      constructor
      · intro h
        cases e <;> cases h
      · rintro ⟨t', ht', rfl⟩
        rw [Table.insert_eq_ok.2 ht'] at hi
        cases hi

def ReportRow.attach (caseId : CaseId) (r : ReportRow) : ReportRow :=
  { r with moderationCaseId := some caseId }

/-! ## Acting on the threshold -/

/-- The open case that was found, with its new count, or a new one. -/
def caseOfReports (env : Env) (t : ReportTarget) (reportCount : Nat) (existing : Option CaseRow) :
    Act CaseId := do
  let db ← get
  countSubjectReports env t.targetType t.targetId reportCount existing
  return (existing.map (·.id)).getD (freshId (db.cases.rows.map (·.id)))

/-- What happens to the event, as it was read: one that is published is hidden. -/
def hideEvent (reportCount : Nat) (caseId : CaseId) (event : EventRow) : ReportAct Unit := do
  let write ← fromExcept (planEscalate event)
  match write with
  | none => return ()
  | some w => do
    onTables (updateRow event.id w.apply)
    modify fun s => { s with audit := s.audit ++ [.auto_hidden event.id reportCount caseId] }

def hideTarget (reportCount : Nat) (caseId : CaseId) : Option EventRow → ReportAct Unit
  | none => return ()
  | some event => hideEvent reportCount caseId event

/-- The owner is told, never by whom. -/
def tellOwner (t : ReportTarget) (owner : Option UserId) (reportCount : Nat) (notifyOwner : Bool)
    (caseId : CaseId) : ReportAct Unit :=
  match owner with
  | none => return ()
  | some user =>
    whenTx (notifyOwner = true)
      (if t.targetType = .EVENT then
        onTables (emit (.moderation_content_hidden t.targetId user (some reportCount)))
      else modify fun s => { s with told := s.told ++ [⟨caseId, t, user, reportCount⟩] })

/-- The event a report is about, which there must be. -/
def targetEvent (t : ReportTarget) : ReportAct (Option EventRow) :=
  if t.targetType = .EVENT then do
    let found ← onTables (findRow t.targetId)
    let event ← orThrow (.db .recordNotFound) (found : Option EventRow)
    return some event
  else return none

/-- `escalate`. -/
def escalate (env : ReportEnv) (t : ReportTarget) (owner : Option UserId) (reportCount : Nat)
    (notifyOwner : Bool) : ReportAct Unit := do
  let existing ← onTables (findRows (isOpenCaseAbout t.targetType t.targetId))
  let caseId ← onTables (caseOfReports env.env t reportCount existing.head?)
  updateRows (fun r : ReportRow => decide (r.target = t) && r.moderationCaseId.isNone)
    (ReportRow.attach caseId)
  let event ← targetEvent t
  hideTarget reportCount caseId event
  tellOwner t owner reportCount notifyOwner caseId

def recordFiled (r : ReportRow) (reportCount : Nat) (triggered : Bool) : ReportAct Unit :=
  modify fun s =>
    { s with audit := s.audit ++ [.filed r.reporterUserId r.target r.reason reportCount triggered] }

/-- `file`: whether this report is one that acted. -/
def file (q : ReportSettings) (env : ReportEnv) (reporter : UserId) (input : FileReportInput) :
    ReportAct Bool := do
  let s ← get
  let owner ← fromExcept (reportable env s.db reporter input.target)
  insertReport (newReport env reporter input)
  -- counted after the insert
  let distinctReporters ← countRows (ReportRow.counts input.target)
  let safetyReports ← countRows (ReportRow.countsSafety input.target)
  whenTx (triggered q distinctReporters safetyReports = true)
    (escalate env input.target owner distinctReporters (decide (safetyReports = 0)))
  recordFiled (newReport env reporter input) distinctReporters
    (triggered q distinctReporters safetyReports)
  return triggered q distinctReporters safetyReports

/-! ## What the writes of an escalation do -/

/-- The write that hides an event. -/
def hideWrite : StatusWrite where
  status := .HIDDEN
  moderationStatus := none

/-- The event that is hidden, of the one that was read. -/
def hiddenOf (event : Option EventRow) : Option EventId :=
  event.bind fun e => if e.status = .PUBLISHED then some e.id else none

section Specs

variable {env : Env} {t : ReportTarget} {n : Nat} {caseId : CaseId} {s s' : ReportDb}

theorem caseOfReports_spec {existing : Option CaseRow} {db db' : Db}
    (h : Runs (caseOfReports env t n existing) db caseId db') :
    db'.events = db.events ∧ ∀ t' : ReportTarget,
      (db'.cases.rows.filter (isOpenCaseAbout t'.targetType t'.targetId)).map
          (fun c => (c.id, c.trigger)) =
        (db.cases.rows.filter (isOpenCaseAbout t'.targetType t'.targetId)).map
          (fun c => (c.id, c.trigger)) ++
        if existing = none ∧ t' = t then [(caseId, .REPORT_THRESHOLD)] else [] := by
  simp only [caseOfReports, runs_get_bind, runs_bind (m := countSubjectReports _ _ _ _ _),
    runs_pure] at h
  obtain ⟨_, db₁, hcount, rfl, rfl⟩ := h
  cases existing with
  | some c =>
      simp only [countSubjectReports, runs_updateRow, table_cases, setTable_cases] at hcount
      obtain ⟨r, -, tbl, htbl, rfl⟩ := hcount
      refine ⟨rfl, fun t' => ?_⟩
      have hsame : ∀ c' : CaseRow, ∀ k, isOpenCaseAbout t'.targetType t'.targetId
          (Table.updateAt k (fun m : CaseRow => { m with reportCount := n }) c') =
            isOpenCaseAbout t'.targetType t'.targetId c' ∧
          ((Table.updateAt k (fun m : CaseRow => { m with reportCount := n }) c').id,
            (Table.updateAt k (fun m : CaseRow => { m with reportCount := n }) c').trigger) =
              (c'.id, c'.trigger) := by
        intro c' k
        unfold Table.updateAt
        split
        · exact ⟨rfl, rfl⟩
        · exact ⟨rfl, rfl⟩
      rw [htbl.rows, List.filter_map, List.map_map]
      simp only [Function.comp_def, fun c' k => (hsame c' k).1, fun c' k => (hsame c' k).2]
      simp
  | none =>
      simp only [countSubjectReports, openSubjectCase, runs_get_bind, runs_insertRow, table_cases,
        setTable_cases] at hcount
      obtain ⟨tbl, htbl, rfl⟩ := hcount
      refine ⟨rfl, fun t' => ?_⟩
      rw [htbl, List.filter_append, List.map_append]
      congr 1
      by_cases ht : t' = t
      · subst ht
        simp [isOpenCaseAbout, OPEN_CASE_STATUSES]
      · have hne : ¬ (t.targetType = t'.targetType ∧ t.targetId = t'.targetId) := by
          rintro ⟨h₁, h₂⟩
          cases t
          cases t'
          simp_all
        simp only [ht, and_false, if_false]
        rw [List.filter_cons_of_neg]
        · rfl
        · simp only [isOpenCaseAbout, Bool.and_eq_true, decide_eq_true_eq, not_and]
          exact fun h => absurd h hne

theorem hideTarget_spec {event : Option EventRow} (h : Runs (hideTarget n caseId event) s () s') :
    s'.reports = s.reports ∧ s'.db.cases = s.db.cases ∧
    (∀ e, s'.db.events.find? e = if hiddenOf event = some e then
      (s.db.events.find? e).map hideWrite.apply else s.db.events.find? e) ∧
    s'.autoHidden = s.autoHidden ++ (hiddenOf event).toList ∧ s'.filedCounts = s.filedCounts := by
  cases event with
  | none =>
      obtain rfl := (runs_pure.1 h).2
      simp [hiddenOf]
  | some ev =>
      simp only [hideTarget, hideEvent, runs_fromExcept_bind] at h
      obtain ⟨write, hplan, h⟩ := h
      by_cases hst : ev.status = .PUBLISHED
      · have hw : write = some hideWrite := by
          simp only [planEscalate, hst, if_true] at hplan
          cases hc : checkEventTransition ev .HIDDEN with
          | error e => rw [hc] at hplan; cases hplan
          | ok u => rw [hc] at hplan; exact (Except.ok.inj hplan).symm
        subst hw
        simp only [onTables, runs_within_bind, runs_updateRow, table_events, setTable_events,
          runs_modify] at h
        obtain ⟨_, db, ⟨r, hr, tbl, htbl, rfl⟩, rfl⟩ := h
        have hid : Row.key r = ev.id := Table.key_of_find? hr
        refine ⟨rfl, rfl, fun e => ?_, ?_, ?_⟩
        · simp only [hiddenOf, hst, Option.bind_some, if_true, Option.some.injEq]
          rw [htbl.find? rfl]
          by_cases he : ev.id = e
          · subst he
            rw [if_pos hid, if_pos rfl, hr, Option.map_some]
          · rw [if_neg fun h => he (hid.symm.trans h), if_neg he]
        · simp [ReportDb.autoHidden, hiddenOf, hst]
        · simp [ReportDb.filedCounts]
      · have hw : write = none := by
          simp only [planEscalate, hst, if_false] at hplan
          exact (Except.ok.inj hplan).symm
        subst hw
        obtain rfl := (runs_pure.1 h).2
        simp [hiddenOf, hst]

theorem tellOwner_spec {owner : Option UserId} {notifyOwner : Bool}
    (h : Runs (tellOwner t owner n notifyOwner caseId) s () s') :
    s'.reports = s.reports ∧ s'.db.cases = s.db.cases ∧ s'.db.events = s.db.events ∧
    s'.audit = s.audit := by
  cases owner with
  | none =>
      obtain rfl := (runs_pure.1 h).2
      exact ⟨rfl, rfl, rfl, rfl⟩
  | some user =>
      rcases runs_whenTx.1 h with ⟨-, h⟩ | ⟨-, rfl⟩
      · rw [runs_ite] at h
        rcases h with ⟨-, h⟩ | ⟨-, h⟩
        · obtain ⟨db, hdb, rfl⟩ := runs_within.1 h
          rw [runs_emit] at hdb
          subst hdb
          exact ⟨rfl, rfl, rfl, rfl⟩
        · rw [runs_modify] at h
          subst h
          exact ⟨rfl, rfl, rfl, rfl⟩
      · exact ⟨rfl, rfl, rfl, rfl⟩

/-- Attaching reports to a case changes no count. -/
theorem attach_count {u u' : Table ReportRow} {p : ReportRow → Bool}
    (h : Table.RewritesAll u p (ReportRow.attach caseId) u') (t' : ReportTarget) :
    u'.rows.countP (ReportRow.counts t') = u.rows.countP (ReportRow.counts t') := by
  rw [h.countP]
  congr 1
  funext r
  unfold Table.updateIf
  split
  · rfl
  · rfl

end Specs

end Paayatam
