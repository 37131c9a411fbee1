/-
  Paayatam.Moderation.ReportRuns

  Any number of reports at once.

  A call of `file` is a worker that takes a step for each of its statements and
  sees, under READ COMMITTED, what is committed by then and what it has written
  itself.  Its writes reach the others when it commits; until then only the
  unique index of the reports makes another worker wait.
-/

import Paayatam.Moderation.Reports
import Paayatam.Booking.World
import Paayatam.Lib.Threads

namespace Paayatam

open Lib

/-! ## The system -/

/-- What an escalation has read: the open case, the reports without a case, the event. -/
structure Escalation where
  existing : Option CaseRow
  attached : List ReportKey
  event : Option EventRow

/-- How far a call has come. -/
inductive FilePhase where
  | resolved
  | inserted
  | counted (reportCount safetyReports : Nat)
  | looked (reportCount safetyReports : Nat) (existing : Option CaseRow)
  | attached (reportCount safetyReports : Nat) (existing : Option CaseRow)
      (attached : List ReportKey)
  /-- All but the commit is done; below the thresholds there is no escalation. -/
  | ready (reportCount safetyReports : Nat) (escalation : Option Escalation)

/-- What it counted. -/
def FilePhase.reportCount : FilePhase → Option Nat
  | .resolved | .inserted => none
  | .counted n _ | .looked n _ _ | .attached n _ _ _ | .ready n _ _ => some n

/-- A call of `file` in progress, with the report it inserts. -/
structure FileCall where
  env : ReportEnv
  owner : Option UserId
  report : ReportRow
  phase : FilePhase

/-- The committed tables, and the worker whose insert of a key is not committed yet. -/
structure ReportShared where
  store : ReportDb
  uncommitted : ReportKey → Option Nat

abbrev ReportWorld := Threads Nat ReportShared (Option FileCall)

inductive ReportMove where
  /-- Worker `i` starts a call: the target is looked up. -/
  | file (i : Nat) (env : ReportEnv) (reporter : UserId) (input : FileReportInput)
  | insert (i : Nat)
  | count (i : Nat)
  /-- Worker `i` looks for an open case. -/
  | look (i : Nat)
  /-- Worker `i` attaches the reports that have no case. -/
  | attach (i : Nat)
  | readEvent (i : Nat)
  | commit (i : Nat)
  /-- Worker `i` is gone, and its transaction with it. -/
  | crash (i : Nat)

namespace Escalation

/-- The writes of an escalation, on whatever rows are there by then. -/
def writes (x : Escalation) (f : FileCall) (reportCount safetyReports : Nat) : ReportAct Unit := do
  let caseId ← onTables (caseOfReports f.env.env f.report.target reportCount x.existing)
  updateRows (fun r : ReportRow => decide (Row.key r ∈ x.attached) && r.moderationCaseId.isNone)
    (ReportRow.attach caseId)
  hideTarget reportCount caseId x.event
  tellOwner f.report.target f.owner reportCount (decide (safetyReports = 0)) caseId

end Escalation

namespace FileCall

/-- The reports the transaction sees: the committed ones and its own. -/
def sees (f : FileCall) (s : ReportDb) : List ReportRow := s.reports.rows ++ [f.report]

def escalates (f : FileCall) (reportCount safetyReports : Nat) : Option Escalation → ReportAct Unit
  | none => return ()
  | some x => x.writes f reportCount safetyReports

/-- Everything the transaction writes. -/
def writes (f : FileCall) (reportCount safetyReports : Nat) (x : Option Escalation) :
    ReportAct Unit := do
  insertReport f.report
  f.escalates reportCount safetyReports x
  recordFiled f.report reportCount x.isSome

end FileCall

namespace ReportShared

def insert (s : ReportShared) (i : Nat) (k : ReportKey) : ReportShared :=
  { s with uncommitted := Function.update s.uncommitted k (some i) }

def release (s : ReportShared) (k : ReportKey) : ReportShared :=
  { s with uncommitted := Function.update s.uncommitted k none }

end ReportShared

namespace ReportWorld

def store (w : ReportWorld) : ReportDb := w.shared.store

variable (q : ReportSettings)

def exec (w : ReportWorld) : ReportMove → Option ReportWorld
  | .file i env reporter input =>
    match w.locals i with
    | some _ => none
    | none =>
      match reportable env w.store.db reporter input.target with
      | .ok owner => some (w.set i w.shared
          (some ⟨env, owner, newReport env reporter input, .resolved⟩))
      | .error _ => some w
  | .insert i =>
    match w.locals i with
    | some ⟨env, owner, report, .resolved⟩ =>
      if w.shared.uncommitted (Row.key report) = none then
        if commits (insertReport report) w.store = true then
          some (w.set i (w.shared.insert i (Row.key report)) (some ⟨env, owner, report, .inserted⟩))
        else some (w.set i w.shared none)
      else none
    | _ => none
  | .count i =>
    match w.locals i with
    | some ⟨env, owner, report, .inserted⟩ =>
      let f : FileCall := ⟨env, owner, report, .inserted⟩
      let n := (f.sees w.store).countP (ReportRow.counts report.target)
      let m := (f.sees w.store).countP (ReportRow.countsSafety report.target)
      some (w.set i w.shared (some
        { f with phase := if triggered q n m = true then .counted n m else .ready n m none }))
    | _ => none
  | .look i =>
    match w.locals i with
    | some ⟨env, owner, report, .counted n m⟩ =>
      let cases := w.store.db.cases.rows.filter
        (isOpenCaseAbout report.target.targetType report.target.targetId)
      some (w.set i w.shared (some ⟨env, owner, report, .looked n m cases.head?⟩))
    | _ => none
  | .attach i =>
    match w.locals i with
    | some ⟨env, owner, report, .looked n m existing⟩ =>
      let f : FileCall := ⟨env, owner, report, .inserted⟩
      let loose := (f.sees w.store).filter fun r =>
        decide (r.target = report.target) && r.moderationCaseId.isNone
      some (w.set i w.shared (some { f with phase := .attached n m existing (loose.map Row.key) }))
    | _ => none
  | .readEvent i =>
    match w.locals i with
    | some ⟨env, owner, report, .attached n m existing attached⟩ =>
      match (targetEvent report.target).run w.store with
      | .ok (event, _) => some (w.set i w.shared
          (some ⟨env, owner, report, .ready n m (some ⟨existing, attached, event⟩)⟩))
      | .error _ => some (w.set i (w.shared.release (Row.key report)) none)
    | _ => none
  | .commit i =>
    match w.locals i with
    | some ⟨env, owner, report, .ready n m x⟩ =>
      let f : FileCall := ⟨env, owner, report, .ready n m x⟩
      some (w.set i ({ w.shared with store := Lib.commit (f.writes n m x) w.store }.release
        (Row.key report)) none)
    | _ => none
  | .crash i =>
    match w.locals i with
    | some ⟨_, _, _, .resolved⟩ => some (w.set i w.shared none)
    | some f => some (w.set i (w.shared.release (Row.key f.report)) none)
    | none => none

def Step (w : ReportWorld) (m : ReportMove) (w' : ReportWorld) : Prop := w.exec q m = some w'

/-- Nobody is filing a report, and the log is empty. -/
structure Start (w : ReportWorld) : Prop where
  idle : ∀ i, w.locals i = none
  unlocked : ∀ k, w.shared.uncommitted k = none
  audit : w.store.audit = []

end ReportWorld

/-! ## What a commit does -/

/-- The event an escalation hides, if it does. -/
def Escalation.hidden (x : Escalation) : Option EventId := hiddenOf x.event

/-- What the writes of a transaction change. -/
structure FileEffect (f : FileCall) (reportCount : Nat) (x : Option Escalation) (s s' : ReportDb) :
    Prop where
  count : ∀ t, s'.count t = s.count t + if f.report.counts t then 1 else 0
  cases : ∃ caseId, ∀ t, s'.openCases t = s.openCases t ++
    if (∃ y ∈ x, y.existing = none) ∧ t = f.report.target then [(caseId, .REPORT_THRESHOLD)] else []
  event : ∀ e, s'.db.events.find? e =
    if x.bind Escalation.hidden = some e then (s.db.events.find? e).map hideWrite.apply
    else s.db.events.find? e
  autoHidden : s'.autoHidden = s.autoHidden ++ (x.bind Escalation.hidden).toList
  counts : s'.filedCounts = s.filedCounts ++ [(f.report.target, reportCount)]

theorem Escalation.writes_spec {x : Escalation} {f : FileCall} {n m : Nat} {s s' : ReportDb}
    (h : Runs (x.writes f n m) s () s') :
    (∀ t, s'.count t = s.count t) ∧
    (∃ caseId, ∀ t, s'.openCases t = s.openCases t ++
      if x.existing = none ∧ t = f.report.target then [(caseId, .REPORT_THRESHOLD)] else []) ∧
    (∀ e, s'.db.events.find? e = if x.hidden = some e then (s.db.events.find? e).map hideWrite.apply
      else s.db.events.find? e) ∧
    s'.autoHidden = s.autoHidden ++ x.hidden.toList ∧ s'.filedCounts = s.filedCounts := by
  simp only [Escalation.writes, onTables, runs_within_bind, runs_updateRows_bind, table_reports,
    setTable_reports, runs_bind (m := hideTarget _ _ _)] at h
  obtain ⟨caseId, db, hcase, t, ht, _, s₁, hhide, htell⟩ := h
  obtain ⟨hdb, hopen⟩ := caseOfReports_spec hcase
  obtain ⟨hreports, hcases, hevents, hhidden, hcounts⟩ := hideTarget_spec hhide
  obtain ⟨hreports', hcases', hevents', haudit⟩ := tellOwner_spec htell
  refine ⟨fun t' => ?_, ⟨caseId, fun t' => ?_⟩, fun e => ?_, ?_, ?_⟩
  · rw [ReportDb.count, hreports', hreports, ReportDb.count]
    exact attach_count ht t'
  · rw [ReportDb.openCases, hcases', hcases]
    exact hopen t'
  · rw [hevents', hevents e, hdb]
    rfl
  · rw [ReportDb.autoHidden, haudit]
    exact hhidden
  · rw [ReportDb.filedCounts, haudit]
    exact hcounts

theorem FileCall.writes_spec {f : FileCall} {n m : Nat} {x : Option Escalation} {s s' : ReportDb}
    (h : Runs (f.writes n m x) s () s') : FileEffect f n x s s' := by
  simp only [FileCall.writes, runs_bind, runs_insertReport, recordFiled, runs_modify] at h
  obtain ⟨_, s₁, ⟨t, ht, rfl⟩, _, s₂, hesc, rfl⟩ := h
  have hcount : ∀ t', (ReportDb.count { s with reports := t } t') =
      s.count t' + if f.report.counts t' then 1 else 0 := by
    intro t'
    rw [ReportDb.count, ReportDb.count, ht, List.countP_append, List.countP_singleton]
  cases x with
  | none =>
      obtain rfl := (runs_pure.1 hesc).2
      exact
        { count := hcount
          cases := ⟨0, fun t' => by simp [ReportDb.openCases]⟩
          event := fun e => by simp
          autoHidden := by simp [ReportDb.autoHidden]
          counts := by simp [ReportDb.filedCounts] }
  | some y =>
      obtain ⟨hsame, ⟨caseId, hcases⟩, hevents, hhidden, hcounts⟩ := Escalation.writes_spec hesc
      exact
        { count := fun t' => (hsame t').trans (hcount t')
          cases := ⟨caseId, fun t' => by
            have hopen : s₂.openCases t' = s.openCases t' ++
                if y.existing = none ∧ t' = f.report.target then [(caseId, .REPORT_THRESHOLD)]
                else [] := hcases t'
            show s₂.openCases t' = _
            simpa using hopen⟩
          event := hevents
          autoHidden := by simpa [ReportDb.autoHidden] using hhidden
          counts := by
            have hfiled : s₂.filedCounts = s.filedCounts := hcounts
            simp [ReportDb.filedCounts] at hfiled ⊢
            exact hfiled }

/-! ## One call after another -/

theorem runs_targetEvent {t : ReportTarget} {s s' : ReportDb} {o : Option EventRow} :
    Runs (targetEvent t) s o s' ↔ s' = s ∧
      ((t.targetType = .EVENT ∧ ∃ ev, s.db.events.find? t.targetId = some ev ∧ o = some ev) ∨
        (t.targetType ≠ .EVENT ∧ o = none)) := by
  rw [targetEvent, runs_ite]
  simp only [onTables, runs_within_bind, runs_findRow, runs_orThrow_bind, runs_pure, table_events]
  constructor
  · rintro (⟨htype, _, _, ⟨rfl, rfl⟩, ev, hev, rfl, rfl⟩ | ⟨hother, rfl, rfl⟩)
    · exact ⟨rfl, .inl ⟨htype, ev, hev, rfl⟩⟩
    · exact ⟨rfl, .inr ⟨hother, rfl⟩⟩
  · rintro ⟨rfl, ⟨htype, ev, hev, rfl⟩ | ⟨hother, rfl⟩⟩
    · exact .inl ⟨htype, _, _, ⟨rfl, rfl⟩, ev, hev, rfl, rfl⟩
    · exact .inr ⟨hother, rfl, rfl⟩

/-- The statements of a call of `file` by worker `i`, in their order. -/
def fileMoves (i : Nat) (env : ReportEnv) (reporter : UserId) (input : FileReportInput)
    (escalates : Bool) : List ReportMove :=
  [.file i env reporter input, .insert i, .count i] ++
    (if escalates then [.look i, .attach i, .readEvent i] else []) ++ [.commit i]

/-- The keys of the reports of a target that have no case. -/
def looseKeys (rows : List ReportRow) (t : ReportTarget) : List ReportKey :=
  (rows.filter fun r => decide (r.target = t) && r.moderationCaseId.isNone).map Row.key

/-- Attaching by key is attaching the reports without a case. -/
theorem attach_looseKeys {u : Table ReportRow} {t : ReportTarget} {caseId : CaseId} :
    u.rows.map (Table.updateIf (fun r => decide (Row.key r ∈ looseKeys u.rows t) &&
        r.moderationCaseId.isNone) (ReportRow.attach caseId)) =
      u.rows.map (Table.updateIf (fun r => decide (r.target = t) && r.moderationCaseId.isNone)
        (ReportRow.attach caseId)) := by
  refine List.map_congr_left fun r hr => ?_
  have hsame : (decide (Row.key r ∈ looseKeys u.rows t) && r.moderationCaseId.isNone) =
      (decide (r.target = t) && r.moderationCaseId.isNone) := by
    cases hcase : r.moderationCaseId.isNone with
    | false => simp
    | true =>
        simp only [Bool.and_true, decide_eq_decide]
        constructor
        · intro hmem
          obtain ⟨r', hr', hkey⟩ := List.mem_map.1 hmem
          simp only [List.mem_filter, Bool.and_eq_true, decide_eq_true_eq] at hr'
          rw [← Table.eq_of_key hr'.1 hr hkey]
          exact hr'.2.1
        · intro htarget
          refine List.mem_map.2 ⟨r, List.mem_filter.2 ⟨hr, ?_⟩, rfl⟩
          simp [htarget, hcase]
  simp only [Table.updateIf, hsame]

/-- An escalation whose reads are all of one moment is `escalate`. -/
theorem Escalation.writes_escalate {f : FileCall} {n m : Nat} {s s' : ReportDb}
    (h : Runs (escalate f.env f.report.target f.owner n (decide (m = 0))) s () s') :
    ∃ event, Runs (targetEvent f.report.target) s event s ∧
      Runs (Escalation.writes ⟨(s.db.cases.rows.filter (isOpenCaseAbout f.report.target.targetType
        f.report.target.targetId)).head?, looseKeys s.reports.rows f.report.target, event⟩ f n m)
        s () s' := by
  simp only [escalate, onTables, runs_within_bind, runs_findRows, table_cases,
    runs_updateRows_bind, table_reports, setTable_reports, runs_bind (m := targetEvent _)] at h
  obtain ⟨_, _, ⟨rfl, rfl⟩, caseId, db, hcase, t, ht, event, s₁, hevent, hrest⟩ := h
  obtain ⟨hdb, -⟩ := caseOfReports_spec hcase
  obtain ⟨rfl, hfound⟩ := runs_targetEvent.1 hevent
  refine ⟨event, runs_targetEvent.2 ⟨rfl, ?_⟩, ?_⟩
  · simpa only [hdb] using hfound
  · simp only [Escalation.writes, onTables, runs_within_bind, runs_updateRows_bind, table_reports,
      setTable_reports]
    exact ⟨caseId, db, hcase, t, ht.trans attach_looseKeys.symm, hrest⟩

theorem FileCall.runs_writes {f : FileCall} {n m : Nat} {x : Option Escalation}
    {s s₁ s₂ s' : ReportDb} (hinsert : Runs (insertReport f.report) s () s₁)
    (hesc : Runs (f.escalates n m x) s₁ () s₂)
    (hrecord : Runs (recordFiled f.report n x.isSome) s₂ () s') : Runs (f.writes n m x) s () s' :=
  runs_bind.2 ⟨(), s₁, hinsert, runs_bind.2 ⟨(), s₂, hesc, hrecord⟩⟩

/-- The committed tables, and where worker `i` is. -/
structure ReportWorld.At (w : ReportWorld) (i : Nat) (s : ReportDb) (call : Option FileCall) :
    Prop where
  store : w.store = s
  call : w.locals i = call

section Exec

variable {q : ReportSettings} {w : ReportWorld} {s s' : ReportDb} {i : Nat} {env : ReportEnv}
  {owner : Option UserId} {r : ReportRow} {n m : Nat} {existing : Option CaseRow}
  {attached : List ReportKey} {reporter : UserId} {input : FileReportInput}

theorem exec_file (h : w.At i s none)
    (howner : reportable env s.db reporter input.target = .ok owner) :
    ∃ w', ReportWorld.exec q w (.file i env reporter input) = some w' ∧
      w'.shared = w.shared ∧
      w'.At i s (some ⟨env, owner, newReport env reporter input, .resolved⟩) := by
  unfold ReportWorld.exec
  simp only [h.call, h.store, howner]
  exact ⟨_, rfl, rfl, h.store, Threads.set_locals_self⟩

theorem exec_insert (h : w.At i s (some ⟨env, owner, r, .resolved⟩))
    (hfree : w.shared.uncommitted (Row.key r) = none) (hrun : Runs (insertReport r) s () s') :
    ∃ w', ReportWorld.exec q w (.insert i) = some w' ∧
      w'.At i s (some ⟨env, owner, r, .inserted⟩) := by
  unfold ReportWorld.exec
  simp only [h.call, h.store]
  rw [if_pos hfree, if_pos (commits_of_runs hrun)]
  exact ⟨_, rfl, h.store, Threads.set_locals_self⟩

theorem exec_count (h : w.At i s (some ⟨env, owner, r, .inserted⟩))
    (hn : n = (s.reports.rows ++ [r]).countP (ReportRow.counts r.target))
    (hm : m = (s.reports.rows ++ [r]).countP (ReportRow.countsSafety r.target)) :
    ∃ w', ReportWorld.exec q w (.count i) = some w' ∧ w'.At i s (some ⟨env, owner, r,
      if triggered q n m = true then .counted n m else .ready n m none⟩) := by
  unfold ReportWorld.exec
  simp only [h.call, h.store, FileCall.sees]
  rw [← hn, ← hm]
  exact ⟨_, rfl, h.store, Threads.set_locals_self⟩

theorem exec_look (h : w.At i s (some ⟨env, owner, r, .counted n m⟩)) :
    ∃ w', ReportWorld.exec q w (.look i) = some w' ∧ w'.At i s (some ⟨env, owner, r, .looked n m
      (s.db.cases.rows.filter
        (isOpenCaseAbout r.target.targetType r.target.targetId)).head?⟩) := by
  unfold ReportWorld.exec
  simp only [h.call, h.store]
  exact ⟨_, rfl, h.store, Threads.set_locals_self⟩

theorem exec_attach (h : w.At i s (some ⟨env, owner, r, .looked n m existing⟩)) :
    ∃ w', ReportWorld.exec q w (.attach i) = some w' ∧ w'.At i s (some ⟨env, owner, r,
      .attached n m existing (looseKeys (s.reports.rows ++ [r]) r.target)⟩) := by
  unfold ReportWorld.exec
  simp only [h.call, h.store, FileCall.sees]
  exact ⟨_, rfl, h.store, Threads.set_locals_self⟩

theorem exec_readEvent {event : Option EventRow}
    (h : w.At i s (some ⟨env, owner, r, .attached n m existing attached⟩))
    (hrun : Runs (targetEvent r.target) s event s') :
    ∃ w', ReportWorld.exec q w (.readEvent i) = some w' ∧ w'.At i s (some ⟨env, owner, r,
      .ready n m (some ⟨existing, attached, event⟩)⟩) := by
  unfold ReportWorld.exec
  simp only [h.call, h.store]
  rw [hrun]
  exact ⟨_, rfl, h.store, Threads.set_locals_self⟩

theorem exec_commit {x : Option Escalation}
    (h : w.At i s (some ⟨env, owner, r, .ready n m x⟩))
    (hrun : Runs (FileCall.writes ⟨env, owner, r, .ready n m x⟩ n m x) s () s') :
    ∃ w', ReportWorld.exec q w (.commit i) = some w' ∧ w'.At i s' none := by
  unfold ReportWorld.exec
  simp only [h.call, h.store]
  rw [commit_of_runs hrun]
  exact ⟨_, rfl, rfl, Threads.set_locals_self⟩

end Exec

/-- One call after another does what `file` does. -/
theorem file_in_turn {q : ReportSettings} {w : ReportWorld} {s s' : ReportDb} {i : Nat}
    {env : ReportEnv} {reporter : UserId} {input : FileReportInput} {b : Bool}
    (hw : w.At i s none) (hfree : w.shared.uncommitted (input.target, reporter) = none)
    (h : Runs (file q env reporter input) s b s') :
    ∃ w', runList (ReportWorld.exec q) w (fileMoves i env reporter input b) = some w' ∧
      w'.At i s' none := by
  simp only [file, runs_get_bind, runs_fromExcept_bind, runs_bind (m := insertReport _),
    runs_insertReport, runs_countRows_bind, runs_bind (m := whenTx _ _),
    runs_bind (m := recordFiled _ _ _), table_reports, runs_pure] at h
  obtain ⟨owner, howner, _, _, ⟨t, ht, rfl⟩, _, s₂, hesc, _, _, hrecord, rfl, rfl⟩ := h
  have hinsert : Runs (insertReport (newReport env reporter input)) s ()
      { s with reports := t } := runs_insertReport.2 ⟨t, ht, rfl⟩
  obtain ⟨w₁, h₁, hshared, hat₁⟩ := exec_file (q := q) hw howner
  obtain ⟨w₂, h₂, hat₂⟩ := exec_insert (q := q) hat₁ (by rw [hshared]; exact hfree) hinsert
  dsimp only at hesc hrecord ⊢
  generalize hn : t.rows.countP (ReportRow.counts input.target) = n at hesc hrecord ⊢
  generalize hm : t.rows.countP (ReportRow.countsSafety input.target) = m at hesc hrecord ⊢
  rw [ht] at hn hm
  obtain ⟨w₃, h₃, hat₃⟩ := exec_count (q := q) hat₂ hn.symm hm.symm
  rcases runs_whenTx.1 hesc with ⟨hb, hesc⟩ | ⟨hb, rfl⟩
  · -- all the reads of the escalation are of the tables after the insert
    rw [if_pos hb] at hat₃
    obtain ⟨event, hevent, hwrites⟩ := Escalation.writes_escalate
      (f := ⟨env, owner, newReport env reporter input, .resolved⟩) hesc
    obtain ⟨-, hfound⟩ := runs_targetEvent.1 hevent
    obtain ⟨w₄, h₄, hat₄⟩ := exec_look (q := q) hat₃
    obtain ⟨w₅, h₅, hat₅⟩ := exec_attach (q := q) hat₄
    obtain ⟨w₆, h₆, hat₆⟩ := exec_readEvent (q := q) hat₅ (runs_targetEvent.2 ⟨rfl, hfound⟩)
    rw [hb] at hrecord ⊢
    have hrun := FileCall.runs_writes (x := some _) hinsert hwrites hrecord
    dsimp only at hrun
    rw [ht] at hrun
    obtain ⟨w₇, h₇, hat₇⟩ := exec_commit (q := q) hat₆ hrun
    refine ⟨w₇, ?_, hat₇⟩
    simp [fileMoves, runList, h₁, h₂, h₃, h₄, h₅, h₆, h₇]
  · rw [if_neg hb] at hat₃
    rw [Bool.eq_false_iff.2 hb] at hrecord ⊢
    have hnothing : Runs (pure () : ReportAct Unit) { s with reports := t } ()
        { s with reports := t } := runs_pure.2 ⟨rfl, rfl⟩
    have hrun := FileCall.runs_writes (x := none) (m := m)
      (f := ⟨env, owner, newReport env reporter input, .resolved⟩) hinsert hnothing hrecord
    obtain ⟨w₄, h₄, hat₄⟩ := exec_commit (q := q) (x := none) hat₃ hrun
    refine ⟨w₄, ?_, hat₄⟩
    simp [fileMoves, runList, h₁, h₂, h₃, h₄]

/-! ## What stays -/

/-- What one commit after another can do: reports are added, and published events are hidden,
    which is put on record. -/
structure ReportDb.Later (s s' : ReportDb) : Prop where
  count : ∀ t, s.count t ≤ s'.count t
  published : ∀ e, s'.isPublished e = true → s.isPublished e = true
  hides : ∀ e, s.isPublished e = true → s'.isPublished e = true ∨ e ∈ s'.autoHidden
  recorded : ∀ e ∈ s.autoHidden, e ∈ s'.autoHidden

section Effect

variable {f : FileCall} {n : Nat} {x : Option Escalation} {s s' : ReportDb} {e : EventId}

/-- The event that was hidden is not published any more. -/
theorem FileEffect.not_published (h : FileEffect f n x s s')
    (hx : x.bind Escalation.hidden = some e) : s'.isPublished e = false := by
  rw [ReportDb.isPublished, h.event e, if_pos hx]
  cases s.db.events.find? e with
  | none => rfl
  | some ev => rfl

theorem FileEffect.isPublished_eq (h : FileEffect f n x s s')
    (hx : x.bind Escalation.hidden ≠ some e) : s'.isPublished e = s.isPublished e := by
  rw [ReportDb.isPublished, h.event e, if_neg hx, ReportDb.isPublished]

theorem FileEffect.later (h : FileEffect f n x s s') : s.Later s' where
  count t := by
    rw [h.count t]
    exact Nat.le_add_right _ _
  published e hp := by
    by_cases hx : x.bind Escalation.hidden = some e
    · rw [h.not_published hx] at hp
      cases hp
    · rwa [h.isPublished_eq hx] at hp
  hides e hp := by
    by_cases hx : x.bind Escalation.hidden = some e
    · right
      rw [h.autoHidden, hx]
      exact List.mem_append_right _ (List.mem_singleton.2 rfl)
    · left
      rwa [h.isPublished_eq hx]
  recorded e he := by
    rw [h.autoHidden]
    exact List.mem_append_left _ he

end Effect

/-- What a call that has read something knows. -/
structure FileCall.Knows (s : ReportDb) (f : FileCall) : Prop where
  isOpen : f.report.status = .OPEN
  count : ∀ n ∈ f.phase.reportCount, n ≤ s.count f.report.target + 1
  event : ∀ n m x, f.phase = .ready n m (some x) → ∀ e, f.report.target = ⟨.EVENT, e⟩ →
    ∃ ev, x.event = some ev ∧ ev.id = e ∧
      (ev.status = .PUBLISHED → s.isPublished e = true ∨ e ∈ s.autoHidden) ∧
      (ev.status ≠ .PUBLISHED → s.isPublished e = false)
  about : ∀ n m x, f.phase = .ready n m (some x) → ∀ ev, x.event = some ev →
    f.report.target = ⟨.EVENT, ev.id⟩

theorem FileCall.Knows.later {s s' : ReportDb} {f : FileCall} (h : f.Knows s) (hs : s.Later s') :
    f.Knows s' where
  isOpen := h.isOpen
  count n hn := by
    have hold := h.count n hn
    have hmono := hs.count f.report.target
    omega
  event n m x hx e he := by
    obtain ⟨ev, hev, hid, hpub, hnot⟩ := h.event n m x hx e he
    refine ⟨ev, hev, hid, fun hst => ?_, fun hst => ?_⟩
    · rcases hpub hst with hp | hh
      · exact hs.hides e hp
      · exact .inr (hs.recorded e hh)
    · have hold := hnot hst
      rw [Bool.eq_false_iff] at hold ⊢
      exact fun hp => hold (hs.published e hp)
  about := h.about

end Paayatam
