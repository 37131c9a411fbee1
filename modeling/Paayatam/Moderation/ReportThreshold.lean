/-
  Paayatam.Moderation.ReportThreshold

  What the threshold guarantees, of any number of reports at once.

  A call counts what is committed when it counts.  Two calls that each count
  the other's report out can both stay below the threshold that their reports
  reach together, two that both reach it can each open a case, and the open
  case that is found may be a dispute, which `decideCase` refuses.  Where every
  commit comes in time for none of this to happen, the threshold is kept.
-/

import Paayatam.Moderation.ReportRuns

namespace Paayatam

open Lib

/-! ## Deciding the case of a hidden event -/

/-- A decision moves a hidden event on. -/
theorem planEventDecision_hidden {ev : EventRow} (hst : ev.status = .HIDDEN)
    (decision : CaseDecision) :
    ∃ w : StatusWrite, planEventDecision decision ev = .ok (some w) ∧
      (w.status = .PUBLISHED ∨ w.status = .REJECTED) := by
  cases decision with
  | APPROVED =>
      refine ⟨⟨.PUBLISHED, some .APPROVED⟩, ?_, .inl rfl⟩
      have htable : canTransition EVENT_TRANSITIONS .HIDDEN .PUBLISHED = true := by decide
      simp [planEventDecision, checkEventTransition, require, hst, htable]
  | REJECTED =>
      refine ⟨⟨.REJECTED, some .REJECTED⟩, ?_, .inr rfl⟩
      have htable : canTransition EVENT_TRANSITIONS .HIDDEN .REJECTED = true := by decide
      simp [planEventDecision, checkEventTransition, require, hst, htable]

/-- An event that has been published once may be written any status. -/
theorem StatusWrite.check_apply {ev : EventRow} (w : StatusWrite)
    (hcheck : Row.check ev = true) (hpub : ev.publishedAt.isSome = true) :
    Row.check (w.apply ev) = true := by
  simp only [Row.check, EventRow.constraints, StatusWrite.apply, hpub, Bool.or_true,
    Bool.and_true, Bool.and_eq_true] at hcheck ⊢
  exact hcheck

theorem applyEventDecision_accepts {db : Db} {e : EventId} {ev : EventRow}
    (hev : db.events.find? e = some ev) (hst : ev.status = .HIDDEN)
    (hpub : ev.publishedAt.isSome = true) (decision : CaseDecision) :
    Succeeds (applyEventDecision e decision) db := by
  obtain ⟨w, hplan, -⟩ := planEventDecision_hidden hst decision
  have hid : Row.key ev = e := Table.key_of_find? hev
  have hkey : db.events.find? (Row.key ev) = some ev := by rw [hid, hev]
  have hcheck : Row.check (w.apply ev) = true :=
    w.check_apply (db.events.valid ev (Table.mem_of_find? hev)) hpub
  rw [applyEventDecision, succeeds_findRow_bind, table_events, hev]
  simp only [finishEventDecision, hplan]
  refine Succeeds.bind ⟨_, _, runs_fromExcept.2 ⟨rfl, rfl⟩⟩ fun write db₁ hwrite => ?_
  obtain ⟨hw, rfl⟩ := runs_fromExcept.1 hwrite
  obtain rfl := Except.ok.inj hw
  refine Succeeds.bind (succeeds_updateRow hkey rfl hcheck fun _ => rfl) fun _ db₂ _ => ?_
  by_cases hw : w.status = .PUBLISHED
  · exact ⟨(), _, runs_whenTx.2 (.inl ⟨hw, runs_emit.2 rfl⟩)⟩
  · exact ⟨(), _, runs_whenTx.2 (.inr ⟨hw, rfl⟩)⟩

/-- `decideCase` accepts an open case about a hidden event, if it is no dispute. -/
theorem decideCase_accepts {db : Db} {c : CaseRow} {ev : EventRow} {env : Env} {admin : UserId}
    {decision : CaseDecision} {note : String} (hc : c ∈ db.cases.rows)
    (htrigger : c.trigger ≠ .DISPUTE) (hopen : OPEN_CASE_STATUSES.contains c.status = true)
    (hsubject : c.subjectType = .EVENT) (hev : db.events.find? c.subjectId = some ev)
    (hst : ev.status = .HIDDEN) (hpub : ev.publishedAt.isSome = true)
    (hnote : 3 ≤ utf16Length (trim note)) :
    Succeeds (decideCase env admin true c.id decision note) db := by
  have hfind : db.cases.find? c.id = some c := Table.find?_of_mem hc
  have hstatus : c.status = .OPEN ∨ c.status = .IN_REVIEW ∨ c.status = .ESCALATED := by
    simpa [OPEN_CASE_STATUSES] using hopen
  have hclose : Succeeds (updateRow c.id (caseVerdict env admin decision note).apply : Act Unit)
      db := succeeds_updateRow hfind rfl rfl fun _ => rfl
  obtain ⟨_, db₁, hclosed⟩ := hclose
  have hev₁ : db₁.events.find? c.subjectId = some ev := by
    obtain ⟨r, -, t, -, rfl⟩ := runs_updateRow.1 hclosed
    exact hev
  obtain ⟨_, db₂, hdecided⟩ := applyEventDecision_accepts hev₁ hst hpub decision
  refine ⟨(), db₂, ?_⟩
  rw [decideCase_eq]
  simp only [runs_guardTx_bind, runs_findRow_bind, runs_orThrow_bind, table_cases, finishDecideCase]
  refine ⟨trivial, hnote, c, hfind, htrigger, hstatus, runs_bind.2 ⟨(), db₁, hclosed, ?_⟩⟩
  rw [if_pos hsubject]
  exact hdecided

/-! ## The condition -/

/-- A commit about event `e` comes in time: below the threshold, the published event stays
    below it with this report; above, the open cases are what the call found, and no
    dispute. -/
def FilePhase.InTime (q : ReportSettings) (s : ReportDb) (e : EventId) : FilePhase → Prop
  | .ready _ _ none =>
    s.isPublished e = true → s.count ⟨.EVENT, e⟩ + 1 < q.moderation_report_threshold
  | .ready _ _ (some x) =>
    (s.openCases ⟨.EVENT, e⟩).map (·.1) = (x.existing.map (·.id)).toList ∧
      ∀ c ∈ s.openCases ⟨.EVENT, e⟩, c.2 ≠ .DISPUTE
  | _ => True

/-- Every commit about an event that is published, or was hidden in this run, comes in time. -/
def InTime (q : ReportSettings) (w : ReportWorld) : ReportMove → Prop
  | .commit i => ∀ f ∈ w.locals i, f.report.target.targetType = .EVENT →
      (w.store.isPublished f.report.target.targetId = true ∨
        f.report.target.targetId ∈ w.store.autoHidden) →
      f.phase.InTime q w.store f.report.target.targetId
  | _ => True

/-! ## The invariant -/

/-- What holds of the tables in a run from `s₀`. -/
structure Handled (q : ReportSettings) (s₀ s : ReportDb) : Prop where
  hides : ∀ e, s₀.isPublished e = true → s.isPublished e = true ∨ e ∈ s.autoHidden
  below : ∀ e, s.isPublished e = true →
    s₀.count ⟨.EVENT, e⟩ < q.moderation_report_threshold →
    s.count ⟨.EVENT, e⟩ < q.moderation_report_threshold
  hidden : ∀ e ∈ s.autoHidden, (∃ ev, s.db.events.find? e = some ev ∧ ev.status = .HIDDEN ∧
    ev.publishedAt.isSome = true) ∧ ∃ c, s.openCases ⟨.EVENT, e⟩ = [c] ∧ c.2 ≠ .DISPUTE
  counted : ∀ x ∈ s.filedCounts, x.2 ≤ s.count x.1

section Commit

variable {q : ReportSettings} {f : FileCall} {n m : Nat} {x : Option Escalation}
  {s₀ s s' : ReportDb} {e : EventId}

/-- The call that hides an event read it as published, and is about it. -/
theorem FileCall.Knows.hides (h : f.Knows s) (hphase : f.phase = .ready n m x)
    (hx : x.bind Escalation.hidden = some e) :
    f.report.target = ⟨.EVENT, e⟩ ∧ (s.isPublished e = true ∨ e ∈ s.autoHidden) := by
  cases x with
  | none => cases hx
  | some y =>
      simp only [Option.bind_some, Escalation.hidden, hiddenOf, Option.bind_eq_some_iff] at hx
      obtain ⟨ev, hev, hx⟩ := hx
      split at hx
      · next hst =>
          obtain rfl := Option.some.inj hx
          have habout := h.about n m y hphase ev hev
          obtain ⟨ev', hev', -, hpub, -⟩ := h.event n m y hphase _ habout
          obtain rfl := Option.some.inj (hev.symm.trans hev')
          exact ⟨habout, hpub hst⟩
      · cases hx

/-- A call about an event that is published, and that does not hide it, does not escalate. -/
theorem FileCall.Knows.escalates (h : f.Knows s) (hphase : f.phase = .ready n m x)
    (habout : f.report.target = ⟨.EVENT, e⟩) (hpub : s.isPublished e = true)
    (hx : x.bind Escalation.hidden ≠ some e) : x = none := by
  cases x with
  | none => rfl
  | some y =>
      obtain ⟨ev, hev, hid, -, hnot⟩ := h.event n m y hphase e habout
      by_cases hst : ev.status = .PUBLISHED
      · refine absurd ?_ hx
        simp [Escalation.hidden, hiddenOf, hev, hst, hid]
      · rw [hnot hst] at hpub
        cases hpub

theorem FileEffect.count_le (h : FileEffect f n x s s') (hopen : f.report.status = .OPEN)
    (hn : n ≤ s.count f.report.target + 1) : n ≤ s'.count f.report.target := by
  have hcounts : f.report.counts f.report.target = true := by simp [ReportRow.counts, hopen]
  rw [h.count, if_pos hcounts]
  exact hn

/-- An escalation that comes in time leaves one open case, and no dispute. -/
theorem FileEffect.openCases (h : FileEffect f n x s s') {y : Escalation} (hx : x = some y)
    (habout : f.report.target = ⟨.EVENT, e⟩)
    (hids : (s.openCases ⟨.EVENT, e⟩).map (·.1) = (y.existing.map (·.id)).toList)
    (hkind : ∀ c ∈ s.openCases ⟨.EVENT, e⟩, c.2 ≠ .DISPUTE) :
    ∃ c, s'.openCases ⟨.EVENT, e⟩ = [c] ∧ c.2 ≠ .DISPUTE := by
  obtain ⟨caseId, hcases⟩ := h.cases
  have hafter := hcases ⟨.EVENT, e⟩
  subst hx
  cases hex : y.existing with
  | none =>
      rw [hex] at hids
      have hnone : s.openCases ⟨.EVENT, e⟩ = [] := List.map_eq_nil_iff.1 hids
      rw [hnone, if_pos ⟨⟨y, rfl, hex⟩, habout.symm⟩] at hafter
      exact ⟨_, hafter, by simp⟩
  | some k =>
      rw [hex] at hids
      have hkeep : ¬ ((∃ z ∈ some y, z.existing = none) ∧
          (⟨.EVENT, e⟩ : ReportTarget) = f.report.target) := by
        rintro ⟨⟨z, hz, hnone⟩, -⟩
        obtain rfl := Option.some.inj hz
        rw [hex] at hnone
        cases hnone
      rw [if_neg hkeep, List.append_nil] at hafter
      obtain ⟨c, hc, -⟩ := List.map_eq_singleton_iff.1 hids
      refine ⟨c, hafter.trans hc, hkind c ?_⟩
      rw [hc]
      exact List.mem_singleton.2 rfl

/-- The open case about a hidden event stays the only one. -/
theorem FileEffect.openCases_hidden (h : FileEffect f n x s s') {c : CaseId × ModerationTrigger}
    (hc : s.openCases ⟨.EVENT, e⟩ = [c]) (hkind : c.2 ≠ .DISPUTE)
    (htime : f.report.target = ⟨.EVENT, e⟩ → ∀ y, x = some y →
      (s.openCases ⟨.EVENT, e⟩).map (·.1) = (y.existing.map (·.id)).toList ∧
        ∀ c ∈ s.openCases ⟨.EVENT, e⟩, c.2 ≠ .DISPUTE) :
    ∃ c, s'.openCases ⟨.EVENT, e⟩ = [c] ∧ c.2 ≠ .DISPUTE := by
  by_cases hact : f.report.target = ⟨.EVENT, e⟩ ∧ ∃ y, x = some y
  · obtain ⟨habout, y, hy⟩ := hact
    obtain ⟨hids, hkinds⟩ := htime habout y hy
    exact h.openCases hy habout hids hkinds
  · obtain ⟨caseId, hcases⟩ := h.cases
    have hafter := hcases ⟨.EVENT, e⟩
    rw [if_neg, List.append_nil] at hafter
    · exact ⟨c, hafter.trans hc, hkind⟩
    · rintro ⟨⟨y, hy, -⟩, habout⟩
      exact hact ⟨habout.symm, y, hy⟩

/-- The row of an event that was published or hidden, once it is hidden. -/
theorem FileEffect.hidden_row (h : FileEffect f n x s s') {ev : EventRow}
    (hev : s.db.events.find? e = some ev) (hpub : ev.publishedAt.isSome = true)
    (hst : ev.status = .HIDDEN ∨ x.bind Escalation.hidden = some e) :
    ∃ ev, s'.db.events.find? e = some ev ∧ ev.status = .HIDDEN ∧ ev.publishedAt.isSome = true := by
  by_cases hx : x.bind Escalation.hidden = some e
  · refine ⟨hideWrite.apply ev, ?_, rfl, hpub⟩
    rw [h.event e, if_pos hx, hev, Option.map_some]
  · refine ⟨ev, ?_, hst.resolve_right hx, hpub⟩
    rw [h.event e, if_neg hx, hev]

/-- A commit that comes in time. -/
theorem Handled.commit (h : Handled q s₀ s) (hknows : f.Knows s) (hphase : f.phase = .ready n m x)
    (htime : ∀ e, f.report.target = ⟨.EVENT, e⟩ → s.isPublished e = true ∨ e ∈ s.autoHidden →
      f.phase.InTime q s e)
    (heffect : FileEffect f n x s s') : Handled q s₀ s' where
  hides e he := by
    rcases h.hides e he with hpub | hhid
    · exact heffect.later.hides e hpub
    · exact .inr (heffect.later.recorded e hhid)
  below e hpub hbefore := by
    have hpub₀ := heffect.later.published e hpub
    have hbelow := h.below e hpub₀ hbefore
    rw [heffect.count]
    by_cases habout : f.report.target = ⟨.EVENT, e⟩
    · have hx : x.bind Escalation.hidden ≠ some e := by
        intro hx
        rw [heffect.not_published hx] at hpub
        cases hpub
      obtain rfl := hknows.escalates hphase habout hpub₀ hx
      have hroom := htime e habout (.inl hpub₀)
      rw [hphase] at hroom
      have hlt := hroom hpub₀
      split
      · exact hlt
      · exact hbelow
    · have hother : f.report.counts ⟨.EVENT, e⟩ = false := by simp [ReportRow.counts, habout]
      simpa [hother] using hbelow
  hidden e he := by
    have htimely : f.report.target = ⟨.EVENT, e⟩ → (s.isPublished e = true ∨ e ∈ s.autoHidden) →
        ∀ y, x = some y →
          (s.openCases ⟨.EVENT, e⟩).map (·.1) = (y.existing.map (·.id)).toList ∧
            ∀ c ∈ s.openCases ⟨.EVENT, e⟩, c.2 ≠ .DISPUTE := by
      rintro habout hseen y rfl
      have hin := htime e habout hseen
      rwa [hphase] at hin
    by_cases hold : e ∈ s.autoHidden
    · obtain ⟨⟨ev, hev, hst, hpub⟩, c, hc, hkind⟩ := h.hidden e hold
      exact ⟨heffect.hidden_row hev hpub (.inl hst),
        heffect.openCases_hidden hc hkind fun habout => htimely habout (.inr hold)⟩
    · rw [heffect.autoHidden, List.mem_append] at he
      have hx : x.bind Escalation.hidden = some e := by
        rcases he with he | he
        · exact absurd he hold
        · exact Option.mem_toList.1 he
      obtain ⟨habout, hseen⟩ := hknows.hides hphase hx
      have hpub : s.isPublished e = true := hseen.resolve_right hold
      obtain ⟨y, rfl⟩ : ∃ y, x = some y := by
        cases x with
        | none => cases hx
        | some y => exact ⟨y, rfl⟩
      obtain ⟨hids, hkinds⟩ := htimely habout hseen y rfl
      obtain ⟨ev, hev, hst⟩ := (Option.any_eq_true _ _).1 hpub
      have hrow := s.db.events.valid ev (Table.mem_of_find? hev)
      have hstamp : ev.publishedAt.isSome = true := by
        have hst' : ev.status = .PUBLISHED := of_decide_eq_true hst
        simp only [Row.check, EventRow.constraints, hst', Bool.and_eq_true] at hrow
        simpa using hrow.1.2
      exact ⟨heffect.hidden_row hev hstamp (.inr hx), heffect.openCases rfl habout hids hkinds⟩
  counted y hy := by
    rw [heffect.counts, List.mem_append, List.mem_singleton] at hy
    rcases hy with hy | rfl
    · exact (h.counted y hy).trans (heffect.later.count _)
    · exact heffect.count_le hknows.isOpen (hknows.count n (by simp [hphase, FilePhase.reportCount]))

end Commit

/-! ## Runs -/

/-- The tables are handled, and every call knows what it has read. -/
abbrev ReportsHandled (q : ReportSettings) (s₀ : ReportDb) : ReportWorld → Prop :=
  Threads.Holds (fun shared : ReportShared => Handled q s₀ shared.store)
    (fun shared call => ∀ f ∈ call, f.Knows shared.store) fun _ _ => True

section Steps

variable {q : ReportSettings} {s₀ : ReportDb} {w w' : ReportWorld} {mv : ReportMove}

/-- A move that commits nothing. -/
theorem ReportsHandled.keep (h : ReportsHandled q s₀ w) {i : Nat} {shared : ReportShared}
    {call : Option FileCall} (hstore : shared.store = w.shared.store)
    (hknows : ∀ f ∈ call, f.Knows w.shared.store) : ReportsHandled q s₀ (w.set i shared call) := by
  refine h.set_alone ?_ ?_ fun j _ => ?_
  · rw [hstore]
    exact h.shared
  · rw [hstore]
    exact hknows
  · rw [hstore]
    exact h.own j

/-- The event a call reads is the one its report is about. -/
theorem targetEvent_spec {t : ReportTarget} {s s' : ReportDb} {o : Option EventRow}
    (h : Runs (targetEvent t) s o s') :
    (t.targetType = .EVENT → ∃ ev, o = some ev ∧ s.db.events.find? t.targetId = some ev) ∧
    ∀ ev, o = some ev → t = ⟨.EVENT, ev.id⟩ := by
  obtain ⟨-, ⟨htype, ev, hev, rfl⟩ | ⟨hother, rfl⟩⟩ := runs_targetEvent.1 h
  · refine ⟨fun _ => ⟨ev, rfl, hev⟩, fun ev' h => ?_⟩
    obtain rfl := Option.some.inj h
    have hid : ev.id = t.targetId := Table.key_of_find? hev
    rw [← htype, hid]
  · exact ⟨fun h => absurd h hother, fun _ h => (nomatch h)⟩

/-- What a call knows once it has read the event. -/
theorem FileCall.Knows.read {s s' : ReportDb} {f : FileCall} {n m : Nat}
    {existing : Option CaseRow} {attached : List ReportKey} {o : Option EventRow}
    (h : f.Knows s) (hcount : n ∈ f.phase.reportCount)
    (hread : Runs (targetEvent f.report.target) s o s') :
    FileCall.Knows s { f with phase := .ready n m (some ⟨existing, attached, o⟩) } := by
  obtain ⟨hevent, habout⟩ := targetEvent_spec hread
  refine ⟨h.isOpen, fun k hk => ?_, fun n' m' x hx e he => ?_, fun n' m' x hx ev hev => ?_⟩
  · obtain rfl := Option.some.inj hk
    exact h.count n hcount
  · obtain ⟨-, -, hx⟩ := FilePhase.ready.inj hx
    obtain rfl := Option.some.inj hx
    have htarget : f.report.target = ⟨.EVENT, e⟩ := he
    rw [htarget] at hevent
    obtain ⟨ev, hev, hfind⟩ := hevent rfl
    have hpub : s.isPublished e = decide (ev.status = .PUBLISHED) := by
      rw [ReportDb.isPublished, hfind, Option.any_some]
    refine ⟨ev, hev, Table.key_of_find? hfind, fun hst => .inl ?_, fun hst => ?_⟩
    · rw [hpub]
      exact decide_eq_true hst
    · rw [hpub]
      exact decide_eq_false hst
  · obtain ⟨-, -, hx⟩ := FilePhase.ready.inj hx
    obtain rfl := Option.some.inj hx
    exact habout ev hev

/-- A call before it has read the event. -/
theorem FileCall.Knows.of_count {s : ReportDb} {f : FileCall} (hopen : f.report.status = .OPEN)
    (hcount : ∀ n ∈ f.phase.reportCount, n ≤ s.count f.report.target + 1)
    (hphase : ∀ n m x, f.phase ≠ .ready n m (some x)) : f.Knows s where
  isOpen := hopen
  count := hcount
  event n m x hx := absurd hx (hphase n m x)
  about n m x hx := absurd hx (hphase n m x)

/-- A call is over, and has committed nothing. -/
theorem ReportsHandled.ends (h : ReportsHandled q s₀ w) {i : Nat} {shared : ReportShared}
    (hstore : shared.store = w.shared.store) : ReportsHandled q s₀ (w.set i shared none) :=
  h.keep hstore fun f hf => absurd hf (Option.not_mem_none f)

theorem ReportsHandled.step (h : ReportsHandled q s₀ w) (hg : InTime q w mv)
    (hs : w.Step q mv w') : ReportsHandled q s₀ w' := by
  cases mv with
  | file i env reporter input =>
      simp only [ReportWorld.Step, ReportWorld.exec] at hs
      split at hs
      · cases hs
      · split at hs
        · obtain rfl := Option.some.inj hs
          refine h.keep rfl fun f hf => ?_
          obtain rfl := Option.some.inj hf
          exact .of_count rfl (fun n hn => absurd hn (Option.not_mem_none n)) (by simp)
        · obtain rfl := Option.some.inj hs
          exact h
  | insert i =>
      simp only [ReportWorld.Step, ReportWorld.exec] at hs
      split at hs
      · next env owner report hl =>
          split at hs
          · split at hs
            · obtain rfl := Option.some.inj hs
              refine h.keep rfl fun f hf => ?_
              obtain rfl := Option.some.inj hf
              have hold := h.own i _ hl
              exact .of_count hold.isOpen (fun n hn => absurd hn (Option.not_mem_none n)) (by simp)
            · obtain rfl := Option.some.inj hs
              exact h.ends rfl
          · cases hs
      · cases hs
  | count i =>
      simp only [ReportWorld.Step, ReportWorld.exec] at hs
      split at hs
      · next env owner report hl =>
          obtain rfl := Option.some.inj hs
          refine h.keep rfl fun f hf => ?_
          obtain rfl := Option.some.inj hf
          have hold := h.own i _ hl
          refine .of_count hold.isOpen (fun n hn => ?_) fun _ _ _ h => ?_
          · have hsees : n = (w.store.reports.rows ++ [report]).countP
                (ReportRow.counts report.target) := by
              split at hn
              · exact (Option.some.inj hn).symm
              · exact (Option.some.inj hn).symm
            rw [hsees, List.countP_append, List.countP_singleton]
            refine Nat.add_le_add_left ?_ _
            split
            · exact le_rfl
            · exact Nat.zero_le 1
          · split at h
            · cases h
            · cases h
      · cases hs
  | look i =>
      simp only [ReportWorld.Step, ReportWorld.exec] at hs
      split at hs
      · next env owner report n m hl =>
          obtain rfl := Option.some.inj hs
          refine h.keep rfl fun f hf => ?_
          obtain rfl := Option.some.inj hf
          have hold := h.own i _ hl
          exact .of_count hold.isOpen hold.count (by simp)
      · cases hs
  | attach i =>
      simp only [ReportWorld.Step, ReportWorld.exec] at hs
      split at hs
      · next env owner report n m existing hl =>
          obtain rfl := Option.some.inj hs
          refine h.keep rfl fun f hf => ?_
          obtain rfl := Option.some.inj hf
          have hold := h.own i _ hl
          exact .of_count hold.isOpen hold.count (by simp)
      · cases hs
  | readEvent i =>
      simp only [ReportWorld.Step, ReportWorld.exec] at hs
      split at hs
      · next env owner report n m existing attached hl =>
          split at hs
          · next event s' hread =>
              obtain rfl := Option.some.inj hs
              refine h.keep rfl fun f hf => ?_
              obtain rfl := Option.some.inj hf
              exact (h.own i _ hl).read rfl hread
          · obtain rfl := Option.some.inj hs
            exact h.ends rfl
      · cases hs
  | commit i =>
      simp only [ReportWorld.Step, ReportWorld.exec] at hs
      split at hs
      · next env owner report n m x hl =>
          obtain rfl := Option.some.inj hs
          have hknows := h.own i _ hl
          have htime := hg _ hl
          rcases commit_cases (FileCall.writes ⟨env, owner, report, .ready n m x⟩ n m x) w.store
            with ⟨_, hrun⟩ | hsame
          · have heffect := FileCall.writes_spec hrun
            refine h.set_alone ?_ (fun f hf => absurd hf (Option.not_mem_none f)) fun j _ => ?_
            · refine Handled.commit h.shared hknows rfl (fun e habout hseen => ?_) heffect
              have htarget : report.target = ⟨.EVENT, e⟩ := habout
              have hin := htime (by rw [htarget])
              rw [htarget] at hin
              exact hin hseen
            · exact fun f hf => (h.own j f hf).later heffect.later
          · exact h.ends hsame
      · cases hs
  | crash i =>
      simp only [ReportWorld.Step, ReportWorld.exec] at hs
      split at hs
      · obtain rfl := Option.some.inj hs
        exact h.ends rfl
      · obtain rfl := Option.some.inj hs
        exact h.ends rfl
      · cases hs

end Steps

/-- What the threshold guarantees of a run from `w₀` to `w`. -/
structure ThresholdKept (q : ReportSettings) (w₀ w : ReportWorld) : Prop where
  /-- The reports that count towards a target are by different people. -/
  distinct : ∀ t, ((w.store.reports.rows.filter (ReportRow.counts t)).map
    (·.reporterUserId)).Nodup
  /-- No call acted on a count that has not that many people behind it. -/
  counted : ∀ x ∈ w.store.filedCounts, x.2 ≤ w.store.count x.1
  /-- A published event whose reports have come to the threshold is hidden, under one case. -/
  hidden : ∀ e, w₀.store.isPublished e = true →
    w₀.store.count ⟨.EVENT, e⟩ < q.moderation_report_threshold →
    q.moderation_report_threshold ≤ w.store.count ⟨.EVENT, e⟩ →
    (∃ ev, w.store.db.events.find? e = some ev ∧ ev.status = .HIDDEN) ∧
      ∃ c, w.store.openCases ⟨.EVENT, e⟩ = [c]
  /-- An event that was hidden automatically has an open case that `decideCase` decides. -/
  decidable : ∀ e ∈ w.store.autoHidden, ∃ c ∈ w.store.openCases ⟨.EVENT, e⟩,
    ∀ (env : Env) (admin : UserId) (decision : CaseDecision) (note : String),
      3 ≤ utf16Length (trim note) →
      Succeeds (decideCase env admin true c.1 decision note) w.store.db

/-- The reports of one target are by different people: the unique index. -/
theorem reporters_nodup (s : ReportDb) (t : ReportTarget) :
    ((s.reports.rows.filter (ReportRow.counts t)).map (·.reporterUserId)).Nodup := by
  refine List.pairwise_map.2 ?_
  have hdistinct := s.reports.distinct.sublist
    (List.filter_sublist (p := ReportRow.counts t))
  refine hdistinct.imp_of_mem fun {a b} ha hb hab heq => ?_
  have hta : a.target = t := by
    have hcounts := (List.mem_filter.1 ha).2
    simp only [ReportRow.counts, Bool.and_eq_true, decide_eq_true_eq] at hcounts
    exact hcounts.1
  have htb : b.target = t := by
    have hcounts := (List.mem_filter.1 hb).2
    simp only [ReportRow.counts, Bool.and_eq_true, decide_eq_true_eq] at hcounts
    exact hcounts.1
  have hkey : Row.key a = Row.key b := Prod.ext (hta.trans htb.symm) heq
  exact hab.1 hkey

/-- An open case about a hidden event that is no dispute can be decided. -/
theorem Handled.decidable {q : ReportSettings} {s₀ s : ReportDb} (h : Handled q s₀ s)
    {e : EventId} (he : e ∈ s.autoHidden) : ∃ c ∈ s.openCases ⟨.EVENT, e⟩,
    ∀ (env : Env) (admin : UserId) (decision : CaseDecision) (note : String),
      3 ≤ utf16Length (trim note) →
      Succeeds (decideCase env admin true c.1 decision note) s.db := by
  obtain ⟨⟨ev, hev, hst, hpub⟩, c, hcases, hkind⟩ := h.hidden e he
  have hc : c ∈ s.openCases ⟨.EVENT, e⟩ := by
    rw [hcases]
    exact List.mem_singleton.2 rfl
  refine ⟨c, hc, fun env admin decision note hnote => ?_⟩
  obtain ⟨row, hrow, rfl⟩ := List.mem_map.1 hc
  obtain ⟨hmem, hopen⟩ := List.mem_filter.1 hrow
  simp only [isOpenCaseAbout, Bool.and_eq_true, decide_eq_true_eq] at hopen
  obtain ⟨⟨hsubject, hid⟩, hstatus⟩ := hopen
  exact decideCase_accepts hmem hkind hstatus hsubject (hid ▸ hev) hst hpub hnote

theorem reportsHandled_start {q : ReportSettings} {w₀ : ReportWorld} (h₀ : w₀.Start) :
    ReportsHandled q w₀.store w₀ where
  shared :=
    { hides := fun e he => .inl he
      below := fun e _ h => h
      hidden := fun e he => by
        have hnone : w₀.shared.store.autoHidden = [] := congrArg _ h₀.audit
        rw [hnone] at he
        cases he
      counted := fun x hx => by
        have hnone : w₀.shared.store.filedCounts = [] := congrArg _ h₀.audit
        rw [hnone] at hx
        cases hx }
  own i f hf := by
    rw [h₀.idle i] at hf
    cases hf
  apart _ _ _ := trivial

/-- In every run of any number of calls of `file`, statement by statement, in which every
    commit about a published event comes in time: each reporter counts at most once, an event
    whose reports come to the threshold is hidden under exactly one open case, and every event
    that was hidden has an open case that can be decided. -/
theorem report_threshold_kept {q : ReportSettings} {w₀ w : ReportWorld} (h₀ : w₀.Start)
    (h : Reach (· = w₀) (ReportWorld.Step q) (InTime q) w) : ThresholdKept q w₀ w := by
  have hinv : ReportsHandled q w₀.store w := by
    refine h.invariant (I := ReportsHandled q w₀.store) (fun s hs => ?_)
      fun _ _ _ hi hg hstep => hi.step hg hstep
    rw [hs]
    exact reportsHandled_start h₀
  have hhandled : Handled q w₀.store w.store := hinv.shared
  refine ⟨reporters_nodup w.store, hhandled.counted, fun e hpub hbefore hreached => ?_,
    fun e he => hhandled.decidable he⟩
  have hid : e ∈ w.store.autoHidden := by
    rcases hhandled.hides e hpub with hstill | hid
    · have hbelow := hhandled.below e hstill hbefore
      omega
    · exact hid
  obtain ⟨⟨ev, hev, hst, -⟩, c, hc, -⟩ := hhandled.hidden e hid
  exact ⟨⟨ev, hev, hst⟩, c, hc⟩

instance (q : ReportSettings) (s : ReportDb) (e : EventId) :
    (p : FilePhase) → Decidable (p.InTime q s e)
  | .ready _ _ none => inferInstanceAs (Decidable (_ → _))
  | .ready _ _ (some _) => inferInstanceAs (Decidable (_ ∧ _))
  | .resolved | .inserted | .counted _ _ | .looked _ _ _ | .attached _ _ _ _ => isTrue trivial

instance (q : ReportSettings) (w : ReportWorld) : (m : ReportMove) → Decidable (InTime q w m)
  | .commit i => inferInstanceAs (Decidable (∀ f ∈ w.locals i, _ → _ → _))
  | .file .. | .insert _ | .count _ | .look _ | .attach _ | .readEvent _ | .crash _ => isTrue trivial

/-- What `w` has in its tables, with no report yet. -/
def ReportWorld.ofWorld (w : World) : ReportWorld where
  shared := { store := ⟨w.db, .empty, [], []⟩, uncommitted := fun _ => none }
  locals _ := none

theorem ReportWorld.start_ofWorld (w : World) : (ReportWorld.ofWorld w).Start :=
  ⟨fun _ => rfl, fun _ => rfl, rfl⟩

/-- Event 7 is announced. -/
def announcedCalls : List Call :=
  [callAt 0 (.moveCoins (onboardingReward 1 100)), callAt 1 (.create 1 (demoEvent 100 2) false 7)]

/-- Event 7 is over, still published, and its guest has reported the host absent. -/
def awaitedCalls : List Call :=
  [callAt 0 (.moveCoins (onboardingReward 1 100)), callAt 0 (.moveCoins (onboardingReward 2 100)),
   callAt 1 (.create 1 (demoEvent 100 2) false 7), callAt 2 (.join 2 7 21),
   callAt 3 (.accept 1 21), callAt 103 (.reportHostAbsent 2 21 "The host did not come.")]

/-- Worker `i` reports event 7 for `reporter`, up to its count. -/
def reportEvening (i : Nat) (reporter : UserId) : List ReportMove :=
  [.file i ⟨demoEnv 104, fun _ => false⟩ reporter ⟨⟨.EVENT, 7⟩, .SPAM, none⟩, .insert i, .count i]

/-- The rest of an escalation. -/
def escalateEvening (i : Nat) : List ReportMove := [.look i, .attach i, .readEvent i]

/-- Three reports, one after another. -/
def threeReports : List ReportMove :=
  reportEvening 0 11 ++ [.commit 0] ++ reportEvening 1 12 ++ [.commit 1] ++ reportEvening 2 13 ++
    escalateEvening 2 ++ [.commit 2]

/-- The second and the third report at once. -/
def simultaneousReports : List ReportMove :=
  reportEvening 0 11 ++ [.commit 0] ++ reportEvening 1 12 ++ reportEvening 2 13 ++
    [.commit 1, .commit 2]

/-- The third and the fourth report at once. -/
def simultaneousEscalations : List ReportMove :=
  reportEvening 0 11 ++ [.commit 0] ++ reportEvening 1 12 ++ [.commit 1] ++ reportEvening 2 13 ++
    reportEvening 3 14 ++ escalateEvening 2 ++ escalateEvening 3 ++ [.commit 2, .commit 3]

theorem report_threshold_reached : ∃ w₀ w, ThresholdKept .defaults w₀ w ∧
    w₀.store.isPublished 7 = true ∧ w.store.count ⟨.EVENT, 7⟩ = 3 ∧ 7 ∈ w.store.autoHidden := by
  have hplay : (World.play announcedCalls).any (fun w =>
      (ReportWorld.ofWorld w).store.isPublished 7 &&
      (guardList (ReportWorld.exec .defaults) (fun w m => decide (InTime .defaults w m)) (.ofWorld w)
        threeReports &&
      (runList (ReportWorld.exec .defaults) (.ofWorld w) threeReports).any fun w' =>
        decide (w'.store.count ⟨.EVENT, 7⟩ = 3) && w'.store.autoHidden.contains 7)) = true := by
    decide
  obtain ⟨w, -, hw⟩ := (Option.any_eq_true _ _).1 hplay
  simp only [Bool.and_eq_true, Option.any_eq_true] at hw
  obtain ⟨hpub, hguard, w', hrun, hcount, hhid⟩ := hw
  have hreach := reach_of_runList (G := InTime .defaults)
    (I := (· = ReportWorld.ofWorld w)) (fun _ _ _ h => h) (fun _ _ h => of_decide_eq_true h)
    (.start rfl) hguard hrun
  exact ⟨_, w', report_threshold_kept (ReportWorld.start_ofWorld w) hreach, hpub,
    of_decide_eq_true hcount, List.contains_iff_mem.1 hhid⟩

/-- A dispute is not `decideCase`'s to decide. -/
theorem decideCase_refuses {db : Db} {c : CaseRow} {env : Env} {admin : UserId}
    {decision : CaseDecision} {note : String} (hc : db.cases.find? c.id = some c)
    (hdispute : c.trigger = .DISPUTE) :
    ¬ Succeeds (decideCase env admin true c.id decision note) db := by
  rintro ⟨_, db', h⟩
  rw [decideCase_eq] at h
  simp only [runs_guardTx_bind, runs_findRow_bind, runs_orThrow_bind, table_cases,
    finishDecideCase] at h
  obtain ⟨-, -, c', hc', hno, -⟩ := h
  obtain rfl := Option.some.inj (hc.symm.trans hc')
  exact hno hdispute

/-- Two reports at once bring a published event to the threshold, and nobody acts; two more open
    a case each; and an event with a host-absence dispute is hidden under a case that
    `decideCase` refuses. -/
theorem report_threshold_missed :
    (∃ w w', Reachable World.Init World.Step w ∧
      Reachable (· = ReportWorld.ofWorld w) (ReportWorld.Step .defaults) w' ∧
      (ReportWorld.ofWorld w).store.isPublished 7 = true ∧ w'.store.count ⟨.EVENT, 7⟩ = 3 ∧
      w'.store.isPublished 7 = true ∧ w'.store.openCases ⟨.EVENT, 7⟩ = []) ∧
    (∃ w w', Reachable World.Init World.Step w ∧
      Reachable (· = ReportWorld.ofWorld w) (ReportWorld.Step .defaults) w' ∧
      (ReportWorld.ofWorld w).store.isPublished 7 = true ∧ w'.store.count ⟨.EVENT, 7⟩ = 4 ∧
      (w'.store.openCases ⟨.EVENT, 7⟩).length = 2) ∧
    ∃ w w', Reachable World.Init World.Step w ∧
      Reachable (· = ReportWorld.ofWorld w) (ReportWorld.Step .defaults) w' ∧
      7 ∈ w'.store.autoHidden ∧ ∀ c ∈ w'.store.openCases ⟨.EVENT, 7⟩,
        ∀ env admin decision note, ¬ Succeeds (decideCase env admin true c.1 decision note)
          w'.store.db := by
  refine ⟨?_, ?_, ?_⟩
  · have hplay : (World.play announcedCalls).any (fun w =>
        (ReportWorld.ofWorld w).store.isPublished 7 &&
        (runList (ReportWorld.exec .defaults) (.ofWorld w) simultaneousReports).any fun w' =>
          decide (w'.store.count ⟨.EVENT, 7⟩ = 3) && (w'.store.isPublished 7 &&
            decide (w'.store.openCases ⟨.EVENT, 7⟩ = []))) = true := by decide
    obtain ⟨w, hw, hcheck⟩ := World.exists_of_play hplay
    simp only [Bool.and_eq_true, Option.any_eq_true, decide_eq_true_eq] at hcheck
    obtain ⟨hpub, w', hrun, hcount, hstill, hnone⟩ := hcheck
    exact ⟨w, w', World.reachable_of_play hw,
      reachable_of_runList (fun _ _ _ h => h) (.start rfl) hrun, hpub, hcount, hstill, hnone⟩
  · have hplay : (World.play announcedCalls).any (fun w =>
        (ReportWorld.ofWorld w).store.isPublished 7 &&
        (runList (ReportWorld.exec .defaults) (.ofWorld w) simultaneousEscalations).any fun w' =>
          decide (w'.store.count ⟨.EVENT, 7⟩ = 4) &&
            decide ((w'.store.openCases ⟨.EVENT, 7⟩).length = 2)) = true := by decide
    obtain ⟨w, hw, hcheck⟩ := World.exists_of_play hplay
    simp only [Bool.and_eq_true, Option.any_eq_true, decide_eq_true_eq] at hcheck
    obtain ⟨hpub, w', hrun, hcount, htwo⟩ := hcheck
    exact ⟨w, w', World.reachable_of_play hw,
      reachable_of_runList (fun _ _ _ h => h) (.start rfl) hrun, hpub, hcount, htwo⟩
  · have hplay : (World.play awaitedCalls).any (fun w =>
        (runList (ReportWorld.exec .defaults) (.ofWorld w) threeReports).any fun w' =>
          w'.store.autoHidden.contains 7 && (w'.store.openCases ⟨.EVENT, 7⟩).all fun c =>
            decide (c.2 = .DISPUTE)) = true := by decide
    obtain ⟨w, hw, hcheck⟩ := World.exists_of_play hplay
    simp only [Bool.and_eq_true, Option.any_eq_true] at hcheck
    obtain ⟨w', hrun, hhid, hkinds⟩ := hcheck
    refine ⟨w, w', World.reachable_of_play hw,
      reachable_of_runList (fun _ _ _ h => h) (.start rfl) hrun, List.contains_iff_mem.1 hhid,
      fun c hc env admin decision note => ?_⟩
    have hkind : c.2 = .DISPUTE := of_decide_eq_true (List.all_eq_true.1 hkinds c hc)
    obtain ⟨row, hrow, rfl⟩ := List.mem_map.1 hc
    exact decideCase_refuses (Table.find?_of_mem (List.mem_filter.1 hrow).1) hkind

end Paayatam
