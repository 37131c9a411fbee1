/-
  Paayatam.Booking.CaseSettlement

  What a committed decision leaves behind: the verdict on its case, the
  effects of that verdict, and, when an absent host's evening is settled, the
  disputes it answers along the way.
-/

import Paayatam.Booking.ClaimOperations
import Paayatam.Moderation.CaseDecision

namespace Paayatam

open Lib

/-! ## Disputes answered by an upheld absence -/

section Answered

variable {env : Env} {admin : UserId} {caseId : CaseId} {guests : List ParticipantRow}
  {s s₁ s' : Db}

/-- The cases stand still, but for open disputes about absent guests of the list, which
    were answered. -/
def Answered (env : Env) (admin : UserId) (caseId : CaseId) (guests : List ParticipantRow)
    (s s' : Db) : Prop :=
  ∀ k, s'.cases.find? k = s.cases.find? k ∨
    ∃ c, s.cases.find? k = some c ∧
      (∃ g ∈ guests, g.status = .NO_SHOW ∧ isDisputeAbout .PARTICIPATION g.id c = true) ∧
      s'.cases.find? k = some ((absenceVerdict env admin caseId).apply c)

theorem isDisputeAbout_iff {t : ModerationSubjectType} {k : Nat} {c : CaseRow} :
    isDisputeAbout t k c = true ↔
      c.subjectType = t ∧ c.subjectId = k ∧ c.trigger = .DISPUTE ∧ c.isOpen = true := by
  simp only [isDisputeAbout, CaseRow.isOpen, Bool.and_eq_true, decide_eq_true_eq, and_assoc]

theorem Answered.of_eq (h : s'.cases = s.cases) : Answered env admin caseId guests s s' := by
  intro k
  rw [h]
  exact .inl rfl

theorem Answered.trans (h₁ : Answered env admin caseId guests s s₁)
    (h₂ : Answered env admin caseId guests s₁ s') : Answered env admin caseId guests s s' := by
  intro k
  rcases h₁ k with h₁ | ⟨c, hc, hg, h₁⟩
  · rw [← h₁]
    exact h₂ k
  · rcases h₂ k with h₂ | ⟨c₂, hc₂, ⟨g, -, -, hdispute⟩, -⟩
    · exact .inr ⟨c, hc, hg, h₂.trans h₁⟩
    · -- an answered dispute is no longer open
      obtain rfl : (absenceVerdict env admin caseId).apply c = c₂ :=
        Option.some.inj (h₁.symm.trans hc₂)
      have hopen := (isDisputeAbout_iff.1 hdispute).2.2.2
      exact absurd hopen (by simp [CaseRow.isOpen, Verdict.apply, absenceVerdict, OPEN_CASE_STATUSES])

theorem releaseSeatedGuest_answers {g : ParticipantRow} (hg : g ∈ guests)
    (h : Runs (releaseSeatedGuest env admin caseId g) s () s') :
    Answered env admin caseId guests s s' := by
  simp only [releaseSeatedGuest, runs_bind (m := refundParticipant _ _ _ _ _),
    runs_bind (m := undoRecordedAbsence _ _ _ _), runs_emit] at h
  obtain ⟨_, s₁, hrefund, _, s₂, hundo, rfl⟩ := h
  have h₁ : s₁.cases = s.cases := (refundParticipant_books hrefund).1.cases
  rcases runs_ite.1 hundo with ⟨hst, hundo⟩ | ⟨-, hundo⟩
  · simp only [runs_bind (m := reverseNoShow _ _ _), runs_updateRows_bind, runs_pure] at hundo
    obtain ⟨_, s₃, hreverse, tc, htc, -, rfl⟩ := hundo
    obtain ⟨q, t, -, -, -, s₄, hbooks, rfl⟩ := reverseNoShow_spec hreverse
    have h₃ : s₄.cases = s.cases := hbooks.cases.trans h₁
    change s₄.cases.RewritesAll _ _ tc at htc
    rw [h₃] at htc
    intro k
    show tc.find? k = _ ∨ ∃ c, _ ∧ _ ∧ tc.find? k = _
    rw [htc.find? fun _ => rfl]
    cases hk : s.cases.find? k with
    | none => exact .inl rfl
    | some c =>
        cases hd : isDisputeAbout .PARTICIPATION g.id c with
        | true =>
            refine .inr ⟨c, rfl, ⟨g, hg, hst, hd⟩, ?_⟩
            rw [Option.map_some, Table.updateIf, if_pos hd]
            rfl
        | false => exact .inl (by simp [Table.updateIf, hd])
  · rw [runs_pure] at hundo
    obtain ⟨-, rfl⟩ := hundo
    exact .of_eq h₁

end Answered

/-! ## Settlements -/

section Settlements

variable {env : Env} {admin : UserId} {m : CaseRow} {s s' : Db}

/-- A dismissed dispute moves nothing: messages are sent. -/
theorem settleDispute_dismissed {c : CaseId} {p : ParticipantId}
    (h : Runs (settleDispute env admin c p false) s () s') :
    s' = { s with outbox := s'.outbox } := by
  simp only [settleDispute, runs_findRow_bind, runs_orThrow_bind, runs_lockEvent_bind,
    Bool.false_eq_true, if_false, runs_emit] at h
  obtain ⟨_, -, _, -, h⟩ := h
  rw [h]

theorem settleClaim_dismissed (h : Runs (settleClaim env admin m false) s () s') :
    s' = { s with outbox := s'.outbox } := by
  unfold settleClaim at h
  split at h
  · exact settleDispute_dismissed h
  · exact settleHostAbsence_dismissed h
  · exact absurd h (by simp)

/-- The participation `p` is recorded as attended after all. -/
def Attended (p : ParticipantId) (s s' : Db) : Prop :=
  ∃ q, q.id = p ∧ (q.status = .ACCEPTED ∨ q.status = .NO_SHOW) ∧
    s.participants.Rewrites q ParticipantRow.attendedNow s'.participants

theorem settleDispute_upheld {c : CaseId} {p : ParticipantId}
    (h : Runs (settleDispute env admin c p true) s () s') :
    Attended p s s' ∧ s'.cases = s.cases := by
  simp only [settleDispute, runs_findRow_bind, runs_orThrow_bind, runs_lockEvent_bind, if_true] at h
  obtain ⟨seat, -, ev, -, h⟩ := h
  rw [runs_bind] at h
  obtain ⟨n, s₂, hreverse, h⟩ := h
  obtain ⟨q, t, hq, hst, ht, s₁, hbooks, rfl⟩ := reverseNoShow_spec hreverse
  rw [runs_emit_bind, runs_emit] at h
  rw [h]
  exact ⟨⟨q, Table.key_of_find? hq, hst, ht⟩, hbooks.cases⟩

/-- What an upheld absence leaves of one case: it stands, or it was a dispute the same
    decision answered. -/
structure AnsweredDispute (env : Env) (admin : UserId) (caseId : CaseId) (s s' : Db)
    (c c' : CaseRow) : Prop where
  wasOpen : c.isOpen = true
  trigger : c.trigger = .DISPUTE
  subjectType : c.subjectType = .PARTICIPATION
  absent : ∃ p, s.participants.find? c.subjectId = some p ∧ p.status = .NO_SHOW
  attended : ∃ p, s'.participants.find? c.subjectId = some p ∧ p.status = .COMPLETED
  answered : c' = (absenceVerdict env admin caseId).apply c

theorem settleHostAbsence_answers {caseId : CaseId} {ev : EventRow} (hev : ev ∈ s.events.rows)
    (h : Runs (settleHostAbsence env admin caseId ev.id true) s () s') (k : CaseId) :
    s'.cases.find? k = s.cases.find? k ∨
      ∃ c c', s.cases.find? k = some c ∧ s'.cases.find? k = some c' ∧
        AnsweredDispute env admin caseId s s' c c' := by
  have hup := settleHostAbsence_upheld hev h
  obtain ⟨-, us, s₁, penalty, s₂, n, s₃, te, s₄, hlock, hcharge, hreverse, -, hloop, x, rfl⟩ :=
    settleHostAbsence_parts hev h
  have hcases : s₃.cases = s.cases :=
    ((reverseCharges_books hreverse).1.cases.trans (charge_books hcharge ⟨rfl, by simp⟩).cases).trans
      (lockAccounts_books (P := Ordinary) hlock).cases
  have hloop' : Answered env admin caseId (s.participants.rows.filter (isGuestOf ev.id SEATED))
      { s₃ with events := te } s₄ :=
    Runs.forM_rel (R := Answered env admin caseId (s.participants.rows.filter (isGuestOf ev.id SEATED)))
      (fun _ => .of_eq rfl) Answered.trans
      (fun g hg _ _ hrun => releaseSeatedGuest_answers hg hrun) hloop
  rcases hloop' k with hsame | ⟨c, hc, ⟨g, hg, hst, hdispute⟩, hc'⟩
  · left
    rw [← hcases]
    exact hsame
  · right
    obtain ⟨hg, hguest⟩ := List.mem_filter.1 hg
    obtain ⟨htype, hid, htrigger, hopen⟩ := isDisputeAbout_iff.1 hdispute
    have hfound : s.participants.find? c.subjectId = some g := by
      rw [hid]
      exact Table.find?_of_mem hg
    have habsent : isGuestOf ev.id [.NO_SHOW] g = true :=
      isGuestOf_iff.2 ⟨(isGuestOf_iff.1 hguest).1, by simp [hst]⟩
    refine ⟨c, _, hcases ▸ hc, hc', hopen, htrigger, htype, ⟨g, hfound, hst⟩, ?_, rfl⟩
    have hafter := hup.participants.find? (fun _ => rfl) c.subjectId
    rw [hfound] at hafter
    exact ⟨g.attendedNow, by simpa [Table.updateIf, habsent] using hafter, rfl⟩

end Settlements

/-! ## The effect of an event decision -/

/-- Where a decided case puts its event. -/
def decidedEvent (d : CaseDecision) : StatusWrite :=
  { status := if d = .APPROVED then .PUBLISHED else .REJECTED
    moderationStatus := some (if d = .APPROVED then .APPROVED else .REJECTED) }

/-- A decision about the event `e` took effect: a hidden or a waiting event is where the
    decision puts it, any other stands. -/
def EventDecided (d : CaseDecision) (e : EventId) (s s' : Db) : Prop :=
  (∃ ev, ev.id = e ∧ (ev.status = .HIDDEN ∨ ev.status = .PENDING_MODERATION) ∧
      s.events.Rewrites ev (decidedEvent d).apply s'.events) ∨
    (s'.events = s.events ∧
      ∀ ev, s.events.find? e = some ev → ev.status ≠ .HIDDEN ∧ ev.status ≠ .PENDING_MODERATION)

theorem applyEventDecision_decided {d : CaseDecision} {e : EventId} {s s' : Db}
    (h : Runs (applyEventDecision e d) s () s') :
    EventDecided d e s s' ∧ s' = { s with events := s'.events, outbox := s'.outbox } := by
  simp only [applyEventDecision, runs_findRow_bind, table_events] at h
  cases hev : s.events.find? e with
  | none =>
      simp only [hev, runs_pure] at h
      rw [h.2]
      exact ⟨.inr ⟨rfl, by simp [hev]⟩, rfl⟩
  | some ev =>
      simp only [hev, finishEventDecision, runs_fromExcept_bind, planEventDecision] at h
      obtain ⟨o, ho, h⟩ := h
      split at ho
      · next hst =>
          obtain rfl := Except.ok.inj ho
          rw [writeDecision, runs_pure] at h
          rw [h.2]
          refine ⟨.inr ⟨rfl, fun x hx => ?_⟩, rfl⟩
          rw [hev] at hx
          obtain rfl := Option.some.inj hx
          exact hst
      · next hst =>
          simp only [checkEventTransition, require_bind_eq_ok] at ho
          obtain ⟨-, ho⟩ := ho
          obtain rfl := Except.ok.inj ho
          simp only [writeDecision, runs_updateRow_bind, table_events] at h
          obtain ⟨x, hx, t, ht, h⟩ := h
          obtain rfl : ev.id = e := Table.key_of_find? hev
          obtain rfl : x = ev := find?_self hev hx
          have hs' : s' = { s with events := t, outbox := s'.outbox } := by
            rcases runs_whenTx.1 h with ⟨-, h⟩ | ⟨-, rfl⟩
            · rw [runs_emit] at h
              rw [h]
              rfl
            · rfl
          refine ⟨.inl ⟨x, rfl, ?_, ?_⟩, ?_⟩
          · by_contra hnot
            exact hst (not_or.1 hnot)
          · rw [hs']
            exact ht
          · rw [hs']

/-! ## One call -/

/-- The effects that go with what the call records. -/
def CaseOp.Effects (env : Env) (read : CaseRow) (s s' : Db) : CaseOp → Prop
  | .decide _ _ _ false _ => s' = { s with cases := s'.cases, outbox := s'.outbox }
  | .decide _ _ _ true _ =>
    (read.subjectType = .PARTICIPATION ∧ Attended read.subjectId s s') ∨
    (read.subjectType = .EVENT ∧ ∃ ev, ev.id = read.subjectId ∧ UpheldAbsence env ev s s')
  | .decideCase _ _ _ decision _ =>
    s' = { s with cases := s'.cases, events := s'.events, outbox := s'.outbox } ∧
    (read.subjectType = .EVENT → EventDecided decision read.subjectId s s') ∧
    (read.subjectType ≠ .EVENT → s'.events = s.events)
  | .triageCase _ _ _ _ => s' = { s with cases := s'.cases }

/-- Two rows of one case. -/
structure CaseRow.SameCase (c c' : CaseRow) : Prop where
  id : c'.id = c.id
  trigger : c'.trigger = c.trigger
  subjectType : c'.subjectType = c.subjectType
  subjectId : c'.subjectId = c.subjectId

theorem CaseRow.SameCase.refl (c : CaseRow) : c.SameCase c := ⟨rfl, rfl, rfl, rfl⟩

theorem CaseRow.SameCase.trans {a b c : CaseRow} (h₁ : a.SameCase b) (h₂ : b.SameCase c) :
    a.SameCase c :=
  ⟨h₂.id.trans h₁.id, h₂.trigger.trans h₁.trigger, h₂.subjectType.trans h₁.subjectType,
    h₂.subjectId.trans h₁.subjectId⟩

theorem Verdict.apply_sameCase (v : Verdict) (c : CaseRow) : c.SameCase (v.apply c) :=
  ⟨rfl, rfl, rfl, rfl⟩

/-- What the call writes on its own case, from the row it finds there. -/
def CaseOp.writes (env : Env) : CaseOp → CaseRow → CaseRow
  | .decide admin _ _ upheld note => (claimVerdict env admin upheld note).apply
  | .decideCase admin _ _ decision note => (caseVerdict env admin decision note).apply
  | .triageCase admin _ _ action => action.apply admin

theorem CaseOp.writes_sameCase (env : Env) (op : CaseOp) (c : CaseRow) :
    c.SameCase (op.writes env c) := by
  cases op with
  | decide => exact Verdict.apply_sameCase _ _
  | decideCase => exact Verdict.apply_sameCase _ _
  | triageCase admin may k action => cases action <;> exact ⟨rfl, rfl, rfl, rfl⟩

/-- What a committed call does: it read an open case, its effects are those of what it
    records, and beside its own case only disputes it answers are touched. -/
structure CaseOp.Done (env : Env) (op : CaseOp) (read : CaseRow) (s s' : Db) : Prop where
  readOpen : read.isOpen = true
  effects : op.Effects env read s s'
  own : ∃ c x, s.cases.find? op.caseId = some c ∧ c.SameCase x ∧
    s'.cases.find? op.caseId = some (op.writes env x)
  other : ∀ k, k ≠ op.caseId → s'.cases.find? k = s.cases.find? k ∨
    ∃ c c' admin may note, op = .decide admin may op.caseId true note ∧
      s.cases.find? k = some c ∧ s'.cases.find? k = some c' ∧
      AnsweredDispute env admin read.id s s' c c'

/-- The row a case has after its own settlement, when the call comes to write on it. -/
theorem sameCase_of_answered {env : Env} {admin : UserId} {caseId k : CaseId} {s s₁ : Db}
    {x : CaseRow} (hx : s₁.cases.find? k = some x)
    (h : s₁.cases.find? k = s.cases.find? k ∨
      ∃ c c', s.cases.find? k = some c ∧ s₁.cases.find? k = some c' ∧
        AnsweredDispute env admin caseId s s₁ c c') :
    ∃ c, s.cases.find? k = some c ∧ c.SameCase x := by
  rcases h with hsame | ⟨c, c', hc, hc', hans⟩
  · exact ⟨x, hsame.symm.trans hx, .refl x⟩
  · obtain rfl : c' = x := Option.some.inj (hc'.symm.trans hx)
    rw [hans.answered]
    exact ⟨c, hc, Verdict.apply_sameCase _ c⟩

theorem finishDecideClaim_done {env : Env} {admin : UserId} {may upheld : Bool} {k : CaseId}
    {note : String} {read : CaseRow} {s s' : Db}
    (h : Runs (finishDecideClaim env admin k upheld note read) s () s') :
    CaseOp.Done env (.decide admin may k upheld note) read s s' := by
  simp only [finishDecideClaim, runs_guardTx_bind] at h
  obtain ⟨-, hopen, h⟩ := h
  rw [runs_bind] at h
  obtain ⟨_, s₁, hsettle, h⟩ := h
  obtain ⟨x, hx, t, ht, rfl⟩ := runs_updateRow.1 h
  change s₁.cases.find? k = some x at hx
  change s₁.cases.Rewrites x _ t at ht
  have hxk : Row.key x = k := Table.key_of_find? hx
  -- the settlement itself: every case stands, or was a dispute it answered
  have hcases : ∀ j, s₁.cases.find? j = s.cases.find? j ∨
      (upheld = true ∧ ∃ c c', s.cases.find? j = some c ∧ s₁.cases.find? j = some c' ∧
        AnsweredDispute env admin read.id s s₁ c c') := by
    cases upheld with
    | false =>
        intro j
        rw [settleClaim_dismissed hsettle]
        exact .inl rfl
    | true =>
        unfold settleClaim at hsettle
        split at hsettle
        · intro j
          rw [(settleDispute_upheld hsettle).2]
          exact .inl rfl
        · intro j
          have hfound := hsettle
          simp only [settleHostAbsence, runs_lockEvent_bind, runs_orThrow_bind] at hfound
          obtain ⟨ev, hev, -⟩ := hfound
          rw [← Table.key_of_find? hev] at hsettle
          exact (settleHostAbsence_answers (Table.mem_of_find? hev) hsettle j).imp_right
            fun hans => ⟨rfl, hans⟩
        · exact absurd hsettle (by simp)
  refine ⟨hopen, ?_, ?_, fun j hj => ?_⟩
  · cases upheld with
    | false =>
        have hs₁ := settleClaim_dismissed hsettle
        show _ = _
        rw [setTable_cases, hs₁]
    | true =>
        unfold settleClaim at hsettle
        split at hsettle
        · next htype => exact .inl ⟨htype, (settleDispute_upheld hsettle).1⟩
        · next htype =>
            have hfound := hsettle
            simp only [settleHostAbsence, runs_lockEvent_bind, runs_orThrow_bind] at hfound
            obtain ⟨ev, hev, -⟩ := hfound
            have hid : ev.id = read.subjectId := Table.key_of_find? hev
            rw [← hid] at hsettle
            have hup := settleHostAbsence_upheld (Table.mem_of_find? hev) hsettle
            have hclose : CasesKept s₁ { s₁ with cases := t } :=
              casesKept_of_rewrites (d := { s₁ with cases := t }) ht fun _ => ⟨rfl, rfl, rfl⟩
            exact .inr ⟨htype, ev, hid, hup.unstamped, hup.events, hup.participants, hup.ledger,
              hup.cases.trans hclose, hup.unpaid, hup.refunded⟩
        · exact absurd hsettle (by simp)
  · have hanswered : s₁.cases.find? k = s.cases.find? k ∨
        ∃ c c', s.cases.find? k = some c ∧ s₁.cases.find? k = some c' ∧
          AnsweredDispute env admin read.id s s₁ c c' := (hcases k).imp_right fun h => h.2
    obtain ⟨c, hc, hcx⟩ := sameCase_of_answered hx hanswered
    refine ⟨c, x, hc, hcx, ?_⟩
    exact ht.find?_self rfl hxk
  · have hstand : t.find? j = s₁.cases.find? j :=
      ht.find?_other rfl fun hxj => hj (hxj.symm.trans hxk)
    rcases hcases j with hsame | ⟨rfl, c, c', hc, hc', hans⟩
    · exact .inl (hstand.trans hsame)
    · exact .inr ⟨c, c', admin, may, note, rfl, hc, hstand.trans hc', hans.wasOpen, hans.trigger,
        hans.subjectType, hans.absent, hans.attended, hans.answered⟩

theorem finishDecideCase_done {env : Env} {admin : UserId} {may : Bool} {k : CaseId}
    {d : CaseDecision} {note : String} {read : CaseRow} {s s' : Db}
    (h : Runs (finishDecideCase env admin k d note read) s () s') :
    CaseOp.Done env (.decideCase admin may k d note) read s s' := by
  simp only [finishDecideCase, runs_guardTx_bind, runs_updateRow_bind, table_cases] at h
  obtain ⟨-, hopen, x, hx, t, ht, h⟩ := h
  have hxk : Row.key x = k := Table.key_of_find? hx
  have hrest : s'.cases = t ∧
      s' = { s with cases := s'.cases, events := s'.events, outbox := s'.outbox } ∧
      (read.subjectType = .EVENT → EventDecided d read.subjectId s s') ∧
      (read.subjectType ≠ .EVENT → s'.events = s.events) := by
    rcases runs_ite.1 h with ⟨htype, h⟩ | ⟨htype, h⟩
    · obtain ⟨hdecided, hs'⟩ := applyEventDecision_decided h
      have hcases : s'.cases = t := by rw [hs']; rfl
      refine ⟨hcases, ?_, fun _ => hdecided, fun hne => absurd htype hne⟩
      rw [hs']
      rfl
    · rw [runs_pure] at h
      rw [h.2]
      exact ⟨rfl, rfl, fun heq => absurd heq htype, fun _ => rfl⟩
  obtain ⟨hcases, heffects⟩ := hrest
  refine ⟨?_, heffects, ⟨x, x, hx, .refl x, ?_⟩, fun j hj => .inl ?_⟩
  · rcases hopen with h | h | h <;> simp [CaseRow.isOpen, OPEN_CASE_STATUSES, h]
  · rw [hcases]
    exact ht.find?_self rfl hxk
  · rw [hcases]
    exact ht.find?_other rfl fun hxj => hj (hxj.symm.trans hxk)

theorem finishTriage_done {env : Env} {admin : UserId} {may : Bool} {k : CaseId}
    {action : TriageAction} {read : CaseRow} {s s' : Db}
    (h : Runs (finishTriage admin k action read) s () s') :
    CaseOp.Done env (.triageCase admin may k action) read s s' := by
  simp only [finishTriage, runs_guardTx_bind, runs_updateRow, table_cases] at h
  obtain ⟨hopen, x, hx, t, ht, rfl⟩ := h
  have hkey : Row.key (action.apply admin x) = Row.key x := by cases action <;> rfl
  have hxk : Row.key x = k := Table.key_of_find? hx
  refine ⟨hopen, rfl, ⟨x, x, hx, .refl x, ?_⟩, fun j hj => .inl ?_⟩
  · exact ht.find?_self hkey hxk
  · exact ht.find?_other hkey fun hxj => hj (hxj.symm.trans hxk)

/-- What a committed call does, from the row it read. -/
theorem CaseOp.finish_done {env : Env} {op : CaseOp} {read : CaseRow} {s s' : Db}
    (h : Runs (op.finish env read) s () s') : op.Done env read s s' := by
  cases op with
  | decide => exact finishDecideClaim_done h
  | decideCase => exact finishDecideCase_done h
  | triageCase => exact finishTriage_done h

end Paayatam
