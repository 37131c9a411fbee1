/-
  Paayatam.Booking.CaseInterleaving

  Working one moderation case while others do.

  `decide`, `decideCase` and `triageCase` read the case without its lock and
  write it by id at the end, whatever was committed in between.  Each is a
  worker here, with a read and a write of its own; the settlement locks the
  event before it looks at anything else, so what follows the read is one
  step.  Every other operation of the system goes on around them.
-/

import Paayatam.Booking.CasesRetained
import Paayatam.Booking.CaseSettlement
import Paayatam.Lib.Threads

namespace Paayatam

open Lib

/-! ## The system -/

/-- A call between its read and its write. -/
structure CaseWork where
  env : Env
  op : CaseOp
  read : CaseRow

/-- The world, and what each worker has in flight. -/
abbrev CaseWorld := Threads Nat World (Option CaseWork)

/-- Cases about subjects outside the model. -/
inductive Filing where
  | openCase (trigger : ModerationTrigger) (subjectType : ModerationSubjectType) (subjectId : Nat)
  | escalate (subjectType : ModerationSubjectType) (subjectId reportCount : Nat)

def Filing.act (env : Env) : Filing → Act Unit
  | .openCase trigger t k => openSubjectCase env trigger t k 0
  | .escalate t k n => escalateSubject env t k n

inductive CaseMove where
  /-- A call of the world that decides no case, in one piece. -/
  | call (c : Call)
  /-- A case about a user, a chat or a review. -/
  | file (env : Env) (filing : Filing)
  /-- Worker `i` reads the case of `op`. -/
  | read (i : Nat) (env : Env) (op : CaseOp)
  /-- Worker `i` does the rest, and commits or fails. -/
  | write (i : Nat)

namespace CaseWorld

def exec (w : CaseWorld) : CaseMove → Option CaseWorld
  | .call c =>
    if c.op.decidesCase then none
    else (w.shared.exec c).map fun s => { w with shared := s }
  | .file env filing =>
    if w.shared.clock ≤ env.now then
      some { w with shared := { w.shared with
        db := commit (filing.act env) w.shared.db, clock := env.now } }
    else none
  | .read i env op =>
    match w.locals i, w.shared.db.cases.find? op.caseId with
    | none, some row =>
      if w.shared.clock ≤ env.now ∧ op.admitted = true then
        some (w.set i { w.shared with clock := env.now } (some ⟨env, op, row⟩))
      else none
    | _, _ => none
  | .write i =>
    match w.locals i with
    | some f =>
      some (w.set i { w.shared with db := commit (f.op.finish f.env f.read) w.shared.db } none)
    | none => none

def Step (w : CaseWorld) (m : CaseMove) (w' : CaseWorld) : Prop := w.exec m = some w'

def Init (w : CaseWorld) : Prop := w.shared.Init ∧ ∀ i, w.locals i = none

/-- An empty database, at the epoch, and nothing in flight. -/
def initial : CaseWorld where
  shared := World.initial 0
  locals _ := none

theorem init_initial : initial.Init := ⟨World.init_initial 0, fun _ => rfl⟩

/-- The committed database. -/
def db (w : CaseWorld) : Db := w.shared.db

/-- The case `k`, as committed. -/
def case (w : CaseWorld) (k : CaseId) : Option CaseRow := w.db.cases.find? k

end CaseWorld

/-! ## What the calls' own checks refuse -/

/-- A settlement that cannot go through from the state it finds: an upheld dispute about a
    participation that cannot become COMPLETED, an upheld absence already stamped. -/
def cannotSettle (db : Db) (read : CaseRow) : Bool :=
  match read.subjectType with
  | .PARTICIPATION => (db.participants.find? read.subjectId).all fun p =>
      !canTransition PARTICIPANT_TRANSITIONS p.status .COMPLETED
  | .EVENT => (db.events.find? read.subjectId).all fun ev => ev.hostAbsentAt.isSome
  | _ => true

/-- The call is refused by a check of its own, in the state it writes in. -/
def CaseOp.refused (db : Db) (read : CaseRow) : CaseOp → Bool
  | .decide _ _ _ upheld _ =>
    !read.isOpen || Decidable.decide (read.trigger ≠ .DISPUTE) || (upheld && cannotSettle db read)
  | .decideCase _ _ _ _ _ => !read.isOpen || Decidable.decide (read.trigger = .DISPUTE)
  | .triageCase _ _ _ _ => !read.isOpen

theorem settleClaim_not_refused {env : Env} {admin : UserId} {read : CaseRow} {s s' : Db}
    (h : Runs (settleClaim env admin read true) s () s') : cannotSettle s read = false := by
  unfold settleClaim at h
  unfold cannotSettle
  split at h
  · next htype =>
      obtain ⟨⟨q, hq, hst, ht⟩, -⟩ := settleDispute_upheld h
      have hfound : s.participants.find? read.subjectId = some q := by
        rw [← hq]
        exact Table.find?_of_mem ht.mem
      simp only [htype, hfound, Option.all_some]
      rcases hst with hst | hst <;> rw [hst] <;> rfl
  · next htype =>
      have hfound := h
      simp only [settleHostAbsence, runs_lockEvent_bind, runs_orThrow_bind] at hfound
      obtain ⟨ev, hev, -⟩ := hfound
      rw [← Table.key_of_find? hev] at h
      have hup := settleHostAbsence_upheld (Table.mem_of_find? hev) h
      simp only [htype, hev, Option.all_some, hup.unstamped, Option.isSome_none]
  · exact absurd h (by simp)

theorem CaseOp.not_refused_of_runs {env : Env} {op : CaseOp} {read : CaseRow} {s s' : Db}
    (h : Runs (op.finish env read) s () s') : op.refused s read = false := by
  have hopen : read.isOpen = true := (CaseOp.finish_done h).readOpen
  cases op with
  | decide admin may k upheld note =>
      simp only [finish, finishDecideClaim, runs_guardTx_bind] at h
      obtain ⟨htrigger, -, h⟩ := h
      rw [runs_bind] at h
      obtain ⟨_, s₁, hsettle, -⟩ := h
      cases upheld with
      | false => simp [refused, hopen, htrigger]
      | true => simp [refused, hopen, htrigger, settleClaim_not_refused hsettle]
  | decideCase admin may k d note =>
      simp only [finish, finishDecideCase, runs_guardTx_bind] at h
      simp [refused, hopen, h.1]
  | triageCase => simp [refused, hopen]

/-- From two rows of one case, both open, a call does the same. -/
theorem CaseOp.finish_congr {env : Env} {op : CaseOp} {c c' : CaseRow} {s s' : Db}
    (hsame : c.SameCase c') (hc : c.isOpen = true) (hc' : c'.isOpen = true) :
    Runs (op.finish env c) s () s' ↔ Runs (op.finish env c') s () s' := by
  have hcs : OPEN_CASE_STATUSES.contains c.status = true := hc
  have hcs' : OPEN_CASE_STATUSES.contains c'.status = true := hc'
  have hst : ∀ x : CaseRow, x.isOpen = true →
      (x.status = .OPEN ∨ x.status = .IN_REVIEW ∨ x.status = .ESCALATED) := by
    intro x hx
    simpa [CaseRow.isOpen, OPEN_CASE_STATUSES] using hx
  cases op with
  | decide admin may k upheld note =>
      have hsettle : settleClaim env admin c' upheld = settleClaim env admin c upheld := by
        simp only [settleClaim, hsame.subjectType, hsame.id, hsame.subjectId]
      simp only [finish, finishDecideClaim, runs_guardTx_bind, hsame.trigger, hcs, hcs', hsettle]
  | decideCase admin may k d note =>
      simp only [finish, finishDecideCase, runs_guardTx_bind, hsame.trigger, hst c hc, hst c' hc',
        hsame.subjectType, hsame.subjectId]
  | triageCase admin may k action =>
      simp only [finish, finishTriage, runs_guardTx_bind, hcs, hcs']

/-! ## The condition -/

/-- A write finds its case still open, or is one the call's own checks refuse. -/
def StillOpen (w : CaseWorld) : CaseMove → Prop
  | .write i => ∀ f ∈ w.locals i,
      (w.case f.op.caseId).any CaseRow.isOpen = true ∨ f.op.refused w.db f.read = true
  | _ => True

instance (w : CaseWorld) : (m : CaseMove) → Decidable (StillOpen w m)
  | .write i => inferInstanceAs (Decidable (∀ f ∈ w.locals i, _))
  | .call _ => isTrue trivial
  | .file _ _ => isTrue trivial
  | .read _ _ _ => isTrue trivial

/-- The move commits a decision on the case `k`. -/
def Decides (k : CaseId) (x : CaseWorld × CaseMove × CaseWorld) : Bool :=
  match x.2.1 with
  | .write i => (x.1.locals i).any fun f =>
      decide (f.op.caseId = k) && (f.op.verdict f.env).isSome &&
        commits (f.op.finish f.env f.read) x.1.db
  | _ => false

/-- The move finds the case `k` open and leaves it decided. -/
def Closes (k : CaseId) (x : CaseWorld × CaseMove × CaseWorld) : Bool :=
  (x.1.case k).any CaseRow.isOpen && (x.2.2.case k).any fun c => !c.isOpen

/-- The move recorded the verdict `v` on the case `k`, and had the effects that go with it:
    it is the committed decision that says so, or an upheld host absence that answered
    the dispute `k` and undid the absence it is about. -/
inductive RecordedBy (k : CaseId) (v : Verdict) : CaseWorld × CaseMove × CaseWorld → Prop
  | decision {w w' : CaseWorld} {i : Nat} {f : CaseWork} (hf : w.locals i = some f)
      (hcase : f.op.caseId = k) (hverdict : f.op.verdict f.env = some v)
      (heffects : f.op.Effects f.env f.read w.db w'.db) : RecordedBy k v (w, .write i, w')
  | absence {w w' : CaseWorld} {i : Nat} {env : Env} {read c c' : CaseRow} {admin : UserId}
      {may : Bool} {k' : CaseId} {note : String} (hne : k ≠ k')
      (hf : w.locals i = some ⟨env, .decide admin may k' true note, read⟩)
      (hc : w.case k = some c) (hc' : w'.case k = some c') (hverdict : c'.verdict = v)
      (hanswered : AnsweredDispute env admin read.id w.db w'.db c c') :
      RecordedBy k v (w, .write i, w')

/-! ## One step -/

/-- What one move does to one case. -/
inductive CaseTurn (w : CaseWorld) (m : CaseMove) (w' : CaseWorld) (k : CaseId) : Prop
  /-- No decision touches it. -/
  | retained (h : Retained (w.case k) (w'.case k))
  /-- Triage moves it between the open statuses. -/
  | triaged {c c' : CaseRow} (hc : w.case k = some c) (hc' : w'.case k = some c')
      (hsame : c.SameCase c') (hopen : c.isOpen = true) (hopen' : c'.isOpen = true)
  /-- It is decided. -/
  | decided {c c' : CaseRow} (hc : w.case k = some c) (hc' : w'.case k = some c')
      (hsame : c.SameCase c') (hopen : c.isOpen = true) (hclosed : c'.isOpen = false)
      (hrec : RecordedBy k c'.verdict (w, m, w'))

/-- A worker's read is a row of the case as it stands, and no less decided. -/
def ReadsCase (s : World) : Option CaseWork → Prop
  | none => True
  | some f => f.op.admitted = true ∧ ∃ c, s.db.cases.find? f.op.caseId = some c ∧
      f.read.SameCase c ∧ (f.read.isOpen = false → c.isOpen = false)

theorem Retained.sameCase {c : CaseRow} {o : Option CaseRow} (h : Retained (some c) o) :
    ∃ c', o = some c' ∧ c.SameCase c' ∧ c'.verdict = c.verdict := by
  cases h with
  | counted n => exact ⟨_, rfl, ⟨rfl, rfl, rfl, rfl⟩, rfl⟩

theorem CaseRow.isOpen_of_verdict_eq {c c' : CaseRow} (h : c'.verdict = c.verdict) :
    c'.isOpen = c.isOpen :=
  CaseRow.isOpen_of_verdict (congrArg Verdict.status h)

theorem claimVerdict_closed {env : Env} {admin : UserId} {upheld : Bool} {note : String}
    (c : CaseRow) : ((claimVerdict env admin upheld note).apply c).isOpen = false := by
  cases upheld <;> rfl

theorem caseVerdict_closed {env : Env} {admin : UserId} {d : CaseDecision} {note : String}
    (c : CaseRow) : ((caseVerdict env admin d note).apply c).isOpen = false := by
  cases d <;> rfl

section Step

variable {w w' : CaseWorld} {m : CaseMove} {k : CaseId}

/-- A case that exists goes on existing, and a decided one keeps its verdict. -/
theorem CaseTurn.onward (h : CaseTurn w m w' k) {c : CaseRow} (hc : w.case k = some c) :
    ∃ c', w'.case k = some c' ∧ c.SameCase c' ∧ (c.isOpen = false → c'.verdict = c.verdict) := by
  cases h with
  | retained h =>
      rw [hc] at h
      obtain ⟨c', hc', hsame, hv⟩ := h.sameCase
      exact ⟨c', hc', hsame, fun _ => hv⟩
  | triaged hc₀ hc' hsame hopen hopen' =>
      obtain rfl := Option.some.inj (hc.symm.trans hc₀)
      exact ⟨_, hc', hsame, fun hclosed => absurd hopen (by simp [hclosed])⟩
  | decided hc₀ hc' hsame hopen hclosed hrec =>
      obtain rfl := Option.some.inj (hc.symm.trans hc₀)
      exact ⟨_, hc', hsame, fun hclosed => absurd hopen (by simp [hclosed])⟩

/-- A case that is decided after a move was decided before it, or by it. -/
theorem CaseTurn.origin (h : CaseTurn w m w' k) {c' : CaseRow} (hc' : w'.case k = some c')
    (hclosed : c'.isOpen = false) :
    (∃ c, w.case k = some c ∧ c.isOpen = false ∧ c'.verdict = c.verdict) ∨
      (Closes k (w, m, w') = true ∧ RecordedBy k c'.verdict (w, m, w')) := by
  cases h with
  | retained h =>
      rw [hc'] at h
      cases hc : w.case k with
      | none =>
          rw [hc] at h
          cases h with
          | opened hst => simp [CaseRow.isOpen, OPEN_CASE_STATUSES, hst] at hclosed
      | some c =>
          rw [hc] at h
          obtain ⟨c₂, hc₂, -, hv⟩ := h.sameCase
          obtain rfl := Option.some.inj hc₂
          exact .inl ⟨c, rfl, by rw [← CaseRow.isOpen_of_verdict_eq hv, hclosed], hv⟩
  | triaged hc hc₀' hsame hopen hopen' =>
      obtain rfl := Option.some.inj (hc'.symm.trans hc₀')
      exact absurd hopen' (by simp [hclosed])
  | decided hc hc₀' hsame hopen hcl hrec =>
      obtain rfl := Option.some.inj (hc'.symm.trans hc₀')
      exact .inr ⟨by simp [Closes, hc, hc', hopen, hclosed], hrec⟩

/-- What a committed write does to each case, when its own was still open. -/
theorem caseTurn_of_done {i : Nat} {f : CaseWork} (hf : w.locals i = some f)
    (hdone : f.op.Done f.env f.read w.db w'.db)
    (hopen : (w.case f.op.caseId).any CaseRow.isOpen = true) (k : CaseId) :
    CaseTurn w (.write i) w' k := by
  by_cases hk : k = f.op.caseId
  · obtain ⟨c, x, hc, hcx, hc'⟩ := hdone.own
    have hcopen : c.isOpen = true := by
      have hcase : w.case f.op.caseId = some c := hc
      simpa [hcase] using hopen
    have hsame : c.SameCase (f.op.writes f.env x) :=
      hcx.trans (CaseOp.writes_sameCase f.env f.op x)
    rw [← hk] at hc hc'
    have heffects := hdone.effects
    obtain ⟨env, op, read⟩ := f
    cases op with
    | decide admin may k' upheld note =>
        exact .decided hc hc' hsame hcopen (claimVerdict_closed x)
          (.decision hf hk.symm rfl heffects)
    | decideCase admin may k' d note =>
        exact .decided hc hc' hsame hcopen (caseVerdict_closed x)
          (.decision hf hk.symm rfl heffects)
    | triageCase admin may k' action =>
        exact .triaged hc hc' hsame hcopen (by cases action <;> rfl)
  · rcases hdone.other k hk with hstand | ⟨c, c', admin, may, note, hop, hc, hc', hanswered⟩
    · refine .retained ?_
      show Retained (w.db.cases.find? k) (w'.db.cases.find? k)
      rw [hstand]
      exact .refl _
    · have hclosed : c'.isOpen = false := by
        rw [hanswered.answered]
        rfl
      have hsame : c.SameCase c' := by
        rw [hanswered.answered]
        exact Verdict.apply_sameCase _ c
      obtain ⟨env, op, read⟩ := f
      cases op with
      | decide a m k' upheld n =>
          obtain ⟨rfl, rfl, -, rfl, rfl⟩ := CaseOp.decide.inj hop
          exact .decided hc hc' hsame hanswered.wasOpen hclosed
            (.absence hk hf hc hc' rfl hanswered)
      | decideCase => cases hop
      | triageCase => cases hop

/-- Filing a case about another subject opens one, or counts reports. -/
theorem Filing.act_retains (env : Env) (filing : Filing) :
    Respects CasesRetained (filing.act env) := by
  cases filing with
  | openCase => exact openSubjectCase_respects
  | escalate => exact escalateSubject_respects

/-- Between moves, every read in flight is of a case that is there. -/
def Sound (w : CaseWorld) : Prop := w.Holds (fun _ => True) ReadsCase (fun _ _ => True)

theorem Sound.init (h : w.Init) : Sound w where
  shared := trivial
  own i := by
    rw [h.2 i]
    trivial
  apart _ _ _ := trivial

theorem ReadsCase.onward {s s' : World} {o : Option CaseWork} (h : ReadsCase s o)
    (hon : ∀ j c, s.db.cases.find? j = some c → ∃ c', s'.db.cases.find? j = some c' ∧
      c.SameCase c' ∧ (c.isOpen = false → c'.verdict = c.verdict)) : ReadsCase s' o := by
  cases o with
  | none => trivial
  | some f =>
      obtain ⟨hadm, c, hc, hsame, hclosed⟩ := h
      obtain ⟨c', hc', hsame', hv⟩ := hon _ c hc
      refine ⟨hadm, c', hc', hsame.trans hsame', fun hread => ?_⟩
      rw [CaseRow.isOpen_of_verdict_eq (hv (hclosed hread))]
      exact hclosed hread

/-- A write whose case is open, or which is refused, does what the whole call would do
    in the state it finds. -/
theorem write_eq_call {i : Nat} {f : CaseWork} (hf : w.locals i = some f) (h : Sound w)
    (hfresh : StillOpen w (.write i)) {s' : Db} :
    Runs (f.op.finish f.env f.read) w.db () s' ↔ Runs (f.op.act f.env) w.db () s' := by
  have hown := h.own i
  rw [hf] at hown
  obtain ⟨hadm, c, hc, hsame, hclosed⟩ := hown
  rw [CaseOp.runs_act]
  constructor
  · intro hrun
    have hread : f.read.isOpen = true := (CaseOp.finish_done hrun).readOpen
    have hopen : c.isOpen = true := by
      rcases hfresh f hf with hopen | hrefused
      · rw [show w.case f.op.caseId = some c from hc] at hopen
        exact hopen
      · rw [CaseOp.not_refused_of_runs hrun] at hrefused
        cases hrefused
    exact ⟨hadm, c, hc, (CaseOp.finish_congr hsame hread hopen).1 hrun⟩
  · rintro ⟨-, c₂, hc₂, hrun⟩
    obtain rfl := Option.some.inj (hc.symm.trans hc₂)
    have hopen : c.isOpen = true := (CaseOp.finish_done hrun).readOpen
    have hread : f.read.isOpen = true := by
      by_contra hnot
      rw [hclosed (by simpa using hnot)] at hopen
      cases hopen
    exact (CaseOp.finish_congr hsame hread hopen).2 hrun

/-- One move, when every write finds its case open or is refused: each case takes a turn,
    and the reads in flight stay sound. -/
theorem Sound.step (h : Sound w) (hfresh : StillOpen w m) (hs : w.Step m w') :
    (∀ k, CaseTurn w m w' k) ∧ Sound w' := by
  have hsound : (∀ k, CaseTurn w m w' k) → (∀ i, w'.locals i = w.locals i ∨ w'.locals i = none) →
      Sound w' := by
    intro hturn hlocals
    refine ⟨trivial, fun i => ?_, fun _ _ _ => trivial⟩
    rcases hlocals i with hsame | hnone
    · rw [hsame]
      exact (h.own i).onward fun j c hc => (hturn j).onward hc
    · rw [hnone]
      trivial
  cases m with
  | call c =>
      simp only [CaseWorld.Step, CaseWorld.exec] at hs
      split at hs
      · cases hs
      · next hop =>
          obtain ⟨s, hstep, rfl⟩ := Option.map_eq_some_iff.1 hs
          have hturn : ∀ k, CaseTurn w (.call c) { w with shared := s } k := by
            intro k
            obtain ⟨-, -, rfl⟩ := World.step_iff.1 hstep
            have hkept : Respects CasesRetained (c.op.act c.env) := Op.act_respects (by simpa using hop)
            exact .retained (hkept.commit w.shared.db k)
          exact ⟨hturn, hsound hturn fun _ => .inl rfl⟩
  | file env filing =>
      simp only [CaseWorld.Step, CaseWorld.exec] at hs
      split at hs
      · have hw' := Option.some.inj hs
        have hturn : ∀ k, CaseTurn w (.file env filing) w' k := by
          intro k
          rw [← hw']
          exact .retained ((filing.act_retains env).commit w.shared.db k)
        exact ⟨hturn, hsound hturn fun _ => .inl (by rw [← hw'])⟩
      · cases hs
  | read i env op =>
      simp only [CaseWorld.Step, CaseWorld.exec] at hs
      split at hs
      · next row hi hrow =>
          split at hs
          · next hadm =>
              obtain rfl := Option.some.inj hs
              refine ⟨fun k => .retained (.refl _), h.set_alone trivial ?_ fun j _ => h.own j⟩
              exact ⟨hadm.2, row, hrow, .refl row, id⟩
          · cases hs
      · cases hs
  | write i =>
      simp only [CaseWorld.Step, CaseWorld.exec] at hs
      split at hs
      · next f hf =>
          have hw' := Option.some.inj hs
          have hdb : w'.db = commit (f.op.finish f.env f.read) w.db := by rw [← hw']; rfl
          have hturn : ∀ k, CaseTurn w (.write i) w' k := by
            intro k
            rcases commit_cases (f.op.finish f.env f.read) w.db with ⟨_, hrun⟩ | hsame
            · rw [← hdb] at hrun
              refine caseTurn_of_done hf (CaseOp.finish_done hrun) ?_ k
              rcases hfresh f hf with hopen | hrefused
              · exact hopen
              · rw [CaseOp.not_refused_of_runs hrun] at hrefused
                cases hrefused
            · refine .retained ?_
              show Retained (w.db.cases.find? k) (w'.db.cases.find? k)
              rw [hdb, hsame]
              exact .refl _
          refine ⟨hturn, hsound hturn fun j => ?_⟩
          rw [← hw']
          by_cases hj : j = i
          · subst hj
            exact .inr (by simp)
          · exact .inl (by simp [hj])
      · cases hs

/-- A committed decision finds its case open and leaves the verdict on it. -/
theorem closes_of_decides (hfresh : StillOpen w m) (hd : Decides k (w, m, w') = true)
    (hs : w.Step m w') : Closes k (w, m, w') = true ∧
      ∃ i f c v, m = .write i ∧ w.locals i = some f ∧ f.op.caseId = k ∧ f.op.verdict f.env = some v ∧
        w'.case k = some c ∧ c.isOpen = false ∧ c.verdict = v := by
  cases m with
  | write i =>
      simp only [CaseWorld.Step, CaseWorld.exec] at hs
      simp only [Decides] at hd
      cases hf : w.locals i with
      | none => simp [hf] at hd
      | some f =>
          simp only [hf, Option.any_some, Bool.and_eq_true, decide_eq_true_eq] at hd hs
          obtain ⟨⟨hk, hv⟩, hcommits⟩ := hd
          obtain ⟨v, hv⟩ := Option.isSome_iff_exists.1 hv
          obtain ⟨_, hrun⟩ := runs_of_commits hcommits
          have hdb : w'.db = commit (f.op.finish f.env f.read) w.db := by
            rw [← Option.some.inj hs]
            rfl
          rw [← hdb] at hrun
          obtain ⟨c, x, hc, -, hc'⟩ := (CaseOp.finish_done hrun).own
          have hopen : c.isOpen = true := by
            rcases hfresh f hf with hopen | hrefused
            · rw [show w.case f.op.caseId = some c from hc] at hopen
              exact hopen
            · rw [CaseOp.not_refused_of_runs hrun] at hrefused
              cases hrefused
          have hwritten : (f.op.writes f.env x).isOpen = false ∧
              (f.op.writes f.env x).verdict = v := by
            obtain ⟨env, op, read⟩ := f
            cases op with
            | decide => exact ⟨claimVerdict_closed x, Option.some.inj hv⟩
            | decideCase => exact ⟨caseVerdict_closed x, Option.some.inj hv⟩
            | triageCase => cases hv
          rw [hk] at hc hc'
          have hcase : w.case k = some c := hc
          have hcase' : w'.case k = some (f.op.writes f.env x) := hc'
          refine ⟨?_, i, f, _, v, rfl, hf, hk, hv, hc', hwritten⟩
          simp [Closes, hcase, hcase', hopen, hwritten.1]
  | call => simp [Decides] at hd
  | file => simp [Decides] at hd
  | read => simp [Decides] at hd

end Step

/-! ## Runs -/

/-- Nothing but cases and messages differs. -/
def MovesNothing (s s' : Db) : Prop := s' = { s with cases := s'.cases, outbox := s'.outbox }

/-- Along a run that ends in `w`, every case is decided at most once, and stays decided. -/
structure DecidedOnce (tr : List (CaseWorld × CaseMove × CaseWorld)) (w : CaseWorld) : Prop where
  /-- At most one move decides a case. -/
  once : ∀ k, tr.countP (Closes k) ≤ 1
  /-- Every decision that commits found its case open, and closed it. -/
  closes : ∀ x ∈ tr, ∀ k, Decides k x = true → Closes k x = true
  /-- A verdict is never replaced, and a decided case never open again. -/
  final : ∀ x ∈ tr, ∀ k c, x.2.2.case k = some c → c.isOpen = false →
    ∃ c', w.case k = some c' ∧ c'.verdict = c.verdict
  /-- The verdict on record is the one whose effects were applied. -/
  recorded : ∀ k c, w.case k = some c → c.isOpen = false →
    ∃ x ∈ tr, Closes k x = true ∧ RecordedBy k c.verdict x
  /-- No call on a dismissed case moved coins, trust or a participation. -/
  dismissed : ∀ k c, w.case k = some c → c.decision = some "DISMISSED" →
    ∀ x ∈ tr, ∀ i f, x.2.1 = .write i → x.1.locals i = some f → f.op.caseId = k →
      MovesNothing x.1.db x.2.2.db
  /-- A call whose read is old does what it would have done in one piece. -/
  asCalled : ∀ x ∈ tr, ∀ i f, x.2.1 = .write i → x.1.locals i = some f →
    x.2.2.db = commit (f.op.act f.env) x.1.db

theorem Sound.reach {w : CaseWorld} (h : Reach CaseWorld.Init CaseWorld.Step StillOpen w) :
    Sound w :=
  Reach.invariant (I := Sound) (fun _ => .init) (fun _ _ _ hI hg hs => (hI.step hg hs).2) h

section Runs

variable {tr : List (CaseWorld × CaseMove × CaseWorld)} {w : CaseWorld}

/-- Moves that close a case: none yet, or one, and the case is decided. -/
theorem closes_count (h : Lib.Run CaseWorld.Init CaseWorld.Step StillOpen tr w) (k : CaseId) :
    tr.countP (Closes k) = 0 ∨
      (tr.countP (Closes k) = 1 ∧ ∃ c, w.case k = some c ∧ c.isOpen = false) := by
  induction h with
  | start => exact .inl rfl
  | @next tr s s' i hrun hg hs ih =>
      have hturn := ((Sound.reach hrun.reach).step hg hs).1 k
      rw [List.countP_append, List.countP_singleton]
      by_cases hcl : Closes k (s, i, s') = true
      · simp only [Closes, Bool.and_eq_true, Option.any_eq_true] at hcl
        obtain ⟨⟨c, hc, hopen⟩, c', hc', hclosed⟩ := hcl
        have hzero : tr.countP (Closes k) = 0 := by
          rcases ih with hzero | ⟨-, c₀, hc₀, hclosed₀⟩
          · exact hzero
          · obtain rfl := Option.some.inj (hc₀.symm.trans hc)
            rw [hclosed₀] at hopen
            cases hopen
        right
        refine ⟨?_, c', hc', by simpa using hclosed⟩
        simp [hzero, Closes, hc, hc', hopen, hclosed]
      · rw [if_neg hcl, Nat.add_zero]
        refine ih.imp_right fun ⟨hone, c, hc, hclosed⟩ => ⟨hone, ?_⟩
        obtain ⟨c', hc', -, hv⟩ := hturn.onward hc
        exact ⟨c', hc', by rw [CaseRow.isOpen_of_verdict_eq (hv hclosed), hclosed]⟩

theorem verdict_final (h : Lib.Run CaseWorld.Init CaseWorld.Step StillOpen tr w) :
    ∀ x ∈ tr, ∀ k c, x.2.2.case k = some c → c.isOpen = false →
      ∃ c', w.case k = some c' ∧ c'.verdict = c.verdict := by
  induction h with
  | start => simp
  | @next tr s s' i hrun hg hs ih =>
      intro x hx k c hc hclosed
      rcases List.mem_append.1 hx with hx | hx
      · obtain ⟨c₁, hc₁, hv₁⟩ := ih x hx k c hc hclosed
        have hclosed₁ : c₁.isOpen = false := by rw [CaseRow.isOpen_of_verdict_eq hv₁, hclosed]
        obtain ⟨c₂, hc₂, -, hv₂⟩ := (((Sound.reach hrun.reach).step hg hs).1 k).onward hc₁
        exact ⟨c₂, hc₂, (hv₂ hclosed₁).trans hv₁⟩
      · obtain rfl := List.mem_singleton.1 hx
        exact ⟨c, hc, rfl⟩

theorem verdict_recorded (h : Lib.Run CaseWorld.Init CaseWorld.Step StillOpen tr w) :
    ∀ k c, w.case k = some c → c.isOpen = false →
      ∃ x ∈ tr, Closes k x = true ∧ RecordedBy k c.verdict x := by
  induction h with
  | @start s hinit =>
      intro k c hc
      have hempty : s.shared.db.cases.find? k = none := by
        rw [hinit.1.1]
        rfl
      rw [show s.case k = none from hempty] at hc
      cases hc
  | @next tr s s' i hrun hg hs ih =>
      intro k c' hc' hclosed
      rcases (((Sound.reach hrun.reach).step hg hs).1 k).origin hc' hclosed with
        ⟨c, hc, hcl, hv⟩ | ⟨hcloses, hrec⟩
      · obtain ⟨x, hx, hclx, hrec⟩ := ih k c hc hcl
        rw [hv]
        exact ⟨x, List.mem_append_left _ hx, hclx, hrec⟩
      · exact ⟨_, List.mem_append_right _ (List.mem_singleton.2 rfl), hcloses, hrec⟩

/-- Each step of a run under the condition. -/
theorem calls_in_order (h : Lib.Run CaseWorld.Init CaseWorld.Step StillOpen tr w) :
    ∀ x ∈ tr, Sound x.1 ∧ StillOpen x.1 x.2.1 ∧ x.1.Step x.2.1 x.2.2 :=
  h.steps (P := fun s m s' => Sound s ∧ StillOpen s m ∧ s.Step m s')
    fun _ _ _ hr hg hs => ⟨Sound.reach hr, hg, hs⟩

theorem CaseWorld.step_write {w w' : CaseWorld} {i : Nat} {f : CaseWork}
    (hs : w.Step (.write i) w') (hf : w.locals i = some f) :
    w'.db = commit (f.op.finish f.env f.read) w.db := by
  simp only [CaseWorld.Step, CaseWorld.exec, hf] at hs
  rw [← Option.some.inj hs]
  rfl

/-- A call on a case that can only come out of it dismissed moves nothing. -/
theorem write_moves_nothing {s s' : CaseWorld} {i : Nat} {f : CaseWork} {k : CaseId}
    (hfresh : StillOpen s (.write i)) (hs : s.Step (.write i) s') (hf : s.locals i = some f)
    (hk : f.op.caseId = k)
    (hdismissed : ∀ c, s'.case k = some c → c.isOpen = false → c.decision = some "DISMISSED") :
    MovesNothing s.db s'.db := by
  have hdb := CaseWorld.step_write hs hf
  rcases commit_cases (f.op.finish f.env f.read) s.db with ⟨_, hrun⟩ | hsame
  · have hcommits : commits (f.op.finish f.env f.read) s.db = true := commits_of_runs hrun
    rw [← hdb] at hrun
    have heffects := (CaseOp.finish_done hrun).effects
    have hverdict : ∀ v, f.op.verdict f.env = some v → v.decision = some "DISMISSED" := by
      intro v hv
      have hdecides : Decides k (s, .write i, s') = true := by
        simp [Decides, hf, hk, hv, hcommits]
      obtain ⟨-, i', f', c, v', hi, hf', -, hv', hc, hclosed, hcv⟩ :=
        closes_of_decides hfresh hdecides hs
      obtain rfl := CaseMove.write.inj hi
      obtain rfl := Option.some.inj (hf.symm.trans hf')
      obtain rfl := Option.some.inj (hv.symm.trans hv')
      rw [← hcv]
      exact hdismissed c hc hclosed
    obtain ⟨env, op, read⟩ := f
    cases op with
    | decide admin may k' upheld note =>
        cases upheld with
        | false => exact heffects
        | true => simpa [claimVerdict] using hverdict _ rfl
    | decideCase admin may k' d note =>
        have hdec := hverdict _ rfl
        cases d <;> simp [caseVerdict] at hdec
    | triageCase admin may k' action =>
        have hcases : s'.db = { s.db with cases := s'.db.cases } := heffects
        unfold MovesNothing
        rw [hcases]
  · unfold MovesNothing
    rw [hdb, hsame]

end Runs

/-- In every run of `decide`, `decideCase` and `triageCase`, read and write apart, among
    all other operations, in which no write that the call's own checks let through finds
    its case decided meanwhile: every case is decided at most once, by the verdict whose
    effects were applied, and never open again. -/
theorem case_decided_once {tr : List (CaseWorld × CaseMove × CaseWorld)} {w : CaseWorld}
    (h : Lib.Run CaseWorld.Init CaseWorld.Step StillOpen tr w) : DecidedOnce tr w where
  once k := by
    rcases closes_count h k with hzero | ⟨hone, -⟩
    · omega
    · omega
  closes x hx k hd := by
    obtain ⟨-, hfresh, hs⟩ := calls_in_order h x hx
    exact (closes_of_decides hfresh hd hs).1
  final := verdict_final h
  recorded := verdict_recorded h
  dismissed k c hc hdismissed x hx i f hm hf hk := by
    obtain ⟨-, hfresh, hs⟩ := calls_in_order h x hx
    have hfinal := verdict_final h x hx k
    obtain ⟨s, m, s'⟩ := x
    obtain rfl : m = .write i := hm
    refine write_moves_nothing hfresh hs hf hk fun c₁ hc₁ hclosed => ?_
    obtain ⟨c₂, hc₂, hv₂⟩ := hfinal c₁ hc₁ hclosed
    obtain rfl := Option.some.inj (hc.symm.trans hc₂)
    exact (congrArg Verdict.decision hv₂).symm.trans hdismissed
  asCalled x hx i f hm hf := by
    obtain ⟨hsound, hfresh, hs⟩ := calls_in_order h x hx
    obtain ⟨s, m, s'⟩ := x
    obtain rfl : m = .write i := hm
    rw [CaseWorld.step_write hs hf]
    exact commit_congr fun s' => write_eq_call hf hsound hfresh

/-- A guest marked absent disputes it. -/
def disputedMoves : List CaseMove :=
  [callAt 0 (.moveCoins (onboardingReward 1 100)), callAt 0 (.moveCoins (onboardingReward 2 100)),
   callAt 1 (.create 1 (demoEvent 100 2) false 7), callAt 2 (.join 2 7 21),
   callAt 3 (.accept 1 21), callAt 103 (.retireOne 7), callAt 104 (.markNoShow 1 21),
   callAt 105 (.dispute 2 21 "I was there the whole evening.")].map .call

/-- Two moderators uphold the dispute at once, while a third takes the case on. -/
def contestedMoves : List CaseMove := disputedMoves ++
  [.read 0 (demoEnv 106) (.decide 9 true 1 true "The guest was there."),
   .read 1 (demoEnv 106) (.decide 8 true 1 true "Seen at the door."),
   .read 2 (demoEnv 106) (.triageCase 7 true 1 .CLAIM), .write 2, .write 0, .write 1]

/-- One moderator upholds the dispute, one dismisses it, and a third takes the case on,
    all from reads of the open case. -/
def staleMoves : List CaseMove := disputedMoves ++
  [.read 0 (demoEnv 106) (.decide 9 true 1 true "The guest was there."),
   .read 1 (demoEnv 106) (.decide 8 true 1 false "Nobody saw them."),
   .read 2 (demoEnv 106) (.triageCase 7 true 1 .CLAIM), .write 0, .write 1, .write 2]

/-- The second of two upheld decisions is refused, and one decides the case. -/
theorem case_decided_once_contested : ∃ tr w, DecidedOnce tr w ∧ tr.countP (Decides 1) = 1 := by
  have hplay : (runList CaseWorld.exec CaseWorld.initial contestedMoves).isSome = true := by
    decide
  obtain ⟨w, hw⟩ := Option.isSome_iff_exists.1 hplay
  have hrun := run_of_runList (G := StillOpen) (g := fun w m => decide (StillOpen w m))
    (fun _ _ _ h => h) (fun _ _ h => of_decide_eq_true h) (.start CaseWorld.init_initial)
    (by decide) hw
  exact ⟨_, w, case_decided_once hrun, by decide⟩

/-- Two decisions commit on one case: it is recorded as dismissed although the first gave
    the coins back and overturned the absence, and triage opens it again. -/
theorem case_decided_twice : ∃ tr w,
    Lib.Run CaseWorld.Init CaseWorld.Step (fun _ _ => True) tr w ∧
    tr.countP (Decides 1) = 2 ∧
    (∃ c, w.case 1 = some c ∧ c.decision = some "DISMISSED" ∧ c.isOpen = true) ∧
    (∃ p, w.db.participants.find? 21 = some p ∧ p.status = .COMPLETED) ∧
    w.db.coinLedger.rows.any (fun r => r.type = .REVERSAL) = true := by
  have hplay : (runList CaseWorld.exec CaseWorld.initial staleMoves).any (fun w =>
      (w.case 1).any (fun c => decide (c.decision = some "DISMISSED") && c.isOpen) &&
      ((w.db.participants.find? 21).any (fun p => decide (p.status = .COMPLETED)) &&
        w.db.coinLedger.rows.any (fun r => r.type = .REVERSAL))) = true := by decide
  obtain ⟨w, hw, hplay⟩ := (Option.any_eq_true _ _).1 hplay
  simp only [Bool.and_eq_true, Option.any_eq_true, decide_eq_true_eq] at hplay
  obtain ⟨⟨c, hc, hdismissed, hopen⟩, ⟨p, hp, hst⟩, hreversed⟩ := hplay
  have hrun := run_of_runList (G := fun _ _ => True) (g := fun _ _ => true)
    (fun _ _ _ h => h) (fun _ _ _ => trivial) (.start CaseWorld.init_initial)
    (by decide) hw
  exact ⟨_, w, hrun, by decide, ⟨c, hc, hdismissed, hopen⟩, ⟨p, hp, hst⟩, hreversed⟩

end Paayatam
