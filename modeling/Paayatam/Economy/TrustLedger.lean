/-
  Paayatam.Economy.TrustLedger

  The trust ledger under any interleaving of its transactions.

  A call keeps its user's score locked from its first statement on, so the score
  it carries along is the one its rows have reached, and no other transaction
  shows it a row of that user.
-/

import Paayatam.Economy.TrustTransactions

namespace Paayatam

open Lib

/-- The call a transaction is in. -/
def TrustPhase.current : TrustPhase → Option TrustCall
  | .idle => none
  | .entering c | .locked c _ | .seeding c _ _ | .seeded c _ | .writing c _ => some c

namespace TrustLedger

/-! ## What is asked of the ledger -/

/-- The committed ledger adds up: every score is the sum of the user's rows and between 0 and
    100, the rows form one chain, keys are unique, and a user is seeded at most once. -/
structure TrustCorrect (st : TrustStore) : Prop where
  sum : ∀ u, st.figure u = ((trustEntries.entriesOf u st.entries).map (·.delta)).sum
  range : ∀ u, TRUST_MIN_SCORE ≤ st.figure u ∧ st.figure u ≤ TRUST_MAX_SCORE
  chain : ∀ u, trustEntries.Leads 0 (trustEntries.entriesOf u st.entries) (st.figure u)
  keys : st.entries.Pairwise fun r q => r.idempotencyKey ≠ q.idempotencyKey
  seededOnce : ∀ u,
    (trustEntries.entriesOf u st.entries).countP (fun r => decide (r.type = .INITIAL)) ≤ 1

/-- The row answers the call: of its user, and under its key. -/
def Records (r : TrustLedgerRow) (c : TrustCall) : Prop :=
  r.userId = c.input.userId ∧ r.idempotencyKey = c.input.idempotencyKey

section World

variable {ι : Type} [DecidableEq ι] [Fintype ι]

/-- The rows transaction `i` sees. -/
def rowsSeen (w : TrustWorld ι) (i : ι) : List TrustLedgerRow :=
  (w.locals i).draft.entries w.shared

def scoreSeen (w : TrustWorld ι) (i : ι) (u : UserId) : Int :=
  (w.locals i).draft.figure w.shared u

/-- The step is a statement of a call of transaction `i`. -/
def OfCall (i : ι) : TrustStep ι → Prop
  | .call j _ | .lock j | .findSeed j _ | .writeSeed j _ _ | .lookup j | .write j _ _ => j = i
  | .commit _ | .abort _ => False

/-- Nothing is committed, and transaction `i` sees the scores and the rows it saw. -/
structure Unmoved (i : ι) (w w' : TrustWorld ι) : Prop where
  shared : w'.shared = w.shared
  rows : rowsSeen w' i = rowsSeen w i
  score : ∀ u, scoreSeen w' i u = scoreSeen w i u

/-- A call whose key is recorded reads an initial score of zero, or finds its user's seed row. -/
def SeedsFirst (w : TrustWorld ι) : TrustStep ι → Prop
  | .findSeed i initial => ∀ c score, (w.locals i).phase = .locked c score →
      (∃ r ∈ rowsSeen w i, Records r c) →
        initial = 0 ∨ ∃ r ∈ rowsSeen w i, r.idempotencyKey = .initial c.input.userId
  | _ => True

/-- What a step does to the ledger. -/
structure TrustKept (x : TrustWorld ι × TrustStep ι × TrustWorld ι) : Prop where
  correct : TrustCorrect x.2.2.shared
  /-- A call whose key is recorded moves nothing, and answers with the recorded row, whatever
      the clamp left of it. -/
  replayed : ∀ i c r, OfCall i x.2.1 → (x.1.locals i).phase.current = some c →
    r ∈ rowsSeen x.1 i → Records r c → Unmoved i x.1 x.2.2 ∧
      (x.2.1 = .lookup i → (x.2.2.locals i).answers = (x.1.locals i).answers ++
        [.ok { applied := false, ledgerId := r.id, score := scoreSeen x.1 i c.input.userId,
               effectiveDelta := r.delta }])

end World

/-! ## The invariant -/

/-- What a call has established by the time it is in this phase; `first` where calls seed first. -/
def PhaseSound (first : Prop) (st : TrustStore) (tx : TrustTx) : TrustPhase → Prop
  | .idle | .entering _ => True
  | .locked c score | .seeded c score => tx.draft.held c.input.userId = some score
  | .seeding c score _ => tx.draft.held c.input.userId = some score ∧
      (first → ∀ r ∈ tx.draft.entries st, ¬ Records r c)
  | .writing c score => tx.draft.held c.input.userId = some score ∧
      ∀ r ∈ tx.draft.entries st, ¬ Records r c

structure TxSound (first : Prop) (st : TrustStore) (tx : TrustTx) : Prop where
  draft : tx.draft.Sound trustEntries st
  phase : PhaseSound first st tx tx.phase

abbrev TxApart (tx tx' : TrustTx) : Prop := tx.draft.Apart trustEntries tx'.draft

abbrev TrustSound {ι : Type} (first : Prop) (w : TrustWorld ι) : Prop :=
  w.Holds (Journal.Sound trustEntries) (TxSound first) TxApart

/-- What the `CHECK` constraints say. -/
theorem trustRow_of_check {r : TrustLedgerRow} (h : Row.check r = true) :
    r.scoreAfter = r.scoreBefore + r.delta ∧ 0 ≤ r.scoreAfter ∧ r.scoreAfter ≤ 100 := by
  simp only [Row.check, TrustLedgerRow.constraints, Bool.and_eq_true, decide_eq_true_eq] at h
  omega

theorem key_ne_of_compatible {r q : TrustLedgerRow} (h : Row.compatible r q) :
    r.idempotencyKey ≠ q.idempotencyKey := by
  intro hk
  simp [Row.compatible, Row.collide, hk] at h

/-- Where no two entries that satisfy `p` can stand together, one at most does. -/
theorem countP_le_one {α : Type} {R : α → α → Prop} {p : α → Bool} {l : List α}
    (h : l.Pairwise R) (hp : ∀ a ∈ l, ∀ b ∈ l, p a = true → p b = true → ¬ R a b) :
    l.countP p ≤ 1 := by
  rw [List.countP_eq_length_filter]
  have hfilter : (l.filter p).Pairwise R := h.sublist List.filter_sublist
  have hmem : ∀ a ∈ l.filter p, a ∈ l ∧ p a = true := fun a ha => List.mem_filter.1 ha
  match hl : l.filter p with
  | [] | [_] => simp
  | a :: b :: rest =>
      rw [hl] at hfilter hmem
      obtain ⟨ha, hpa⟩ := hmem a (by simp)
      obtain ⟨hb, hpb⟩ := hmem b (by simp)
      exact absurd (List.rel_of_pairwise_cons hfilter (by simp)) (hp a ha b hb hpa hpb)

/-- A chain ends where it starts, or where one of its entries left the figure. -/
theorem leads_end {a b : Int} {rows : List TrustLedgerRow} (h : trustEntries.Leads a rows b) :
    b = a ∨ ∃ r ∈ rows, b = r.scoreAfter := by
  induction h with
  | nil => exact .inl rfl
  | @cons r rs b _ ih =>
      rcases ih with rfl | ⟨q, hq, rfl⟩
      · exact .inr ⟨r, List.mem_cons_self, rfl⟩
      · exact .inr ⟨q, List.mem_cons_of_mem _ hq, rfl⟩

theorem correct_of_sound {st : TrustStore} (h : st.Sound trustEntries) : TrustCorrect st where
  sum u := by
    have hbal : ∀ r ∈ trustEntries.entriesOf u st.entries,
        r.scoreAfter = r.scoreBefore + r.delta := fun r hr =>
      (trustRow_of_check (h.valid r (List.mem_filter.1 hr).1).1).1
    simpa using (h.chain u).sum hbal
  range u := by
    rcases leads_end (h.chain u) with hzero | ⟨r, hr, hscore⟩
    · rw [hzero]
      decide
    · rw [hscore]
      exact (trustRow_of_check (h.valid r (List.mem_filter.1 hr).1).1).2
  chain := h.chain
  keys := h.distinct.imp key_ne_of_compatible
  seededOnce u := by
    have hdistinct := h.distinct.sublist
      (List.filter_sublist (p := fun r => decide (trustEntries.owner r = u)))
    refine countP_le_one hdistinct fun a ha b hb hpa hpb hcompat => ?_
    have hkey : ∀ r ∈ trustEntries.entriesOf u st.entries, decide (r.type = .INITIAL) = true →
        r.idempotencyKey = .initial u := by
      intro r hr htype
      obtain ⟨hmem, howner⟩ := List.mem_filter.1 hr
      obtain rfl := of_decide_eq_true howner
      exact (h.valid r hmem).2 (of_decide_eq_true htype)
    exact key_ne_of_compatible hcompat ((hkey a ha hpa).trans (hkey b hb hpb).symm)

/-! ## A transaction's own steps -/

section Own

variable {st : TrustStore} {tx tx' other : TrustTx} {c : TrustCall} {score : Int}
  {r : TrustLedgerRow} {first : Prop}

theorem TxSound.released (h : st.Sound trustEntries) : TxSound first st tx.released :=
  ⟨.empty h, trivial⟩

theorem TxSound.answer (h : TxSound first st tx) (a : Except AppError TrustMovement) :
    TxSound first st (tx.answer a) :=
  ⟨h.draft, trivial⟩

/-- An insert takes its transaction down, or goes in. -/
theorem writeRow_cases (tx : TrustTx) (st : TrustStore) (r : TrustLedgerRow)
    (wrote : TrustTx → TrustTx) :
    (∃ e, tx.writeRow st r wrote = (tx.answer (.error e)).released) ∨
    (Row.check r = true ∧ (∀ q ∈ tx.draft.entries st, Row.compatible r q) ∧
      tx.writeRow st r wrote = wrote { tx with draft := tx.draft.write trustEntries r }) := by
  unfold TrustTx.writeRow
  split
  · exact .inl ⟨_, rfl⟩
  · next hcheck =>
      split
      · next hcompat => exact .inr ⟨by simpa using hcheck, hcompat, rfl⟩
      · exact .inl ⟨_, rfl⟩

/-- The row of a movement, over the score its transaction has reached. -/
theorem draft_write (h : TxSound first st tx) (hheld : tx.draft.held r.userId = some r.scoreBefore)
    (hcheck : Row.check r = true) (hseed : r.type = .INITIAL → r.idempotencyKey = .initial r.userId)
    (hcompat : ∀ q ∈ tx.draft.entries st, Row.compatible r q) :
    (tx.draft.write trustEntries r).Sound trustEntries st := by
  refine h.draft.write ?_ ⟨hcheck, hseed⟩ hcompat
  show r.scoreBefore = tx.draft.figure st r.userId
  rw [Draft.figure, hheld, Option.getD_some]

theorem TxSound.writeRow (hst : st.Sound trustEntries) {wrote : TrustTx → TrustTx}
    (hin : Row.check r = true → (∀ q ∈ tx.draft.entries st, Row.compatible r q) →
      TxSound first st (wrote { tx with draft := tx.draft.write trustEntries r })) :
    TxSound first st (tx.writeRow st r wrote) := by
  rcases writeRow_cases tx st r wrote with ⟨e, he⟩ | ⟨hcheck, hcompat, he⟩
  · rw [he]
    exact .released hst
  · rw [he]
    exact hin hcheck hcompat

theorem TxSound.call (h : TxSound first st tx) (c : TrustCall) : TxSound first st (tx.call c) := by
  unfold TrustTx.call
  split
  · exact h.answer _
  · exact ⟨h.draft, trivial⟩

theorem TxSound.lock (h : TxSound first st tx) (c : TrustCall) :
    TxSound first st (tx.lock st c) := by
  refine ⟨h.draft.lock, ?_⟩
  show Function.update _ _ _ _ = _
  rw [Function.update_self]

theorem TxSound.findSeed (h : TxSound first st tx) (hp : tx.phase = .locked c score)
    {initial : Int} (hfirst : first → (∃ r ∈ tx.draft.entries st, Records r c) → initial = 0 ∨
      ∃ r ∈ tx.draft.entries st, r.idempotencyKey = .initial c.input.userId) :
    TxSound first st (tx.findSeed st c score initial) := by
  have hheld := h.phase
  rw [hp] at hheld
  unfold TrustTx.findSeed
  split
  · exact ⟨h.draft, hheld⟩
  · next hinitial =>
      split
      · exact ⟨h.draft, hheld⟩
      · next hnone =>
          refine ⟨h.draft, hheld, fun hf r hr hrec => ?_⟩
          rcases hfirst hf ⟨r, hr, hrec⟩ with hzero | ⟨q, hq, hk⟩
          · exact hinitial hzero
          · exact absurd (List.find?_eq_none.1 hnone q hq) (by simp [hk])

theorem TxSound.writeSeed (h : TxSound first st tx) (hst : st.Sound trustEntries) {initial : Int}
    (hp : tx.phase = .seeding c score initial) (now : Instant) (id : LedgerId) :
    TxSound first st (tx.writeSeed st now id c score initial) := by
  have hheld := h.phase
  rw [hp] at hheld
  simp only [TrustTx.writeSeed]
  refine .writeRow hst fun hcheck hcompat => ?_
  exact ⟨draft_write h hheld.1 hcheck (fun _ => rfl) hcompat, Function.update_self ..⟩

theorem TxSound.lookup (h : TxSound first st tx) (hp : tx.phase = .seeded c score) :
    TxSound first st (tx.lookup st c score) := by
  have hheld := h.phase
  rw [hp] at hheld
  unfold TrustTx.lookup
  split
  · exact h.answer _
  · next hnone =>
      refine ⟨h.draft, hheld, fun r hr hrec => ?_⟩
      exact absurd (List.find?_eq_none.1 hnone r hr) (by simp [hrec.2])

theorem TxSound.write (h : TxSound first st tx) (hst : st.Sound trustEntries)
    (hp : tx.phase = .writing c score) (now : Instant) (id : LedgerId) :
    TxSound first st (tx.write st now id c score) := by
  have hheld := h.phase
  rw [hp] at hheld
  simp only [TrustTx.write]
  refine .writeRow hst fun hcheck hcompat => ?_
  exact ⟨draft_write h hheld.1 hcheck (fun htype => absurd htype c.earned) hcompat, trivial⟩

/-- Another transaction's commit. -/
theorem TxSound.publish (h : TxSound first st tx) (h' : TxSound first st tx')
    (hapart : TxApart tx' tx) :
    TxSound first (st.publish tx'.draft) tx := by
  refine ⟨h.draft.publish h'.draft hapart, ?_⟩
  have hphase := h.phase
  -- the score is locked, so the other transaction has no row of its user
  have hseen : ∀ {c : TrustCall} {score : Int} {r : TrustLedgerRow},
      tx.draft.held c.input.userId = some score → r ∈ tx.draft.entries (st.publish tx'.draft) →
        Records r c → r ∈ tx.draft.entries st := fun hheld hr hrec =>
    Draft.Apart.entries_publish hapart.symm h'.draft (hrec.1 ▸ hheld) hr
  match hp : tx.phase with
  | .idle | .entering _ => trivial
  | .locked c score | .seeded c score =>
      rw [hp] at hphase
      exact hphase
  | .seeding c score _ =>
      rw [hp] at hphase
      exact ⟨hphase.1, fun hf r hr hrec => hphase.2 hf r (hseen hphase.1 hr hrec) hrec⟩
  | .writing c score =>
      rw [hp] at hphase
      exact ⟨hphase.1, fun r hr hrec => hphase.2 r (hseen hphase.1 hr hrec) hrec⟩

theorem apart_writeRow (h : TxApart tx other) {wrote : TrustTx → TrustTx}
    (hwrote : ∀ tx : TrustTx, (wrote tx).draft = tx.draft) {b : Int}
    (hheld : tx.draft.held r.userId = some b)
    (hclear : ∀ q ∈ other.draft.pending, Row.compatible r q) :
    TxApart (tx.writeRow st r wrote) other := by
  rcases writeRow_cases tx st r wrote with ⟨e, he⟩ | ⟨-, -, he⟩
  · rw [he]
    exact .empty
  · rw [he, TxApart, hwrote]
    exact Draft.Apart.write h hheld hclear

end Own

/-! ## Steps of the system -/

section Steps

variable {ι : Type} [DecidableEq ι] [Fintype ι] {w w' : TrustWorld ι} {i : ι} {c : TrustCall}
  {score initial : Int} {first : Prop}

omit [Fintype ι] [DecidableEq ι] in
theorem trustSound_initial (h : w.Init) : TrustSound first w := by
  obtain ⟨hst, htx⟩ := h
  refine ⟨?_, fun i => ?_, fun i j _ => ?_⟩
  · rw [hst]
    exact .initial
  · rw [hst, htx i]
    exact ⟨.empty .initial, trivial⟩
  · show Draft.Apart _ (w.locals i).draft _
    rw [htx i]
    exact .empty

theorem draft_findSeed (tx : TrustTx) (st : TrustStore) (c : TrustCall) (score initial : Int) :
    (tx.findSeed st c score initial).draft = tx.draft := by
  unfold TrustTx.findSeed
  split
  · rfl
  · split <;> rfl

theorem draft_lookup (tx : TrustTx) (st : TrustStore) (c : TrustCall) (score : Int) :
    (tx.lookup st c score).draft = tx.draft := by
  unfold TrustTx.lookup
  split <;> rfl

theorem draft_call (tx : TrustTx) (c : TrustCall) : (tx.call c).draft = tx.draft := by
  unfold TrustTx.call
  split <;> rfl

/-- Every step keeps the tables and the transactions sound. -/
theorem TrustSound.step (h : TrustSound first w) {l : TrustStep ι}
    (hfirst : first → SeedsFirst w l) (hs : w.Step l w') :
    TrustSound first w' := by
  have hsymm : ∀ a b, TxApart a b → TxApart b a := fun _ _ => Draft.Apart.symm
  have hapart : ∀ i j, j ≠ i → TxApart (w.locals i) (w.locals j) := fun i j hj =>
    h.apart i j (Ne.symm hj)
  -- a statement that neither locks nor writes
  have hsame : ∀ {i tx}, tx.draft = (w.locals i).draft → TxSound first w.shared tx →
      TrustSound first (w.set i w.shared tx) := by
    intro i tx hdraft hown
    refine h.set_local hsymm hown fun j hj => ?_
    rw [TxApart, hdraft]
    exact hapart i j hj
  unfold TrustWorld.Step at hs
  cases l with
  | call i c =>
      simp only [TrustWorld.exec] at hs
      split at hs
      · obtain rfl := Option.some.inj hs
        exact hsame (draft_call _ c) ((h.own i).call c)
      · cases hs
  | lock i =>
      simp only [TrustWorld.exec] at hs
      split at hs
      · next c _ =>
          split at hs
          · next hfree =>
              obtain rfl := Option.some.inj hs
              exact h.set_local hsymm ((h.own i).lock c) fun j hj =>
                (hapart i j hj).lock (of_decide_eq_true hfree j hj)
          · cases hs
      · cases hs
  | findSeed i initial =>
      simp only [TrustWorld.exec] at hs
      split at hs
      · next c score hp =>
          obtain rfl := Option.some.inj hs
          exact hsame (draft_findSeed ..) ((h.own i).findSeed hp fun hf => hfirst hf c score hp)
      · cases hs
  | writeSeed i id now =>
      simp only [TrustWorld.exec] at hs
      split at hs
      · next c score initial hp =>
          split at hs
          · next hclear =>
              obtain rfl := Option.some.inj hs
              have hheld := (h.own i).phase
              rw [hp] at hheld
              exact h.set_local hsymm ((h.own i).writeSeed h.shared hp now id) fun j hj =>
                apart_writeRow (hapart i j hj) (fun _ => rfl) hheld.1
                  (of_decide_eq_true hclear j hj)
          · cases hs
      · cases hs
  | lookup i =>
      simp only [TrustWorld.exec] at hs
      split at hs
      · next c score hp =>
          obtain rfl := Option.some.inj hs
          exact hsame (draft_lookup ..) ((h.own i).lookup hp)
      · cases hs
  | write i id now =>
      simp only [TrustWorld.exec] at hs
      split at hs
      · next c score hp =>
          split at hs
          · next hclear =>
              obtain rfl := Option.some.inj hs
              have hheld := (h.own i).phase
              rw [hp] at hheld
              exact h.set_local hsymm ((h.own i).write h.shared hp now id) fun j hj =>
                apart_writeRow (hapart i j hj) (fun _ => rfl) hheld.1
                  (of_decide_eq_true hclear j hj)
          · cases hs
      · cases hs
  | commit i =>
      simp only [TrustWorld.exec] at hs
      split at hs
      · obtain rfl := Option.some.inj hs
        have hst := h.shared.publish (h.own i).draft
        exact h.set hsymm hst (.released hst) fun j hj =>
          ⟨(h.own j).publish (h.own i) (hapart i j hj), .empty⟩
      · cases hs
  | abort i =>
      obtain rfl := Option.some.inj hs
      exact h.set_local hsymm (.released h.shared) fun _ _ => .empty

/-! ## Replays -/

omit [Fintype ι] in
theorem Unmoved.of_draft {tx : TrustTx} (h : tx.draft = (w.locals i).draft) :
    Unmoved i w (w.set i w.shared tx) := by
  refine ⟨rfl, ?_, fun u => ?_⟩
  · simp [rowsSeen, h]
  · simp [scoreSeen, h]

omit [Fintype ι] in
theorem Unmoved.lock : Unmoved i w (w.set i w.shared ((w.locals i).lock w.shared c)) := by
  refine ⟨rfl, ?_, fun u => ?_⟩
  · simp [rowsSeen, TrustTx.lock, Draft.lock, Draft.entries]
  · by_cases hu : u = c.input.userId
    · subst hu
      simp [scoreSeen, TrustTx.lock, Draft.lock, Draft.figure]
    · simp [scoreSeen, TrustTx.lock, Draft.lock, Draft.figure, hu]

/-- The row a look-up of its key finds. -/
theorem trustByKey_of_mem {rows : List TrustLedgerRow} {r : TrustLedgerRow} {k : TrustKey}
    (h : rows.Pairwise Row.compatible) (hr : r ∈ rows) (hk : r.idempotencyKey = k) :
    trustByKey rows k = some r := by
  unfold trustByKey
  cases hf : rows.find? fun q => decide (q.idempotencyKey = k) with
  | none => exact absurd (List.find?_eq_none.1 hf r hr) (by simp [hk])
  | some q =>
      have hq : q.idempotencyKey = k := by simpa using List.find?_some hf
      by_contra hne
      exact key_ne_of_compatible (h.forall (List.mem_of_find?_eq_some hf) hr
        fun he => hne (by rw [he])) (hq.trans hk.symm)

/-- A call whose key is recorded moves nothing, and answers with the recorded row. -/
theorem replay_step (h : TrustSound True w) {l : TrustStep ι} (hs : w.Step l w')
    {r : TrustLedgerRow} (hl : OfCall i l) (hc : (w.locals i).phase.current = some c)
    (hr : r ∈ rowsSeen w i) (hrec : Records r c) : Unmoved i w w' ∧
      (l = .lookup i → (w'.locals i).answers = (w.locals i).answers ++
        [.ok { applied := false, ledgerId := r.id, score := scoreSeen w i c.input.userId,
               effectiveDelta := r.delta }]) := by
  have hphase := (h.own i).phase
  unfold TrustWorld.Step at hs
  cases l with
  | call j c' =>
      obtain rfl : j = i := hl
      cases hp : (w.locals j).phase with
      | idle =>
          rw [hp] at hc
          cases hc
      | _ => simp [TrustWorld.exec, hp] at hs
  | lock j =>
      obtain rfl : j = i := hl
      simp only [TrustWorld.exec] at hs
      split at hs
      · split at hs
        · obtain rfl := Option.some.inj hs
          exact ⟨.lock, nofun⟩
        · cases hs
      · cases hs
  | findSeed j initial =>
      obtain rfl : j = i := hl
      simp only [TrustWorld.exec] at hs
      split at hs
      · obtain rfl := Option.some.inj hs
        exact ⟨.of_draft (draft_findSeed ..), nofun⟩
      · cases hs
  | writeSeed j id now =>
      obtain rfl : j = i := hl
      cases hp : (w.locals j).phase with
      | seeding c' score initial =>
          rw [hp] at hphase hc
          obtain rfl := Option.some.inj hc
          exact absurd hrec (hphase.2 trivial r hr)
      | _ => simp [TrustWorld.exec, hp] at hs
  | lookup j =>
      obtain rfl : j = i := hl
      cases hp : (w.locals j).phase with
      | seeded c' score =>
          rw [hp] at hphase hc
          obtain rfl := Option.some.inj hc
          simp only [TrustWorld.exec, hp] at hs
          obtain rfl := Option.some.inj hs
          refine ⟨.of_draft (draft_lookup ..), fun _ => ?_⟩
          have hfound := trustByKey_of_mem (h.own j).draft.distinct hr hrec.2
          have hscore : scoreSeen w j c'.input.userId = score := by
            rw [scoreSeen, Draft.figure, show (w.locals j).draft.held _ = _ from hphase,
              Option.getD_some]
          rw [hscore, Threads.set_locals_self, TrustTx.lookup]
          simp only [hfound]
          rfl
      | _ => simp [TrustWorld.exec, hp] at hs
  | write j id now =>
      obtain rfl : j = i := hl
      cases hp : (w.locals j).phase with
      | writing c' score =>
          rw [hp] at hphase hc
          obtain rfl := Option.some.inj hc
          exact absurd hrec (hphase.2 r hr)
      | _ => simp [TrustWorld.exec, hp] at hs
  | commit j => exact absurd hl id
  | abort j => exact absurd hl id

/-- The trust ledger, in runs where no call whose key is recorded finds its user's seed row
    missing. -/
theorem trust_ledger_kept {tr : List (TrustWorld ι × TrustStep ι × TrustWorld ι)}
    (h : Run TrustWorld.Init TrustWorld.Step SeedsFirst tr w) : ∀ x ∈ tr, TrustKept x :=
  h.steps (P := fun w l w' => TrustKept (w, l, w')) fun w l w' hw hg hs => by
    have hbefore : TrustSound True w := hw.invariant (I := fun w : TrustWorld ι => TrustSound True w)
      (fun _ => trustSound_initial) fun _ _ _ hI hg hs => hI.step (fun _ => hg) hs
    have hafter : TrustSound True w' := hbefore.step (fun _ => hg) hs
    exact ⟨correct_of_sound hafter.shared, fun i c r hl hc hr hrec =>
      replay_step hbefore hs hl hc hr hrec⟩

end Steps

/-- Two transactions over empty tables. -/
def trustStart : TrustWorld (Fin 2) where
  shared := ⟨fun _ => none, []⟩
  locals _ := ⟨.empty, .idle, []⟩

/-- Attending moves user 1 by `delta`, under a key of its own. -/
def attending (delta : Int) (participantId : ParticipantId) : TrustCall where
  input :=
    { userId := 1
      delta := delta
      type := .ATTENDANCE
      reasonCode := "trust.attendance"
      idempotencyKey := .attendance participantId
      actorType := .SYSTEM }
  earned := nofun

/-- The statements of a call that seeds, or finds the seed, and writes its row. -/
def applySteps (i : Fin 2) (c : TrustCall) (initial : Int) (id : LedgerId) :
    List (TrustStep (Fin 2)) :=
  [.call i c, .lock i, .findSeed i initial, .writeSeed i id 0, .lookup i, .write i (id + 1) 0]

/-- The first call of user 1 seeds 50 and is clamped at 100; the second one waits for its
    commit, and replays the key. -/
def clampedSteps (i j : Fin 2) : List (TrustStep (Fin 2)) :=
  [.call j (attending 70 9)] ++ applySteps i (attending 70 9) 50 1 ++
    [.commit i, .lock j, .findSeed j 50, .lookup j, .commit j]

def seedsFirst (w : TrustWorld (Fin 2)) : TrustStep (Fin 2) → Bool
  | .findSeed i initial => decide (initial = 0) || match (w.locals i).phase with
      | .locked c _ => decide (∀ r ∈ rowsSeen w i, r.idempotencyKey ≠ c.input.idempotencyKey) ||
          (rowsSeen w i).any fun r => decide (r.idempotencyKey = .initial c.input.userId)
      | _ => true
  | _ => true

theorem seedsFirst_of (w : TrustWorld (Fin 2)) (l : TrustStep (Fin 2))
    (h : seedsFirst w l = true) : SeedsFirst w l := by
  cases l with
  | findSeed i initial =>
      rintro c score hp ⟨r, hr, hrec⟩
      simp only [seedsFirst, hp, Bool.or_eq_true, decide_eq_true_eq, List.any_eq_true] at h
      rcases h with hzero | hnew | hseed
      · exact .inl hzero
      · exact absurd hrec.2 (hnew r hr)
      · exact .inr hseed
  | _ => trivial

theorem trust_ledger_kept_clamped :
    ∃ (tr : List (TrustWorld (Fin 2) × TrustStep (Fin 2) × TrustWorld (Fin 2)))
      (w : TrustWorld (Fin 2)), (∀ x ∈ tr, TrustKept x) ∧ tr.length = 12 ∧
        w.shared.entries.map (·.delta) = [50, 50] ∧
        (w.locals 1).answers = [.ok ⟨false, 2, 100, 50⟩] := by
  have hplay : guardList TrustWorld.exec seedsFirst trustStart (clampedSteps 0 1) = true ∧
      (traceList TrustWorld.exec trustStart (clampedSteps 0 1)).length = 12 ∧
      (runList TrustWorld.exec trustStart (clampedSteps 0 1)).any (fun w =>
        decide (w.shared.entries.map (·.delta) = [50, 50] ∧
          (w.locals 1).answers = [.ok ⟨false, 2, 100, 50⟩])) = true := by
    decide
  obtain ⟨w, hw, hend⟩ := (Option.any_eq_true _ _).1 hplay.2.2
  have hrun : Run TrustWorld.Init TrustWorld.Step SeedsFirst
      (traceList TrustWorld.exec trustStart (clampedSteps 0 1)) w :=
    run_of_runList (g := seedsFirst) (fun _ _ _ h => h) seedsFirst_of
      (.start ⟨rfl, fun _ => rfl⟩) hplay.1 hw
  exact ⟨_, w, trust_ledger_kept hrun, hplay.2.1, of_decide_eq_true hend⟩

/-- A call moves user 1 while the initial score is zero, and is replayed once it is 50. -/
def lateSeedSteps (i : Fin 2) : List (TrustStep (Fin 2)) :=
  [.call i (attending 3 9), .lock i, .findSeed i 0, .lookup i, .write i 1 0, .commit i,
    .call i (attending 3 9), .lock i, .findSeed i 50, .writeSeed i 2 0, .lookup i, .commit i]

/-- The replay is answered `applied := false`, and has raised the score from 3 to 53. -/
theorem replay_moves_score : ∃ w : TrustWorld (Fin 2),
    Reachable TrustWorld.Init TrustWorld.Step w ∧
    (w.locals 0).answers = [.ok ⟨true, 1, 3, 3⟩, .ok ⟨false, 1, 53, 3⟩] ∧
    w.shared.figure 1 = 53 ∧ w.shared.entries.map (·.delta) = [3, 50] := by
  have hplay : (runList TrustWorld.exec trustStart (lateSeedSteps 0)).any (fun w =>
      decide ((w.locals 0).answers = [.ok ⟨true, 1, 3, 3⟩, .ok ⟨false, 1, 53, 3⟩] ∧
        w.shared.figure 1 = 53 ∧ w.shared.entries.map (·.delta) = [3, 50])) = true := by
    decide
  obtain ⟨w, hw, hend⟩ := (Option.any_eq_true _ _).1 hplay
  exact ⟨w, reachable_of_runList (fun _ _ _ h => h) (.start ⟨rfl, fun _ => rfl⟩) hw,
    of_decide_eq_true hend⟩

end TrustLedger

end Paayatam
