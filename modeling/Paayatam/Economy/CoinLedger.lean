/-
  Paayatam.Economy.CoinLedger

  The coin ledger under any interleaving of its transactions.

  `LedgerSound` is what the committed tables satisfy, `TxSound` what a
  transaction under way holds over them: its uncommitted rows continue the
  committed chain of every account it has locked, and touch no other.  Two
  transactions are apart when they hold no account in common and no pending
  rows that collide.
-/

import Paayatam.Economy.CoinTransactions

namespace Paayatam

open Lib

/-! ## Rows -/

/-- The rows of one user, in order. -/
def rowsOf (u : UserId) (rows : List CoinLedgerRow) : List CoinLedgerRow :=
  rows.filter fun r => decide (r.userId = u)

/-- The rows lead the balance from `a` to `b` without a gap. -/
abbrev BalanceChain (a : Int) (rows : List CoinLedgerRow) (b : Int) : Prop :=
  Chain CoinLedgerRow.balanceBefore CoinLedgerRow.balanceAfter a rows b

/-- If the row reverses another, it negates a forward row of the same user. -/
def Undoes (rows : List CoinLedgerRow) (r : CoinLedgerRow) : Prop :=
  ∀ l, r.reversesLedgerId = some l → ∃ o ∈ rows, o.id = l ∧ o.type ≠ .REVERSAL ∧
    o.userId = r.userId ∧ r.amount = -o.amount

theorem rowsOf_append (u : UserId) (l l' : List CoinLedgerRow) :
    rowsOf u (l ++ l') = rowsOf u l ++ rowsOf u l' := by
  simp [rowsOf]

theorem rowsOf_concat_self (l : List CoinLedgerRow) (r : CoinLedgerRow) :
    rowsOf r.userId (l ++ [r]) = rowsOf r.userId l ++ [r] := by
  simp [rowsOf]

theorem rowsOf_concat_ne {u : UserId} {r : CoinLedgerRow} (h : r.userId ≠ u)
    (l : List CoinLedgerRow) : rowsOf u (l ++ [r]) = rowsOf u l := by
  simp [rowsOf, h]

theorem Undoes.mono {rows rows' : List CoinLedgerRow} {r : CoinLedgerRow} (h : Undoes rows r)
    (hsub : ∀ o ∈ rows, o ∈ rows') : Undoes rows' r := by
  intro l hl
  obtain ⟨o, ho, hrest⟩ := h l hl
  exact ⟨o, hsub o ho, hrest⟩

/-- What the `CHECK` constraints say. -/
theorem CoinLedgerRow.of_check {r : CoinLedgerRow} (h : Row.check r = true) :
    r.balanceAfter = r.balanceBefore + r.amount ∧ 0 ≤ r.balanceAfter ∧
      (r.reversesLedgerId.isSome = true → r.type = .REVERSAL) := by
  simp only [Row.check, CoinLedgerRow.constraints, Bool.and_eq_true, decide_eq_true_eq,
    beq_iff_eq] at h
  obtain ⟨⟨⟨-, hafter⟩, hnonneg⟩, htype⟩ := h
  exact ⟨hafter, hnonneg, fun hr => by simpa [hr] using htype⟩

theorem compatible_comm {r q : CoinLedgerRow} (h : Row.compatible r q) : Row.compatible q r :=
  symm_of Row.compatible h

/-! ## The invariant -/

/-- What the committed tables satisfy. -/
structure LedgerSound (st : CoinStore) : Prop where
  chain : ∀ u, BalanceChain 0 (rowsOf u st.ledger) (st.balance u)
  nonneg : ∀ u, 0 ≤ st.balance u
  checked : ∀ r ∈ st.ledger, Row.check r = true
  distinct : st.ledger.Pairwise Row.compatible
  linked : ∀ r ∈ st.ledger, Undoes st.ledger r

/-- A movement on its way: not zero, and a reversal only of a forward row it can see. -/
def InputSound (rows : List CoinLedgerRow) (input : CoinMovementInput)
    (penaltyRequested : Option Int) : Prop :=
  input.amount ≠ 0 ∧ ∀ l, input.reversesLedgerId = some l → penaltyRequested = none ∧
    ∃ o ∈ rows, o.id = l ∧ o.type ≠ .REVERSAL ∧ o.userId = input.userId ∧ input.amount = -o.amount

/-- What a call has established by the time it is in this phase. -/
def PhaseSound (st : CoinStore) (tx : CoinTx) : CallPhase → Prop
  | .idle => True
  | .entering input pr => InputSound (tx.rows st) input pr
  | .locked input pr => InputSound (tx.rows st) input pr ∧ (tx.held input.userId).isSome = true
  | .writing input pr amount =>
      InputSound (tx.rows st) input pr ∧ (tx.held input.userId).isSome = true ∧
        amount = cappedAmount input.amount pr (tx.balance st input.userId)

/-- One account, as a transaction has it: untouched, or continued to the figure
    it has given it. -/
def AccountSound (st : CoinStore) (pending : List CoinLedgerRow) (u : UserId) : Option Int → Prop
  | none => rowsOf u pending = []
  | some b => 0 ≤ b ∧ BalanceChain (st.balance u) (rowsOf u pending) b

/-- What a transaction holds over the committed tables. -/
structure TxSound (st : CoinStore) (tx : CoinTx) : Prop where
  accounts : ∀ u, AccountSound st tx.pending u (tx.held u)
  checked : ∀ r ∈ tx.pending, Row.check r = true
  distinct : (tx.rows st).Pairwise Row.compatible
  linked : ∀ r ∈ tx.pending, Undoes (tx.rows st) r
  phase : PhaseSound st tx tx.phase

/-- No account in common, and no pending rows that collide. -/
structure TxApart (tx tx' : CoinTx) : Prop where
  held : ∀ u, tx.held u = none ∨ tx'.held u = none
  pending : ∀ r ∈ tx.pending, ∀ q ∈ tx'.pending, Row.compatible r q

theorem TxApart.symm {tx tx' : CoinTx} (h : TxApart tx tx') : TxApart tx' tx where
  held u := (h.held u).symm
  pending r hr q hq := compatible_comm (h.pending q hq r hr)

abbrev CoinsSound {ι : Type} (w : CoinWorld ι) : Prop := w.Holds LedgerSound TxSound TxApart

theorem InputSound.mono {rows rows' : List CoinLedgerRow} {input : CoinMovementInput}
    {pr : Option Int} (h : InputSound rows input pr) (hsub : ∀ o ∈ rows, o ∈ rows') :
    InputSound rows' input pr := by
  refine ⟨h.1, fun l hl => ?_⟩
  obtain ⟨hpr, o, ho, hrest⟩ := h.2 l hl
  exact ⟨hpr, o, hsub o ho, hrest⟩

/-! ## A transaction's own steps -/

section Own

variable {st : CoinStore} {tx : CoinTx} {input : CoinMovementInput} {pr : Option Int}

/-- Between two calls, with another answer given. -/
theorem TxSound.answer (h : TxSound st tx) (a : Except AppError CoinPenalty) :
    TxSound st (tx.answer a) :=
  ⟨h.accounts, h.checked, h.distinct, h.linked, trivial⟩

/-- The same writes, further on. -/
theorem TxSound.at_phase (h : TxSound st tx) {p : CallPhase} (hp : PhaseSound st tx p) :
    TxSound st { tx with phase := p } := by
  refine ⟨h.accounts, h.checked, h.distinct, h.linked, ?_⟩
  cases p <;> exact hp

theorem TxSound.released (h : LedgerSound st) : TxSound st tx.released := by
  refine ⟨fun _ => rfl, by simp [CoinTx.released], ?_, by simp [CoinTx.released], trivial⟩
  simpa [CoinTx.rows, CoinTx.released] using h.distinct

/-- What the transaction sees of an account is a figure its chain has reached. -/
theorem TxSound.account (h : TxSound st tx) (hst : LedgerSound st) (u : UserId) :
    AccountSound st tx.pending u (some (tx.balance st u)) := by
  have hu := h.accounts u
  unfold CoinTx.balance
  cases hheld : tx.held u with
  | none =>
      rw [hheld] at hu
      refine ⟨hst.nonneg u, ?_⟩
      rw [show rowsOf u tx.pending = [] from hu]
      exact .nil
  | some b =>
      rw [hheld] at hu
      exact hu

theorem TxSound.enter (h : TxSound st tx) (hin : input.amount ≠ 0 → InputSound (tx.rows st) input pr) :
    TxSound st (tx.enter input pr) := by
  unfold CoinTx.enter
  split
  · exact h.answer _
  · next hne => exact h.at_phase (hin hne)

theorem TxSound.call (h : TxSound st tx) (c : CoinCall) : TxSound st (tx.call st c) := by
  cases c with
  | apply input forward => exact h.enter fun hne => ⟨hne, by simp [forward]⟩
  | penalize input forward =>
      simp only [CoinTx.call]
      split
      · exact h.answer _
      · exact h.enter fun hne => ⟨hne, by simp [forward]⟩
  | reverse l reason at' ai =>
      simp only [CoinTx.call]
      split
      · exact h.answer _
      · next o ho =>
          split
          · exact h.answer _
          · next htype =>
              refine h.enter fun hne => ⟨hne, fun k hk => ⟨rfl, o, List.mem_of_find?_eq_some ho, ?_⟩⟩
              obtain rfl : o.id = k := by simpa [reversalOf] using hk
              exact ⟨rfl, htype, rfl, rfl⟩

/-- Holding one more account, with the balance it was found with. -/
theorem TxSound.lock (h : TxSound st tx) (hst : LedgerSound st)
    (hin : InputSound (tx.rows st) input pr) : TxSound st (tx.lock st input pr) := by
  refine ⟨fun u => ?_, h.checked, h.distinct, h.linked, hin, by simp [CoinTx.lock]⟩
  by_cases hu : u = input.userId
  · subst hu
    simpa [CoinTx.lock] using h.account hst input.userId
  · simpa [CoinTx.lock, hu] using h.accounts u

theorem TxSound.lookup (h : TxSound st tx) (hin : InputSound (tx.rows st) input pr)
    (hheld : (tx.held input.userId).isSome = true) : TxSound st (tx.lookup st input pr) := by
  simp only [CoinTx.lookup]
  split
  · exact h.answer _
  · split
    · exact h.answer _
    · split
      · exact h.answer _
      · exact h.at_phase ⟨hin, hheld, rfl⟩

/-- The row of a sound movement undoes what its input says. -/
theorem undoes_row {now : Instant} {id : LedgerId} {amount b : Int} {rows : List CoinLedgerRow}
    (hin : InputSound rows input pr) (hamount : amount = cappedAmount input.amount pr b) (c : Int) :
    Undoes rows (ledgerRow now id input pr c amount) := by
  intro l hl
  obtain ⟨rfl, o, ho, hid, htype, huser, hneg⟩ := hin.2 l hl
  refine ⟨o, ho, hid, htype, huser, ?_⟩
  rw [← hneg]
  exact hamount

/-- One more pending row, of an account the transaction holds. -/
theorem TxSound.insert {r : CoinLedgerRow} (h : TxSound st tx) (hst : LedgerSound st)
    (hbefore : r.balanceBefore = tx.balance st r.userId) (hcheck : Row.check r = true)
    (hcompat : ∀ q ∈ tx.rows st, Row.compatible r q) (hundoes : Undoes (tx.rows st) r) :
    TxSound st (tx.insert r) := by
  have hrows : st.ledger ++ (tx.pending ++ [r]) = tx.rows st ++ [r] := by
    rw [CoinTx.rows, List.append_assoc]
  refine ⟨fun u => ?_, ?_, ?_, ?_, trivial⟩
  · by_cases hu : u = r.userId
    · subst hu
      have hchain := (h.account hst r.userId).2.concat hbefore
      rw [← rowsOf_concat_self] at hchain
      simp only [CoinTx.insert, Function.update_self]
      exact ⟨(CoinLedgerRow.of_check hcheck).2.1, hchain⟩
    · simp only [AccountSound, CoinTx.insert, Function.update_of_ne hu, rowsOf_concat_ne (Ne.symm hu)]
      exact h.accounts u
  · simpa [CoinTx.insert, or_imp, forall_and] using And.intro h.checked hcheck
  · change (st.ledger ++ (tx.pending ++ [r])).Pairwise _
    rw [hrows, List.pairwise_append]
    refine ⟨h.distinct, List.pairwise_singleton _ _, fun q hq x hx => ?_⟩
    obtain rfl := List.mem_singleton.1 hx
    exact compatible_comm (hcompat q hq)
  · intro x hx
    change Undoes (st.ledger ++ (tx.pending ++ [r])) x
    rw [hrows]
    rcases List.mem_append.1 hx with hx | hx
    · exact (h.linked x hx).mono fun o ho => List.mem_append_left _ ho
    · obtain rfl := List.mem_singleton.1 hx
      exact hundoes.mono fun o ho => List.mem_append_left _ ho

theorem TxSound.write {now : Instant} {id : LedgerId} {amount : Int} (h : TxSound st tx)
    (hst : LedgerSound st) (hin : InputSound (tx.rows st) input pr)
    (hamount : amount = cappedAmount input.amount pr (tx.balance st input.userId)) :
    TxSound st (tx.write st now id input pr amount) := by
  simp only [CoinTx.write]
  split
  · exact .released hst
  · next hcheck =>
      split
      · next hcompat =>
          exact (h.insert hst rfl (by simpa using hcheck) hcompat
            (undoes_row hin hamount _)).answer _
      · exact .released hst

end Own

/-! ## Commits, and what they are to the others -/

section Commit

variable {st : CoinStore} {tx tx' : CoinTx}

theorem CoinStore.balance_publish_held {u : UserId} {b : Int} (h : tx.held u = some b) :
    (st.publish tx).balance u = b := by
  simp [CoinStore.balance, CoinStore.publish, h]

theorem CoinStore.balance_publish_free {u : UserId} (h : tx.held u = none) :
    (st.publish tx).balance u = st.balance u := by
  simp [CoinStore.balance, CoinStore.publish, h]

/-- A sound transaction leaves sound tables. -/
theorem LedgerSound.publish (hst : LedgerSound st) (h : TxSound st tx) :
    LedgerSound (st.publish tx) := by
  refine ⟨fun u => ?_, fun u => ?_, ?_, h.distinct, ?_⟩
  · have hu := h.accounts u
    change BalanceChain 0 (rowsOf u (st.ledger ++ tx.pending)) _
    rw [rowsOf_append]
    cases hheld : tx.held u with
    | none =>
        rw [hheld] at hu
        rw [CoinStore.balance_publish_free hheld, show rowsOf u tx.pending = [] from hu,
          List.append_nil]
        exact hst.chain u
    | some b =>
        rw [hheld] at hu
        rw [CoinStore.balance_publish_held hheld]
        exact (hst.chain u).append hu.2
  · have hu := h.accounts u
    cases hheld : tx.held u with
    | none => simpa [CoinStore.balance_publish_free hheld] using hst.nonneg u
    | some b =>
        rw [hheld] at hu
        simpa [CoinStore.balance_publish_held hheld] using hu.1
  · intro r hr
    rcases List.mem_append.1 hr with hr | hr
    · exact hst.checked r hr
    · exact h.checked r hr
  · intro r hr
    rcases List.mem_append.1 hr with hr | hr
    · exact (hst.linked r hr).mono fun o ho => List.mem_append_left _ ho
    · exact h.linked r hr

/-- A transaction sees every row it saw before another one committed. -/
theorem CoinTx.rows_publish {r : CoinLedgerRow} (hr : r ∈ tx.rows st) :
    r ∈ tx.rows (st.publish tx') := by
  rcases List.mem_append.1 hr with hr | hr
  · exact List.mem_append_left _ (List.mem_append_left _ hr)
  · exact List.mem_append_right _ hr

theorem PhaseSound.publish (h : PhaseSound st tx tx.phase) :
    PhaseSound (st.publish tx') tx tx.phase := by
  cases hp : tx.phase with
  | idle => trivial
  | entering input pr =>
      rw [hp] at h
      exact h.mono fun o ho => CoinTx.rows_publish ho
  | locked input pr =>
      rw [hp] at h
      exact ⟨h.1.mono fun o ho => CoinTx.rows_publish ho, h.2⟩
  | writing input pr amount =>
      rw [hp] at h
      obtain ⟨hin, hheld, hamount⟩ := h
      obtain ⟨b, hb⟩ := Option.isSome_iff_exists.1 hheld
      -- the account is locked, so the balance is the transaction's own
      refine ⟨hin.mono fun o ho => CoinTx.rows_publish ho, hheld, ?_⟩
      simpa [CoinTx.balance, hb] using hamount

/-- Another transaction's commit leaves a sound transaction sound. -/
theorem TxSound.publish (h : TxSound st tx) (h' : TxSound st tx') (hapart : TxApart tx' tx) :
    TxSound (st.publish tx') tx := by
  refine ⟨fun u => ?_, h.checked, ?_, fun r hr => (h.linked r hr).mono fun o ho =>
    CoinTx.rows_publish ho, h.phase.publish⟩
  · have hu := h.accounts u
    rcases hapart.held u with hfree | hfree
    · cases hheld : tx.held u with
      | none => simpa [AccountSound, hheld] using hu
      | some b => simpa [AccountSound, hheld, CoinStore.balance_publish_free hfree] using hu
    · simpa [AccountSound, hfree] using hu
  · change ((st.ledger ++ tx'.pending) ++ tx.pending).Pairwise _
    have hown := List.pairwise_append.1 h.distinct
    refine List.pairwise_append.2 ⟨h'.distinct, hown.2.1, fun r hr q hq => ?_⟩
    rcases List.mem_append.1 hr with hr | hr
    · exact hown.2.2 r hr q hq
    · exact hapart.pending r hr q hq

end Commit

/-! ## Steps of the system -/

theorem CoinsSound.initial {ι : Type} {w : CoinWorld ι} (h : w.Init) : CoinsSound w := by
  obtain ⟨hst, htx⟩ := h
  refine ⟨?_, fun i => ?_, fun i j _ => ?_⟩
  · rw [hst]
    refine ⟨fun u => .nil, fun u => le_rfl, ?_, List.Pairwise.nil, ?_⟩ <;> simp
  · rw [hst, htx i]
    refine ⟨fun u => rfl, ?_, List.Pairwise.nil, ?_, trivial⟩ <;> simp
  · rw [htx i, htx j]
    exact ⟨fun u => .inl rfl, by simp⟩

section Steps

variable {ι : Type} [DecidableEq ι] [Fintype ι] {w w' : CoinWorld ι}

/-- A step that changes neither what a transaction holds nor what it has pending
    keeps it apart from the others. -/
theorem TxApart.of_same {tx tx' other : CoinTx} (h : TxApart tx other) (hheld : tx'.held = tx.held)
    (hpending : tx'.pending = tx.pending) : TxApart tx' other := by
  refine ⟨?_, ?_⟩
  · rw [hheld]
    exact h.held
  · rw [hpending]
    exact h.pending

theorem TxApart.released {tx other : CoinTx} : TxApart tx.released other :=
  ⟨fun _ => .inl rfl, by simp [CoinTx.released]⟩

theorem CoinTx.enter_same (tx : CoinTx) (input : CoinMovementInput) (pr : Option Int) :
    (tx.enter input pr).held = tx.held ∧ (tx.enter input pr).pending = tx.pending := by
  unfold CoinTx.enter
  split <;> exact ⟨rfl, rfl⟩

theorem CoinTx.call_same (tx : CoinTx) (st : CoinStore) (c : CoinCall) :
    (tx.call st c).held = tx.held ∧ (tx.call st c).pending = tx.pending := by
  cases c with
  | apply input forward => exact tx.enter_same _ _
  | penalize input forward =>
      simp only [CoinTx.call]
      split
      · exact ⟨rfl, rfl⟩
      · exact tx.enter_same _ _
  | reverse l reason at' ai =>
      simp only [CoinTx.call]
      split
      · exact ⟨rfl, rfl⟩
      · split
        · exact ⟨rfl, rfl⟩
        · exact tx.enter_same _ _

theorem CoinTx.lookup_same (tx : CoinTx) (st : CoinStore) (input : CoinMovementInput)
    (pr : Option Int) : (tx.lookup st input pr).held = tx.held ∧
      (tx.lookup st input pr).pending = tx.pending := by
  simp only [CoinTx.lookup]
  split
  · exact ⟨rfl, rfl⟩
  · split
    · exact ⟨rfl, rfl⟩
    · split <;> exact ⟨rfl, rfl⟩

/-- The account a transaction locks is held by no other. -/
theorem TxApart.lock {tx other : CoinTx} {st : CoinStore} {input : CoinMovementInput}
    {pr : Option Int} (h : TxApart tx other) (hfree : other.held input.userId = none) :
    TxApart (tx.lock st input pr) other := by
  refine ⟨fun u => ?_, h.pending⟩
  by_cases hu : u = input.userId
  · exact .inr (hu ▸ hfree)
  · simpa [CoinTx.lock, hu] using h.held u

theorem TxApart.write {tx other : CoinTx} {st : CoinStore} {now : Instant} {id : LedgerId}
    {input : CoinMovementInput} {pr : Option Int} {amount : Int} (h : TxApart tx other)
    (hheld : (tx.held input.userId).isSome = true)
    (hclear : ∀ q ∈ other.pending, Row.compatible (tx.row st now id input pr amount) q) :
    TxApart (tx.write st now id input pr amount) other := by
  have hfree : other.held input.userId = none := by
    rcases h.held input.userId with hnone | hnone
    · simp [hnone] at hheld
    · exact hnone
  simp only [CoinTx.write]
  split
  · exact .released
  · split
    · refine ⟨fun u => ?_, fun r hr q hq => ?_⟩
      · by_cases hu : u = input.userId
        · exact .inr (hu ▸ hfree)
        · have hrow : u ≠ (tx.row st now id input pr amount).userId := hu
          simpa [CoinTx.answer, CoinTx.insert, hrow] using h.held u
      · rcases List.mem_append.1 hr with hr | hr
        · exact h.pending r hr q hq
        · obtain rfl := List.mem_singleton.1 hr
          exact hclear q hq
    · exact .released

/-- Every step keeps the tables and the transactions sound. -/
theorem CoinsSound.step (h : CoinsSound w) {l : CoinStep ι} (hstep : w.Step l w') :
    CoinsSound w' := by
  have hsymm : ∀ a b, TxApart a b → TxApart b a := fun _ _ => TxApart.symm
  have hapart : ∀ i j, j ≠ i → TxApart (w.locals i) (w.locals j) := fun i j hj =>
    h.apart i j (Ne.symm hj)
  unfold CoinWorld.Step at hstep
  cases l with
  | call i c =>
      simp only [CoinWorld.exec] at hstep
      split at hstep
      · obtain rfl := Option.some.inj hstep
        have hsame := (w.locals i).call_same w.shared c
        exact h.set_local hsymm ((h.own i).call c) fun j hj =>
          (hapart i j hj).of_same hsame.1 hsame.2
      · cases hstep
  | lock i =>
      simp only [CoinWorld.exec] at hstep
      split at hstep
      · next input pr hphase =>
          split at hstep
          · next hfree =>
              obtain rfl := Option.some.inj hstep
              have hin := (h.own i).phase
              rw [hphase] at hin
              exact h.set_local hsymm ((h.own i).lock h.shared hin) fun j hj =>
                (hapart i j hj).lock (of_decide_eq_true hfree j hj)
          · cases hstep
      · cases hstep
  | lookup i =>
      simp only [CoinWorld.exec] at hstep
      split at hstep
      · next input pr hphase =>
          obtain rfl := Option.some.inj hstep
          have hin := (h.own i).phase
          rw [hphase] at hin
          have hsame := (w.locals i).lookup_same w.shared input pr
          exact h.set_local hsymm ((h.own i).lookup hin.1 hin.2) fun j hj =>
            (hapart i j hj).of_same hsame.1 hsame.2
      · cases hstep
  | write i id now =>
      simp only [CoinWorld.exec] at hstep
      split at hstep
      · next input pr amount hphase =>
          split at hstep
          · next hclear =>
              obtain rfl := Option.some.inj hstep
              have hin := (h.own i).phase
              rw [hphase] at hin
              exact h.set_local hsymm ((h.own i).write h.shared hin.1 hin.2.2) fun j hj =>
                (hapart i j hj).write hin.2.1 (of_decide_eq_true hclear j hj)
          · cases hstep
      · cases hstep
  | commit i =>
      simp only [CoinWorld.exec] at hstep
      split at hstep
      · obtain rfl := Option.some.inj hstep
        have hst := h.shared.publish (h.own i)
        exact h.set hsymm hst (.released hst) fun j hj =>
          ⟨(h.own j).publish (h.own i) (hapart i j hj), .released⟩
      · cases hstep
  | abort i =>
      obtain rfl := Option.some.inj hstep
      exact h.set_local hsymm (.released h.shared) fun _ _ => .released

theorem CoinsSound.of_reachable (h : Reachable CoinWorld.Init CoinWorld.Step w) : CoinsSound w :=
  Reach.invariant (I := fun w : CoinWorld ι => CoinsSound w) (fun _ => .initial)
    (fun _ _ _ hI _ hstep => hI.step hstep) h

end Steps

/-! ## What calls do -/

/-- The committed ledger adds up: every balance is the sum of the user's rows and
    never negative, the rows form one chain, keys and reversals are unique, and a
    reversal negates a row that is none itself. -/
structure LedgerCorrect (st : CoinStore) : Prop where
  sum : ∀ u, st.balance u = ((rowsOf u st.ledger).map (·.amount)).sum
  nonneg : ∀ u, 0 ≤ st.balance u
  chain : ∀ u, BalanceChain 0 (rowsOf u st.ledger) (st.balance u)
  balanced : ∀ r ∈ st.ledger, r.balanceAfter = r.balanceBefore + r.amount
  keys : st.ledger.Pairwise fun r q => r.idempotencyKey ≠ q.idempotencyKey
  reversedOnce : st.ledger.Pairwise fun r q =>
    ∀ l, r.reversesLedgerId = some l → q.reversesLedgerId ≠ some l
  negates : ∀ r ∈ st.ledger, ∀ l, r.reversesLedgerId = some l →
    ∃ o ∈ st.ledger, o.id = l ∧ r.amount = -o.amount ∧ o.reversesLedgerId = none

theorem LedgerSound.correct {st : CoinStore} (h : LedgerSound st) : LedgerCorrect st where
  sum u := by
    have hbal : ∀ r ∈ rowsOf u st.ledger, r.balanceAfter = r.balanceBefore + r.amount :=
      fun r hr => (CoinLedgerRow.of_check (h.checked r (List.mem_filter.1 hr).1)).1
    simpa using (h.chain u).sum hbal
  nonneg := h.nonneg
  chain := h.chain
  balanced r hr := (CoinLedgerRow.of_check (h.checked r hr)).1
  keys := h.distinct.imp fun hrq hk => by simp [Row.compatible, Row.collide, hk] at hrq
  reversedOnce := h.distinct.imp fun hrq l hr hq => by
    simp [Row.compatible, Row.collide, hr, hq] at hrq
  negates r hr l hl := by
    obtain ⟨o, ho, hid, htype, -, hneg⟩ := h.linked r hr l hl
    refine ⟨o, ho, hid, hneg, ?_⟩
    cases hrev : o.reversesLedgerId with
    | none => rfl
    | some k => exact absurd ((CoinLedgerRow.of_check (h.checked o ho)).2.2 (by simp [hrev])) htype

section Calls

variable {ι : Type} [DecidableEq ι] [Fintype ι]

/-- The step is a statement of a call of transaction `i`. -/
def CoinStep.OfCall (i : ι) : CoinStep ι → Prop
  | .call j _ => j = i
  | .lock j => j = i
  | .lookup j => j = i
  | .write j _ _ => j = i
  | .commit _ => False
  | .abort _ => False

/-- The call of transaction `i` returns `a` in this step. -/
def Answers (i : ι) (a : Except AppError CoinPenalty) (w w' : CoinWorld ι) : Prop :=
  (w'.locals i).answers = (w.locals i).answers ++ [a]

instance (i : ι) (a : Except AppError CoinPenalty) (w w' : CoinWorld ι) :
    Decidable (Answers i a w w') :=
  inferInstanceAs (Decidable (_ = _))

/-- Transaction `i` sees the balances and the rows it saw. -/
structure Unmoved (i : ι) (w w' : CoinWorld ι) : Prop where
  rows : (w'.locals i).rows w'.shared = (w.locals i).rows w.shared
  balance : ∀ u, (w'.locals i).balance w'.shared u = (w.locals i).balance w.shared u

/-- Transaction `i` was rolled back: it has written nothing. -/
structure RolledBack (i : ι) (w' : CoinWorld ι) : Prop where
  pending : (w'.locals i).pending = []
  held : ∀ u, (w'.locals i).held u = none

variable {w w' : CoinWorld ι} {i : ι}

omit [Fintype ι] in
theorem Unmoved.of_same {tx : CoinTx} (h : tx.held = (w.locals i).held ∧
    tx.pending = (w.locals i).pending) : Unmoved i w (w.set i w.shared tx) := by
  refine ⟨?_, fun u => ?_⟩
  · simp [CoinTx.rows, h.2]
  · simp [CoinTx.balance, h.1]

/-- An insert goes in and is answered `applied`, or takes the transaction down. -/
theorem CoinTx.write_answers (tx : CoinTx) (st : CoinStore) (now : Instant) (id : LedgerId)
    (input : CoinMovementInput) (pr : Option Int) (amount : Int) :
    (∃ p, (tx.write st now id input pr amount).answers = tx.answers ++ [.ok p] ∧
      p.applied = true) ∨
    ∃ e, (tx.write st now id input pr amount).answers = tx.answers ++ [.error e] ∧
      (tx.write st now id input pr amount).pending = [] ∧
      ∀ u, (tx.write st now id input pr amount).held u = none := by
  simp only [CoinTx.write]
  split
  · exact .inr ⟨_, rfl, rfl, fun _ => rfl⟩
  · split
    · exact .inl ⟨_, rfl, rfl⟩
    · exact .inr ⟨_, rfl, rfl, fun _ => rfl⟩

/-- A statement of a call commits nothing, and unless it is the insert that
    answers `applied` or fails its transaction, it moves no balance and no row. -/
theorem call_step {l : CoinStep ι} (hl : l.OfCall i) (hstep : w.Step l w') :
    w'.shared = w.shared ∧ (Unmoved i w w' ∨
      (∃ p, Answers i (.ok p) w w' ∧ p.applied = true) ∨
      (∃ e, Answers i (.error e) w w' ∧ RolledBack i w')) := by
  unfold CoinWorld.Step at hstep
  cases l with
  | call j c =>
      obtain rfl : j = i := hl
      simp only [CoinWorld.exec] at hstep
      split at hstep
      · obtain rfl := Option.some.inj hstep
        exact ⟨rfl, .inl (.of_same ((w.locals j).call_same w.shared c))⟩
      · cases hstep
  | lock j =>
      obtain rfl : j = i := hl
      simp only [CoinWorld.exec] at hstep
      split at hstep
      · next input pr _ =>
          split at hstep
          · obtain rfl := Option.some.inj hstep
            refine ⟨rfl, .inl ⟨by simp [CoinTx.rows, CoinTx.lock], fun u => ?_⟩⟩
            by_cases hu : u = input.userId
            · subst hu
              simp [CoinTx.lock, CoinTx.balance]
            · simp [CoinTx.lock, CoinTx.balance, hu]
          · cases hstep
      · cases hstep
  | lookup j =>
      obtain rfl : j = i := hl
      simp only [CoinWorld.exec] at hstep
      split at hstep
      · next input pr _ =>
          obtain rfl := Option.some.inj hstep
          exact ⟨rfl, .inl (.of_same ((w.locals j).lookup_same w.shared input pr))⟩
      · cases hstep
  | write j id now =>
      obtain rfl : j = i := hl
      simp only [CoinWorld.exec] at hstep
      split at hstep
      · next input pr amount _ =>
          split at hstep
          · obtain rfl := Option.some.inj hstep
            refine ⟨rfl, .inr ?_⟩
            rcases (w.locals j).write_answers w.shared now id input pr amount with
              ⟨p, ha, hp⟩ | ⟨e, ha, hpending, hheld⟩
            · exact .inl ⟨p, by simpa [Answers] using ha, hp⟩
            · exact .inr ⟨e, by simpa [Answers] using ha, by simpa using hpending,
                by simpa using hheld⟩
          · cases hstep
      · cases hstep
  | commit j => exact absurd hl id
  | abort j => exact absurd hl id

/-- A call that finds its key recorded answers from the recorded row. -/
theorem replay_step (h : CoinsSound w) {input : CoinMovementInput} {pr : Option Int}
    {r : CoinLedgerRow} (hphase : (w.locals i).phase = .locked input pr)
    (hr : r ∈ (w.locals i).rows w.shared) (hk : r.idempotencyKey = input.idempotencyKey)
    (hstep : w.Step (.lookup i) w') : Unmoved i w w' ∧ Answers i
      (.ok (replayed r pr ((w.locals i).balance w.shared input.userId))) w w' := by
  unfold CoinWorld.Step at hstep
  simp only [CoinWorld.exec, hphase] at hstep
  obtain rfl := Option.some.inj hstep
  refine ⟨.of_same ((w.locals i).lookup_same w.shared input pr), ?_⟩
  have hfind : ((w.locals i).rows w.shared).find?
      (fun q => decide (q.idempotencyKey = input.idempotencyKey)) = some r := by
    cases hf : ((w.locals i).rows w.shared).find?
        (fun q => decide (q.idempotencyKey = input.idempotencyKey)) with
    | none => exact absurd (List.find?_eq_none.1 hf r hr) (by simp [hk])
    | some q =>
        have hq := List.find?_some hf
        have hqk : q.idempotencyKey = input.idempotencyKey := by simpa using hq
        by_contra hne
        have hcompat := (h.own i).distinct.forall (List.mem_of_find?_eq_some hf) hr
          (fun heq => hne (by rw [heq]))
        simp [Row.compatible, Row.collide, hqk, hk] at hcompat
  simp [Answers, CoinTx.lookup, hfind, CoinTx.answer]

/-- In every interleaving the committed ledger adds up; a call moves nothing but
    by the insert of a movement it answers `applied`, a call that fails leaves its
    transaction with what it had or with nothing, and a call that looks up a
    recorded key answers the recorded row and moves nothing. -/
theorem coin_ledger_interleaved (h : Reachable CoinWorld.Init CoinWorld.Step w) :
    LedgerCorrect w.shared ∧
    (∀ i l w', l.OfCall i → w.Step l w' → w'.shared = w.shared ∧ (Unmoved i w w' ∨
      (∃ p, Answers i (.ok p) w w' ∧ p.applied = true) ∨
      (∃ e, Answers i (.error e) w w' ∧ RolledBack i w'))) ∧
    (∀ i w' input pr r, (w.locals i).phase = .locked input pr →
      r ∈ (w.locals i).rows w.shared → r.idempotencyKey = input.idempotencyKey →
      w.Step (.lookup i) w' → Unmoved i w w' ∧ Answers i
        (.ok (replayed r pr ((w.locals i).balance w.shared input.userId))) w w') := by
  have hsound := CoinsSound.of_reachable h
  exact ⟨hsound.shared.correct, fun _ _ _ hl hstep => call_step hl hstep,
    fun _ _ _ _ _ hphase hr hk hstep => replay_step hsound hphase hr hk hstep⟩

end Calls

/-! ## Interleavings, executed -/

/-- Two transactions over empty tables. -/
def coinStart : CoinWorld (Fin 2) where
  shared := ⟨fun _ => none, []⟩
  locals _ := ⟨fun _ => none, [], .idle, []⟩

theorem reachable_of_coinSteps {steps : List (CoinStep (Fin 2))} {w : CoinWorld (Fin 2)}
    (h : runList CoinWorld.exec coinStart steps = some w) :
    Reachable CoinWorld.Init CoinWorld.Step w :=
  reachable_of_runList (fun _ _ _ h => h) (.start ⟨rfl, fun _ => rfl⟩) h

/-- A movement of `amount` under a key of its own. -/
def redeemed (user : UserId) (amount : Int) (key : String) : CoinMovementInput where
  userId := user
  amount := amount
  type := .GIFT_CODE_REDEEM
  reasonCode := "gift_code.redeemed"
  idempotencyKey := .other key
  actorType := .SYSTEM

/-- A credit is redeemed and commits. -/
def redeemSteps : List (CoinStep (Fin 2)) :=
  [.call 0 (.apply (redeemed 1 10 "gift") rfl), .lock 0, .lookup 0, .write 0 1 0, .commit 0]

/-- A penalty takes it all, between two statements of the call that would reverse it. -/
def contestedSteps : List (CoinStep (Fin 2)) :=
  redeemSteps ++ [.call 1 (.penalize (redeemed 1 30 "late") rfl), .lock 1,
    .call 0 (.reverse 1 "gift_code.revoked" .SYSTEM none), .lookup 1, .write 1 2 1, .commit 1,
    .lock 0, .lookup 0]

/-- The ledger after that interleaving adds up. -/
theorem coin_ledger_contested : ∃ w, runList CoinWorld.exec coinStart contestedSteps = some w ∧
    LedgerCorrect w.shared ∧ w.shared.ledger.map (·.amount) = [10, -10] := by
  have hplay : (runList CoinWorld.exec coinStart contestedSteps).any
      (fun w => decide (w.shared.ledger.map (·.amount) = [10, -10])) = true := by decide
  obtain ⟨w, hw, hledger⟩ := (Option.any_eq_true _ _).1 hplay
  exact ⟨w, hw, (coin_ledger_interleaved (reachable_of_coinSteps hw)).1, of_decide_eq_true hledger⟩

/-- The key a call carries. -/
def CoinCall.key : CoinCall → CoinKey
  | .apply input _ => input.idempotencyKey
  | .penalize input _ => input.idempotencyKey
  | .reverse ledgerId _ _ _ => .reversal ledgerId

/-- Two users redeem under one key: both look it up before either has inserted. -/
def racedSteps : List (CoinStep (Fin 2)) :=
  [.call 0 (.apply (redeemed 1 10 "gift") rfl), .call 1 (.apply (redeemed 2 10 "gift") rfl),
   .lock 0, .lock 1, .lookup 0, .lookup 1, .write 0 1 0, .commit 0]

/-- The call is about to write a row of the key. -/
def CallPhase.writes (key : CoinKey) : CallPhase → Bool
  | .writing input _ _ => decide (input.idempotencyKey = key)
  | _ => false

/-- A call under a recorded key need not answer the recorded row: a penalty of zero
    answers no row, and a call that looked the key up before another user's insert
    committed fails at the unique index. -/
theorem recorded_key_not_answered :
    (¬ ∀ w : CoinWorld (Fin 2), Reachable CoinWorld.Init CoinWorld.Step w → ∀ i c w' r a,
      r ∈ w.shared.ledger → r.idempotencyKey = c.key → w.Step (.call i c) w' →
      Answers i a w w' → ∃ p, a = .ok p ∧ p.ledgerId = some r.id) ∧
    (¬ ∀ w : CoinWorld (Fin 2), Reachable CoinWorld.Init CoinWorld.Step w →
      ∀ i input pr amount id now w' r a, (w.locals i).phase = .writing input pr amount →
      r ∈ w.shared.ledger → r.idempotencyKey = input.idempotencyKey →
      w.Step (.write i id now) w' → Answers i a w w' → ∃ p, a = .ok p ∧ p.ledgerId = some r.id) := by
  constructor
  · intro h
    have hplay : (runList CoinWorld.exec coinStart redeemSteps).any (fun w =>
        w.shared.ledger.any (fun r => decide (r.idempotencyKey = .other "gift")) &&
        (w.exec (.call 0 (.penalize (redeemed 1 0 "gift") rfl))).any (fun w' =>
          decide (Answers 0 (.ok ⟨false, none, 0, 0, 10⟩) w w'))) = true := by decide
    obtain ⟨w, hw, hend⟩ := (Option.any_eq_true _ _).1 hplay
    simp only [Bool.and_eq_true, List.any_eq_true, Option.any_eq_true, decide_eq_true_eq] at hend
    obtain ⟨⟨r, hr, hk⟩, w', hstep, hanswer⟩ := hend
    obtain ⟨p, hp, hid⟩ := h w (reachable_of_coinSteps hw) 0
      (.penalize (redeemed 1 0 "gift") rfl) w' r _ hr hk hstep hanswer
    obtain rfl := Except.ok.inj hp
    cases hid
  · intro h
    have hplay : (runList CoinWorld.exec coinStart racedSteps).any (fun w =>
        w.shared.ledger.any (fun r => decide (r.idempotencyKey = .other "gift")) &&
        (w.locals 1).phase.writes (.other "gift") && (w.exec (.write 1 2 0)).any (fun w' =>
          decide (Answers 1 (.error (.db .uniqueViolation)) w w'))) = true := by decide
    obtain ⟨w, hw, hend⟩ := (Option.any_eq_true _ _).1 hplay
    simp only [Bool.and_eq_true, List.any_eq_true, Option.any_eq_true, decide_eq_true_eq] at hend
    obtain ⟨⟨⟨r, hr, hk⟩, hphase⟩, w', hstep, hanswer⟩ := hend
    cases hp : (w.locals 1).phase with
    | writing input pr amount =>
        rw [hp] at hphase
        have hkey : r.idempotencyKey = input.idempotencyKey := by
          rw [hk, of_decide_eq_true hphase]
        obtain ⟨p, hp', -⟩ := h w (reachable_of_coinSteps hw) 1 input pr amount 2 0 w' r _ hp hr
          hkey hstep hanswer
        cases hp'
    | _ => simp [hp, CallPhase.writes] at hphase

/-! ## One transaction by itself -/

/-- The coin tables of a database, as a store. -/
def Db.coinStore (db : Db) : CoinStore where
  accounts u := (db.coinAccounts.find? u).map (·.balance)
  ledger := db.coinLedger.rows

/-- A transaction that has done nothing yet. -/
def CoinTx.fresh : CoinTx := ⟨fun _ => none, [], .idle, []⟩

/-- The statements of `applyWithin`, one after the other. -/
def CoinTx.applyWithin (tx : CoinTx) (st : CoinStore) (now : Instant) (id : LedgerId)
    (input : CoinMovementInput) (pr : Option Int) : CoinTx :=
  let tx := (tx.lock st input pr).lookup st input pr
  match tx.phase with
  | .writing input pr amount => tx.write st now id input pr amount
  | _ => tx

section Alone

variable {env : Env} {input : CoinMovementInput} {pr : Option Int} {s s₁ s' : Db}

/-- The account, created and locked, is what the lock step holds. -/
theorem publish_lock_accounts (pr : Option Int)
    (hens : Runs (ensureCoinAccount input.userId) s () s₁) (u : UserId) :
    (s.coinStore.publish (CoinTx.fresh.lock s.coinStore input pr)).accounts u =
      s₁.coinStore.accounts u := by
  change Option.or _ _ = (s₁.coinAccounts.find? u).map (·.balance)
  rw [ensureCoinAccount_account hens u]
  by_cases hu : input.userId = u
  · subst hu
    simp [CoinTx.lock, CoinTx.balance, CoinTx.fresh, CoinStore.balance, Db.coinStore, Db.balanceOf]
  · simp [CoinTx.lock, CoinTx.fresh, Db.coinStore, hu, Ne.symm hu]

/-- A locked account holds what it held. -/
theorem fresh_lock_balance (st : CoinStore) :
    (CoinTx.fresh.lock st input pr).balance st input.userId = st.balance input.userId := by
  simp [CoinTx.lock, CoinTx.balance, CoinTx.fresh]

theorem coinStore_ext {st : CoinStore} {db : Db}
    (haccounts : ∀ u, st.accounts u = db.coinStore.accounts u)
    (hledger : st.ledger = db.coinLedger.rows) : st = db.coinStore := by
  obtain ⟨accounts, ledger⟩ := st
  obtain rfl : accounts = db.coinStore.accounts := funext haccounts
  exact congrArg _ hledger

/-- The insert and the update, over the account the lock step holds. -/
theorem write_alone {now : Instant} {id : LedgerId} {amount : Int} {tx : CoinTx}
    {t : Table CoinLedgerRow} {a : CoinAccountRow} {t' : Table CoinAccountRow}
    {f : CoinAccountRow → CoinAccountRow} (hens : Runs (ensureCoinAccount input.userId) s () s₁)
    (htx : tx.held = (CoinTx.fresh.lock s.coinStore input pr).held ∧ tx.pending = [] ∧
      tx.answers = [])
    (ht : t.rows = s.coinStore.ledger ++ [tx.row s.coinStore now id input pr amount])
    (ha : s₁.coinAccounts.find? input.userId = some a)
    (hf : (f a).userId = a.userId ∧
      (f a).balance = tx.balance s.coinStore input.userId + amount)
    (ht' : s₁.coinAccounts.Rewrites a f t') :
    (tx.write s.coinStore now id input pr amount).answers =
        [.ok { applied := true, ledgerId := some id, charged := |amount|, requested := pr.getD |amount|,
               balance := tx.balance s.coinStore input.userId + amount }] ∧
      s.coinStore.publish (tx.write s.coinStore now id input pr amount) =
        { s₁ with coinLedger := t, coinAccounts := t' }.coinStore := by
  have hcheck : Row.check (tx.row s.coinStore now id input pr amount) = true :=
    t.valid _ (by simp [ht])
  have hcompat : ∀ q ∈ tx.rows s.coinStore,
      Row.compatible (tx.row s.coinStore now id input pr amount) q := by
    intro q hq
    rw [CoinTx.rows, htx.2.1, List.append_nil] at hq
    exact compatible_comm (Table.compatible_of_insert (t := s.coinLedger) ht hq)
  simp only [CoinTx.write, hcheck, if_pos hcompat]
  refine ⟨congrArg (· ++ _) htx.2.2, coinStore_ext (fun u => ?_) ?_⟩
  · have hkey : a.userId = input.userId := Table.key_of_find? ha
    have hfind := ht'.find? hf.1 u
    change Option.or (Function.update tx.held input.userId (some _) u) (s.coinStore.accounts u) =
      (t'.find? u).map (·.balance)
    rw [hfind]
    by_cases hu : u = input.userId
    · simp [hu, hkey, Row.key, hf.2, CoinTx.row, ledgerRow]
    · have hlock := publish_lock_accounts pr hens u
      rw [CoinStore.publish, ← htx.1] at hlock
      simpa [hu, Row.key, hkey, Ne.symm hu, Db.coinStore] using hlock
  · change s.coinStore.ledger ++ (tx.pending ++ [_]) = t.rows
    rw [htx.2.1, ht]
    rfl

/-- The statements of a call, made with nothing in between, answer what the
    transaction of `Economy.Coins` answers, and commit what it commits. -/
theorem applyWithin_alone {result : CoinPenalty}
    (h : Runs (applyWithin env input pr) s result s') :
    ∃ id, (CoinTx.fresh.applyWithin s.coinStore env.now id input pr).answers = [.ok result] ∧
      s.coinStore.publish (CoinTx.fresh.applyWithin s.coinStore env.now id input pr) =
        s'.coinStore := by
  simp only [applyWithin, runs_guardTx_bind] at h
  obtain ⟨-, h⟩ := h
  rw [runs_bind] at h
  obtain ⟨_, s₁, hens, h⟩ := h
  simp only [runs_get_bind] at h
  have hs₁ := ensureCoinAccount_coinsOnly hens
  have hledger : s₁.coinLedger = s.coinLedger := by rw [hs₁]
  have hbalance : s₁.balanceOf input.userId =
      (CoinTx.fresh.lock s.coinStore input pr).balance s.coinStore input.userId := by
    rw [ensureCoinAccount_balanceOf hens, fresh_lock_balance]
    rfl
  have hfind : ((CoinTx.fresh.lock s.coinStore input pr).rows s.coinStore).find?
      (fun r => decide (r.idempotencyKey = input.idempotencyKey)) =
        s₁.ledgerByKey input.idempotencyKey := by
    rw [Db.ledgerByKey, hledger, CoinTx.rows]
    exact congrArg _ (List.append_nil _)
  simp only [CoinTx.applyWithin, CoinTx.lookup, hfind]
  rw [hbalance] at h
  cases hk : s₁.ledgerByKey input.idempotencyKey with
  | some existing =>
      simp only [hk, runs_pure] at h
      obtain ⟨rfl, rfl⟩ := h
      refine ⟨0, rfl, coinStore_ext (publish_lock_accounts pr hens) ?_⟩
      rw [hledger]
      exact List.append_nil _
  | none =>
      simp only [hk, runs_guardTx_bind, runs_ite] at h
      obtain ⟨hfunds, h⟩ := h
      simp only [not_lt.2 hfunds, if_false]
      rcases h with ⟨hzero, h⟩ | ⟨hne, h⟩
      · rw [runs_pure] at h
        obtain ⟨rfl, rfl⟩ := h
        simp only [hzero, if_true]
        refine ⟨0, rfl, coinStore_ext (publish_lock_accounts pr hens) ?_⟩
        rw [hledger]
        exact List.append_nil _
      · simp only [hne, if_false]
        simp only [runs_insertRow_bind, runs_updateRow_bind, runs_pure] at h
        obtain ⟨t, ht, a, ha, t', ht', rfl, rfl⟩ := h
        rw [table_coinLedger, hledger] at ht
        rw [hledger]
        have hdone := write_alone (a := a) hens ⟨rfl, rfl, rfl⟩ ht ha ⟨rfl, rfl⟩ ht'
        exact ⟨_, hdone⟩

end Alone

end Paayatam
