/-
  Paayatam.Economy.Funds

  When a movement does not fail, and what it leaves in the accounts.

  A penalty is capped at the balance and a trust movement at its range, so
  neither fails.  A reversal fails in one case only: the row it reverses was a
  credit, and the account no longer holds that much.
-/

import Paayatam.Economy.Postings

namespace Paayatam

open Lib

/-! ## Coins -/

section Coins

variable {env : Env} {input : CoinMovementInput} {pr : Option Int} {s s' : Db}

theorem ensureCoinAccount_succeeds (u : UserId) (s : Db) : Succeeds (ensureCoinAccount u) s := by
  rw [ensureCoinAccount]
  exact (succeeds_insertRowOrIgnore rfl).bind fun _ _ _ => succeeds_pure

theorem lockAccounts_succeeds (us : List UserId) (s : Db) : Succeeds (lockAccounts us) s :=
  Succeeds.forM (I := fun _ _ => True) (fun u _ s _ => ensureCoinAccount_succeeds u s)
    (fun _ _ _ _ _ _ => trivial) trivial

/-- A reversal, and nothing else, names the row it reverses. -/
def CoinMovementInput.Typed (input : CoinMovementInput) : Prop :=
  (decide (input.type = .REVERSAL) == input.reversesLedgerId.isSome) = true

/-- The row of a movement that the account can bear passes the checks of its table. -/
theorem ledgerRow_check {now : Instant} {id : LedgerId} {b amount : Int} (htyped : input.Typed)
    (hamount : amount ≠ 0) (hfunds : 0 ≤ b + amount) :
    Row.check (ledgerRow now id input pr b amount) = true := by
  have htype : (decide (input.type = .REVERSAL) == input.reversesLedgerId.isSome) = true := htyped
  show (decide (amount ≠ 0) && decide (b + amount = b + amount) && decide (0 ≤ b + amount) &&
    (decide (input.type = .REVERSAL) == input.reversesLedgerId.isSome)) = true
  rw [htype]
  simp [hamount, hfunds]

/-- A row with a new id and an unused key, and the only one to reverse what it
    reverses, clashes with none. -/
theorem ledgerRow_compatible {now : Instant} {b amount : Int}
    (hkey : s.ledgerByKey input.idempotencyKey = none)
    (hrev : ∀ l, input.reversesLedgerId = some l → s.isReversed l = false) :
    ∀ x ∈ s.coinLedger.rows, Row.compatible x
      (ledgerRow now (freshId (s.coinLedger.rows.map (·.id))) input pr b amount) := by
  intro x hx
  have hid : x.id < freshId (s.coinLedger.rows.map (·.id)) :=
    lt_freshId (List.mem_map.2 ⟨x, hx, rfl⟩)
  refine ⟨fun he => ?_, ?_⟩
  · have hsame : x.id = freshId (s.coinLedger.rows.map (·.id)) := he
    exact absurd hsame (Nat.ne_of_lt hid)
  · have hfresh := Db.not_mem_of_ledgerByKey hkey x hx
    simp only [Row.collide, ledgerRow, Bool.or_eq_false_iff, decide_eq_false_iff_not, hfresh,
      not_false_eq_true, true_and, Bool.and_eq_false_iff]
    cases hxl : x.reversesLedgerId with
    | none => exact .inl rfl
    | some l =>
        refine .inr (decide_eq_false fun hl => ?_)
        have hnone := hrev l hl.symm
        simp only [Db.isReversed, List.any_eq_false, decide_eq_true_eq] at hnone
        exact hnone x hx hxl

/-- A movement fails only for want of coins. -/
theorem applyWithin_succeeds (hamount : input.amount ≠ 0) (htyped : input.Typed)
    (hrev : ∀ l, input.reversesLedgerId = some l → s.ledgerByKey input.idempotencyKey = none →
      s.isReversed l = false)
    (hfunds : s.ledgerByKey input.idempotencyKey = none →
      0 ≤ s.balanceOf input.userId +
        cappedAmount input.amount pr (s.balanceOf input.userId)) :
    Succeeds (applyWithin env input pr) s := by
  simp only [applyWithin, succeeds_guardTx_bind]
  refine ⟨hamount, ?_⟩
  refine (ensureCoinAccount_succeeds _ _).bind fun _ s₁ hens => ?_
  have hs₁ := ensureCoinAccount_coinsOnly hens
  have hledger : s₁.coinLedger = s.coinLedger := by rw [hs₁]
  have hkey := Db.ledgerByKey_congr hledger input.idempotencyKey
  have hbalance := ensureCoinAccount_balanceOf hens (v := input.userId)
  rw [succeeds_get_bind]
  cases hk : s₁.ledgerByKey input.idempotencyKey with
  | some existing => simp
  | none =>
      have hnone : s.ledgerByKey input.idempotencyKey = none := hkey ▸ hk
      have hfunds₁ := hfunds hnone
      rw [← hbalance] at hfunds₁
      simp only [succeeds_guardTx_bind]
      refine ⟨hfunds₁, succeeds_ite (fun _ => succeeds_pure) fun hne => ?_⟩
      have hfree : ∀ l, input.reversesLedgerId = some l → s₁.isReversed l = false := by
        intro l hl
        have hold := hrev l hl hnone
        unfold Db.isReversed at hold ⊢
        rw [hledger]
        exact hold
      refine (succeeds_insertRow (ledgerRow_check htyped hne hfunds₁)
        (ledgerRow_compatible hk hfree)).bind fun _ s₂ hins => ?_
      obtain ⟨t, -, rfl⟩ := runs_insertRow.1 hins
      -- the account is there: it was opened first
      have haccount := ensureCoinAccount_account hens input.userId
      rw [if_pos rfl] at haccount
      obtain ⟨a, ha, -⟩ := Option.map_eq_some_iff.1 haccount
      refine (succeeds_updateRow (r := a) ha rfl ?_ fun _ => rfl).bind fun _ _ _ => succeeds_pure
      exact decide_eq_true hfunds₁

/-- What a movement leaves in each account. -/
theorem applyWithin_balanceOf {r : CoinPenalty} (h : Runs (applyWithin env input pr) s r s')
    (v : UserId) : s'.balanceOf v =
      if input.userId = v ∧ s.ledgerByKey input.idempotencyKey = none then
        s.balanceOf v + cappedAmount input.amount pr (s.balanceOf v)
      else s.balanceOf v := by
  simp only [applyWithin, runs_guardTx_bind] at h
  obtain ⟨-, h⟩ := h
  rw [runs_bind] at h
  obtain ⟨_, s₁, hens, h⟩ := h
  simp only [runs_get_bind] at h
  have hs₁ := ensureCoinAccount_coinsOnly hens
  have hledger : s₁.coinLedger = s.coinLedger := by rw [hs₁]
  have hkey := Db.ledgerByKey_congr hledger input.idempotencyKey
  have hbalance : ∀ u, s₁.balanceOf u = s.balanceOf u := fun u => ensureCoinAccount_balanceOf hens
  cases hk : s₁.ledgerByKey input.idempotencyKey with
  | some existing =>
      have hfound : s.ledgerByKey input.idempotencyKey = some existing := hkey ▸ hk
      simp only [hk, runs_pure] at h
      rw [h.2, hfound, hbalance]
      simp
  | none =>
      have hnone : s.ledgerByKey input.idempotencyKey = none := hkey ▸ hk
      simp only [hk, runs_guardTx_bind, runs_ite] at h
      obtain ⟨-, ⟨hzero, h⟩ | ⟨-, h⟩⟩ := h
      · rw [runs_pure] at h
        rw [hbalance] at hzero
        rw [h.2, hbalance]
        split
        · next hv =>
            rw [← hv.1, hzero]
            omega
        · rfl
      · simp only [runs_insertRow_bind, runs_updateRow_bind, runs_pure] at h
        obtain ⟨t, -, a, ha, t', ht', -, rfl⟩ := h
        have hfind : t'.find? v = if a.userId = v then _ else s₁.coinAccounts.find? v :=
          ht'.find? rfl v
        have hau : a.userId = input.userId := Table.key_of_find? ha
        show ((t'.find? v).map (·.balance)).getD 0 = _
        rw [hfind, hau]
        by_cases hv : input.userId = v
        · rw [if_pos hv, if_pos ⟨hv, hnone⟩, ← hv, hbalance]
          rfl
        · rw [if_neg hv, if_neg fun hboth => hv hboth.1, ← hbalance v]
          rfl

theorem cappedAmount_funds {amount q b : Int} : 0 ≤ b + cappedAmount amount (some q) b := by
  simp only [cappedAmount, Option.isSome_some, if_true]
  omega

/-- A penalty does not fail. -/
theorem penalize_succeeds (htype : input.type ≠ .REVERSAL) (hnone : input.reversesLedgerId = none) :
    Succeeds (penalize env input) s := by
  simp only [penalize]
  refine succeeds_ite (fun _ => ?_) fun hne => ?_
  · rw [succeeds_get_bind]
    exact succeeds_pure
  · refine applyWithin_succeeds ?_ ?_ (fun l hl => ?_) fun _ => ?_
    · show -|input.amount| ≠ 0
      omega
    · simp [CoinMovementInput.Typed, htype, hnone]
    · rw [hnone] at hl
      cases hl
    · exact cappedAmount_funds

/-- A penalty under an unused key takes its price, or what there is. -/
theorem penalize_balanceOf {r : CoinPenalty} (h : Runs (penalize env input) s r s')
    (hfresh : s.ledgerByKey input.idempotencyKey = none) (v : UserId) :
    s'.balanceOf v =
      if input.userId = v then s.balanceOf v - min (s.balanceOf v) |input.amount|
      else s.balanceOf v := by
  have hb := s.balanceOf_nonneg v
  simp only [penalize, runs_ite] at h
  rcases h with ⟨hzero, h⟩ | ⟨-, h⟩
  · simp only [runs_get_bind, runs_pure] at h
    rw [h.2, hzero]
    split
    · omega
    · rfl
  · have hbalance := applyWithin_balanceOf h v
    simp only [hfresh, and_true, cappedAmount, Option.isSome_some, if_true] at hbalance
    rw [hbalance]
    split
    · omega
    · rfl

/-- A linked ledger in which the reversal key is free has not reversed the row. -/
theorem Db.Linked.not_reversed (h : s.Linked) {l : LedgerId}
    (hkey : s.ledgerByKey (.reversal l) = none) : s.isReversed l = false := by
  rw [Bool.eq_false_iff]
  intro hrev
  simp only [Db.isReversed, List.any_eq_true, decide_eq_true_eq] at hrev
  obtain ⟨r, hr, hl⟩ := hrev
  exact Db.not_mem_of_ledgerByKey hkey r hr (((h r hr).key_iff l).2 hl)

theorem Db.Linked.reversal_free (h : s.Linked) {l : LedgerId} (hrev : s.isReversed l = false) :
    s.ledgerByKey (.reversal l) = none := by
  cases hk : s.ledgerByKey (.reversal l) with
  | none => rfl
  | some r =>
      obtain ⟨hr, hrk⟩ := Db.mem_of_ledgerByKey hk
      have htaken := h.isReversed_of_taken ⟨r, hr, hrk⟩
      rw [hrev] at htaken
      cases htaken

/-- A row moves coins, and reverses another exactly when it is a reversal. -/
theorem CoinLedgerRow.moves_of_check {r : CoinLedgerRow} (h : Row.check r = true) :
    r.amount ≠ 0 ∧ (r.type = .REVERSAL ↔ r.reversesLedgerId.isSome = true) := by
  simp only [Row.check, CoinLedgerRow.constraints, Bool.and_eq_true, decide_eq_true_eq,
    beq_iff_eq] at h
  obtain ⟨⟨⟨hamount, -⟩, -⟩, htype⟩ := h
  refine ⟨hamount, ?_⟩
  rw [← htype, decide_eq_true_eq]

/-- A reversal fails only when it takes more than the account holds. -/
theorem reverse_succeeds {o : CoinLedgerRow} {reason : String} {at' : ActorType}
    {ai : Option UserId} (hs : s.Linked) (ho : o ∈ s.coinLedger.rows) (htype : o.type ≠ .REVERSAL)
    (hfunds : s.isReversed o.id = false → o.amount ≤ s.balanceOf o.userId) :
    Succeeds (reverse env o.id reason at' ai) s := by
  simp only [reverse, succeeds_findRow_bind, table_coinLedger, succeeds_orThrow_bind,
    succeeds_guardTx_bind]
  refine ⟨o, Table.find?_of_mem ho, htype, ?_⟩
  have hmoves := (CoinLedgerRow.moves_of_check (s.coinLedger.valid o ho)).1
  have happly : Succeeds (applyWithin env (reversalOf o reason at' ai) none) s := by
    refine applyWithin_succeeds ?_ (by simp [CoinMovementInput.Typed, reversalOf]) ?_ ?_
    · show -o.amount ≠ 0
      omega
    · intro l hl hkey
      obtain rfl : o.id = l := Option.some.inj hl
      exact hs.not_reversed hkey
    · intro hkey
      have hbound := hfunds (hs.not_reversed hkey)
      show 0 ≤ s.balanceOf o.userId + -o.amount
      omega
  rw [applyCoins]
  refine happly.bind fun r s₁ hrun => ?_
  rw [succeeds_guardTx_bind]
  refine ⟨?_, succeeds_pure⟩
  rcases (applyWithin_spec hrun).2.outcome with ⟨-, -, ⟨x, -, hid⟩ | ⟨-, -, hnone⟩⟩ |
    ⟨-, -, id, hid, -⟩
  · rw [hid]
    rfl
  · cases hnone
  · rw [hid]
    rfl

/-- The reversal of a row that stands moves its amount back. -/
theorem reverse_balanceOf {o : CoinLedgerRow} {reason : String} {at' : ActorType}
    {ai : Option UserId} {r : CoinPenalty} (hs : s.Linked) (ho : o ∈ s.coinLedger.rows)
    (hstands : s.isReversed o.id = false) (h : Runs (reverse env o.id reason at' ai) s r s')
    (v : UserId) :
    s'.balanceOf v = if o.userId = v then s.balanceOf v - o.amount else s.balanceOf v := by
  simp only [reverse, runs_findRow_bind, runs_orThrow_bind, runs_guardTx_bind,
    table_coinLedger] at h
  obtain ⟨x, hx, -, h⟩ := h
  obtain rfl : o = x := Table.eq_of_key ho (Table.mem_of_find? hx) (Table.key_of_find? hx).symm
  simp only [applyCoins, runs_bind, runs_guardTx, runs_pure] at h
  obtain ⟨_, _, happly, _, _, ⟨-, rfl⟩, -, rfl⟩ := h
  have hbalance := applyWithin_balanceOf happly v
  have hkey : s.ledgerByKey (reversalOf o reason at' ai).idempotencyKey = none :=
    hs.reversal_free hstands
  rw [hkey] at hbalance
  simpa [reversalOf, cappedAmount, sub_eq_add_neg] using hbalance

/-- Credits do not fail: the rows given back are debits. -/
theorem reverseCharges_succeeds {charges : List CoinLedgerRow} {reason : String} {at' : ActorType}
    {ai : Option UserId} (hs : s.Linked)
    (hc : ∀ c ∈ charges, c ∈ s.coinLedger.rows ∧ c.type ≠ .REVERSAL ∧ c.amount ≤ 0) :
    Succeeds (reverseCharges env charges reason at' ai) s := by
  refine Succeeds.foldlM (I := fun todo s : _ => s.Linked ∧
    ∀ c ∈ todo, c ∈ s.coinLedger.rows ∧ c.type ≠ .REVERSAL ∧ c.amount ≤ 0) ?_ ?_ ⟨hs, hc⟩
  · intro n c rest s₁ hI
    obtain ⟨hmem, htype, hdebit⟩ := hI.2 c (by simp)
    refine (reverse_succeeds hI.1 hmem htype fun _ => ?_).bind fun _ _ _ => succeeds_pure
    have hb := s₁.balanceOf_nonneg c.userId
    omega
  · intro n m c rest s₁ s₂ hI hrun
    simp only [runs_bind, runs_pure] at hrun
    obtain ⟨_, _, hrev, -, rfl⟩ := hrun
    have hgrows := (reverse_books hrev).1.ledger
    refine ⟨hgrows.linked hI.1, fun x hx => ?_⟩
    obtain ⟨hmem, hrest⟩ := hI.2 x (by simp [hx])
    exact ⟨hgrows.mem hmem, hrest⟩

/-- Payments to `u` that stand. -/
structure Standing (u : UserId) (payments : List CoinLedgerRow) (s : Db) : Prop where
  linked : s.Linked
  distinct : payments.Nodup
  stands : ∀ c ∈ payments, c ∈ s.coinLedger.rows ∧ c.type ≠ .REVERSAL ∧ c.userId = u ∧
    0 < c.amount ∧ s.isReversed c.id = false

/-- Taking one payment back leaves the others standing. -/
theorem Standing.tail {u : UserId} {c : CoinLedgerRow} {payments : List CoinLedgerRow}
    {reason : String} {at' : ActorType} {ai : Option UserId} {r : CoinPenalty}
    (h : Standing u (c :: payments) s) (hrev : Runs (reverse env c.id reason at' ai) s r s') :
    Standing u payments s' := by
  have hgrows := (reverse_books hrev).1.ledger
  obtain ⟨hnot, hnodup⟩ := List.nodup_cons.1 h.distinct
  refine ⟨hgrows.linked h.linked, hnodup, fun x hx => ?_⟩
  obtain ⟨hmem, htype, huser, hpos, hstands⟩ := h.stands x (by simp [hx])
  refine ⟨hgrows.mem hmem, htype, huser, hpos, ?_⟩
  have hposts : Posts (fun _ => False) (fun o => o.id = c.id) (fun _ => False) s s' :=
    reverse_posts hrev fun o _ hid => hid
  rw [Bool.eq_false_iff]
  intro hnow
  rcases hposts.reversed_or_new (hgrows.mem hmem) hnow with hbefore | hid
  · rw [hstands] at hbefore
    cases hbefore
  · have hc := (h.stands c (by simp)).1
    have hsame : x = c := Table.eq_of_key hmem hc hid
    rw [hsame] at hx
    exact hnot hx

/-- What standing payments come to. -/
def totalOf (payments : List CoinLedgerRow) : Int := (payments.map (·.amount)).sum

theorem totalOf_nonneg {payments : List CoinLedgerRow} (h : ∀ c ∈ payments, 0 < c.amount) :
    0 ≤ totalOf payments := by
  induction payments with
  | nil => exact le_refl 0
  | cons c payments ih =>
      have hc := h c (by simp)
      have hrest := ih fun x hx => h x (by simp [hx])
      unfold totalOf at hrest ⊢
      rw [List.map_cons, List.sum_cons]
      omega

/-- Standing payments can be taken back exactly when the account holds them together. -/
theorem reverseCharges_payments {u : UserId} {reason : String} {at' : ActorType}
    {ai : Option UserId} : ∀ {payments : List CoinLedgerRow} {n : Int} {s : Db},
    Standing u payments s →
      (Succeeds (payments.foldlM (fun refunded charge => do
        let _ ← reverse env charge.id reason at' ai
        return refunded + |charge.amount|) n) s ↔ totalOf payments ≤ s.balanceOf u) := by
  intro payments
  induction payments with
  | nil =>
      intro n s _
      refine ⟨fun _ => s.balanceOf_nonneg u, fun _ => ⟨n, s, runs_foldlM_nil.2 ⟨rfl, rfl⟩⟩⟩
  | cons c payments ih =>
      intro n s h
      obtain ⟨hmem, htype, huser, hpos, hstands⟩ := h.stands c (by simp)
      have hrest : 0 ≤ totalOf payments :=
        totalOf_nonneg fun x hx => (h.stands x (by simp [hx])).2.2.2.1
      have htotal : totalOf (c :: payments) = c.amount + totalOf payments := by
        simp [totalOf]
      have hleft : ∀ {r : CoinPenalty} {s₁ : Db}, Runs (reverse env c.id reason at' ai) s r s₁ →
          s₁.balanceOf u = s.balanceOf u - c.amount := by
        intro r s₁ hrev
        rw [reverse_balanceOf h.linked hmem hstands hrev u, if_pos huser]
      rw [htotal]
      constructor
      · rintro ⟨m, s', hrun⟩
        simp only [runs_foldlM_cons, runs_bind, runs_pure] at hrun
        obtain ⟨_, s₁, ⟨_, _, hrev, -, rfl⟩, hloop⟩ := hrun
        have hbound := (ih (h.tail hrev)).1 hloop.succeeds
        rw [hleft hrev] at hbound
        omega
      · intro hfunds
        have hreverse : Succeeds (reverse env c.id reason at' ai) s :=
          reverse_succeeds h.linked hmem htype fun _ => by rw [huser]; omega
        obtain ⟨r, s₁, hrev⟩ := hreverse
        have hbound : totalOf payments ≤ s₁.balanceOf u := by
          rw [hleft hrev]
          omega
        obtain ⟨m, s', hloop⟩ := (ih (n := n + |c.amount|) (h.tail hrev)).2 hbound
        refine ⟨m, s', runs_foldlM_cons.2 ⟨_, s₁, ?_, hloop⟩⟩
        exact runs_bind.2 ⟨r, s₁, hrev, runs_pure.2 ⟨rfl, rfl⟩⟩

end Coins

/-! ## Trust -/

section Trust

variable {env : Env} {input : TrustMovementInput} {s s' : Db}

theorem clampScore_range (score : Int) : 0 ≤ clampScore score ∧ clampScore score ≤ 100 := by
  simp only [clampScore, TRUST_MIN_SCORE, TRUST_MAX_SCORE]
  omega

/-- A score that was opened. -/
def Db.Scored (db : Db) (u : UserId) : Prop := ∃ a, db.trustScores.find? u = some a

theorem Db.scoreOf_range (db : Db) (u : UserId) : 0 ≤ db.scoreOf u ∧ db.scoreOf u ≤ 100 := by
  unfold Db.scoreOf
  cases hu : db.trustScores.find? u with
  | none => simp
  | some a =>
      have hvalid := db.trustScores.valid a (Table.mem_of_find? hu)
      simpa [Row.check] using hvalid

/-- A trust row of an unused key, for a score that was opened, is not refused. -/
theorem writeTrustRow_succeeds {b : Int} (htype : input.type ≠ .REVERSAL)
    (hkey : s.trustByKey input.idempotencyKey = none) (hscored : s.Scored input.userId)
    (hb : 0 ≤ b ∧ b ≤ 100) : Succeeds (writeTrustRow env input b) s := by
  have hafter := clampScore_range (b + input.delta)
  simp only [writeTrustRow, succeeds_get_bind]
  refine (succeeds_insertRow ?_ fun x hx => ⟨fun he => ?_, ?_⟩).bind fun _ s₁ hins => ?_
  · have hdelta : b + (clampScore (b + input.delta) - b) = clampScore (b + input.delta) := by omega
    show (decide (clampScore (b + input.delta) = b + (clampScore (b + input.delta) - b)) &&
      decide (0 ≤ b) && decide (b ≤ 100) && decide (0 ≤ clampScore (b + input.delta)) &&
      decide (clampScore (b + input.delta) ≤ 100) &&
      (decide (input.type = .REVERSAL) == false)) = true
    rw [hdelta]
    simp [hb, hafter, htype]
  · have hid : x.id < freshId (s.trustLedger.rows.map (·.id)) :=
      lt_freshId (List.mem_map.2 ⟨x, hx, rfl⟩)
    have hsame : x.id = freshId (s.trustLedger.rows.map (·.id)) := he
    exact absurd hsame (Nat.ne_of_lt hid)
  · have hfresh : x.idempotencyKey ≠ input.idempotencyKey := by
      have hnone := hkey
      simp only [Db.trustByKey, List.find?_eq_none, decide_eq_true_eq] at hnone
      exact hnone x hx
    show (decide (x.idempotencyKey = input.idempotencyKey) ||
      (x.reversesLedgerId.isSome && decide (x.reversesLedgerId = none))) = false
    cases hx : x.reversesLedgerId <;> simp [hfresh]
  · obtain ⟨t, -, rfl⟩ := runs_insertRow.1 hins
    obtain ⟨a, ha⟩ := hscored
    refine (succeeds_updateRow (r := a) ha rfl ?_ fun _ => rfl).bind fun _ _ _ => succeeds_pure
    show (decide (0 ≤ clampScore (b + input.delta)) &&
      decide (clampScore (b + input.delta) ≤ 100)) = true
    simp [hafter]

/-- After a row is written its score is still open, and the answer is in range. -/
theorem writeTrustRow_scored {b : Int} {r : TrustLedgerRow} {u : UserId}
    (h : Runs (writeTrustRow env input b) s r s') (hu : s.Scored u) :
    s'.Scored u ∧ 0 ≤ r.scoreAfter ∧ r.scoreAfter ≤ 100 := by
  have hafter := clampScore_range (b + input.delta)
  simp only [writeTrustRow, runs_get_bind, runs_insertRow_bind, runs_updateRow_bind,
    runs_pure] at h
  obtain ⟨t, -, a, -, t', ht', rfl, rfl⟩ := h
  refine ⟨?_, hafter⟩
  obtain ⟨x, hx⟩ := hu
  show ∃ y, t'.find? u = some y
  rw [ht'.find? rfl u]
  split
  · exact ⟨_, rfl⟩
  · exact ⟨x, hx⟩

theorem seedIfNeeded_succeeds {u : UserId} {b : Int} (hscored : s.Scored u) (hb : 0 ≤ b ∧ b ≤ 100) :
    Succeeds (seedIfNeeded env u b) s := by
  rw [seedIfNeeded]
  refine succeeds_ite (fun _ => succeeds_pure) fun _ => ?_
  rw [succeeds_get_bind]
  cases hk : s.trustByKey (.initial u) with
  | some _ => exact succeeds_pure
  | none =>
      exact (writeTrustRow_succeeds (by simp) hk hscored hb).bind fun _ _ _ => succeeds_pure

theorem seedIfNeeded_scored {u : UserId} {b score : Int} (h : Runs (seedIfNeeded env u b) s score s')
    (hu : s.Scored u) (hb : 0 ≤ b ∧ b ≤ 100) : s'.Scored u ∧ 0 ≤ score ∧ score ≤ 100 := by
  simp only [seedIfNeeded, runs_ite] at h
  rcases h with ⟨-, h⟩ | ⟨-, h⟩
  · rw [runs_pure] at h
    rw [h.1, h.2]
    exact ⟨hu, hb⟩
  · rw [runs_get_bind] at h
    cases hk : s.trustByKey (.initial u) with
    | some _ =>
        simp only [hk, runs_pure] at h
        rw [h.1, h.2]
        exact ⟨hu, hb⟩
    | none =>
        simp only [hk, runs_bind, runs_pure] at h
        obtain ⟨r, _, hw, rfl, rfl⟩ := h
        exact writeTrustRow_scored hw hu

/-- A trust movement does not fail. -/
theorem applyTrust_succeeds (hdelta : input.delta ≠ 0) (htype : input.type ≠ .REVERSAL) :
    Succeeds (applyTrust env input) s := by
  simp only [applyTrust, succeeds_guardTx_bind]
  refine ⟨hdelta, (succeeds_insertRowOrIgnore rfl).bind fun _ s₁ hins => ?_⟩
  have hscored : s₁.Scored input.userId := by
    obtain ⟨t, rfl, ⟨-, ht⟩ | ⟨-, rfl, x, hx, hclash⟩⟩ := runs_insertRowOrIgnore hins
    · exact ⟨_, (Table.find?_of_insert ht input.userId).trans (if_pos rfl)⟩
    · have hk : x.userId = input.userId := by
        simpa [Row.compatible, Row.key, Row.collide] using hclash
      exact ⟨x, Table.find?_eq_some.2 ⟨hx, hk⟩⟩
  rw [succeeds_get_bind]
  have hrange := s₁.scoreOf_range input.userId
  refine (seedIfNeeded_succeeds hscored hrange).bind fun score s₂ hseed => ?_
  obtain ⟨hscored₂, hscore⟩ := seedIfNeeded_scored hseed hscored hrange
  rw [succeeds_get_bind]
  cases hk : s₂.trustByKey input.idempotencyKey with
  | some _ => exact succeeds_pure
  | none =>
      exact (writeTrustRow_succeeds htype hk hscored₂ hscore).bind fun _ _ _ => succeeds_pure

end Trust

/-! ## Charges -/

section Charges

variable {env : Env} {s s' : Db}

/-- A charge does not fail. -/
theorem charge_succeeds {b : CancellationBucket} {price : PenaltyPrice} {coins : CoinMovementInput}
    {trust : TrustMovementInput} (hcoins : coins.type ≠ .REVERSAL)
    (hnone : coins.reversesLedgerId = none) (htrust : trust.type ≠ .REVERSAL) :
    Succeeds (charge env b price coins trust) s := by
  rw [charge]
  have hpen : Succeeds (penalize env { coins with amount := price.coins }) s :=
    penalize_succeeds hcoins hnone
  refine hpen.bind fun _ s₁ _ => Succeeds.bind ?_ fun _ _ _ => succeeds_pure
  rw [chargeTrust]
  refine succeeds_ite (fun hprice => ?_) fun _ => succeeds_pure
  have htaken : Succeeds (applyTrust env { trust with delta := -price.trust }) s₁ := by
    refine applyTrust_succeeds ?_ htrust
    show -price.trust ≠ 0
    omega
  exact htaken.bind fun _ _ _ => succeeds_pure

theorem TrustOnly.balanceOf (h : TrustOnly s s') (u : UserId) : s'.balanceOf u = s.balanceOf u := by
  rw [h]
  rfl

/-- A charge under an unused key takes its price in coins, or what there is. -/
theorem charge_balanceOf {b : CancellationBucket} {price : PenaltyPrice} {coins : CoinMovementInput}
    {trust : TrustMovementInput} {r : ChargedPenalty}
    (h : Runs (charge env b price coins trust) s r s')
    (hfresh : s.ledgerByKey coins.idempotencyKey = none) (v : UserId) :
    s'.balanceOf v =
      if coins.userId = v then s.balanceOf v - min (s.balanceOf v) |price.coins|
      else s.balanceOf v := by
  simp only [charge, runs_bind, runs_pure] at h
  obtain ⟨_, s₁, hpen, _, s₂, htrust, -, rfl⟩ := h
  rw [(chargeTrust_trustOnly htrust).balanceOf v]
  exact penalize_balanceOf hpen hfresh v

theorem lockAccounts_balanceOf {us : List UserId} (h : Runs (lockAccounts us) s () s')
    (v : UserId) : s'.balanceOf v = s.balanceOf v := by
  refine Runs.forM_rel (R := fun a b : Db => b.balanceOf v = a.balanceOf v) (fun _ => rfl)
    (fun h₁ h₂ => h₂.trans h₁) (fun u _ a b hrun => ?_) h
  exact ensureCoinAccount_balanceOf hrun

theorem lockAccounts_coinLedger {us : List UserId} (h : Runs (lockAccounts us) s () s') :
    s'.coinLedger = s.coinLedger := by
  refine Runs.forM_rel (R := fun a b : Db => b.coinLedger = a.coinLedger) (fun _ => rfl)
    (fun h₁ h₂ => h₂.trans h₁) (fun u _ a b hrun => ?_) h
  rw [ensureCoinAccount_coinsOnly hrun]

/-- What taking part cost is given back without fail. -/
theorem refundParticipant_succeeds {p : ParticipantId} {a : UserId} {t : ActorType}
    {reason : String} (hs : s.Linked) : Succeeds (refundParticipant env p a t reason) s := by
  rw [refundParticipant, succeeds_get_bind]
  refine reverseCharges_succeeds hs fun c hc => ?_
  simp only [Db.refundableCharges, List.mem_filter, Bool.and_eq_true, decide_eq_true_eq,
    Bool.not_eq_true'] at hc
  obtain ⟨hmem, ⟨⟨-, hneg⟩, htype⟩, -⟩ := hc
  refine ⟨hmem, fun ht => ?_, by omega⟩
  simp [ht] at htype

end Charges

end Paayatam
