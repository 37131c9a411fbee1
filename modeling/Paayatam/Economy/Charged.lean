/-
  Paayatam.Economy.Charged

  What a charge takes.

  A penalty under a key that was not used yet takes its price in coins, or what
  the account holds; a trust movement takes its price in points, or what there
  is of the score.  The score it starts from is the one on record, with the
  starting score written first when no movement has done so.  `charge_takes`
  says both of `charge`, in the figures it answers with and in the rows it
  leaves.
-/

import Paayatam.Economy.Funds

namespace Paayatam

open Lib

/-! ## Coins -/

section Coins

variable {env : Env} {input : CoinMovementInput} {pr : Option Int} {s s' : Db} {r : CoinPenalty}

/-- A movement under an unused key answers with the amount it moved. -/
theorem applyWithin_charged (h : Runs (applyWithin env input pr) s r s')
    (hfresh : s.ledgerByKey input.idempotencyKey = none) :
    r.charged = |cappedAmount input.amount pr (s.balanceOf input.userId)| := by
  simp only [applyWithin, runs_guardTx_bind] at h
  obtain ⟨-, h⟩ := h
  rw [runs_bind] at h
  obtain ⟨_, s₁, hens, h⟩ := h
  have hs₁ := ensureCoinAccount_coinsOnly hens
  have hledger : s₁.coinLedger = s.coinLedger := by rw [hs₁]
  have hkey : s₁.ledgerByKey input.idempotencyKey = none := by
    rw [Db.ledgerByKey_congr hledger]
    exact hfresh
  have hbalance := ensureCoinAccount_balanceOf hens (v := input.userId)
  simp only [runs_get_bind, hkey, runs_guardTx_bind, runs_ite] at h
  rw [hbalance] at h
  obtain ⟨-, ⟨hzero, h⟩ | ⟨-, h⟩⟩ := h
  · rw [runs_pure] at h
    rw [h.1, hzero, abs_zero]
  · simp only [runs_insertRow_bind, runs_updateRow_bind, runs_pure] at h
    obtain ⟨-, -, -, -, -, -, hr, -⟩ := h
    rw [hr]

/-- A penalty under an unused key answers with its price, or with what there was. -/
theorem penalize_charged (h : Runs (penalize env input) s r s')
    (hfresh : s.ledgerByKey input.idempotencyKey = none) :
    r.charged = min (s.balanceOf input.userId) |input.amount| := by
  have hb := s.balanceOf_nonneg input.userId
  simp only [penalize, runs_ite] at h
  rcases h with ⟨hzero, h⟩ | ⟨-, h⟩
  · simp only [runs_get_bind, runs_pure] at h
    rw [h.1, hzero, min_eq_right hb]
  · have hcharged := applyWithin_charged h hfresh
    simp only [cappedAmount, Option.isSome_some, if_true] at hcharged
    rw [hcharged]
    have hprice := abs_nonneg input.amount
    rcases le_total (s.balanceOf input.userId) |input.amount| with hle | hle
    · rw [max_eq_right (neg_le_neg hle), abs_neg, abs_of_nonneg hb, min_eq_left hle]
    · rw [max_eq_left (neg_le_neg hle), abs_neg, abs_abs, min_eq_right hle]

end Coins

/-! ## Trust -/

/-- The score a movement of `u` starts from: the one on record, after the starting
    score when that has not been written. -/
def Db.scoreToMove (db : Db) (env : Env) (u : UserId) : Int :=
  if env.settings.trust_initial_score = 0 ∨ (db.trustByKey (.initial u)).isSome = true then
    db.scoreOf u
  else clampScore (db.scoreOf u + env.settings.trust_initial_score)

theorem Db.scoreToMove_range (db : Db) (env : Env) (u : UserId) :
    0 ≤ db.scoreToMove env u ∧ db.scoreToMove env u ≤ 100 := by
  unfold Db.scoreToMove
  split
  · exact db.scoreOf_range u
  · exact clampScore_range _

section Trust

variable {env : Env} {input : TrustMovementInput} {s s' : Db} {b : Int}

theorem writeTrustRow_spec {t : TrustLedgerRow} (h : Runs (writeTrustRow env input b) s t s') :
    t.scoreAfter = clampScore (b + input.delta) ∧ t.delta = clampScore (b + input.delta) - b ∧
      t.idempotencyKey = input.idempotencyKey ∧ t.userId = input.userId ∧
      s'.trustLedger.rows = s.trustLedger.rows ++ [t] := by
  simp only [writeTrustRow, runs_get_bind, runs_insertRow_bind, runs_updateRow_bind,
    runs_pure] at h
  obtain ⟨t', ht', -, -, -, -, rfl, rfl⟩ := h
  exact ⟨rfl, rfl, rfl, rfl, ht'⟩

theorem Db.trustByKey_append {t : TrustLedgerRow} {k : TrustKey}
    (h : s'.trustLedger.rows = s.trustLedger.rows ++ [t]) :
    s'.trustByKey k =
      (s.trustByKey k).or (if t.idempotencyKey = k then some t else none) := by
  unfold Db.trustByKey
  rw [h, List.find?_append]
  cases s.trustLedger.rows.find? fun r => decide (r.idempotencyKey = k) with
  | some _ => rfl
  | none => simp [List.find?_singleton]

/-- The starting score is written when it is asked for and is not there. -/
theorem seedIfNeeded_score {u : UserId} {score : Int} (h : Runs (seedIfNeeded env u b) s score s') :
    score = (if env.settings.trust_initial_score = 0 ∨ (s.trustByKey (.initial u)).isSome = true
      then b else clampScore (b + env.settings.trust_initial_score)) ∧
    ∀ k, k ≠ .initial u → s'.trustByKey k = s.trustByKey k := by
  simp only [seedIfNeeded, runs_ite] at h
  rcases h with ⟨hzero, h⟩ | ⟨hne, h⟩
  · rw [runs_pure] at h
    obtain ⟨rfl, rfl⟩ := h
    exact ⟨by simp [hzero], fun _ _ => rfl⟩
  · rw [runs_get_bind] at h
    cases hk : s.trustByKey (.initial u) with
    | some _ =>
        simp only [hk, runs_pure] at h
        obtain ⟨rfl, rfl⟩ := h
        exact ⟨by simp, fun _ _ => rfl⟩
    | none =>
        simp only [hk, runs_bind, runs_pure] at h
        obtain ⟨t, _, hw, rfl, rfl⟩ := h
        obtain ⟨hafter, -, hkey, -, hrows⟩ := writeTrustRow_spec hw
        refine ⟨by simp [hafter, hne], fun k hne' => ?_⟩
        have hother : t.idempotencyKey ≠ k := by
          rw [hkey]
          exact fun heq => hne' heq.symm
        rw [Db.trustByKey_append hrows, if_neg hother]
        cases s.trustByKey k <;> rfl

/-- A movement under an unused key moves the score as far as its range allows. -/
theorem applyTrust_moves {r : TrustMovement} (h : Runs (applyTrust env input) s r s')
    (hfresh : s.trustByKey input.idempotencyKey = none)
    (hkey : ∀ u, input.idempotencyKey ≠ .initial u) :
    r.effectiveDelta = clampScore (s.scoreToMove env input.userId + input.delta) -
        s.scoreToMove env input.userId ∧
      ∃ t, s'.trustByKey input.idempotencyKey = some t ∧ t.delta = r.effectiveDelta := by
  simp only [applyTrust, runs_guardTx_bind, runs_bind (m := insertRowOrIgnore _)] at h
  obtain ⟨-, _, s₁, hens, h⟩ := h
  rw [runs_get_bind, runs_bind] at h
  obtain ⟨score, s₂, hseed, h⟩ := h
  have hopened : s₁.scoreOf input.userId = s.scoreOf input.userId ∧
      s₁.trustLedger = s.trustLedger := by
    obtain ⟨t, rfl, ⟨-, ht⟩ | ⟨-, rfl, -⟩⟩ := runs_insertRowOrIgnore hens
    · refine ⟨?_, rfl⟩
      have hfind : t.find? input.userId = some { userId := input.userId, score := 0 } :=
        (Table.find?_of_insert ht input.userId).trans (if_pos rfl)
      have hnone : s.trustScores.find? input.userId = none := by
        rw [Table.find?_eq_none]
        intro a ha hk
        exact (Table.compatible_of_insert ht ha).1 hk
      show ((t.find? input.userId).map (·.score)).getD 0 = _
      rw [hfind, Db.scoreOf, hnone]
      rfl
    · exact ⟨rfl, rfl⟩
  have hkeys : ∀ k, s₁.trustByKey k = s.trustByKey k := by
    intro k
    unfold Db.trustByKey
    rw [hopened.2]
  obtain ⟨hscore, hkept⟩ := seedIfNeeded_score hseed
  rw [hopened.1, hkeys] at hscore
  have hfresh₂ : s₂.trustByKey input.idempotencyKey = none := by
    rw [hkept _ (hkey input.userId), hkeys]
    exact hfresh
  rw [runs_get_bind, hfresh₂, runs_bind] at h
  obtain ⟨t, _, hw, h⟩ := h
  obtain ⟨rfl, rfl⟩ := runs_pure.1 h
  obtain ⟨-, hdelta, htkey, -, hrows⟩ := writeTrustRow_spec hw
  have hsame : score = s.scoreToMove env input.userId := hscore
  refine ⟨?_, t, ?_, rfl⟩
  · rw [← hsame]
    exact hdelta
  · rw [Db.trustByKey_append hrows, hfresh₂, if_pos htkey]
    rfl

end Trust

/-! ## Charges -/

/-- The points a trust key has taken. -/
def Db.trustTaken (db : Db) (k : TrustKey) : Int :=
  match db.trustByKey k with
  | some t => -t.delta
  | none => 0

section Charges

variable {env : Env} {b : CancellationBucket} {price : PenaltyPrice} {coins : CoinMovementInput}
  {trust : TrustMovementInput} {s s' : Db} {r : ChargedPenalty}

/-- What is taken off a score is its price, or the score. -/
theorem clampScore_sub {score price : Int} (hscore : 0 ≤ score ∧ score ≤ 100) (hprice : 0 ≤ price) :
    clampScore (score + -price) - score = -min score price := by
  simp only [clampScore, TRUST_MIN_SCORE, TRUST_MAX_SCORE]
  omega

/-- What a charge under unused keys takes. -/
structure Takes (env : Env) (price : PenaltyPrice) (u : UserId) (k : TrustKey) (s s' : Db)
    (coinsCharged trustApplied : Int) : Prop where
  coins : coinsCharged = min (s.balanceOf u) |price.coins|
  balance : s'.balanceOf u = s.balanceOf u - coinsCharged
  trust : trustApplied = -min (s.scoreToMove env u) price.trust
  points : s'.trustTaken k = -trustApplied

theorem charge_takes (h : Runs (charge env b price coins trust) s r s')
    (hcoins : s.ledgerByKey coins.idempotencyKey = none)
    (htrust : s.trustByKey trust.idempotencyKey = none)
    (hkey : ∀ u, trust.idempotencyKey ≠ .initial u) (huser : coins.userId = trust.userId)
    (hprice : 0 ≤ price.trust) :
    r.price = price ∧ r.bucket = b ∧
      Takes env price coins.userId trust.idempotencyKey s s' r.coinsCharged r.trustApplied := by
  have hbalance := charge_balanceOf h hcoins coins.userId
  simp only [charge, runs_bind, runs_pure] at h
  obtain ⟨pen, s₁, hpen, n, s₂, hmove, rfl, rfl⟩ := h
  have hcharged : pen.charged = min (s.balanceOf coins.userId) |price.coins| :=
    penalize_charged hpen hcoins
  have hsame : s₁.trustLedger = s.trustLedger ∧ s₁.trustScores = s.trustScores := by
    have honly : CoinsOnly s s₁ := by
      simp only [penalize, runs_ite] at hpen
      rcases hpen with ⟨-, hpen⟩ | ⟨-, hpen⟩
      · simp only [runs_get_bind, runs_pure] at hpen
        rw [hpen.2]
        rfl
      · exact (applyWithin_spec hpen).2.coinsOnly
    rw [honly]
    exact ⟨rfl, rfl⟩
  have hkeys : ∀ k, s₁.trustByKey k = s.trustByKey k := by
    intro k
    unfold Db.trustByKey
    rw [hsame.1]
  have hscore : s₁.scoreToMove env trust.userId = s.scoreToMove env trust.userId := by
    unfold Db.scoreToMove Db.scoreOf
    rw [hkeys, hsame.2]
  have hrange := s.scoreToMove_range env trust.userId
  have htakes : n = -min (s.scoreToMove env trust.userId) price.trust ∧
      s'.trustTaken trust.idempotencyKey = -n := by
    rw [chargeTrust, runs_ite] at hmove
    rcases hmove with ⟨hpos, hmove⟩ | ⟨hnot, hmove⟩
    · simp only [runs_bind, runs_pure] at hmove
      obtain ⟨m, _, happly, rfl, rfl⟩ := hmove
      obtain ⟨hdelta, t, hfound, htd⟩ := applyTrust_moves happly ((hkeys _).trans htrust) hkey
      rw [hscore] at hdelta
      refine ⟨hdelta.trans (clampScore_sub hrange hprice), ?_⟩
      have hfound' : s'.trustByKey trust.idempotencyKey = some t := hfound
      rw [Db.trustTaken, hfound']
      exact congrArg Neg.neg htd
    · rw [runs_pure] at hmove
      obtain ⟨rfl, rfl⟩ := hmove
      have hzero : price.trust = 0 := by omega
      refine ⟨by rw [hzero, min_eq_right hrange.1, neg_zero], ?_⟩
      rw [Db.trustTaken, hkeys, htrust]
      rfl
  refine ⟨rfl, rfl, hcharged, ?_, ?_, htakes.2⟩
  · rw [hbalance, if_pos rfl, hcharged]
  · rw [huser]
    exact htakes.1

end Charges

end Paayatam
