/-
  Paayatam.Economy.Trust

  `TrustService`: the score between 0 and 100 and the ledger that explains it.

  The shape is that of the coin ledger with two differences.  A movement is
  clamped to the range rather than refused, and the recorded delta is what the
  clamp left of it; and the starting score is itself a ledger row, written the
  first time a user's score moves.
-/

import Paayatam.Economy.Coins

namespace Paayatam

open Lib

def TRUST_MIN_SCORE : Int := 0
def TRUST_MAX_SCORE : Int := 100

/-- Bounded to the range the `CHECK` constraint enforces. -/
def clampScore (score : Int) : Int := max TRUST_MIN_SCORE (min TRUST_MAX_SCORE score)

/-- `TrustMovementInput`. -/
structure TrustMovementInput where
  userId : UserId
  delta : Int
  type : TrustLedgerType
  reasonCode : String
  idempotencyKey : TrustKey
  actorType : ActorType
  actorId : Option UserId := none
  ref : Option LedgerRef := none

/-- `TrustMovement`. -/
structure TrustMovement where
  applied : Bool
  ledgerId : LedgerId
  score : Int
  effectiveDelta : Int
  deriving DecidableEq

/-- `trust_score_ledger.findUnique({ idempotencyKey })`. -/
def Db.trustByKey (db : Db) (k : TrustKey) : Option TrustLedgerRow :=
  db.trustLedger.rows.find? fun r => decide (r.idempotencyKey = k)

def Db.scoreOf (db : Db) (u : UserId) : Int :=
  ((db.trustScores.find? u).map (·.score)).getD 0

/-- The single place a row is written and the cache is moved with it. -/
def writeTrustRow (env : Env) (input : TrustMovementInput) (scoreBefore : Int) :
    Act TrustLedgerRow := do
  let db ← get
  let scoreAfter := clampScore (scoreBefore + input.delta)
  let delta := scoreAfter - scoreBefore
  let row : TrustLedgerRow :=
    { id := freshId (db.trustLedger.rows.map (·.id))
      userId := input.userId
      idempotencyKey := input.idempotencyKey
      type := input.type
      delta := delta
      scoreBefore := scoreBefore
      scoreAfter := scoreAfter
      reasonCode := input.reasonCode
      actorType := input.actorType
      actorId := input.actorId
      ref := input.ref
      reversesLedgerId := none
      requestedDelta := if delta = input.delta then none else some input.delta
      createdAt := env.now }
  insertRow row
  updateRow input.userId fun a : TrustScoreRow => { a with score := scoreAfter }
  return row

/-- The starting score, as a ledger row, at most once per user. -/
def seedIfNeeded (env : Env) (userId : UserId) (score : Int) : Act Int := do
  if env.settings.trust_initial_score = 0 then
    return score
  else
    let db ← get
    match db.trustByKey (.initial userId) with
    | some _ => return score
    | none =>
      let written ← writeTrustRow env
        { userId := userId, delta := env.settings.trust_initial_score, type := .INITIAL,
          reasonCode := "trust.initial", idempotencyKey := .initial userId,
          actorType := .SYSTEM } score
      return written.scoreAfter

/-- `TrustService.apply`. -/
def applyTrust (env : Env) (input : TrustMovementInput) : Act TrustMovement := do
  guardTx (input.delta ≠ 0) (.of .INTERNAL_ERROR)
  let _ ← (insertRowOrIgnore { userId := input.userId, score := 0 : TrustScoreRow } : Act Bool)
  let db ← get
  let score ← seedIfNeeded env input.userId (db.scoreOf input.userId)
  let db ← get
  match db.trustByKey input.idempotencyKey with
  | some existing =>
    return { applied := false, ledgerId := existing.id, score := score,
             effectiveDelta := existing.delta }
  | none =>
    let written ← writeTrustRow env input score
    return { applied := true, ledgerId := written.id, score := written.scoreAfter,
             effectiveDelta := written.delta }

/-! ## Trust movements stay inside the trust tables -/

/-- Only the trust scores and the trust ledger moved. -/
def TrustOnly (s s' : Db) : Prop :=
  s' = { s with trustScores := s'.trustScores, trustLedger := s'.trustLedger }

theorem TrustOnly.refl (s : Db) : TrustOnly s s := rfl

theorem TrustOnly.trans {s₁ s₂ s₃ : Db} (h₁ : TrustOnly s₁ s₂) (h₂ : TrustOnly s₂ s₃) :
    TrustOnly s₁ s₃ := by
  unfold TrustOnly at *
  rw [h₂, h₁]

theorem TrustOnly.books {P : CoinLedgerRow → Prop} {s s' : Db} (h : TrustOnly s s') :
    Books P s s' := by
  rw [h]
  exact .of_same_ledger rfl rfl rfl rfl rfl

theorem writeTrustRow_trustOnly {env : Env} {input : TrustMovementInput} {b : Int} {s s' : Db}
    {r : TrustLedgerRow} (h : Runs (writeTrustRow env input b) s r s') : TrustOnly s s' := by
  simp only [writeTrustRow, runs_get_bind, runs_insertRow_bind, runs_updateRow_bind,
    runs_pure] at h
  obtain ⟨t, -, _, -, t', -, -, rfl⟩ := h
  rfl

theorem seedIfNeeded_trustOnly {env : Env} {u : UserId} {b r : Int} {s s' : Db}
    (h : Runs (seedIfNeeded env u b) s r s') : TrustOnly s s' := by
  simp only [seedIfNeeded, runs_ite] at h
  rcases h with ⟨-, h⟩ | ⟨-, h⟩
  · rw [runs_pure] at h
    obtain ⟨-, rfl⟩ := h
    exact .refl _
  · rw [runs_get_bind] at h
    split at h
    · rw [runs_pure] at h
      obtain ⟨-, rfl⟩ := h
      exact .refl _
    · rw [runs_bind] at h
      obtain ⟨_, _, hw, h⟩ := h
      rw [runs_pure] at h
      obtain ⟨-, rfl⟩ := h
      exact writeTrustRow_trustOnly hw

theorem applyTrust_trustOnly {env : Env} {input : TrustMovementInput} {s s' : Db}
    {r : TrustMovement} (h : Runs (applyTrust env input) s r s') : TrustOnly s s' := by
  simp only [applyTrust, runs_guardTx_bind, runs_bind (m := insertRowOrIgnore _)] at h
  obtain ⟨-, _, s₁, hens, h⟩ := h
  obtain ⟨t, rfl, -⟩ := runs_insertRowOrIgnore hens
  rw [runs_get_bind, runs_bind] at h
  obtain ⟨score, s₂, hseed, h⟩ := h
  have h₁ : TrustOnly s (HasTable.setTable t s) := rfl
  have h₂ : TrustOnly s s₂ := h₁.trans (seedIfNeeded_trustOnly hseed)
  rw [runs_get_bind] at h
  split at h
  · rw [runs_pure] at h
    obtain ⟨-, rfl⟩ := h
    exact h₂
  · rw [runs_bind] at h
    obtain ⟨_, _, hw, h⟩ := h
    rw [runs_pure] at h
    obtain ⟨-, rfl⟩ := h
    exact h₂.trans (writeTrustRow_trustOnly hw)

end Paayatam
