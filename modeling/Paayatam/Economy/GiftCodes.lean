/-
  Paayatam.Economy.GiftCodes

  `GiftCodeService`: a code somebody types in exchange for coins.

  `redeem` looks the code up, and then, in one transaction that starts by
  locking the row of the code, checks everything again, pays, records the
  redemption and counts it.  A refusal is recorded afterwards, outside the
  transaction that was rolled back.  The transaction is split where its reads
  end: `lockCode` is everything up to the payment, `grantCode` the rest.
-/

import Paayatam.Economy.Coins
import Paayatam.Lib.Within

namespace Paayatam

open Lib

abbrev GiftCodeId := Nat

def GIFT_CODE_REASON : String := "giftcode.redeemed"

def giftCodeRedemptionKey (giftCodeId : GiftCodeId) (userId : UserId) (seq : Nat) : CoinKey :=
  .other s!"gift-code:{giftCodeId}:{userId}:{seq}"

/-! ## The tables -/

/-- `gift_code`. -/
structure GiftCodeRow where
  id : GiftCodeId
  code : String
  coins : Int
  maxRedemptions : Option Nat
  perUserLimit : Nat
  redeemedCount : Nat
  startsAt : Option Instant
  expiresAt : Option Instant
  isActive : Bool
  deriving DecidableEq

/-- The `CHECK` constraints of `gift_code`. -/
def GiftCodeRow.constraints (g : GiftCodeRow) : Bool :=
  -- gift_code_coins_positive, gift_code_per_user_limit_positive
  decide (0 < g.coins) && decide (0 < g.perUserLimit) &&
  -- gift_code_max_redemptions_positive, gift_code_within_max_redemptions
  g.maxRedemptions.all (fun n => decide (0 < n)) &&
  g.maxRedemptions.all (fun n => decide (g.redeemedCount ≤ n)) &&
  -- gift_code_window_ordered
  g.startsAt.all (fun a => g.expiresAt.all fun b => decide (a < b))

instance : Row GiftCodeRow GiftCodeId where
  key g := g.id
  check := GiftCodeRow.constraints
  -- UNIQUE (code)
  collide g h := decide (g.code = h.code)
  collide_comm g h := by simp [eq_comm]

/-- `gift_code_redemption`. -/
structure GiftCodeRedemptionRow where
  id : Nat
  giftCodeId : GiftCodeId
  userId : UserId
  seq : Nat
  coins : Int
  coinLedgerId : LedgerId
  createdAt : Instant

instance : Row GiftCodeRedemptionRow Nat where
  key r := r.id
  -- gift_code_redemption_seq_positive, gift_code_redemption_coins_positive
  check r := decide (0 < r.seq) && decide (0 < r.coins)
  -- UNIQUE (gift_code_id, user_id, seq), UNIQUE (coin_ledger_id)
  collide r q := decide (r.giftCodeId = q.giftCodeId ∧ r.userId = q.userId ∧ r.seq = q.seq) ||
    decide (r.coinLedgerId = q.coinLedgerId)
  collide_comm r q := by simp [eq_comm]

/-- The `audit_log` rows a redemption writes. -/
inductive GiftCodeAudit where
  /-- `GIFT_CODE_SUCCESS_ACTION`. -/
  | redeemed (actorId : UserId) (targetId : GiftCodeId) (coins : Int) (seq : Nat)
  /-- `GIFT_CODE_FAILURE_ACTION`. -/
  | redeem_failed (actorId : UserId) (targetId : Option GiftCodeId) (reason : String)

/-- The database, with the tables of the gift codes. -/
structure GiftDb where
  db : Db
  giftCodes : Table GiftCodeRow
  redemptions : Table GiftCodeRedemptionRow
  audit : List GiftCodeAudit

instance : HasTable GiftDb GiftCodeRow := ⟨GiftDb.giftCodes, fun t s => { s with giftCodes := t }⟩
instance : HasTable GiftDb GiftCodeRedemptionRow :=
  ⟨GiftDb.redemptions, fun t s => { s with redemptions := t }⟩

section TableLemmas

variable {s : GiftDb}

@[simp] theorem table_giftCodes : (HasTable.table s : Table GiftCodeRow) = s.giftCodes := rfl
@[simp] theorem table_redemptions :
    (HasTable.table s : Table GiftCodeRedemptionRow) = s.redemptions := rfl
@[simp] theorem setTable_giftCodes {t : Table GiftCodeRow} :
    HasTable.setTable t s = { s with giftCodes := t } := rfl
@[simp] theorem setTable_redemptions {t : Table GiftCodeRedemptionRow} :
    HasTable.setTable t s = { s with redemptions := t } := rfl

end TableLemmas

/-- The redemptions of a code. -/
def GiftDb.redemptionsOf (s : GiftDb) (g : GiftCodeId) : List GiftCodeRedemptionRow :=
  s.redemptions.rows.filter fun r => decide (r.giftCodeId = g)

/-- The redemptions of a code by one user, as they were made. -/
def GiftDb.redemptionsBy (s : GiftDb) (g : GiftCodeId) (u : UserId) : List GiftCodeRedemptionRow :=
  s.redemptions.rows.filter fun r => decide (r.giftCodeId = g) && decide (r.userId = u)

/-- A transaction over all of them. -/
abbrev GiftAct := Tx GiftDb AppError

/-- A transaction of another service, joined. -/
def joined {α : Type} (m : Act α) : GiftAct α :=
  within GiftDb.db (fun db s => { s with db := db }) m

/-! ## Redeeming -/

/-- A gift code, exactly as it was written down. -/
def exactCode (raw : String) : String := trim raw

structure RedeemedGiftCode where
  code : String
  coins : Int
  balance : Int
  remainingForUser : Nat

/-- `findUnique` by code, which locks nothing. -/
def findCode (code : String) (s : GiftDb) : Option GiftCodeRow :=
  s.giftCodes.rows.find? fun g => decide (g.code = code)

/-- The transaction up to the payment: the row, locked, and the ordinal it may be redeemed
    under. -/
def lockCode (now : Instant) (userId : UserId) (giftCodeId : GiftCodeId) :
    GiftAct (GiftCodeRow × Nat) := do
  let found ← findRow giftCodeId
  let giftCode ← orThrow (.of .GIFT_CODE_INVALID) (found : Option GiftCodeRow)
  guardTx (giftCode.isActive = true) (.of .GIFT_CODE_INVALID)
  guardTx (∀ at' ∈ giftCode.startsAt, at' ≤ now) (.of .GIFT_CODE_EXPIRED)
  guardTx (∀ at' ∈ giftCode.expiresAt, now < at') (.of .GIFT_CODE_EXPIRED)
  guardTx (∀ n ∈ giftCode.maxRedemptions, giftCode.redeemedCount < n) (.of .GIFT_CODE_EXHAUSTED)
  let alreadyHad ← countRows fun r : GiftCodeRedemptionRow =>
    decide (r.giftCodeId = giftCode.id) && decide (r.userId = userId)
  guardTx (alreadyHad < giftCode.perUserLimit) (.of .GIFT_CODE_ALREADY_REDEEMED)
  return (giftCode, alreadyHad + 1)

/-- The movement of a redemption. -/
def giftMovement (userId : UserId) (giftCode : GiftCodeRow) (seq : Nat) : CoinMovementInput where
  userId := userId
  amount := giftCode.coins
  type := .GIFT_CODE_REDEEM
  reasonCode := GIFT_CODE_REASON
  idempotencyKey := giftCodeRedemptionKey giftCode.id userId seq
  actorType := .USER
  actorId := some userId
  ref := some (.other "gift_code" (toString giftCode.id))

/-- The row of a redemption. -/
def redemptionRow (now : Instant) (userId : UserId) (giftCode : GiftCodeRow) (seq : Nat)
    (coinLedgerId : LedgerId) (id : Nat) : GiftCodeRedemptionRow where
  id := id
  giftCodeId := giftCode.id
  userId := userId
  seq := seq
  coins := giftCode.coins
  coinLedgerId := coinLedgerId
  createdAt := now

def GiftCodeRow.counted (g : GiftCodeRow) : GiftCodeRow :=
  { g with redeemedCount := g.redeemedCount + 1 }

/-- The rest of the transaction. -/
def grantCode (env : Env) (userId : UserId) (giftCode : GiftCodeRow) (seq : Nat) :
    GiftAct RedeemedGiftCode := do
  -- the coins first, so that the redemption can point at the row that paid it
  let movement ← joined (applyCoins env (giftMovement userId giftCode seq))
  guardTx (movement.applied = true) (.of .GIFT_CODE_ALREADY_REDEEMED)
  let ledgerId ← orThrow (.of .INTERNAL_ERROR) movement.ledgerId
  let s ← get
  let inserted ← insertRowOrIgnore (redemptionRow env.now userId giftCode seq ledgerId
    (freshId (s.redemptions.rows.map (·.id))))
  guardTx (inserted = true) (.of .GIFT_CODE_ALREADY_REDEEMED)
  updateRow giftCode.id GiftCodeRow.counted
  modify fun s : GiftDb =>
    { s with audit := s.audit ++ [.redeemed userId giftCode.id giftCode.coins seq] }
  return { code := giftCode.code, coins := giftCode.coins, balance := movement.balance
           remainingForUser := giftCode.perUserLimit - seq }

def reasonLabel : ErrorCode → String
  | .GIFT_CODE_INVALID => "invalid"
  | .GIFT_CODE_EXPIRED => "expired"
  | .GIFT_CODE_ALREADY_REDEEMED => "already_redeemed"
  | .GIFT_CODE_EXHAUSTED => "exhausted"
  | .GIFT_CODE_DISABLED => "disabled"
  | _ => "error"

/-- `refused`: one refused attempt, on the record. -/
def recordRefusal (userId : UserId) (giftCodeId : Option GiftCodeId) (result : String) :
    GiftAct Unit :=
  modify fun s => { s with audit := s.audit ++ [.redeem_failed userId giftCodeId result] }

/-! ## The panel -/

/-- A code as `create` inserts it: nobody has redeemed it. -/
structure NewGiftCode where
  code : String
  coins : Int
  maxRedemptions : Option Nat
  perUserLimit : Nat
  startsAt : Option Instant
  expiresAt : Option Instant

def createCode (input : NewGiftCode) : GiftAct Unit := do
  let s ← get
  insertRow ({ id := freshId (s.giftCodes.rows.map (·.id)), code := exactCode input.code
               coins := input.coins, maxRedemptions := input.maxRedemptions
               perUserLimit := input.perUserLimit, redeemedCount := 0, startsAt := input.startsAt
               expiresAt := input.expiresAt, isActive := true } : GiftCodeRow)

/-- `setActive`. -/
def setActive (giftCodeId : GiftCodeId) (isActive : Bool) : GiftAct Unit :=
  updateRow giftCodeId fun g : GiftCodeRow => { g with isActive := isActive }

/-- What a retune of a campaign may change of the redemptions to come. -/
structure GiftCodePatch where
  coins : Option Int
  maxRedemptions : Option (Option Nat)
  startsAt : Option (Option Instant)
  expiresAt : Option (Option Instant)

def GiftCodePatch.apply (patch : GiftCodePatch) (g : GiftCodeRow) : GiftCodeRow :=
  { g with
    coins := patch.coins.getD g.coins
    maxRedemptions := patch.maxRedemptions.getD g.maxRedemptions
    startsAt := patch.startsAt.getD g.startsAt
    expiresAt := patch.expiresAt.getD g.expiresAt }

/-- `update`, of everything but the limit of a user. -/
def retuneCode (giftCodeId : GiftCodeId) (patch : GiftCodePatch) : GiftAct Unit :=
  updateRow giftCodeId patch.apply

end Paayatam
