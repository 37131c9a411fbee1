/-
  Paayatam.Economy.Referral

  `ReferralService`: who invited whom, and when that becomes worth something.

  A claim records the relationship and pays nothing; the unique index on the
  referred user decides who was first.  `qualifyForAttendance` reads the
  referral, reads whether the user has attended anything, and only then opens
  the transaction that pays, whose first statement is a conditional update.
  The three are separate definitions here, because anything may happen between
  them.
-/

import Paayatam.Booking.World
import Paayatam.Lib.Within

namespace Paayatam

open Lib

abbrev ReferralId := Nat

def REFERRAL_REFERRER_REASON : String := "referral.referrer_reward"

def REFERRAL_REFERRED_REASON : String := "referral.referred_reward"

/-- The exactly-once keys for the two halves of one referral's payout. -/
def referrerRewardKey (referralId : ReferralId) : CoinKey :=
  .other s!"referral-referrer:{referralId}"

def referredRewardKey (referralId : ReferralId) : CoinKey :=
  .other s!"referral-referred:{referralId}"

/-! ## The tables -/

inductive ReferralStatus where
  | PENDING | QUALIFIED | REJECTED
  deriving DecidableEq

/-- `fraud_signals`. -/
structure VelocitySignals where
  recentReferrals : Nat
  windowHours : Nat
  threshold : Nat
  deriving DecidableEq

/-- `referral`. -/
structure ReferralRow where
  id : ReferralId
  referrerUserId : UserId
  referredUserId : UserId
  code : String
  status : ReferralStatus
  qualifiedAt : Option Instant
  rewardLedgerId : Option LedgerId
  fraudSignals : Option VelocitySignals
  createdAt : Instant
  deriving DecidableEq

/-- The `CHECK` constraints of `referral`. -/
def ReferralRow.constraints (r : ReferralRow) : Bool :=
  -- referral_not_self
  decide (r.referrerUserId ≠ r.referredUserId) &&
  -- referral_qualified_at_matches_status
  decide (r.status = .QUALIFIED) == r.qualifiedAt.isSome &&
  -- referral_reward_needs_qualification
  (r.rewardLedgerId.isNone || decide (r.status = .QUALIFIED))

instance : Row ReferralRow ReferralId where
  key r := r.id
  check := ReferralRow.constraints
  -- UNIQUE (referred_user_id)
  collide r q := decide (r.referredUserId = q.referredUserId)
  collide_comm r q := by simp [eq_comm]

/-- A `referral.qualified` message in the outbox. -/
structure ReferralQualified where
  referralId : ReferralId
  referrerUserId : UserId
  referredUserId : UserId
  referrerCoins : Int
  referredCoins : Int

/-- The database, with the referrals and what was announced of them. -/
structure ReferralDb where
  db : Db
  referrals : Table ReferralRow
  announced : List ReferralQualified

instance : HasTable ReferralDb ReferralRow :=
  ⟨ReferralDb.referrals, fun t s => { s with referrals := t }⟩

@[simp] theorem table_referrals {s : ReferralDb} :
    (HasTable.table s : Table ReferralRow) = s.referrals := rfl

@[simp] theorem setTable_referrals {s : ReferralDb} {t : Table ReferralRow} :
    HasTable.setTable t s = { s with referrals := t } := rfl

/-- A transaction over all of them. -/
abbrev ReferralAct := Tx ReferralDb AppError

/-- A transaction of `CoinService`, joined. -/
def joinedCoins {α : Type} (m : Act α) : ReferralAct α :=
  within ReferralDb.db (fun db s => { s with db := db }) m

/-! ## What a call reads beside the tables -/

/-- The settings of referrals, named by their keys. -/
structure ReferralSettings where
  referral_claim_window_hours : Nat
  referral_velocity_window_hours : Nat
  referral_velocity_threshold : Nat
  economy_referral_referrer_coins : Nat
  economy_referral_referred_coins : Nat
  economy_referral_reward_cap : Nat

/-- What a referral call reads: the settings, and the users by id and by code. -/
structure ReferralEnv where
  env : Env
  settings : ReferralSettings
  createdAt : UserId → Option Instant
  byReferralCode : String → Option (UserId × UserStatus)
  /-- `String.prototype.toUpperCase`. -/
  toUpperCase : String → String

/-- Case- and separator-insensitive: people retype these by hand. -/
def normalizeCode (env : ReferralEnv) (raw : String) : String :=
  String.ofList ((env.toUpperCase (trim raw)).toList.filter fun c => !isTrimmed c && c ≠ '-')

/-! ## Claiming -/

/-- `velocitySignals`: a signal for an admin, never a refusal. -/
def velocitySignals (env : ReferralEnv) (referrerUserId : UserId) (now : Instant) :
    ReferralAct (Option VelocitySignals) := do
  let windowHours := env.settings.referral_velocity_window_hours
  let threshold := env.settings.referral_velocity_threshold
  let recent ← countRows fun r : ReferralRow =>
    decide (r.referrerUserId = referrerUserId) &&
      decide (now - windowHours * msPerHour ≤ r.createdAt)
  if recent < threshold then return none
  else return some ⟨recent, windowHours, threshold⟩

/-- A claim that has passed its checks. -/
structure CheckedClaim where
  userId : UserId
  referrerUserId : UserId
  code : String
  fraudSignals : Option VelocitySignals

/-- Only a new account may claim; a window of zero hours is no window. -/
def assertClaimWindow (env : ReferralEnv) (userId : UserId) : ReferralAct Unit := do
  let windowHours := env.settings.referral_claim_window_hours
  if 0 < windowHours then do
    let createdAt ← orThrow (.of .NOT_FOUND) (env.createdAt userId)
    guardTx (env.env.now ≤ createdAt + windowHours * msPerHour) (.of .REFERRAL_WINDOW_CLOSED)
  else return ()

/-- `claim`, up to the insert. -/
def checkClaim (env : ReferralEnv) (userId : UserId) (rawCode : String) :
    ReferralAct CheckedClaim := do
  let code := normalizeCode env rawCode
  assertClaimWindow env userId
  let (referrer, status) ← orThrow (.of .INVALID_REFERRAL_CODE) (env.byReferralCode code)
  guardTx (status ≠ .BANNED) (.of .INVALID_REFERRAL_CODE)
  guardTx (referrer ≠ userId) (.of .SELF_REFERRAL)
  let fraudSignals ← velocitySignals env referrer env.env.now
  return ⟨userId, referrer, code, fraudSignals⟩

/-- The row a claim inserts. -/
def claimedRow (now : Instant) (c : CheckedClaim) (id : ReferralId) : ReferralRow where
  id := id
  referrerUserId := c.referrerUserId
  referredUserId := c.userId
  code := c.code
  status := .PENDING
  qualifiedAt := none
  rewardLedgerId := none
  fraudSignals := c.fraudSignals
  createdAt := now

/-- The insert of `claim`: the unique index answers whether somebody was first. -/
def insertClaim (now : Instant) (c : CheckedClaim) : ReferralAct Unit := do
  let s ← get
  let inserted ← insertRowOrIgnore (claimedRow now c (freshId (s.referrals.rows.map (·.id))))
  guardTx (inserted = true) (.of .ALREADY_REFERRED)

/-! ## Paying -/

/-- `earnedSince`, of the referrer's halves: how many there were. -/
def Db.referrerRewardsSince (db : Db) (userId : UserId) (since : Instant) : Nat :=
  (db.coinLedger.rows.filter fun r =>
    decide (r.userId = userId) && decide (r.type = .REFERRAL_REWARD) &&
    decide (r.reasonCode = REFERRAL_REFERRER_REASON) && decide (since ≤ r.createdAt)).length

/-- What the referrer is paid for this one: counted in referrals, not in coins. -/
def referrerRewardFor (env : ReferralEnv) (db : Db) (referrerUserId : UserId) : Int :=
  let reward : Int := env.settings.economy_referral_referrer_coins
  let cap := env.settings.economy_referral_reward_cap
  let days : Int := env.env.settings.economy_earning_cap_days
  if reward ≤ 0 then 0
  else if cap ≤ 0 ∨ days ≤ 0 then reward
  else if cap ≤ db.referrerRewardsSince referrerUserId (env.env.now - days * 24 * msPerHour) then 0
  else reward

/-- `findUnique` by the referred user. -/
def ReferralDb.referralOf (s : ReferralDb) (userId : UserId) : Option ReferralRow :=
  s.referrals.rows.find? fun r => decide (r.referredUserId = userId)

/-- `eventParticipant.findFirst({ userId, status: 'COMPLETED' })` finds one. -/
def Db.hasAttended (db : Db) (userId : UserId) : Bool :=
  db.participants.rows.any fun p => decide (p.userId = userId) && decide (p.status = .COMPLETED)

/-- The update that qualifies a referral. -/
def ReferralRow.qualified (now : Instant) (r : ReferralRow) : ReferralRow :=
  { r with status := .QUALIFIED, qualifiedAt := some now }

/-- The conditional update that decides who qualified it. -/
def claimQualification (now : Instant) (referralId : ReferralId) : ReferralAct Bool := do
  let found ← findRow referralId
  match (found : Option ReferralRow) with
  | none => return false
  | some referral =>
    if referral.status = .PENDING then do
      updateRow referralId (ReferralRow.qualified now)
      return true
    else return false

/-- The movement of the referrer's half. -/
def referrerMovement (referralId : ReferralId) (referrerUserId : UserId) (amount : Int) :
    CoinMovementInput where
  userId := referrerUserId
  amount := amount
  type := .REFERRAL_REWARD
  reasonCode := REFERRAL_REFERRER_REASON
  idempotencyKey := referrerRewardKey referralId
  actorType := .SYSTEM
  ref := some (.other "referral" (toString referralId))

/-- The movement of the referred user's half. -/
def referredMovement (referralId : ReferralId) (userId : UserId) (amount : Int) :
    CoinMovementInput where
  userId := userId
  amount := amount
  type := .REFERRAL_REWARD
  reasonCode := REFERRAL_REFERRED_REASON
  idempotencyKey := referredRewardKey referralId
  actorType := .SYSTEM
  ref := some (.other "referral" (toString referralId))

/-- One half of the reward, when there is any. -/
def payHalf (env : ReferralEnv) (movement : CoinMovementInput) : ReferralAct (Option CoinPenalty) :=
  if 0 < movement.amount then some <$> joinedCoins (applyCoins env.env movement)
  else return none

def ReferralRow.rewarded (ledgerId : Option LedgerId) (r : ReferralRow) : ReferralRow :=
  { r with rewardLedgerId := ledgerId }

/-- The referral names the row that paid its referrer, when one did. -/
def nameReward (referralId : ReferralId) : Option CoinPenalty → ReferralAct Unit
  | some movement => updateRow referralId (ReferralRow.rewarded movement.ledgerId)
  | none => return ()

/-- The transaction of `qualifyForAttendance`, for the referral that was read before it. -/
def payReferral (env : ReferralEnv) (referralId : ReferralId) (referrerUserId userId : UserId) :
    ReferralAct Bool := do
  let claimed ← claimQualification env.env.now referralId
  if claimed = true then do
    let s ← get
    let referrerCoins := referrerRewardFor env s.db referrerUserId
    let referredCoins : Int := env.settings.economy_referral_referred_coins
    let referrerReward ← payHalf env (referrerMovement referralId referrerUserId referrerCoins)
    -- the referred user's half is not capped
    let _ ← payHalf env (referredMovement referralId userId referredCoins)
    nameReward referralId referrerReward
    modify fun s : ReferralDb => { s with announced := s.announced ++
      [⟨referralId, referrerUserId, userId, referrerCoins, referredCoins⟩] }
    return true
  else return false

/-- The default settings of referrals, and user 4 known by the code `AAAA2222`. -/
def demoReferralEnv (hours : Int) : ReferralEnv where
  env := demoEnv hours
  settings :=
    { referral_claim_window_hours := 168
      referral_velocity_window_hours := 24
      referral_velocity_threshold := 10
      economy_referral_referrer_coins := 20
      economy_referral_referred_coins := 10
      economy_referral_reward_cap := 3 }
  createdAt _ := some 0
  byReferralCode code := if code = "AAAA2222" then some (4, .ACTIVE) else none
  toUpperCase := String.toUpper

end Paayatam
