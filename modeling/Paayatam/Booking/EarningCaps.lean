/-
  Paayatam.Booking.EarningCaps

  The four rewards under a rolling cap, and the calls that pay them.

  Each of the four services adds up what the user has earned of its kind, and
  then credits what the cap leaves.  The sum takes no lock; the first lock is
  the one the credit takes.  A payer is a worker here with a step for each, and
  anything may happen between the two.
-/

import Paayatam.Lib.Rolling
import Paayatam.Lib.Threads
import Paayatam.Economy.Postings
import Paayatam.Economy.Referral
import Paayatam.Reviews.Service
import Paayatam.Booking.EventQuota

namespace Paayatam

open Lib

/-! ## The rewards and their caps -/

inductive CappedReward where
  | review | referral | host | attendance
  deriving DecidableEq

/-- A coin row of this type and reason counts toward the cap. -/
def CappedReward.counts (type : CoinLedgerType) (reasonCode : String) : CappedReward → Bool
  | .review => decide (type = .REVIEW_REWARD)
  | .referral => decide (type = .REFERRAL_REWARD) && decide (reasonCode = REFERRAL_REFERRER_REASON)
  | .host => decide (type = .HOST_REWARD)
  | .attendance => false

/-- What an amount counts for: referrals are counted, everything else is added up. -/
def CappedReward.weight (amount : Int) : CappedReward → Int
  | .referral => 1
  | _ => amount

/-- What a user has earned of one kind, and when. -/
def Db.earnings (db : Db) (u : UserId) : CappedReward → List (Instant × Int)
  | .attendance =>
    (db.trustLedger.rows.filter fun r =>
      decide (r.userId = u) && decide (r.type = .ATTENDANCE)).map fun r => (r.createdAt, r.delta)
  | k =>
    (db.coinLedger.rows.filter fun r =>
      decide (r.userId = u) && k.counts r.type r.reasonCode).map fun r =>
        (r.createdAt, k.weight r.amount)

/-- The caps and the calendar a run goes by. -/
structure EarningCaps where
  reviewRewardCap : Nat
  referralRewardCap : Nat
  hostRewardCap : Nat
  earningCapDays : Nat
  attendanceDailyCap : Nat
  startOfDay : Instant → Instant
  startOfDay_mono : Monotone startOfDay

namespace EarningCaps

variable (q : EarningCaps)

/-- The call sees the caps and the calendar of the run. -/
structure Seen (env : ReferralEnv) : Prop where
  review : env.env.settings.economy_review_reward_cap = q.reviewRewardCap
  referral : env.settings.economy_referral_reward_cap = q.referralRewardCap
  host : env.env.settings.economy_host_reward_cap = q.hostRewardCap
  days : env.env.settings.economy_earning_cap_days = q.earningCapDays
  attendance : env.env.settings.trust_attendance_daily_cap = q.attendanceDailyCap
  startOfDay : env.env.startOfDay = q.startOfDay

def cap : CappedReward → Int
  | .review => q.reviewRewardCap
  | .referral => q.referralRewardCap
  | .host => q.hostRewardCap
  | .attendance => q.attendanceDailyCap

/-- Where the window of a moment starts. -/
def since : CappedReward → Instant → Instant
  | .attendance => q.startOfDay
  | _ => fun now => now - q.earningCapDays * 24 * msPerHour

/-- The cap is switched on; that of attendance always is. -/
def Governs : CappedReward → Prop
  | .attendance => True
  | k => 0 < q.cap k ∧ 0 < q.earningCapDays

instance : DecidablePred q.Governs
  | .attendance => .isTrue trivial
  | .review => inferInstanceAs (Decidable (_ ∧ _))
  | .referral => inferInstanceAs (Decidable (_ ∧ _))
  | .host => inferInstanceAs (Decidable (_ ∧ _))

theorem since_mono (k : CappedReward) : Monotone (q.since k) := by
  cases k with
  | attendance => exact q.startOfDay_mono
  | _ =>
    intro a b hab
    exact Int.sub_le_sub_right hab _

theorem cap_nonneg (k : CappedReward) : 0 ≤ q.cap k := by
  cases k <;> exact Int.natCast_nonneg _

end EarningCaps

/-! ## The payers -/

/-- What a reward is paid for, and to whom. -/
inductive RewardPayer where
  | review (userId : UserId) (reviewId : ReviewId)
  | referral (referrerUserId : UserId) (referralId : ReferralId)
  | host (settlement : Settlement)
  | attendance (userId : UserId) (participantId : ParticipantId)

namespace RewardPayer

def kind : RewardPayer → CappedReward
  | .review _ _ => .review
  | .referral _ _ => .referral
  | .host _ => .host
  | .attendance _ _ => .attendance

def user : RewardPayer → UserId
  | .review u _ => u
  | .referral u _ => u
  | .host s => s.hostUserId
  | .attendance u _ => u

/-- The credit of `creditAttendance`: what the day's cap leaves of it. -/
def attendanceCredit (env : Env) (db : Db) (userId : UserId) : Int :=
  let delta : Int := env.settings.trust_attendance_delta
  let dailyCap : Int := env.settings.trust_attendance_daily_cap
  if delta ≤ 0 ∨ dailyCap ≤ 0 then 0
  else min delta (dailyCap - db.attendanceSince userId (env.startOfDay env.now))

/-- What the service finds it owes, by the ledgers it reads. -/
def owed (env : ReferralEnv) (db : Db) : RewardPayer → Int
  | .review u _ => Reviews.rewardFor env.env db u
  | .referral u _ => referrerRewardFor env db u
  | .host s => bonusFor env.env db s.hostUserId s.attendees
  | .attendance u _ => attendanceCredit env.env db u

/-- What it would pay without a cap, as the cap counts it. -/
def price (env : ReferralEnv) : RewardPayer → Int
  | .review _ _ => env.env.settings.economy_review_reward_coins
  | .referral _ _ => 1
  | .host s => env.env.settings.economy_host_reward_per_attendee_coins * s.attendees
  | .attendance _ _ => env.env.settings.trust_attendance_delta

/-- The credit itself. -/
def credit (env : Env) (amount : Int) : RewardPayer → Act Unit
  | .review u r => drop (applyCoins env
      { userId := u, amount := amount, type := .REVIEW_REWARD
        reasonCode := Reviews.REVIEW_REWARD_REASON, idempotencyKey := Reviews.reviewRewardKey r
        actorType := .SYSTEM, ref := some (.review r) })
  | .referral u r => drop (applyCoins env (referrerMovement r u amount))
  | .host s => drop (payHost env s amount .HOST_REWARD HOST_REWARD_REASON (.hostReward s.eventId))
  | .attendance u p => drop (applyTrust env
      { userId := u, delta := amount, type := .ATTENDANCE, reasonCode := ATTENDANCE_REASON
        idempotencyKey := .attendance p, actorType := .SYSTEM
        ref := some (.event_participant p) })

/-- Nothing is written at zero. -/
def post (env : Env) (amount : Int) (payer : RewardPayer) : Act Unit :=
  if 0 < amount then payer.credit env amount else return ()

end RewardPayer

/-! ## The services, as their two steps -/

section Services

variable {env : Env} {s s' : Db}

theorem runs_discard {α : Type} {m : Act α} :
    Runs (m >>= fun _ => pure ()) s () s' ↔ Runs (drop m) s () s' := by
  rw [runs_bind, runs_drop]
  constructor
  · rintro ⟨a, s₁, h, hpure⟩
    rw [(runs_pure.1 hpure).2]
    exact ⟨a, h⟩
  · rintro ⟨a, h⟩
    exact ⟨a, s', h, runs_pure.2 ⟨rfl, rfl⟩⟩

theorem payReward_eq {u : UserId} {r : ReviewId} :
    Runs (Reviews.payReward env u r) s () s' ↔
      Runs ((RewardPayer.review u r).post env (Reviews.rewardFor env s u)) s () s' := by
  rw [Reviews.payReward, runs_get_bind, runs_ite, RewardPayer.post, runs_ite]
  exact or_congr (and_congr_right fun _ => runs_discard) Iff.rfl

theorem creditAttendance_eq {u : UserId} {p : ParticipantId} :
    Runs (creditAttendance env u p) s () s' ↔
      Runs ((RewardPayer.attendance u p).post env (RewardPayer.attendanceCredit env s u)) s ()
        s' := by
  simp only [creditAttendance, RewardPayer.attendanceCredit]
  by_cases hoff : (env.settings.trust_attendance_delta : Int) ≤ 0 ∨
      (env.settings.trust_attendance_daily_cap : Int) ≤ 0
  · rw [if_pos hoff, if_pos hoff, RewardPayer.post, if_neg (lt_irrefl 0)]
  · rw [if_neg hoff, if_neg hoff, runs_get_bind, RewardPayer.post]
    generalize hrest : (env.settings.trust_attendance_daily_cap : Int) -
      s.attendanceSince u (env.startOfDay env.now) = rest
    have hdelta : ¬ (env.settings.trust_attendance_delta : Int) ≤ 0 := fun h => hoff (.inl h)
    by_cases hzero : rest ≤ 0
    · rw [if_pos hzero, if_neg (by omega)]
    · rw [if_neg hzero, if_pos (by omega)]
      exact runs_discard

/-- The referrer's half in the transaction of `payReferral`. -/
theorem payHalf_eq {env : ReferralEnv} {u : UserId} {r : ReferralId} {s s' : ReferralDb}
    {amount : Int} :
    (∃ o, Runs (payHalf env (referrerMovement r u amount)) s o s') ↔
      ∃ db, Runs ((RewardPayer.referral u r).post env.env amount) s.db () db ∧
        s' = { s with db := db } := by
  by_cases hpos : 0 < amount
  · have hhalf : 0 < (referrerMovement r u amount).amount := hpos
    rw [payHalf, if_pos hhalf, RewardPayer.post, if_pos hpos]
    simp only [RewardPayer.credit, runs_drop, runs_map, joinedCoins, runs_within]
    constructor
    · rintro ⟨o, a, ⟨db, h, hs'⟩, -⟩
      exact ⟨db, ⟨a, h⟩, hs'⟩
    · rintro ⟨db, ⟨a, h⟩, hs'⟩
      exact ⟨some a, a, ⟨db, h, hs'⟩, rfl⟩
  · have hhalf : ¬ 0 < (referrerMovement r u amount).amount := hpos
    rw [payHalf, if_neg hhalf, RewardPayer.post, if_neg hpos]
    simp only [runs_pure]
    constructor
    · rintro ⟨o, -, rfl⟩
      exact ⟨s'.db, ⟨trivial, rfl⟩, rfl⟩
    · rintro ⟨db, ⟨-, rfl⟩, hs'⟩
      exact ⟨none, rfl, hs'⟩

/-- The bonus in the transaction of `settleOne`. -/
theorem payHost_eq {settlement : Settlement} {amount : Int} :
    (∃ paid, Runs (payHost env settlement amount .HOST_REWARD HOST_REWARD_REASON
      (.hostReward settlement.eventId)) s paid s') ↔
      Runs ((RewardPayer.host settlement).post env amount) s () s' := by
  rw [RewardPayer.post]
  by_cases hpos : 0 < amount
  · rw [if_pos hpos, RewardPayer.credit, runs_drop]
  · rw [if_neg hpos, payHost, if_neg hpos]
    simp [runs_pure]

end Services

/-! ## What a movement earns -/

section Earnings

variable {env : Env} {s s' : Db} {u : UserId} {k : CappedReward}

theorem earnings_congr (hcoins : s'.coinLedger = s.coinLedger)
    (htrust : s'.trustLedger = s.trustLedger) : s'.earnings u k = s.earnings u k := by
  cases k <;> simp only [Db.earnings, hcoins, htrust]

theorem earnings_coins {db : Db} (hk : k ≠ .attendance) : db.earnings u k =
    (db.coinLedger.rows.filter fun r =>
      decide (r.userId = u) && k.counts r.type r.reasonCode).map fun r =>
        (r.createdAt, k.weight r.amount) := by
  cases k with
  | attendance => exact absurd rfl hk
  | review | referral | host => rfl

/-- Only a movement of a type and reason that counts earns, and it earns what it moves. -/
theorem Movement.earnings {input : CoinMovementInput} {r : CoinPenalty}
    (h : Movement env input none s r s') (u : UserId) (k : CappedReward) :
    s'.earnings u k = s.earnings u k ∨
      (input.userId = u ∧ k.counts input.type input.reasonCode = true ∧
        s'.earnings u k = s.earnings u k ++ [(env.now, k.weight input.amount)]) := by
  have htrust := h.coinsOnly.trustLedger
  rcases h.outcome with ⟨hledger, -, -⟩ | ⟨-, -, id, -, hrows⟩
  · exact .inl (earnings_congr hledger htrust)
  · by_cases hk : k = .attendance
    · rw [hk]
      exact .inl (by simp only [Db.earnings, htrust])
    · rw [earnings_coins hk, earnings_coins hk, hrows, List.filter_append, List.map_append]
      by_cases hcounts : input.userId = u ∧ k.counts input.type input.reasonCode = true
      · refine .inr ⟨hcounts.1, hcounts.2, ?_⟩
        rw [List.filter_cons_of_pos (by simpa [ledgerRow] using hcounts)]
        rfl
      · left
        rw [List.filter_cons_of_neg (by simpa [ledgerRow] using hcounts)]
        simp

theorem writeTrustRow_appends {input : TrustMovementInput} {b : Int} {t : TrustLedgerRow}
    (h : Runs (writeTrustRow env input b) s t s') :
    s'.trustLedger.rows = s.trustLedger.rows ++ [t] ∧ t.userId = input.userId ∧
      t.type = input.type ∧ t.createdAt = env.now ∧
      t.delta = clampScore (t.scoreBefore + input.delta) - t.scoreBefore := by
  simp only [writeTrustRow, runs_get_bind, runs_insertRow_bind, runs_updateRow_bind,
    runs_pure] at h
  obtain ⟨table, hrows, _, -, table', -, rfl, rfl⟩ := h
  exact ⟨hrows, rfl, rfl, rfl, rfl⟩

theorem seedIfNeeded_appends {b r : Int} (h : Runs (seedIfNeeded env u b) s r s') :
    ∃ seeds, (∀ t ∈ seeds, t.type = .INITIAL) ∧
      s'.trustLedger.rows = s.trustLedger.rows ++ seeds := by
  simp only [seedIfNeeded, runs_ite] at h
  rcases h with ⟨-, h⟩ | ⟨-, h⟩
  · rw [(runs_pure.1 h).2]
    exact ⟨[], by simp, by simp⟩
  · rw [runs_get_bind] at h
    split at h
    · rw [(runs_pure.1 h).2]
      exact ⟨[], by simp, by simp⟩
    · rw [runs_bind] at h
      obtain ⟨t, s₁, hw, hpure⟩ := h
      obtain ⟨hrows, -, htype, -⟩ := writeTrustRow_appends hw
      rw [(runs_pure.1 hpure).2]
      exact ⟨[t], by simp [htype], hrows⟩

/-- Every row of a trust movement but its own is a starting score. -/
theorem applyTrust_appends {input : TrustMovementInput} {m : TrustMovement}
    (h : Runs (applyTrust env input) s m s') :
    ∃ seeds, (∀ t ∈ seeds, t.type = .INITIAL) ∧
      (s'.trustLedger.rows = s.trustLedger.rows ++ seeds ∨
        ∃ t, s'.trustLedger.rows = s.trustLedger.rows ++ seeds ++ [t] ∧ t.userId = input.userId ∧
          t.type = input.type ∧ t.createdAt = env.now ∧
          t.delta = clampScore (t.scoreBefore + input.delta) - t.scoreBefore) := by
  simp only [applyTrust, runs_guardTx_bind, runs_bind (m := insertRowOrIgnore _)] at h
  obtain ⟨-, _, s₁, hens, h⟩ := h
  obtain ⟨t, rfl, -⟩ := runs_insertRowOrIgnore hens
  rw [runs_get_bind, runs_bind] at h
  obtain ⟨score, s₂, hseed, h⟩ := h
  obtain ⟨seeds, hinitial, hrows⟩ := seedIfNeeded_appends hseed
  refine ⟨seeds, hinitial, ?_⟩
  rw [runs_get_bind] at h
  split at h
  · rw [(runs_pure.1 h).2]
    exact .inl hrows
  · rw [runs_bind] at h
    obtain ⟨written, s₃, hw, hpure⟩ := h
    rw [(runs_pure.1 hpure).2]
    obtain ⟨hlast, hown⟩ := writeTrustRow_appends hw
    refine .inr ⟨written, ?_, hown⟩
    rw [hlast, hrows]
    rfl

/-- A trust movement earns toward the cap of attendance when that is its type, and no more
    than it asks for. -/
theorem applyTrust_earnings {input : TrustMovementInput} {m : TrustMovement}
    (h : Runs (applyTrust env input) s m s') (u : UserId) (k : CappedReward) :
    s'.earnings u k = s.earnings u k ∨
      (input.userId = u ∧ k = .attendance ∧ input.type = .ATTENDANCE ∧ ∃ x,
        (0 ≤ input.delta → 0 ≤ x ∧ x ≤ input.delta) ∧
        s'.earnings u k = s.earnings u k ++ [(env.now, x)]) := by
  have hcoins := (applyTrust_trustOnly h).coinLedger
  cases k with
  | review | referral | host => exact .inl (by simp only [Db.earnings, hcoins])
  | attendance =>
    obtain ⟨seeds, hinitial, hrows⟩ := applyTrust_appends h
    have hnone : seeds.filter (fun r => decide (r.userId = u) && decide (r.type = .ATTENDANCE)) =
        [] := by
      refine List.filter_eq_nil_iff.2 fun t ht => ?_
      simp [hinitial t ht]
    rcases hrows with hrows | ⟨t, hrows, huser, htype, htime, hdelta⟩
    · left
      simp only [Db.earnings, hrows, List.filter_append, hnone, List.append_nil]
    · by_cases hcounts : input.userId = u ∧ input.type = .ATTENDANCE
      · refine .inr ⟨hcounts.1, rfl, hcounts.2, t.delta, fun hpos => ?_, ?_⟩
        · have hvalid := s'.trustLedger.valid t (by rw [hrows]; simp)
          have hrange : 0 ≤ t.scoreBefore ∧ t.scoreBefore ≤ 100 := by
            simp only [Row.check, TrustLedgerRow.constraints, Bool.and_eq_true,
              decide_eq_true_eq] at hvalid
            omega
          rw [hdelta]
          simp only [clampScore, TRUST_MIN_SCORE, TRUST_MAX_SCORE]
          omega
        · simp only [Db.earnings, hrows, List.filter_append, hnone, List.append_nil,
            List.map_append]
          congr 1
          simp [huser, htype, htime, hcounts]
      · left
        simp only [Db.earnings, hrows, List.filter_append, hnone, List.append_nil]
        rw [List.filter_cons_of_neg (by simpa [huser, htype] using hcounts)]
        simp

end Earnings

/-! ## What a payer owes, and what its credit earns -/

section Payers

variable {env : ReferralEnv} {payer : RewardPayer} {s s' : Db} {q : EarningCaps}

theorem earned_review {db : Db} {u : UserId} {since : Instant} :
    Rolling.earned (db.earnings u .review) since =
      Reviews.earnedSince db u since .REVIEW_REWARD := Rolling.earned_map_filter

theorem earned_host {db : Db} {u : UserId} {since : Instant} :
    Rolling.earned (db.earnings u .host) since = db.hostRewardsSince u since :=
  Rolling.earned_map_filter

theorem earned_attendance {db : Db} {u : UserId} {since : Instant} :
    Rolling.earned (db.earnings u .attendance) since = db.attendanceSince u since :=
  Rolling.earned_map_filter

theorem earned_referral {db : Db} {u : UserId} {since : Instant} :
    Rolling.earned (db.earnings u .referral) since = db.referrerRewardsSince u since := by
  refine Rolling.earned_map_filter.trans ?_
  simp only [CappedReward.weight, CappedReward.counts, List.map_const', List.sum_replicate,
    Db.referrerRewardsSince, Bool.and_assoc, nsmul_eq_mul, mul_one]

/-- A payer owes nothing, or no more than its price and than the cap leaves by its sum. -/
theorem owed_room (seen : q.Seen env) (hgoverns : q.Governs payer.kind) (db : Db) :
    payer.owed env db ≤ 0 ∨
      (payer.kind.weight (payer.owed env db) ≤ payer.price env ∧
        payer.kind.weight (payer.owed env db) + Rolling.earned (db.earnings payer.user payer.kind)
          (q.since payer.kind env.env.now) ≤ q.cap payer.kind) := by
  cases payer with
  | review u r =>
    obtain ⟨hcap, hdays⟩ := hgoverns
    simp only [RewardPayer.kind, EarningCaps.cap, ← seen.review, ← seen.days] at hcap hdays
    simp only [RewardPayer.owed, RewardPayer.kind, RewardPayer.user, RewardPayer.price,
      CappedReward.weight, EarningCaps.since, EarningCaps.cap, earned_review, Reviews.rewardFor,
      ← seen.review, ← seen.days]
    split <;> omega
  | referral u r =>
    obtain ⟨hcap, hdays⟩ := hgoverns
    simp only [RewardPayer.kind, EarningCaps.cap, ← seen.referral, ← seen.days] at hcap hdays
    simp only [RewardPayer.owed, RewardPayer.kind, RewardPayer.user, RewardPayer.price,
      CappedReward.weight, EarningCaps.since, EarningCaps.cap, earned_referral, referrerRewardFor,
      ← seen.referral, ← seen.days]
    split
    · exact .inl (le_refl 0)
    · split <;> omega
  | host settlement =>
    obtain ⟨hcap, hdays⟩ := hgoverns
    simp only [RewardPayer.kind, EarningCaps.cap, ← seen.host, ← seen.days] at hcap hdays
    simp only [RewardPayer.owed, RewardPayer.kind, RewardPayer.user, RewardPayer.price,
      CappedReward.weight, EarningCaps.since, EarningCaps.cap, earned_host, bonusFor,
      ← seen.host, ← seen.days]
    split <;> omega
  | attendance u p =>
    simp only [RewardPayer.owed, RewardPayer.kind, RewardPayer.user, RewardPayer.price,
      CappedReward.weight, EarningCaps.since, EarningCaps.cap, earned_attendance,
      RewardPayer.attendanceCredit, ← seen.attendance, ← seen.startOfDay]
    split <;> omega

theorem counts_unique {type : CoinLedgerType} {reasonCode : String} {k k' : CappedReward}
    (h : k.counts type reasonCode = true) (h' : k'.counts type reasonCode = true) : k = k' := by
  cases k <;> cases k' <;> simp_all [CappedReward.counts]

/-- A credit earns its user at most what was owed, and only toward the cap it is under. -/
theorem post_earnings {env : Env} {amount : Int} (h : Runs (payer.post env amount) s () s')
    (u : UserId) (k : CappedReward) :
    s'.earnings u k = s.earnings u k ∨
      (payer.user = u ∧ payer.kind = k ∧ 0 < amount ∧ ∃ x, 0 ≤ x ∧ x ≤ k.weight amount ∧
        s'.earnings u k = s.earnings u k ++ [(env.now, x)]) := by
  rw [RewardPayer.post, runs_ite] at h
  rcases h with ⟨hpos, h⟩ | ⟨-, h⟩
  · have hcoins : ∀ {input : CoinMovementInput} {r : CoinPenalty} {s' : Db},
        Runs (applyCoins env input) s r s' → input.amount = amount →
        input.userId = payer.user → payer.kind.counts input.type input.reasonCode = true →
        s'.earnings u k = s.earnings u k ∨
          (payer.user = u ∧ payer.kind = k ∧ 0 < amount ∧ ∃ x, 0 ≤ x ∧ x ≤ k.weight amount ∧
            s'.earnings u k = s.earnings u k ++ [(env.now, x)]) := by
      intro input r s' hrun hamount huser hkind
      rcases (applyCoins_spec hrun).1.earnings u k with hsame | ⟨hu, hcounts, hrows⟩
      · exact .inl hsame
      · refine .inr ⟨huser ▸ hu, counts_unique hkind hcounts, hpos, _, ?_, le_refl _,
          hamount ▸ hrows⟩
        cases k <;> simp only [CappedReward.weight] <;> omega
    cases payer with
    | review v r =>
      obtain ⟨a, h⟩ := runs_drop.1 h
      exact hcoins h rfl rfl rfl
    | referral v r =>
      obtain ⟨a, h⟩ := runs_drop.1 h
      exact hcoins h rfl rfl rfl
    | host settlement =>
      obtain ⟨paid, h⟩ := runs_drop.1 h
      rw [payHost, if_pos hpos, runs_bind] at h
      obtain ⟨r, s₁, h, hpure⟩ := h
      rw [(runs_pure.1 hpure).2]
      exact hcoins h rfl rfl rfl
    | attendance v p =>
      obtain ⟨m, h⟩ := runs_drop.1 h
      rcases applyTrust_earnings h u k with hsame | ⟨hu, rfl, -, x, hx, hrows⟩
      · exact .inl hsame
      · have hrange := hx (le_of_lt hpos)
        exact .inr ⟨hu, rfl, hpos, x, hrange.1, hrange.2, hrows⟩
  · rw [(runs_pure.1 h).2]
    exact .inl rfl

end Payers

/-! ## The system -/

/-- A payer between its sum and its credit. -/
structure Payment (q : EarningCaps) where
  env : ReferralEnv
  seen : q.Seen env
  payer : RewardPayer
  /-- What the user had earned in the window, when it was added up. -/
  summed : Int
  amount : Int

/-- A transaction of another service, which pays none of the four rewards. -/
structure UncappedWork where
  act : Act Unit
  kept : ∀ s s', Runs act s () s' → ∀ u k, s'.earnings u k = s.earnings u k

/-- A coin movement that counts toward no cap. -/
def UncappedWork.moveCoins (env : Env) (input : CoinMovementInput)
    (h : ∀ k : CappedReward, k.counts input.type input.reasonCode = false) : UncappedWork where
  act := drop (applyCoins env input)
  kept s s' hrun u k := by
    obtain ⟨r, hrun⟩ := runs_drop.1 hrun
    rcases (applyCoins_spec hrun).1.earnings u k with hsame | ⟨-, hcounts, -⟩
    · exact hsame
    · rw [h k] at hcounts
      cases hcounts

/-- A trust movement of another type than attendance. -/
def UncappedWork.moveTrust (env : Env) (input : TrustMovementInput)
    (h : input.type ≠ .ATTENDANCE) : UncappedWork where
  act := drop (applyTrust env input)
  kept s s' hrun u k := by
    obtain ⟨m, hrun⟩ := runs_drop.1 hrun
    rcases applyTrust_earnings hrun u k with hsame | ⟨-, -, htype, -⟩
    · exact hsame
    · exact absurd htype h

/-- The database, and the payment each worker has in progress. -/
abbrev EarningWorld (q : EarningCaps) := Threads Nat Db (Option (Payment q))

inductive EarningMove (q : EarningCaps) where
  /-- Worker `i` adds up what the user has earned, and finds what it owes. -/
  | sum (i : Nat) (env : ReferralEnv) (seen : q.Seen env) (payer : RewardPayer)
  /-- Worker `i` credits it, and commits or fails. -/
  | pay (i : Nat)
  /-- Worker `i` is gone, and its transaction with it. -/
  | crash (i : Nat)
  | other (work : UncappedWork)

variable {q : EarningCaps}

namespace Payment

/-- What the user has earned in the window of the payment. -/
def earned (f : Payment q) (db : Db) : Int :=
  Rolling.earned (db.earnings f.payer.user f.payer.kind) (q.since f.payer.kind f.env.env.now)

/-- The payment still goes by what it read: it pays nothing, or the user has earned no more
    in the window since, or the whole reward fits what is there now. -/
def InTime (f : Payment q) (db : Db) : Prop :=
  q.cap f.payer.kind ≤ f.summed ∨ f.earned db ≤ f.summed ∨
    f.payer.price f.env + f.earned db ≤ q.cap f.payer.kind

instance (f : Payment q) (db : Db) : Decidable (f.InTime db) :=
  inferInstanceAs (Decidable (_ ∨ _ ∨ _))

end Payment

namespace EarningWorld

def exec (w : EarningWorld q) : EarningMove q → Option (EarningWorld q)
  | .sum i env seen payer =>
    match w.locals i with
    | none => some (w.set i w.shared (some
        { env := env, seen := seen, payer := payer, amount := payer.owed env w.shared
          summed := Rolling.earned (w.shared.earnings payer.user payer.kind)
            (q.since payer.kind env.env.now) }))
    | some _ => none
  | .pay i =>
    match w.locals i with
    | some f => some (w.set i (commit (f.payer.post f.env.env f.amount) w.shared) none)
    | none => none
  | .crash i =>
    match w.locals i with
    | some _ => some (w.set i w.shared none)
    | none => none
  | .other work => some { w with shared := commit work.act w.shared }

def Step (w : EarningWorld q) (m : EarningMove q) (w' : EarningWorld q) : Prop :=
  w.exec m = some w'

/-- Empty ledgers, nobody paying. -/
def Init (w : EarningWorld q) : Prop := w.shared = Db.initial ∧ ∀ i, w.locals i = none

/-- A payment is only made in time. -/
def Timely (w : EarningWorld q) : EarningMove q → Prop
  | .pay i => ∀ f ∈ w.locals i, f.InTime w.shared
  | _ => True

instance (w : EarningWorld q) : DecidablePred w.Timely
  | .sum .. | .crash _ | .other _ => .isTrue trivial
  | .pay i => inferInstanceAs (Decidable (∀ f ∈ w.locals i, f.InTime w.shared))

end EarningWorld

/-! ## The invariant -/

/-- What a user has earned of one kind is non-negative, and capped where the cap is on. -/
structure EarningsKept (q : EarningCaps) (db : Db) (u : UserId) (k : CappedReward) : Prop where
  nonneg : ∀ e ∈ db.earnings u k, 0 ≤ e.2
  capped : q.Governs k → Rolling.Capped (q.since k) (q.cap k) (db.earnings u k)

/-- What a payment in progress relies on: it owes nothing, or no more than its price and
    than the cap left by its sum. -/
def Payment.Sound (f : Payment q) : Prop :=
  q.Governs f.payer.kind → f.amount ≤ 0 ∨
    (f.payer.kind.weight f.amount ≤ f.payer.price f.env ∧
      f.payer.kind.weight f.amount + f.summed ≤ q.cap f.payer.kind)

/-- Between moves: every earning is kept, every payment in progress sound. -/
structure EarningWorld.Sound (w : EarningWorld q) : Prop where
  kept : ∀ u k, EarningsKept q w.shared u k
  payments : ∀ i f, w.locals i = some f → f.Sound

section Steps

variable {w w' : EarningWorld q} {s s' : Db} {u : UserId} {k : CappedReward}

theorem EarningsKept.initial : EarningsKept q Db.initial u k := by
  have hempty : Db.initial.earnings u k = [] := by cases k <;> rfl
  refine ⟨?_, fun _ => ?_⟩
  · rw [hempty]
    simp
  · rw [hempty]
    exact .nil (q.cap_nonneg k)

theorem EarningsKept.congr (h : EarningsKept q s u k)
    (hsame : s'.earnings u k = s.earnings u k) : EarningsKept q s' u k :=
  ⟨by rw [hsame]; exact h.nonneg, by rw [hsame]; exact h.capped⟩

/-- A payment that is still in time credits no more than the window has room for. -/
theorem Payment.room {f : Payment q} (h : f.Sound) (hgoverns : q.Governs f.payer.kind)
    (hpos : 0 < f.amount) (hintime : f.InTime s) :
    f.earned s + f.payer.kind.weight f.amount ≤ q.cap f.payer.kind := by
  have hweight : 0 < f.payer.kind.weight f.amount := by
    cases f.payer.kind <;> simp only [CappedReward.weight] <;> omega
  rcases h hgoverns with hzero | ⟨hprice, hfits⟩
  · omega
  · rcases hintime with hspent | hstill | hroom <;> omega

/-- The credit of a payment in time keeps the earnings of everybody. -/
theorem EarningsKept.pay {f : Payment q} (h : EarningsKept q s u k) (hf : f.Sound)
    (hintime : f.InTime s)
    (hrun : Runs (f.payer.post f.env.env f.amount) s () s') : EarningsKept q s' u k := by
  rcases post_earnings hrun u k with hsame | ⟨rfl, rfl, hpos, x, hx, hle, hrows⟩
  · exact h.congr hsame
  · refine ⟨fun e he => ?_, fun hgoverns => ?_⟩
    · rw [hrows] at he
      rcases List.mem_append.1 he with hold | hnew
      · exact h.nonneg e hold
      · rw [List.mem_singleton.1 hnew]
        exact hx
    · rw [hrows]
      have hroom := Payment.room hf hgoverns hpos hintime
      refine (h.capped hgoverns).append (q.since_mono _) h.nonneg ?_
      exact (add_le_add_right hle _).trans hroom

theorem EarningWorld.Sound.init (h : w.Init) : w.Sound where
  kept u k := by
    rw [h.1]
    exact .initial
  payments i f hf := by
    rw [h.2 i] at hf
    cases hf

/-- Only the worker that moves changes what it has in progress. -/
theorem EarningWorld.Sound.set (h : w.Sound) {i : Nat} {l : Option (Payment q)}
    (hkept : ∀ u k, EarningsKept q s u k) (hl : ∀ f, l = some f → f.Sound) :
    EarningWorld.Sound (w.set i s l) where
  kept := hkept
  payments j f hf := by
    by_cases hj : j = i
    · subst hj
      rw [Threads.set_locals_self] at hf
      exact hl f hf
    · rw [Threads.set_locals_ne hj] at hf
      exact h.payments j f hf

theorem EarningWorld.Sound.step {m : EarningMove q} (h : w.Sound) (hg : w.Timely m)
    (hstep : w.Step m w') : w'.Sound := by
  cases m with
  | sum i env seen payer =>
    cases hl : w.locals i with
    | some f => simp [EarningWorld.Step, EarningWorld.exec, hl] at hstep
    | none =>
      simp only [EarningWorld.Step, EarningWorld.exec, hl, Option.some.injEq] at hstep
      rw [← hstep]
      refine h.set h.kept fun f hf => ?_
      obtain rfl := Option.some.inj hf
      exact fun hgoverns => owed_room seen hgoverns w.shared
  | pay i =>
    cases hl : w.locals i with
    | none => simp [EarningWorld.Step, EarningWorld.exec, hl] at hstep
    | some f =>
      simp only [EarningWorld.Step, EarningWorld.exec, hl, Option.some.injEq] at hstep
      have hintime := hg f hl
      rw [← hstep]
      refine h.set (fun u k => ?_) fun f hf => nomatch hf
      rcases commit_cases (f.payer.post f.env.env f.amount) w.shared with ⟨_, hrun⟩ | hsame
      · exact (h.kept u k).pay (h.payments i f hl) hintime hrun
      · rw [hsame]
        exact h.kept u k
  | crash i =>
    cases hl : w.locals i with
    | none => simp [EarningWorld.Step, EarningWorld.exec, hl] at hstep
    | some f =>
      simp only [EarningWorld.Step, EarningWorld.exec, hl, Option.some.injEq] at hstep
      rw [← hstep]
      exact h.set h.kept fun f hf => nomatch hf
  | other work =>
    simp only [EarningWorld.Step, EarningWorld.exec, Option.some.injEq] at hstep
    rw [← hstep]
    refine ⟨fun u k => ?_, h.payments⟩
    rcases commit_cases work.act w.shared with ⟨_, hrun⟩ | hsame
    · exact (h.kept u k).congr (work.kept _ _ hrun u k)
    · show EarningsKept q (commit work.act w.shared) u k
      rw [hsame]
      exact h.kept u k

end Steps

/-! ## The caps -/

/-- As long as every payment is made in time, nobody earns more of a reward in any window
    than its cap. -/
theorem earning_caps_kept {w : EarningWorld q}
    (h : Reach EarningWorld.Init EarningWorld.Step EarningWorld.Timely w) (u : UserId)
    {k : CappedReward} (hk : q.Governs k) (t : Instant) :
    Rolling.earnedIn (w.shared.earnings u k) (q.since k t) t ≤ q.cap k := by
  have hsound : w.Sound :=
    h.invariant (I := EarningWorld.Sound) (fun _ => EarningWorld.Sound.init)
      fun _ _ _ hI hg hstep => hI.step hg hstep
  exact (hsound.kept u k).capped hk t

/-! ## Two reviews sent at once -/

/-- The default settings, with room for one review reward. -/
def oneReviewCaps : EarningCaps where
  reviewRewardCap := 5
  referralRewardCap := 3
  hostRewardCap := 20
  earningCapDays := 30
  attendanceDailyCap := 2
  startOfDay t := t - t % (24 * msPerHour)
  startOfDay_mono := monotone_startOfDay

def oneReviewEnv (hours : Int) : ReferralEnv :=
  { demoReferralEnv hours with
    env := { demoEnv hours with
      settings := { Settings.defaults with economy_review_reward_cap := 5 } } }

theorem oneReviewEnv_seen (hours : Int) : oneReviewCaps.Seen (oneReviewEnv hours) :=
  ⟨rfl, rfl, rfl, rfl, rfl, rfl⟩

def noEarnings : EarningWorld oneReviewCaps := ⟨Db.initial, fun _ => none⟩

theorem noEarnings_init : noEarnings.Init := ⟨rfl, fun _ => rfl⟩

/-- User 7 sends one review, and a second one after the first is paid. -/
def oneAfterTheOther : List (EarningMove oneReviewCaps) :=
  [.sum 0 (oneReviewEnv 1) (oneReviewEnv_seen 1) (.review 7 1), .pay 0,
    .sum 1 (oneReviewEnv 2) (oneReviewEnv_seen 2) (.review 7 2), .pay 1]

/-- User 7 sends two reviews, and both calls add up before either pays. -/
def bothAtOnce : List (EarningMove oneReviewCaps) :=
  [.sum 0 (oneReviewEnv 1) (oneReviewEnv_seen 1) (.review 7 1),
    .sum 1 (oneReviewEnv 2) (oneReviewEnv_seen 2) (.review 7 2), .pay 0, .pay 1]

theorem earning_caps_kept_review : ∃ w : EarningWorld oneReviewCaps,
    w.shared.earnings 7 .review = [(msPerHour, 5)] ∧
    Rolling.earnedIn (w.shared.earnings 7 .review)
      (oneReviewCaps.since .review (2 * msPerHour)) (2 * msPerHour) ≤
      oneReviewCaps.cap .review := by
  have hrun : ((runList EarningWorld.exec noEarnings oneAfterTheOther).any fun w =>
      decide (w.shared.earnings 7 .review = [(msPerHour, 5)])) = true := by decide
  have hguard : guardList EarningWorld.exec (fun w m => decide (w.Timely m)) noEarnings
      oneAfterTheOther = true := by decide
  obtain ⟨w, hw, hpaid⟩ := (Option.any_eq_true _ _).1 hrun
  have hreach := reach_of_runList (G := EarningWorld.Timely)
    (g := fun w m => decide (w.Timely m)) (fun _ _ _ h => h) (fun _ _ h => of_decide_eq_true h)
    (.start noEarnings_init) hguard hw
  exact ⟨w, of_decide_eq_true hpaid, earning_caps_kept hreach 7 (by decide) (2 * msPerHour)⟩

/-- Both calls found the whole allowance free, and both were paid. -/
theorem cap_passed_twice : ∃ w : EarningWorld oneReviewCaps,
    Reachable EarningWorld.Init EarningWorld.Step w ∧ oneReviewCaps.Governs .review ∧
      oneReviewCaps.cap .review <
        Rolling.earnedIn (w.shared.earnings 7 .review)
          (oneReviewCaps.since .review (2 * msPerHour)) (2 * msPerHour) := by
  have hrun : ((runList EarningWorld.exec noEarnings bothAtOnce).any fun w =>
      decide (oneReviewCaps.cap .review < Rolling.earnedIn (w.shared.earnings 7 .review)
        (oneReviewCaps.since .review (2 * msPerHour)) (2 * msPerHour))) = true := by decide
  obtain ⟨w, hw, hover⟩ := (Option.any_eq_true _ _).1 hrun
  exact ⟨w, reachable_of_runList (fun _ _ _ h => h) (.start noEarnings_init) hw, by decide,
    of_decide_eq_true hover⟩

end Paayatam
