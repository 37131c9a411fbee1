/-
  Paayatam.Economy.ReferralRuns

  Claims, settlements and payouts at once.

  A settlement commits and then pays its guests one by one; a claim inserts its
  row and then pays once.  Paying is reading the referral, reading whether its
  user has attended, and one transaction.  Each of these is a step of the
  worker's, every other operation goes on in between, and a worker may be gone
  at any point.  What a settlement has still to pay is known to its worker
  alone.
-/

import Paayatam.Economy.Referral
import Paayatam.Economy.Funds
import Paayatam.Booking.Postings
import Paayatam.Booking.Frame
import Paayatam.Lib.Threads

namespace Paayatam

open Lib

/-! ## The system -/

/-- How far `qualifyForAttendance` has come for one user. -/
inductive PayStage where
  | begun
  /-- The referral is PENDING, and this is who invited. -/
  | pending (referralId : ReferralId) (referrerUserId : UserId)
  /-- The user has attended. -/
  | attended (referralId : ReferralId) (referrerUserId : UserId)

/-- What a worker is at. -/
inductive ReferralWork where
  /-- A claim before its insert. -/
  | claiming (now : Instant) (claim : CheckedClaim)
  /-- `qualifyForAttendance` for a user, and the users after it. -/
  | paying (userId : UserId) (rest : List UserId) (stage : PayStage)

/-- The users a worker has still to pay. -/
def ReferralWork.owes : ReferralWork → List UserId
  | .claiming _ _ => []
  | .paying u rest _ => u :: rest

/-- The work that is left when these users are. -/
def payingOf : List UserId → Option ReferralWork
  | [] => none
  | u :: rest => some (.paying u rest .begun)

/-- The world of the bookings, and the tables of the referrals. -/
structure ReferralShared where
  world : World
  referrals : Table ReferralRow
  announced : List ReferralQualified

namespace ReferralShared

def store (s : ReferralShared) : ReferralDb := ⟨s.world.db, s.referrals, s.announced⟩

def put (s : ReferralShared) (store : ReferralDb) : ReferralShared where
  world := { s.world with db := store.db }
  referrals := store.referrals
  announced := store.announced

end ReferralShared

/-- Not a settlement, and not a movement under the key of a referral reward. -/
structure Unreferred (op : Op) : Prop where
  settles : ∀ e, op ≠ .settleOne e
  moves : ∀ m, op = .moveCoins m → ∀ r,
    m.input.idempotencyKey ≠ referrerRewardKey r ∧ m.input.idempotencyKey ≠ referredRewardKey r

abbrev ReferralWorld := Threads Nat ReferralShared (Option ReferralWork)

inductive ReferralMove where
  /-- Worker `i` commits the settlement of an event. -/
  | settle (i : Nat) (env : Env) (e : EventId)
  /-- Worker `i` starts a claim, and checks it. -/
  | claim (i : Nat) (env : ReferralEnv) (userId : UserId) (rawCode : String)
  /-- Worker `i` inserts its claim, or is told that somebody was first. -/
  | insert (i : Nat)
  /-- Worker `i` reads the referral of the user it is to pay. -/
  | look (i : Nat)
  /-- Worker `i` reads whether that user has attended. -/
  | attend (i : Nat)
  /-- Worker `i` pays, and goes on to the next user. -/
  | pay (i : Nat) (env : ReferralEnv)
  /-- Worker `i` is gone. -/
  | crash (i : Nat)
  /-- Any other operation. -/
  | call (c : Call) (unreferred : Unreferred c.op)

namespace ReferralWorld

def db (w : ReferralWorld) : Db := w.shared.world.db

def store (w : ReferralWorld) : ReferralDb := w.shared.store

/-- The referral waits for its user to attend. -/
def Pending (w : ReferralWorld) (r : ReferralRow) : Prop :=
  r ∈ w.shared.referrals.rows ∧ r.status = .PENDING

/-- The users a settlement answers. -/
def settledUsers (env : Env) (e : EventId) (db : Db) : List UserId :=
  match (settleOne env e).run db with
  | .ok (users, _) => users
  | .error _ => []

def exec (w : ReferralWorld) : ReferralMove → Option ReferralWorld
  | .settle i env e =>
    match w.locals i, w.shared.world.exec ⟨env, .settleOne e⟩ with
    | none, some world =>
      some (w.set i { w.shared with world := world } (payingOf (settledUsers env e w.db)))
    | _, _ => none
  | .claim i env userId rawCode =>
    match w.locals i, (checkClaim env userId rawCode).run w.store with
    | none, .ok (claim, _) => some (w.set i w.shared (some (.claiming env.env.now claim)))
    | _, _ => none
  | .insert i =>
    match w.locals i with
    | some (.claiming now claim) =>
      match (insertClaim now claim).run w.store with
      | .ok (_, store) => some (w.set i (w.shared.put store) (payingOf [claim.userId]))
      | .error _ => some (w.set i w.shared none)
    | _ => none
  | .look i =>
    match w.locals i with
    | some (.paying u rest .begun) =>
      match w.store.referralOf u with
      | some r =>
        if r.status = .PENDING then
          some (w.set i w.shared (some (.paying u rest (.pending r.id r.referrerUserId))))
        else some (w.set i w.shared (payingOf rest))
      | none => some (w.set i w.shared (payingOf rest))
    | _ => none
  | .attend i =>
    match w.locals i with
    | some (.paying u rest (.pending id referrer)) =>
      if w.db.hasAttended u = true then
        some (w.set i w.shared (some (.paying u rest (.attended id referrer))))
      else some (w.set i w.shared (payingOf rest))
    | _ => none
  | .pay i env =>
    match w.locals i with
    | some (.paying u rest (.attended id referrer)) =>
      match (payReferral env id referrer u).run w.store with
      | .ok (_, store) => some (w.set i (w.shared.put store) (payingOf rest))
      -- an error ends the loop over the users
      | .error _ => some (w.set i w.shared none)
    | _ => none
  | .crash i =>
    match w.locals i with
    | some _ => some (w.set i w.shared none)
    | none => none
  | .call c _ =>
    match w.shared.world.exec c with
    | some world => some { w with shared := { w.shared with world := world } }
    | none => none

def Step (w : ReferralWorld) (m : ReferralMove) (w' : ReferralWorld) : Prop := w.exec m = some w'

/-- Empty tables, and nobody at work. -/
def Init (w : ReferralWorld) : Prop :=
  w.shared.world.Init ∧ w.shared.referrals = Table.empty ∧ ∀ i, w.locals i = none

/-- No call is in flight. -/
def Quiet (w : ReferralWorld) : Prop := ∀ i, w.locals i = none

end ReferralWorld

/-- The steps of a run. -/
abbrev ReferralTrace := List (ReferralWorld × ReferralMove × ReferralWorld)

/-! ## What a payout does -/

/-- The ledger row is a half of the reward of the referral. -/
def IsHalfOf (r : ReferralRow) (l : CoinLedgerRow) : Prop :=
  l.type = .REFERRAL_REWARD ∧
    ((l.idempotencyKey = referrerRewardKey r.id ∧ l.userId = r.referrerUserId) ∨
      (l.idempotencyKey = referredRewardKey r.id ∧ l.userId = r.referredUserId))

/-- Same referral: who invited whom does not change. -/
structure SameReferral (r r' : ReferralRow) : Prop where
  id : r'.id = r.id
  referrer : r'.referrerUserId = r.referrerUserId
  referred : r'.referredUserId = r.referredUserId

theorem SameReferral.refl (r : ReferralRow) : SameReferral r r := ⟨rfl, rfl, rfl⟩

/-- A committed payout of the referral `r`. -/
structure PaidOut (r : ReferralRow) (s s' : ReferralDb) : Prop where
  coinsOnly : CoinsOnly s.db s'.db
  linked : s.db.Linked → s'.db.Linked
  ledger : ∃ added, s'.db.coinLedger.rows = s.db.coinLedger.rows ++ added ∧
    ∀ l ∈ added, IsHalfOf r l
  pending : r.status = .PENDING
  found : s.referrals.find? r.id = some r
  referrals : ∃ r', r'.status = .QUALIFIED ∧ SameReferral r r' ∧
    ∀ k, s'.referrals.find? k = if r.id = k then some r' else s.referrals.find? k

section Payout

variable {env : ReferralEnv} {s s' : ReferralDb} {r : ReferralRow} {id : ReferralId}

theorem IsHalfOf.same {r' : ReferralRow} {l : CoinLedgerRow} (h : IsHalfOf r l)
    (hsame : SameReferral r r') : IsHalfOf r' l := by
  obtain ⟨htype, ⟨hkey, huser⟩ | ⟨hkey, huser⟩⟩ := h
  · exact ⟨htype, .inl ⟨by rw [hkey, hsame.id], by rw [huser, hsame.referrer]⟩⟩
  · exact ⟨htype, .inr ⟨by rw [hkey, hsame.id], by rw [huser, hsame.referred]⟩⟩

/-- A half pays its movement, or nothing. -/
theorem payHalf_spec {input : CoinMovementInput} {o : Option CoinPenalty}
    (hforward : input.Forward) (h : Runs (payHalf env input) s o s') :
    CoinsOnly s.db s'.db ∧ (s.db.Linked → s'.db.Linked) ∧ s'.referrals = s.referrals ∧
      s'.announced = s.announced ∧
      ∃ added, s'.db.coinLedger.rows = s.db.coinLedger.rows ++ added ∧
        ∀ l ∈ added, RowOf input l := by
  rw [payHalf, runs_ite] at h
  rcases h with ⟨-, h⟩ | ⟨-, h⟩
  · simp only [runs_map, joinedCoins, runs_within] at h
    obtain ⟨a, ⟨db, happly, rfl⟩, -⟩ := h
    have hposts := applyCoins_posts (R := fun _ => False) (T := fun _ => False) happly hforward
    obtain ⟨added, hrows, hnew⟩ := hposts.coins
    refine ⟨(applyCoins_spec happly).1.coinsOnly, fun hlinked => hposts.coins.linked hlinked, rfl,
      rfl, added, hrows, fun l hl => ?_⟩
    rcases (hnew l hl).1 with ⟨-, hrow, -⟩ | ⟨_, _, _, hno⟩
    · exact hrow
    · exact hno.elim
  · rw [(runs_pure.1 h).2]
    exact ⟨.refl _, fun h => h, rfl, rfl, [], by simp, by simp⟩

/-- The conditional update qualifies a referral that was PENDING, or does nothing. -/
theorem claimQualification_spec {now : Instant} {b : Bool}
    (h : Runs (claimQualification now id) s b s') :
    (b = false ∧ s' = s ∧ ∀ r, s.referrals.find? id = some r → r.status ≠ .PENDING) ∨
    (b = true ∧ ∃ r t, s.referrals.find? id = some r ∧ r.status = .PENDING ∧
      s.referrals.Rewrites r (ReferralRow.qualified now) t ∧
      s' = { s with referrals := t }) := by
  rw [claimQualification, runs_findRow_bind, table_referrals] at h
  cases hfound : s.referrals.find? id with
  | none =>
    simp only [hfound, runs_pure] at h
    exact .inl ⟨h.1, h.2, by simp⟩
  | some r =>
    simp only [hfound, runs_ite, runs_updateRow_bind, runs_pure] at h
    rcases h with ⟨hpending, r', hr', t, ht, hb, rfl⟩ | ⟨hnot, hb, rfl⟩
    · obtain rfl := Option.some.inj (hfound.symm.trans hr')
      exact .inr ⟨hb, r, t, rfl, hpending, ht, rfl⟩
    · refine .inl ⟨hb, rfl, fun r' hr' => ?_⟩
      obtain rfl := Option.some.inj hr'
      exact hnot

theorem nameReward_spec {o : Option CoinPenalty} (h : Runs (nameReward id o) s () s') :
    s' = s ∨ ∃ r l t, s.referrals.find? id = some r ∧
      s.referrals.Rewrites r (ReferralRow.rewarded l) t ∧
      s' = { s with referrals := t } := by
  cases o with
  | none => exact .inl (runs_pure.1 h).2
  | some movement =>
    obtain ⟨r, hr, t, ht, rfl⟩ := runs_updateRow.1 h
    exact .inr ⟨r, _, t, hr, ht, rfl⟩

/-- A payout finds its referral PENDING, qualifies it and pays its halves; or it does
    nothing. -/
theorem payReferral_spec {referrer u : UserId} {b : Bool}
    (hknown : ∀ r, s.referrals.find? id = some r → r.referrerUserId = referrer ∧
      r.referredUserId = u) (h : Runs (payReferral env id referrer u) s b s') :
    s' = s ∧ (∀ r, s.referrals.find? id = some r → r.status ≠ .PENDING) ∨
      ∃ r, r.id = id ∧ PaidOut r s s' := by
  rw [payReferral, runs_bind] at h
  obtain ⟨claimed, s₁, hclaim, h⟩ := h
  rcases claimQualification_spec hclaim with ⟨rfl, rfl, hnot⟩ | ⟨rfl, r, t, hr, hpending, ht, rfl⟩
  · exact .inl ⟨(runs_pure.1 h).2, hnot⟩
  · right
    rw [if_pos rfl, runs_get_bind] at h
    obtain ⟨hreferrer, hreferred⟩ := hknown r hr
    have hid : r.id = id := Table.key_of_find? hr
    simp only at h
    rw [runs_bind] at h
    obtain ⟨reward, s₂, hhalf, h⟩ := h
    rw [runs_bind] at h
    obtain ⟨_, s₃, hother, h⟩ := h
    rw [runs_bind] at h
    obtain ⟨_, s₄, hname, h⟩ := h
    simp only [runs_modify_bind, runs_pure] at h
    obtain ⟨-, rfl⟩ := h
    obtain ⟨hcoins₂, hlinked₂, hrefs₂, -, added₂, hrows₂, hnew₂⟩ :=
      payHalf_spec ⟨rfl, fun l => by simp [referrerMovement, referrerRewardKey]⟩ hhalf
    obtain ⟨hcoins₃, hlinked₃, hrefs₃, -, added₃, hrows₃, hnew₃⟩ :=
      payHalf_spec ⟨rfl, fun l => by simp [referredMovement, referredRewardKey]⟩ hother
    have hrefs : s₃.referrals = t := hrefs₃.trans hrefs₂
    have hdb : s₄.db = s₃.db ∧ ∃ r', r'.status = .QUALIFIED ∧ SameReferral r r' ∧
        ∀ k, s₄.referrals.find? k = if r.id = k then some r' else s.referrals.find? k := by
      rcases nameReward_spec hname with rfl | ⟨x, l, t', hx, ht', rfl⟩
      · refine ⟨rfl, r.qualified env.env.now, rfl, ⟨rfl, rfl, rfl⟩, fun k => ?_⟩
        rw [hrefs]
        exact ht.find? rfl k
      · rw [hrefs] at hx ht'
        have hself : t.find? id = some (r.qualified env.env.now) :=
          (ht.find? rfl id).trans (if_pos hid)
        obtain rfl := Option.some.inj (hx.symm.trans hself)
        refine ⟨rfl, (r.qualified env.env.now).rewarded l, rfl, ⟨rfl, rfl, rfl⟩, fun k => ?_⟩
        refine (ht'.find? rfl k).trans ?_
        by_cases hk : r.id = k
        · exact (if_pos hk).trans (if_pos hk).symm
        · exact (if_neg hk).trans ((ht.find? rfl k).trans ((if_neg hk).trans (if_neg hk).symm))
    refine ⟨r, hid, ?_, fun hlinked => ?_, ⟨added₂ ++ added₃, ?_, fun l hl => ?_⟩, hpending, ?_,
      hdb.2⟩
    · show CoinsOnly s.db s₄.db
      rw [hdb.1]
      unfold CoinsOnly at hcoins₂ hcoins₃ ⊢
      rw [hcoins₃, hcoins₂]
    · show s₄.db.Linked
      rw [hdb.1]
      exact hlinked₃ (hlinked₂ hlinked)
    · show s₄.db.coinLedger.rows = _
      rw [hdb.1, hrows₃, hrows₂, List.append_assoc]
    · rcases List.mem_append.1 hl with hl | hl
      · obtain ⟨huser, htype, hkey, -⟩ := hnew₂ l hl
        exact ⟨htype, .inl ⟨by rw [hkey, hid]; rfl, by rw [huser, hreferrer]; rfl⟩⟩
      · obtain ⟨huser, htype, hkey, -⟩ := hnew₃ l hl
        exact ⟨htype, .inr ⟨by rw [hkey, hid]; rfl, by rw [huser, hreferred]; rfl⟩⟩
    · rw [hid]
      exact hr

/-- A credit does not fail. -/
theorem applyCoins_credits {env : Env} {input : CoinMovementInput} {s : Db}
    (hpos : 0 < input.amount) (htype : input.type ≠ .REVERSAL)
    (hnone : input.reversesLedgerId = none) : Succeeds (applyCoins env input) s := by
  have happly : Succeeds (applyWithin env input none) s := by
    refine applyWithin_succeeds (ne_of_gt hpos) ?_ (fun l hl => ?_) fun _ => ?_
    · simp [CoinMovementInput.Typed, htype, hnone]
    · rw [hnone] at hl
      cases hl
    · have hbalance := s.balanceOf_nonneg input.userId
      simp only [cappedAmount, Option.isSome_none, Bool.false_eq_true, if_false]
      omega
  rw [applyCoins]
  refine happly.bind fun r s₁ hrun => ?_
  have hsome : r.ledgerId.isSome = true := by
    rcases (applyWithin_spec hrun).2.outcome with
      ⟨-, -, ⟨x, -, hid⟩ | ⟨-, -, hno⟩⟩ | ⟨-, -, id, hid, -⟩
    · rw [hid]
      rfl
    · cases hno
    · rw [hid]
      rfl
  rw [succeeds_guardTx_bind]
  exact ⟨hsome, succeeds_pure⟩

theorem payHalf_succeeds {input : CoinMovementInput} (htype : input.type ≠ .REVERSAL)
    (hnone : input.reversesLedgerId = none) : Succeeds (payHalf env input) s := by
  rw [payHalf]
  refine succeeds_ite (fun hpos => ?_) fun _ => succeeds_pure
  have hcredits : Succeeds (applyCoins env.env input) s.db := applyCoins_credits hpos htype hnone
  obtain ⟨a, db, happly⟩ := hcredits
  exact ⟨some a, { s with db := db }, runs_map.2 ⟨a, runs_within.2 ⟨db, happly, rfl⟩, rfl⟩⟩

theorem claimQualification_succeeds {now : Instant} : Succeeds (claimQualification now id) s := by
  rw [claimQualification, succeeds_findRow_bind, table_referrals]
  cases hfound : s.referrals.find? id with
  | none => exact succeeds_pure
  | some r =>
    refine succeeds_ite (fun hpending => ?_) fun _ => succeeds_pure
    have hvalid := s.referrals.valid r (Table.mem_of_find? hfound)
    simp only [Row.check, ReferralRow.constraints, hpending, Bool.and_eq_true,
      decide_eq_true_eq] at hvalid
    have hcheck : Row.check (r.qualified now) = true := by
      simp [Row.check, ReferralRow.constraints, ReferralRow.qualified, hvalid.1.1]
    exact (succeeds_updateRow hfound rfl hcheck fun _ => rfl).bind fun _ _ _ => succeeds_pure

theorem nameReward_succeeds {o : Option CoinPenalty} {r : ReferralRow}
    (hr : s.referrals.find? id = some r) (hqualified : r.status = .QUALIFIED) :
    Succeeds (nameReward id o) s := by
  cases o with
  | none => exact succeeds_pure
  | some movement =>
    have hvalid := s.referrals.valid r (Table.mem_of_find? hr)
    have hcheck : Row.check (r.rewarded movement.ledgerId) = true := by
      simp only [Row.check, ReferralRow.constraints, ReferralRow.rewarded, hqualified] at hvalid ⊢
      simp only [Bool.and_eq_true] at hvalid ⊢
      exact ⟨hvalid.1, by simp⟩
    exact succeeds_updateRow hr rfl hcheck fun _ => rfl

/-- A payout does not fail. -/
theorem payReferral_succeeds {referrer u : UserId} :
    Succeeds (payReferral env id referrer u) s := by
  rw [payReferral]
  refine claimQualification_succeeds.bind fun claimed s₁ hclaim => ?_
  rcases claimQualification_spec hclaim with ⟨rfl, -, -⟩ | ⟨rfl, r, t, hr, -, ht, rfl⟩
  · exact succeeds_pure
  · rw [if_pos rfl, succeeds_get_bind]
    refine (payHalf_succeeds (by simp [referrerMovement]) rfl).bind fun reward s₂ hhalf => ?_
    refine (payHalf_succeeds (by simp [referredMovement]) rfl).bind fun _ s₃ hother => ?_
    obtain ⟨-, -, hrefs₂, -⟩ :=
      payHalf_spec ⟨rfl, fun l => by simp [referrerMovement, referrerRewardKey]⟩ hhalf
    obtain ⟨-, -, hrefs₃, -⟩ :=
      payHalf_spec ⟨rfl, fun l => by simp [referredMovement, referredRewardKey]⟩ hother
    have hid : r.id = id := Table.key_of_find? hr
    have hfound : s₃.referrals.find? id = some (r.qualified env.env.now) := by
      rw [hrefs₃, hrefs₂]
      exact (ht.find? rfl id).trans (if_pos hid)
    refine (nameReward_succeeds hfound rfl).bind fun _ s₄ _ => ?_
    exact succeeds_modify.bind fun _ _ _ => succeeds_pure

end Payout

/-! ## Who has attended -/

/-- The operation decides a claim about who was there. -/
def Op.decidesClaim : Op → Bool
  | .decideClaim .. => true
  | _ => false

section Attendance

variable {w w' : World} {c : Call} {u : UserId}

theorem hasAttended_iff {db : Db} : db.hasAttended u = true ↔
    ∃ p ∈ db.participants.rows, p.userId = u ∧ p.status = .COMPLETED := by
  simp only [Db.hasAttended, List.any_eq_true, Bool.and_eq_true, decide_eq_true_eq]

theorem hasAttended_congr {s s' : Db} (h : s'.participants = s.participants) :
    s'.hasAttended u = s.hasAttended u := by
  unfold Db.hasAttended
  rw [h]

/-- Who has attended has attended for good. -/
theorem hasAttended_step (hstep : w.Step c w') (h : w.db.hasAttended u = true) :
    w'.db.hasAttended u = true := by
  obtain ⟨p, hp, hu, hst⟩ := hasAttended_iff.1 h
  have hchange : ∃ k, Effect c.env k w.db w'.db := by
    rcases World.step_effect hstep with heffect | ⟨k, -, heffect⟩
    · exact ⟨_, heffect⟩
    · exact ⟨k, heffect⟩
  obtain ⟨k, heffect⟩ := hchange
  obtain ⟨p', hp', hmove⟩ := heffect.change.guest_fate hp
  refine hasAttended_iff.2 ⟨p', hp', hmove.keeps.2.2.trans hu, ?_⟩
  rcases hmove.edge with hsame | hedge
  · exact hsame.trans hst
  · simp [hst, canTransition, PARTICIPANT_TRANSITIONS] at hedge

/-- A change completes a seated guest at the settlement of his event, and otherwise only in
    deciding a claim. -/
theorem GuestMove.completes {env : Env} {s : Db} {k : Kind} {p p' : ParticipantRow}
    (h : GuestMove env s k p p') (hst : p'.status = .COMPLETED) :
    p.status = .COMPLETED ∨ (k = .complete p.eventId ∧ p.status = .ACCEPTED) ∨
      (∃ q, k = .overturn q) ∨ ∃ e, k = .stamp e := by
  cases h with
  | same => exact .inl hst
  | complete hseat => exact .inr (.inl ⟨rfl, hseat⟩)
  | overturn => exact .inr (.inr (.inl ⟨_, rfl⟩))
  | release => exact .inr (.inr (.inr ⟨_, rfl⟩))
  | close _ hp' => rcases hp' with rfl | rfl <;> cases hst
  | callOff =>
    change cancelledStatus p.status = .COMPLETED at hst
    cases hp : p.status <;> simp [hp, cancelledStatus] at hst
  | seat | lapse | withdraw | promote | absent => cases hst

theorem Op.decidesClaim_of_does {op : Op} {k : Kind} (h : op.Does k)
    (hk : (∃ q, k = .overturn q) ∨ ∃ e, k = .stamp e) : op.decidesClaim = true := by
  cases op <;> rcases hk with ⟨q, rfl⟩ | ⟨e, rfl⟩ <;> simp_all [Op.Does, Op.decidesClaim]

/-- Somebody attends for the first time by a settlement of an evening he is seated at, or
    by the decision of a claim. -/
theorem hasAttended_origin (hstep : w.Step c w') (h : w'.db.hasAttended u = true) :
    w.db.hasAttended u = true ∨ c.op.decidesClaim = true ∨ ∃ e, c.op = .settleOne e ∧
      ∃ p ∈ w.db.participants.rows, p.eventId = e ∧ p.status = .ACCEPTED ∧ p.userId = u := by
  obtain ⟨p', hp', hu, hst⟩ := hasAttended_iff.1 h
  have horigin : ∀ {k : Kind}, Effect c.env k w.db w'.db →
      w.db.hasAttended u = true ∨ ((∃ q, k = .overturn q) ∨ ∃ e, k = .stamp e) ∨
        ∃ p ∈ w.db.participants.rows, k = .complete p.eventId ∧ p.status = .ACCEPTED ∧
          p.userId = u := by
    intro k heffect
    rcases heffect.change.guest_origin hp' with ⟨p, hp, hmove⟩ | hnew
    · have huser : p.userId = u := hmove.keeps.2.2.symm.trans hu
      rcases hmove.completes hst with hdone | ⟨hk, hseat⟩ | hclaim
      · exact .inl (hasAttended_iff.2 ⟨p, hp, huser, hdone⟩)
      · exact .inr (.inr ⟨p, hp, hk, hseat, huser⟩)
      · exact .inr (.inl hclaim)
    · have hlive := hnew.live
      rw [hst] at hlive
      exact absurd hlive (by decide)
  rcases World.step_effect hstep with heffect | ⟨k, hdoes, heffect⟩
  · rcases horigin heffect with hold | (⟨q, hq⟩ | ⟨e, he⟩) | ⟨p, -, hk, -⟩
    · exact .inl hold
    · cases hq
    · cases he
    · cases hk
  · rcases horigin heffect with hold | hclaim | ⟨p, hp, hk, hseat, huser⟩
    · exact .inl hold
    · exact .inr (.inl (Op.decidesClaim_of_does hdoes hclaim))
    · rw [hk] at hdoes
      exact .inr (.inr ⟨_, Op.complete_of_does hdoes, p, hp, rfl, hseat, huser⟩)

/-- A settlement answers the real guests it found seated. -/
theorem settleOne_answers {env : Env} {e : EventId} {users : List UserId} {s s' : Db}
    (h : Runs (settleOne env e) s users s') :
    s' = s ∨ ∀ p ∈ s.participants.rows, p.eventId = e → p.status = .ACCEPTED →
      isSeedUser env p.userId = false → p.userId ∈ users := by
  simp only [settleOne, runs_lockEvent_bind] at h
  cases hev : s.events.find? e with
  | none =>
    simp only [hev, runs_pure] at h
    exact .inl h.2
  | some ev =>
    have hid : ev.id = e := Table.key_of_find? hev
    simp only [hev, runs_ite, runs_pure, runs_findRows_bind] at h
    obtain ⟨-, -, rfl⟩ | ⟨-, h⟩ := h
    · exact .inl rfl
    · rw [runs_bind] at h
      obtain ⟨_, s₁, hloop, h⟩ := h
      rw [(runs_pure.1 h).1]
      refine .inr fun p hp he hst hreal => ?_
      refine List.mem_map_of_mem (List.mem_filter.2 ⟨?_, by simp [hreal]⟩)
      exact List.mem_filter.2 ⟨hp, by simp [he, hst, hid]⟩

end Attendance

/-! ## Whose keys are in the ledger -/

/-- A key under which a half of a referral's reward is paid. -/
def IsReferralKey (k : CoinKey) : Prop := ∃ r, k = referrerRewardKey r ∨ k = referredRewardKey r

section Keys

variable {w w' : World} {c : Call}

/-- No operation but a movement from outside charges under a key of its own making. -/
theorem Op.charges_key {s s' : Db} {op : Op} {l : CoinLedgerRow} (h : op.Charges s s' l)
    {k : String} (hkey : l.idempotencyKey = .other k) :
    ∃ m, op = .moveCoins m ∧ m.input.idempotencyKey = .other k := by
  cases op with
  | moveCoins m => exact ⟨m, rfl, h.1.2.2.1.symm.trans hkey⟩
  | create =>
    rcases h with h | h <;> rw [h.key] at hkey <;> cases hkey
  | cancelByHost =>
    rw [h.key] at hkey
    cases hkey
  | join =>
    rw [h.2.2] at hkey
    cases hkey
  | cancel | markNoShow =>
    obtain ⟨q, -, -, hrow⟩ := h
    rw [hrow.key] at hkey
    cases hkey
  | decideClaim =>
    obtain ⟨ev, -, -, hrow⟩ := h
    rw [hrow.key] at hkey
    cases hkey
  | pay =>
    rcases h.half with ⟨hhalf, -⟩ | ⟨hhalf, -⟩ <;> rw [hhalf] at hkey <;> cases hkey
  | _ => exact h.elim

/-- Another operation posts no half of a reward, and keeps the ledger linked. -/
theorem call_keys (hs : w.db.Linked) (hstep : w.Step c w')
    (hmoves : ∀ m, c.op = .moveCoins m → ∀ r, m.input.idempotencyKey ≠ referrerRewardKey r ∧
      m.input.idempotencyKey ≠ referredRewardKey r) :
    w'.db.Linked ∧ ∀ l ∈ w'.db.coinLedger.rows, IsReferralKey l.idempotencyKey →
      l ∈ w.db.coinLedger.rows := by
  obtain ⟨-, -, rfl⟩ := World.step_iff.1 hstep
  show (commit (c.op.act c.env) w.db).Linked ∧ _
  rcases commit_cases (c.op.act c.env) w.db with ⟨_, hrun⟩ | hsame
  · have hposts := Op.posts hs hrun
    refine ⟨hposts.coins.linked hs, fun l hl ⟨r, hkey⟩ => ?_⟩
    have hother : ∃ k, l.idempotencyKey = .other k := by
      rcases hkey with hkey | hkey
      · exact ⟨_, hkey⟩
      · exact ⟨_, hkey⟩
    obtain ⟨k, hk⟩ := hother
    refine hposts.old_of_not_forward hs hl (fun o => by simp [hk]) fun hcharge => ?_
    obtain ⟨m, hm, hmk⟩ := Op.charges_key hcharge hk
    obtain ⟨hne, hne'⟩ := hmoves m hm r
    rcases hkey with hkey | hkey
    · exact hne (hmk.trans (hk.symm.trans hkey))
    · exact hne' (hmk.trans (hk.symm.trans hkey))
  · rw [hsame]
    refine ⟨hs, fun l hl _ => ?_⟩
    have hdb : (w.after c).db = w.db := hsame
    rwa [hdb] at hl

end Keys

/-! ## What holds in every state -/

/-- What a worker has read, and what it can rely on. -/
def ReferralWork.Known (s : ReferralDb) : ReferralWork → Prop
  | .paying u _ (.pending id referrer) =>
    ∃ r, s.referrals.find? id = some r ∧ r.referrerUserId = referrer ∧ r.referredUserId = u
  | .paying u _ (.attended id referrer) => s.db.hasAttended u = true ∧
    ∃ r, s.referrals.find? id = some r ∧ r.referrerUserId = referrer ∧ r.referredUserId = u
  | _ => True

/-- What holds of the tables between transactions. -/
structure ReferralsSound (s : ReferralDb) : Prop where
  linked : s.db.Linked
  paid : ∀ l ∈ s.db.coinLedger.rows, IsReferralKey l.idempotencyKey →
    ∃ r ∈ s.referrals.rows, r.status = .QUALIFIED ∧ IsHalfOf r l
  qualified : ∀ r ∈ s.referrals.rows, r.status = .QUALIFIED →
    s.db.hasAttended r.referredUserId = true

/-- Between moves: the tables are sound, and every worker has read what is still so. -/
structure ReferralWorld.Sound (w : ReferralWorld) : Prop where
  tables : ReferralsSound w.store
  known : ∀ i work, w.locals i = some work → work.Known w.store

/-- What no step takes back: a referral with both its users, its qualification, and an
    attended evening. -/
structure ReferralsLast (s s' : ReferralDb) : Prop where
  referrals : ∀ r ∈ s.referrals.rows, ∃ r' ∈ s'.referrals.rows, SameReferral r r' ∧
    (r.status = .QUALIFIED → r'.status = .QUALIFIED)
  attended : ∀ u, s.db.hasAttended u = true → s'.db.hasAttended u = true

section Tables

variable {s s' : ReferralDb} {r : ReferralRow}

theorem ReferralsLast.refl (s : ReferralDb) : ReferralsLast s s :=
  ⟨fun r hr => ⟨r, hr, .refl r, id⟩, fun _ h => h⟩

theorem ReferralWork.Known.last {work : ReferralWork} (h : work.Known s)
    (hlast : ReferralsLast s s') : work.Known s' := by
  have hkeep : ∀ {id : ReferralId} {referrer u : UserId},
      (∃ r, s.referrals.find? id = some r ∧ r.referrerUserId = referrer ∧ r.referredUserId = u) →
      ∃ r, s'.referrals.find? id = some r ∧ r.referrerUserId = referrer ∧ r.referredUserId = u := by
    rintro id referrer u ⟨r, hr, hreferrer, hreferred⟩
    obtain ⟨r', hr', hsame, -⟩ := hlast.referrals r (Table.mem_of_find? hr)
    have hid : r'.id = id := hsame.id.trans (Table.key_of_find? hr)
    refine ⟨r', Table.find?_eq_some.2 ⟨hr', hid⟩, hsame.referrer.trans hreferrer,
      hsame.referred.trans hreferred⟩
  match work, h with
  | .claiming _ _, _ => trivial
  | .paying _ _ .begun, _ => trivial
  | .paying _ _ (.pending _ _), h => exact hkeep h
  | .paying _ _ (.attended _ _), h => exact ⟨hlast.attended _ h.1, hkeep h.2⟩

/-- A payout takes nothing back. -/
theorem PaidOut.last (h : PaidOut r s s') : ReferralsLast s s' := by
  obtain ⟨r', hst, hsame, hfind⟩ := h.referrals
  refine ⟨fun x hx => ?_, fun u hu => ?_⟩
  · by_cases hid : r.id = x.id
    · have hx' : x = r := Table.eq_of_key hx (Table.mem_of_find? h.found) hid.symm
      have hr' : s'.referrals.find? r.id = some r' := (hfind r.id).trans (if_pos rfl)
      rw [hx']
      exact ⟨r', Table.mem_of_find? hr', hsame, fun _ => hst⟩
    · have hx' : s'.referrals.find? x.id = some x :=
        (hfind x.id).trans ((if_neg hid).trans (Table.find?_of_mem hx))
      exact ⟨x, Table.mem_of_find? hx', .refl x, id⟩
  · rw [hasAttended_congr h.coinsOnly.frame.2.1]
    exact hu

/-- After a payout, the referrals are the others, and this one QUALIFIED. -/
theorem PaidOut.origin (h : PaidOut r s s') {x : ReferralRow} (hx : x ∈ s'.referrals.rows) :
    x ∈ s.referrals.rows ∨ (x.status = .QUALIFIED ∧ SameReferral r x) := by
  obtain ⟨r', hst, hsame, hfind⟩ := h.referrals
  have hfound := Table.find?_of_mem hx
  change s'.referrals.find? x.id = some x at hfound
  rw [hfind x.id] at hfound
  by_cases hid : r.id = x.id
  · rw [if_pos hid] at hfound
    obtain rfl := Option.some.inj hfound
    exact .inr ⟨hst, hsame⟩
  · rw [if_neg hid] at hfound
    exact .inl (Table.mem_of_find? hfound)

/-- A payout to a user who has attended keeps the tables sound. -/
theorem ReferralsSound.paidOut (h : ReferralsSound s) (hpaid : PaidOut r s s')
    (hattended : s.db.hasAttended r.referredUserId = true) : ReferralsSound s' where
  linked := hpaid.linked h.linked
  paid l hl hkey := by
    obtain ⟨r', hst, hsame, hfind⟩ := hpaid.referrals
    obtain ⟨added, hrows, hnew⟩ := hpaid.ledger
    rw [hrows] at hl
    rcases List.mem_append.1 hl with hold | hadd
    · obtain ⟨x, hx, hxst, hhalf⟩ := h.paid l hold hkey
      obtain ⟨x', hx', hsame', hkeep⟩ := hpaid.last.referrals x hx
      exact ⟨x', hx', hkeep hxst, hhalf.same hsame'⟩
    · have hr' : s'.referrals.find? r.id = some r' := (hfind r.id).trans (if_pos rfl)
      exact ⟨r', Table.mem_of_find? hr', hst, (hnew l hadd).same hsame⟩
  qualified x hx hst := by
    rcases hpaid.origin hx with hold | ⟨-, hsame⟩
    · exact hpaid.last.attended _ (h.qualified x hold hst)
    · rw [hsame.referred]
      exact hpaid.last.attended _ hattended

/-- A step of the world that posts no half keeps the tables sound. -/
theorem ReferralsSound.world (h : ReferralsSound s) (hrefs : s'.referrals = s.referrals)
    (hlinked : s'.db.Linked) (hkeys : ∀ l ∈ s'.db.coinLedger.rows, IsReferralKey l.idempotencyKey →
      l ∈ s.db.coinLedger.rows)
    (hattended : ∀ u, s.db.hasAttended u = true → s'.db.hasAttended u = true) :
    ReferralsSound s' where
  linked := hlinked
  paid l hl hkey := by
    rw [hrefs]
    exact h.paid l (hkeys l hl hkey) hkey
  qualified r hr hst := by
    rw [hrefs] at hr
    exact hattended _ (h.qualified r hr hst)

/-- A committed claim adds a PENDING referral of its user. -/
theorem insertClaim_spec {now : Instant} {c : CheckedClaim} (h : Runs (insertClaim now c) s () s') :
    s'.db = s.db ∧ ∃ id, s'.referrals.rows = s.referrals.rows ++ [claimedRow now c id] := by
  rw [insertClaim, runs_get_bind, runs_bind] at h
  obtain ⟨b, s₁, hins, h⟩ := h
  obtain ⟨hb, rfl⟩ := runs_guardTx.1 h
  obtain ⟨t, rfl, ⟨-, ht⟩ | ⟨hfalse, -⟩⟩ := runs_insertRowOrIgnore hins
  · exact ⟨rfl, _, ht⟩
  · rw [hfalse] at hb
    cases hb

theorem ReferralsLast.insert (hdb : s'.db = s.db) {r : ReferralRow}
    (hrows : s'.referrals.rows = s.referrals.rows ++ [r]) : ReferralsLast s s' := by
  refine ⟨fun x hx => ⟨x, ?_, .refl x, id⟩, fun u hu => by rwa [hdb]⟩
  rw [hrows]
  exact List.mem_append_left _ hx

theorem ReferralsSound.insert (h : ReferralsSound s) (hdb : s'.db = s.db) {r : ReferralRow}
    (hrows : s'.referrals.rows = s.referrals.rows ++ [r]) (hst : r.status = .PENDING) :
    ReferralsSound s' where
  linked := by
    rw [hdb]
    exact h.linked
  paid l hl hkey := by
    rw [hdb] at hl
    obtain ⟨x, hx, hhalf⟩ := h.paid l hl hkey
    refine ⟨x, ?_, hhalf⟩
    rw [hrows]
    exact List.mem_append_left _ hx
  qualified x hx hxst := by
    rw [hdb]
    rw [hrows] at hx
    rcases List.mem_append.1 hx with hold | hnew
    · exact h.qualified x hold hxst
    · rw [List.mem_singleton.1 hnew, hst] at hxst
      cases hxst

end Tables

/-! ## One step -/

section Steps

variable {w w' : ReferralWorld} {i : Nat}

/-- Worker `i` leaves sound tables, and has read what is still so. -/
theorem ReferralWorld.Sound.set (h : w.Sound) {s : ReferralShared} {l : Option ReferralWork}
    (htables : ReferralsSound s.store) (hlast : ReferralsLast w.store s.store)
    (hl : ∀ work, l = some work → work.Known s.store) :
    ReferralWorld.Sound (w.set i s l) where
  tables := htables
  known j work hwork := by
    by_cases hj : j = i
    · subst hj
      rw [Threads.set_locals_self] at hwork
      exact hl work hwork
    · rw [Threads.set_locals_ne hj] at hwork
      exact (h.known j work hwork).last hlast

theorem known_payingOf {users : List UserId} {s : ReferralDb} {work : ReferralWork}
    (h : payingOf users = some work) : work.Known s := by
  cases users with
  | nil => cases h
  | cons u rest =>
    obtain rfl := Option.some.inj h
    trivial

/-- The stage belongs to the referral `id`. -/
def PayStage.Of (id : ReferralId) : PayStage → Prop
  | .begun => True
  | .pending k _ => k = id
  | .attended k _ => k = id

/-- The worker will come to pay the referral, unless it is gone. -/
def ReferralWork.WillPay (r : ReferralRow) : ReferralWork → Prop
  | .claiming _ _ => False
  | .paying u rest stage => r.referredUserId ∈ rest ∨ (u = r.referredUserId ∧ stage.Of r.id)

/-- What one step does. -/
inductive ReferralEffect (w : ReferralWorld) : ReferralMove → ReferralWorld → Prop
  | settled {i : Nat} {env : Env} {e : EventId} {world : World} (idle : w.locals i = none)
      (step : w.shared.world.Step ⟨env, .settleOne e⟩ world) :
      ReferralEffect w (.settle i env e) (w.set i { w.shared with world := world }
        (payingOf (ReferralWorld.settledUsers env e w.db)))
  | called {c : Call} {hc : Unreferred c.op} {world : World} (step : w.shared.world.Step c world) :
      ReferralEffect w (.call c hc) { w with shared := { w.shared with world := world } }
  | claimed {i : Nat} {now : Instant} {c : CheckedClaim} {id : ReferralId} {store : ReferralDb}
      (work : w.locals i = some (.claiming now c)) (db : store.db = w.db)
      (rows : store.referrals.rows = w.shared.referrals.rows ++ [claimedRow now c id]) :
      ReferralEffect w (.insert i) (w.set i (w.shared.put store) (payingOf [c.userId]))
  | paid {i : Nat} {env : ReferralEnv} {u : UserId} {rest : List UserId} {referrer : UserId}
      {r : ReferralRow} {store : ReferralDb}
      (work : w.locals i = some (.paying u rest (.attended r.id referrer)))
      (user : r.referredUserId = u) (attended : w.db.hasAttended u = true)
      (paid : PaidOut r w.store store) :
      ReferralEffect w (.pay i env) (w.set i (w.shared.put store) (payingOf rest))
  /-- A worker goes on without writing: it drops nobody who is due, unless it is gone. -/
  | moved {m : ReferralMove} {i : Nat} {l : Option ReferralWork}
      (known : ∀ work, l = some work → work.Known w.store)
      (kept : m ≠ .crash i → ∀ r, w.Pending r → w.db.hasAttended r.referredUserId = true →
        ∀ work, w.locals i = some work → work.WillPay r → ∃ work, l = some work ∧ work.WillPay r) :
      ReferralEffect w m (w.set i w.shared l)

theorem willPay_payingOf {users : List UserId} {r : ReferralRow} (h : r.referredUserId ∈ users) :
    ∃ work, payingOf users = some work ∧ work.WillPay r := by
  cases users with
  | nil => cases h
  | cons u rest =>
    refine ⟨_, rfl, ?_⟩
    rcases List.mem_cons.1 h with hu | hrest
    · exact .inr ⟨hu.symm, trivial⟩
    · exact .inl hrest

/-- Dropping a user who is not due drops nobody who is. -/
theorem kept_of_not_due {u : UserId} {rest : List UserId} {stage : PayStage}
    (hl : w.locals i = some (.paying u rest stage))
    (hnot : ∀ r, w.Pending r → w.db.hasAttended r.referredUserId = true → u = r.referredUserId →
      stage.Of r.id → False) (r : ReferralRow) (hr : w.Pending r)
    (hattended : w.db.hasAttended r.referredUserId = true) (work : ReferralWork)
    (hwork : w.locals i = some work) (hwill : work.WillPay r) :
    ∃ work, payingOf rest = some work ∧ work.WillPay r := by
  obtain rfl := Option.some.inj (hl.symm.trans hwork)
  rcases hwill with hrest | ⟨hu, hof⟩
  · exact willPay_payingOf hrest
  · exact (hnot r hr hattended hu hof).elim

/-- The referral a look finds is the one of the user. -/
theorem referralOf_eq_some {s : ReferralDb} {u : UserId} {r : ReferralRow}
    (h : s.referralOf u = some r) : r ∈ s.referrals.rows ∧ r.referredUserId = u := by
  have hp := List.find?_some h
  exact ⟨List.mem_of_find?_eq_some h, of_decide_eq_true hp⟩

/-- A user has one referral. -/
theorem referral_unique {t : Table ReferralRow} {r r' : ReferralRow} (hr : r ∈ t.rows)
    (hr' : r' ∈ t.rows) (h : r.referredUserId = r'.referredUserId) : r = r' :=
  Table.eq_of_collide hr hr' (decide_eq_true h)

theorem ReferralEffect.look {u : UserId} {rest : List UserId}
    (hl : w.locals i = some (.paying u rest .begun)) (hstep : w.Step (.look i) w') :
    ReferralEffect w (.look i) w' := by
  unfold ReferralWorld.Step ReferralWorld.exec at hstep
  simp only [hl] at hstep
  cases hfound : w.store.referralOf u with
  | none =>
    simp only [hfound, Option.some.injEq] at hstep
    rw [← hstep]
    refine .moved (fun _ => known_payingOf) fun _ => kept_of_not_due hl fun r hr _ hu _ => ?_
    have hnone := List.find?_eq_none.1 hfound r hr.1
    exact hnone (decide_eq_true hu.symm)
  | some r =>
    obtain ⟨hmem, hreferred⟩ := referralOf_eq_some hfound
    simp only [hfound] at hstep
    by_cases hpending : r.status = .PENDING
    · rw [if_pos hpending] at hstep
      rw [← Option.some.inj hstep]
      refine .moved (fun work hwork => ?_) fun _ x hx hattended work hwork hwill => ?_
      · obtain rfl := Option.some.inj hwork
        exact ⟨r, Table.find?_of_mem hmem, rfl, hreferred⟩
      · obtain rfl := Option.some.inj (hl.symm.trans hwork)
        refine ⟨_, rfl, hwill.imp_right fun ⟨hu, _⟩ => ⟨hu, ?_⟩⟩
        exact congrArg ReferralRow.id (referral_unique hmem hx.1 (hreferred.trans hu))
    · rw [if_neg hpending] at hstep
      rw [← Option.some.inj hstep]
      refine .moved (fun _ => known_payingOf) fun _ => kept_of_not_due hl fun x hx _ hu _ => ?_
      rw [referral_unique hmem hx.1 (hreferred.trans hu)] at hpending
      exact hpending hx.2

theorem ReferralWorld.Sound.attend (h : w.Sound) {u : UserId} {rest : List UserId}
    {id : ReferralId} {referrer : UserId}
    (hl : w.locals i = some (.paying u rest (.pending id referrer)))
    (hstep : w.Step (.attend i) w') : ReferralEffect w (.attend i) w' := by
  unfold ReferralWorld.Step ReferralWorld.exec at hstep
  simp only [hl] at hstep
  by_cases hattended : w.db.hasAttended u = true
  · rw [if_pos hattended] at hstep
    rw [← Option.some.inj hstep]
    refine .moved (fun work hwork => ?_) fun _ r hr _ work hwork hwill => ?_
    · obtain rfl := Option.some.inj hwork
      exact ⟨hattended, h.known i _ hl⟩
    · obtain rfl := Option.some.inj (hl.symm.trans hwork)
      exact ⟨_, rfl, hwill⟩
  · rw [if_neg hattended] at hstep
    rw [← Option.some.inj hstep]
    refine .moved (fun _ => known_payingOf) fun _ => kept_of_not_due hl fun r _ hr hu _ => ?_
    rw [← hu] at hr
    exact hattended hr

theorem ReferralWorld.Sound.pays (h : w.Sound) {env : ReferralEnv} {u : UserId}
    {rest : List UserId} {id : ReferralId} {referrer : UserId}
    (hl : w.locals i = some (.paying u rest (.attended id referrer)))
    (hstep : w.Step (.pay i env) w') : ReferralEffect w (.pay i env) w' := by
  obtain ⟨hattended, r, hr, hreferrer, hreferred⟩ := h.known i _ hl
  have hknown : ∀ x, w.store.referrals.find? id = some x → x.referrerUserId = referrer ∧
      x.referredUserId = u := fun x hx => by
    obtain rfl := Option.some.inj (hr.symm.trans hx)
    exact ⟨hreferrer, hreferred⟩
  unfold ReferralWorld.Step ReferralWorld.exec at hstep
  simp only [hl] at hstep
  have hpays : Succeeds (payReferral env id referrer u) w.store := payReferral_succeeds
  obtain ⟨b, store, hrun⟩ := hpays
  have hrun' : (payReferral env id referrer u).run w.store = .ok (b, store) := hrun
  simp only [hrun', Option.some.injEq] at hstep
  rw [← hstep]
  rcases payReferral_spec hknown hrun with ⟨rfl, hnot⟩ | ⟨x, rfl, hpaid⟩
  · refine .moved (fun _ => known_payingOf) fun _ => kept_of_not_due hl fun x hx _ _ hof => ?_
    have hid : id = x.id := hof
    exact hnot x (hid ▸ Table.find?_of_mem hx.1) hx.2
  · exact .paid hl (hknown x hpaid.found).2 hattended hpaid

/-- Every step has one of these effects. -/
theorem ReferralWorld.Sound.effect (h : w.Sound) {m : ReferralMove} (hstep : w.Step m w') :
    ReferralEffect w m w' := by
  cases m with
  | settle i env e =>
    unfold ReferralWorld.Step ReferralWorld.exec at hstep
    cases hl : w.locals i with
    | some work => simp [hl] at hstep
    | none =>
      cases hworld : w.shared.world.exec ⟨env, .settleOne e⟩ with
      | none => simp [hl, hworld] at hstep
      | some world =>
        simp only [hl, hworld, Option.some.injEq] at hstep
        rw [← hstep]
        exact .settled hl hworld
  | claim i env u raw =>
    unfold ReferralWorld.Step ReferralWorld.exec at hstep
    cases hl : w.locals i with
    | some work => simp [hl] at hstep
    | none =>
      cases hcheck : (checkClaim env u raw).run w.store with
      | error e => simp [hl, hcheck] at hstep
      | ok r =>
        simp only [hl, hcheck, Option.some.injEq] at hstep
        rw [← hstep]
        refine .moved (fun work hwork => ?_) fun _ r _ _ work hwork => ?_
        · obtain rfl := Option.some.inj hwork
          trivial
        · rw [hl] at hwork
          cases hwork
  | insert i =>
    unfold ReferralWorld.Step ReferralWorld.exec at hstep
    cases hl : w.locals i with
    | none => simp [hl] at hstep
    | some work =>
      cases work with
      | paying u rest stage => simp [hl] at hstep
      | claiming now c =>
        cases hrun : (insertClaim now c).run w.store with
        | error e =>
          simp only [hl, hrun, Option.some.injEq] at hstep
          rw [← hstep]
          refine .moved (fun work hwork => nomatch hwork) fun _ r _ _ work hwork hwill => ?_
          obtain rfl := Option.some.inj (hl.symm.trans hwork)
          exact hwill.elim
        | ok r =>
          simp only [hl, hrun, Option.some.injEq] at hstep
          rw [← hstep]
          have hclaim : Runs (insertClaim _ _) w.store () r.2 := hrun
          obtain ⟨hdb, id, hrows⟩ := insertClaim_spec hclaim
          exact .claimed hl hdb hrows
  | look i =>
    have hstep' := hstep
    unfold ReferralWorld.Step ReferralWorld.exec at hstep'
    dsimp only at hstep'
    split at hstep'
    · next hl => exact .look hl hstep
    · cases hstep'
  | attend i =>
    have hstep' := hstep
    unfold ReferralWorld.Step ReferralWorld.exec at hstep'
    dsimp only at hstep'
    split at hstep'
    · next hl => exact h.attend hl hstep
    · cases hstep'
  | pay i env =>
    have hstep' := hstep
    unfold ReferralWorld.Step ReferralWorld.exec at hstep'
    dsimp only at hstep'
    split at hstep'
    · next hl => exact h.pays hl hstep
    · cases hstep'
  | crash i =>
    unfold ReferralWorld.Step ReferralWorld.exec at hstep
    cases hl : w.locals i with
    | none => simp [hl] at hstep
    | some work =>
      simp only [hl, Option.some.injEq] at hstep
      rw [← hstep]
      exact .moved (fun work hwork => nomatch hwork) fun hne => absurd rfl hne
  | call c hc =>
    unfold ReferralWorld.Step ReferralWorld.exec at hstep
    cases hworld : w.shared.world.exec c with
    | none => simp [hworld] at hstep
    | some world =>
      simp only [hworld, Option.some.injEq] at hstep
      rw [← hstep]
      exact .called hworld

/-- A step leaves sound tables, and takes nothing back. -/
theorem ReferralEffect.tables {m : ReferralMove} (h : ReferralEffect w m w') (hw : w.Sound) :
    ReferralsSound w'.store ∧ ReferralsLast w.store w'.store := by
  cases h with
  | settled idle step =>
    obtain ⟨hlinked, hkeys⟩ := call_keys hw.tables.linked step fun m hm => nomatch hm
    have hattended : ∀ u, w.store.db.hasAttended u = true → _ := fun u => hasAttended_step step
    exact ⟨hw.tables.world rfl hlinked hkeys hattended,
      ⟨fun r hr => ⟨r, hr, .refl r, id⟩, hattended⟩⟩
  | @called c hc world step =>
    obtain ⟨hlinked, hkeys⟩ := call_keys hw.tables.linked step hc.moves
    have hattended : ∀ u, w.store.db.hasAttended u = true → _ := fun u => hasAttended_step step
    exact ⟨hw.tables.world rfl hlinked hkeys hattended,
      ⟨fun r hr => ⟨r, hr, .refl r, id⟩, hattended⟩⟩
  | claimed work db rows => exact ⟨hw.tables.insert db rows rfl, .insert db rows⟩
  | paid work user attended paid =>
    subst user
    exact ⟨hw.tables.paidOut paid attended, paid.last⟩
  | moved => exact ⟨hw.tables, .refl _⟩

theorem ReferralWorld.Sound.step (h : w.Sound) {m : ReferralMove} (hstep : w.Step m w') :
    w'.Sound := by
  have heffect := h.effect hstep
  obtain ⟨htables, hlast⟩ := heffect.tables h
  cases heffect with
  | settled | claimed | paid => exact h.set htables hlast fun _ => known_payingOf
  | called => exact ⟨htables, fun i work hwork => (h.known i work hwork).last hlast⟩
  | moved known => exact h.set htables hlast known

theorem ReferralWorld.Sound.init (h : w.Init) : w.Sound where
  tables := by
    obtain ⟨⟨hdb, -⟩, hrefs, -⟩ := h
    have hdb' : w.store.db = Db.initial := hdb
    have hrefs' : w.store.referrals = Table.empty := hrefs
    refine ⟨?_, fun l hl => ?_, fun r hr => ?_⟩
    · rw [hdb']
      intro l hl
      cases hl
    · rw [hdb'] at hl
      cases hl
    · rw [hrefs'] at hr
      cases hr
  known i work hwork := by
    rw [h.2.2 i] at hwork
    cases hwork

theorem sound_of_reach (h : Reachable ReferralWorld.Init ReferralWorld.Step w) : w.Sound :=
  h.invariant (I := ReferralWorld.Sound) (fun _ => .init) fun _ _ _ hI _ hstep => hI.step hstep

end Steps

/-! ## Nobody due is forgotten -/

namespace ReferralWorld

/-- Somebody is due: the referral is PENDING and its user has attended. -/
def Due (w : ReferralWorld) (r : ReferralRow) : Prop :=
  w.Pending r ∧ w.db.hasAttended r.referredUserId = true

/-- The step loses nobody: a worker that is gone owed nobody who is due, a settlement
    completes no seed guest with a PENDING referral, and the decision of a claim makes
    nobody with a PENDING referral attend for the first time. -/
def Unlost (w : ReferralWorld) : ReferralMove → Prop
  | .crash i => ∀ work ∈ w.locals i, ∀ r ∈ w.shared.referrals.rows, r.status = .PENDING →
      w.db.hasAttended r.referredUserId = true → r.referredUserId ∉ work.owes
  | .settle _ env e => ∀ r ∈ w.shared.referrals.rows, r.status = .PENDING →
      ∀ p ∈ w.db.participants.rows, p.eventId = e → p.status = .ACCEPTED →
        p.userId = r.referredUserId → isSeedUser env p.userId = false
  | .call c _ => c.op.decidesClaim = true → ∀ r ∈ w.shared.referrals.rows, r.status = .PENDING →
      (commit (c.op.act c.env) w.db).hasAttended r.referredUserId = true →
      w.db.hasAttended r.referredUserId = true
  | _ => True

instance (w : ReferralWorld) : DecidablePred w.Unlost
  | .crash i => inferInstanceAs (Decidable (∀ work ∈ w.locals i, ∀ r ∈ w.shared.referrals.rows,
      r.status = .PENDING → w.db.hasAttended r.referredUserId = true →
        r.referredUserId ∉ work.owes))
  | .settle _ env e => inferInstanceAs (Decidable (∀ r ∈ w.shared.referrals.rows,
      r.status = .PENDING → ∀ p ∈ w.db.participants.rows, p.eventId = e → p.status = .ACCEPTED →
        p.userId = r.referredUserId → isSeedUser env p.userId = false))
  | .call c _ => inferInstanceAs (Decidable (c.op.decidesClaim = true →
      ∀ r ∈ w.shared.referrals.rows, r.status = .PENDING →
        (commit (c.op.act c.env) w.db).hasAttended r.referredUserId = true →
        w.db.hasAttended r.referredUserId = true))
  | .claim .. | .insert _ | .look _ | .attend _ | .pay .. => .isTrue trivial

/-- Whoever is due will be paid by a worker. -/
def Owed (w : ReferralWorld) : Prop :=
  ∀ r, w.Due r → ∃ i work, w.locals i = some work ∧ work.WillPay r

end ReferralWorld

section Owing

variable {w w' : ReferralWorld} {m : ReferralMove}

theorem ReferralWork.WillPay.owes {work : ReferralWork} {r : ReferralRow} (h : work.WillPay r) :
    r.referredUserId ∈ work.owes := by
  cases work with
  | claiming => exact h.elim
  | paying u rest stage =>
    rcases h with hrest | ⟨hu, -⟩
    · exact List.mem_cons_of_mem _ hrest
    · rw [hu]
      exact List.mem_cons_self

/-- A worker that will pay still will after another one moved. -/
theorem willPay_set {i j : Nat} {s : ReferralShared} {l : Option ReferralWork} {work : ReferralWork}
    {r : ReferralRow} (hj : w.locals j = some work) (hwill : work.WillPay r)
    (hown : ∀ work, w.locals i = some work → work.WillPay r →
      ∃ work, l = some work ∧ work.WillPay r) :
    ∃ k work, (w.set i s l).locals k = some work ∧ work.WillPay r := by
  by_cases hij : j = i
  · obtain ⟨work', hl, hwill'⟩ := hown work (hij ▸ hj) hwill
    exact ⟨i, work', by rw [Threads.set_locals_self, hl], hwill'⟩
  · exact ⟨j, work, by rw [Threads.set_locals_ne hij, hj], hwill⟩

/-- The mover itself takes somebody on. -/
theorem willPay_self {i : Nat} {s : ReferralShared} {users : List UserId} {r : ReferralRow}
    (h : r.referredUserId ∈ users) :
    ∃ k work, (w.set i s (payingOf users)).locals k = some work ∧ work.WillPay r := by
  obtain ⟨work, hwork, hwill⟩ := willPay_payingOf h
  exact ⟨i, work, by rw [Threads.set_locals_self, hwork], hwill⟩

/-- The users a settlement answers are the ones its worker will pay. -/
theorem settledUsers_mem {env : Env} {e : EventId} {world : World}
    (hstep : w.shared.world.Step ⟨env, .settleOne e⟩ world) {p : ParticipantRow}
    (hp : p ∈ w.db.participants.rows) (he : p.eventId = e) (hst : p.status = .ACCEPTED)
    (hreal : isSeedUser env p.userId = false) :
    world.db = w.db ∨ p.userId ∈ ReferralWorld.settledUsers env e w.db := by
  obtain ⟨-, -, rfl⟩ := World.step_iff.1 hstep
  show commit (drop (settleOne env e)) w.db = w.db ∨ _
  rcases commit_cases (drop (settleOne env e)) w.db with ⟨_, hrun⟩ | hsame
  · obtain ⟨users, hrun'⟩ := runs_drop.1 hrun
    rcases settleOne_answers hrun' with hsame | hall
    · exact .inl hsame
    · right
      have hanswer : (settleOne env e).run w.db = .ok (users, _) := hrun'
      rw [ReferralWorld.settledUsers, hanswer]
      exact hall p hp he hst hreal
  · exact .inl hsame

theorem ReferralWorld.Owed.step (h : w.Owed) (hw : w.Sound) (hstep : w.Step m w')
    (hg : w.Unlost m) : w'.Owed := by
  cases hw.effect hstep with
  | @settled i env e world idle step =>
    rintro r ⟨⟨hr, hst⟩, hattended⟩
    have hpending : w.Pending r := ⟨hr, hst⟩
    have hidle : ∀ work, w.locals i = some work → work.WillPay r → ∃ work,
        payingOf (ReferralWorld.settledUsers env e w.db) = some work ∧ work.WillPay r := by
      intro work hwork
      rw [idle] at hwork
      cases hwork
    by_cases hbefore : w.db.hasAttended r.referredUserId = true
    · obtain ⟨j, work, hj, hwill⟩ := h r ⟨hpending, hbefore⟩
      exact willPay_set hj hwill hidle
    · rcases hasAttended_origin step hattended with hold | hclaim | ⟨e', he', p, hp, hpe, hseat, hu⟩
      · exact absurd hold hbefore
      · cases hclaim
      · obtain rfl := Op.settleOne.inj he'
        rcases settledUsers_mem step hp hpe hseat (hg r hr hst p hp hpe hseat hu) with hsame | hmem
        · change world.db.hasAttended r.referredUserId = true at hattended
          rw [hsame] at hattended
          exact absurd hattended hbefore
        · exact willPay_self (hu ▸ hmem)
  | @called c hc world step =>
    rintro r ⟨⟨hr, hst⟩, hattended⟩
    have hpending : w.Pending r := ⟨hr, hst⟩
    have hbefore : w.db.hasAttended r.referredUserId = true := by
      rcases hasAttended_origin step hattended with hold | hclaim | ⟨e, he, -⟩
      · exact hold
      · obtain ⟨-, -, rfl⟩ := World.step_iff.1 step
        exact hg hclaim r hr hst hattended
      · exact absurd he (hc.settles e)
    exact h r ⟨hpending, hbefore⟩
  | @claimed i now c id store work db rows =>
    rintro r ⟨⟨hr, hst⟩, hattended⟩
    change r ∈ store.referrals.rows at hr
    change store.db.hasAttended r.referredUserId = true at hattended
    rw [rows] at hr
    rw [db] at hattended
    rcases List.mem_append.1 hr with hold | hnew
    · obtain ⟨j, work', hj, hwill⟩ := h r ⟨⟨hold, hst⟩, hattended⟩
      refine willPay_set hj hwill fun x hx hwill' => ?_
      obtain rfl := Option.some.inj (work.symm.trans hx)
      exact hwill'.elim
    · rw [List.mem_singleton.1 hnew]
      exact willPay_self (List.mem_singleton.2 rfl)
  | @paid i env u rest referrer r store work user attended paid =>
    rintro x ⟨⟨hx, hst⟩, hattended⟩
    rcases paid.origin hx with hold | ⟨hqualified, -⟩
    · change store.db.hasAttended x.referredUserId = true at hattended
      rw [hasAttended_congr paid.coinsOnly.frame.2.1] at hattended
      obtain ⟨j, work', hj, hwill⟩ := h x ⟨⟨hold, hst⟩, hattended⟩
      refine willPay_set hj hwill fun y hy hwill' => ?_
      obtain rfl := Option.some.inj (work.symm.trans hy)
      rcases hwill' with hrest | ⟨-, hid⟩
      · exact willPay_payingOf hrest
      · -- the referral that was paid is no longer PENDING
        obtain ⟨r', hr', hsame, hfind⟩ := paid.referrals
        have hxid : store.referrals.find? x.id = some x := Table.find?_of_mem hx
        have hid' : r.id = x.id := hid
        rw [hfind x.id, if_pos hid'] at hxid
        obtain rfl := Option.some.inj hxid
        rw [hr'] at hst
        cases hst
    · rw [hst] at hqualified
      cases hqualified
  | @moved _ i l known kept =>
    rintro r ⟨hpending, hattended⟩
    obtain ⟨j, work, hj, hwill⟩ := h r ⟨hpending, hattended⟩
    refine willPay_set hj hwill fun x hx hwill' => ?_
    by_cases hcrash : m = .crash i
    · subst hcrash
      exact absurd hwill'.owes (hg x hx r hpending.1 hpending.2 hattended)
    · exact kept hcrash r hpending hattended x hx hwill'

end Owing

/-! ## Runs -/

/-- The referral `id` is QUALIFIED. -/
def ReferralWorld.Qualified (w : ReferralWorld) (id : ReferralId) : Prop :=
  ∃ r ∈ w.shared.referrals.rows, r.id = id ∧ r.status = .QUALIFIED

/-- What every run keeps: one referrer for each user and for good, one qualification for
    each referral, and each half paid once, for a referral whose user has attended. -/
structure ReferralsKept (tr : ReferralTrace) (w : ReferralWorld) : Prop where
  one_referrer : ∀ r ∈ w.shared.referrals.rows, ∀ r' ∈ w.shared.referrals.rows,
    r.referredUserId = r'.referredUserId → r = r'
  for_good : ∀ x ∈ tr, ∀ r ∈ x.1.shared.referrals.rows,
    ∃ r' ∈ x.2.2.shared.referrals.rows, SameReferral r r'
  qualified_once : tr.Pairwise fun x y => ∀ id, ¬ x.1.Qualified id → x.2.2.Qualified id →
    y.1.Qualified id
  paid_once : ∀ l ∈ w.db.coinLedger.rows, ∀ l' ∈ w.db.coinLedger.rows,
    IsReferralKey l.idempotencyKey → l'.idempotencyKey = l.idempotencyKey → l = l'
  paid_after : ∀ l ∈ w.db.coinLedger.rows, IsReferralKey l.idempotencyKey →
    ∃ r ∈ w.shared.referrals.rows, r.status = .QUALIFIED ∧ IsHalfOf r l ∧
      w.db.hasAttended r.referredUserId = true

theorem qualified_step {w w' : ReferralWorld} {m : ReferralMove} (hw : w.Sound)
    (hstep : w.Step m w') {id : ReferralId} (h : w.Qualified id) : w'.Qualified id := by
  obtain ⟨r, hr, hid, hst⟩ := h
  obtain ⟨r', hr', hsame, hkeep⟩ := ((hw.effect hstep).tables hw).2.referrals r hr
  exact ⟨r', hr', hsame.id.trans hid, hkeep hst⟩

/-- In every run each referral is paid at most once; and in a run that loses nobody, no
    PENDING referral has a user who has attended when no call is in flight. -/
theorem referrals_paid {tr : ReferralTrace} {w : ReferralWorld}
    (h : Run ReferralWorld.Init ReferralWorld.Step (fun _ _ => True) tr w) :
    ReferralsKept tr w ∧ ((∀ x ∈ tr, x.1.Unlost x.2.1) → w.Quiet →
      ∀ r, w.Pending r → w.db.hasAttended r.referredUserId = false) := by
  have hsound := sound_of_reach h.reach
  refine ⟨⟨fun r hr r' hr' hsame => referral_unique hr hr' hsame, ?_, ?_, ?_, ?_⟩, ?_⟩
  · refine h.steps (P := fun w _ w' => ∀ r ∈ w.shared.referrals.rows,
      ∃ r' ∈ w'.shared.referrals.rows, SameReferral r r') fun _ _ _ hreach _ hstep r hr => ?_
    have hw := sound_of_reach hreach
    obtain ⟨r', hr', hsame, -⟩ := ((hw.effect hstep).tables hw).2.referrals r hr
    exact ⟨r', hr', hsame⟩
  · exact (h.once (Q := ReferralWorld.Qualified) fun _ _ _ _ hreach hstep =>
      qualified_step (sound_of_reach hreach) hstep).1
  · intro l hl l' hl' _ hkey
    refine Table.eq_of_collide hl hl' ?_
    simp [Row.collide, hkey]
  · intro l hl hkey
    obtain ⟨r, hr, hst, hhalf⟩ := hsound.tables.paid l hl hkey
    exact ⟨r, hr, hst, hhalf, hsound.tables.qualified r hr hst⟩
  · intro hunlost hquiet r hr
    have hrun := h.guarded (G := ReferralWorld.Unlost) hunlost
    have howed : w.Owed := by
      refine hrun.reach.invariant_of (I := ReferralWorld.Owed) (J := ReferralWorld.Sound)
        (fun _ hreach => sound_of_reach hreach.reachable) (fun s hs r hr => ?_)
        fun _ _ _ hI hJ _ hg hstep => hI.step hJ hstep hg
      have hempty := hr.1.1
      rw [hs.2.1] at hempty
      cases hempty
    by_contra hattended
    obtain ⟨i, work, hwork, -⟩ := howed r ⟨hr, Bool.of_not_eq_false hattended⟩
    rw [hquiet i] at hwork
    cases hwork

/-! ## Runs to look at -/

/-- The worker a move is a step of. -/
def ReferralMove.worker : ReferralMove → Option Nat
  | .settle i _ _ | .claim i _ _ _ | .insert i | .look i | .attend i | .pay i _ | .crash i => some i
  | .call _ _ => none

/-- A worker that takes no step stays where it is. -/
theorem locals_of_runList {i : Nat} : ∀ {ms : List ReferralMove} {w w' : ReferralWorld},
    runList ReferralWorld.exec w ms = some w' → (∀ m ∈ ms, m.worker ≠ some i) →
      w'.locals i = w.locals i := by
  intro ms
  induction ms with
  | nil =>
    intro w w' h _
    rw [Option.some.inj h]
  | cons m ms ih =>
    intro w w' h hm
    obtain ⟨w₁, h₁, h⟩ := runList_cons.1 h
    refine (ih h fun m' hm' => hm m' (List.mem_cons_of_mem _ hm')).trans ?_
    have hworker := hm m List.mem_cons_self
    have hset : ∀ {j : Nat} {s : ReferralShared} {l : Option ReferralWork},
        some j ≠ some i → (w.set j s l).locals i = w.locals i := fun hne =>
      Threads.set_locals_ne fun hij => hne (congrArg some hij.symm)
    cases m <;> simp only [ReferralWorld.exec] at h₁ <;> (repeat' split at h₁) <;>
      first
      | (obtain rfl := Option.some.inj h₁
         first
         | exact hset hworker
         | rfl)
      | cases h₁

def referralStart : ReferralWorld where
  shared := { world := World.initial 0, referrals := Table.empty, announced := [] }
  locals _ := none

theorem referralStart_init : referralStart.Init :=
  ⟨World.init_initial 0, rfl, fun _ => rfl⟩

/-- The reward of an onboarding is under its own key. -/
theorem onboarding_unreferred (u : UserId) (amount : Int) :
    Unreferred (.moveCoins (onboardingReward u amount)) := by
  refine ⟨by simp, fun m hm r => ?_⟩
  obtain rfl := Op.moveCoins.inj hm
  constructor
  · intro h
    have hchars := congrArg (fun s => s.toList.head?) (CoinKey.other.inj h)
    simp [toString] at hchars
  · intro h
    have hchars := congrArg (fun s => s.toList.head?) (CoinKey.other.inj h)
    simp [toString] at hchars

/-- User 2 says that user 4 invited them, and sits at the table of user 1. -/
def invitedMoves : List ReferralMove :=
  [.call (callAt 0 (.moveCoins (onboardingReward 1 100))) (onboarding_unreferred 1 100),
   .call (callAt 0 (.moveCoins (onboardingReward 2 100))) (onboarding_unreferred 2 100),
   .claim 0 (demoReferralEnv 1) 2 "aaaa-2222", .insert 0, .look 0, .attend 0,
   .call (callAt 1 (.create 1 (demoEvent 100 2) false 7)) ⟨by simp [callAt], by simp [callAt]⟩,
   .call (callAt 2 (.join 2 7 21)) ⟨by simp [callAt], by simp [callAt]⟩,
   .call (callAt 3 (.accept 1 21)) ⟨by simp [callAt], by simp [callAt]⟩,
   .call (callAt 103 (.retireOne 7)) ⟨by simp [callAt], by simp [callAt]⟩,
   .call (callAt 121 .scanAttendance) ⟨by simp [callAt], by simp [callAt]⟩,
   .settle 1 (demoEnv 121) 7]

/-- The settlement is followed by its payout. -/
def payoutMoves : List ReferralMove :=
  invitedMoves ++ [.look 1, .attend 1, .pay 1 (demoReferralEnv 121)]

/-- The worker is gone after the settlement, and the sweep runs again. -/
def lostPayoutMoves : List ReferralMove :=
  invitedMoves ++ [.crash 1,
    .call (callAt 130 .scanAttendance) ⟨by simp [callAt], by simp [callAt]⟩,
    .settle 2 (demoEnv 130) 7]

theorem referrals_paid_invited : ∃ tr w, ReferralsKept tr w ∧ w.db.balanceOf 4 = 20 ∧
    ∀ r, w.Pending r → w.db.hasAttended r.referredUserId = false := by
  have hplay : (runList ReferralWorld.exec referralStart payoutMoves).any (fun w =>
      decide (w.db.balanceOf 4 = 20) && (w.locals 0).isNone && (w.locals 1).isNone) = true := by
    decide +kernel
  have hguard : guardList ReferralWorld.exec (fun w m => decide (w.Unlost m)) referralStart
      payoutMoves = true := by decide +kernel
  obtain ⟨w, hw, hchecks⟩ := (Option.any_eq_true _ _).1 hplay
  simp only [Bool.and_eq_true, decide_eq_true_eq, Option.isNone_iff_eq_none] at hchecks
  have hrun := run_of_runList (G := ReferralWorld.Unlost) (g := fun w m => decide (w.Unlost m))
    (fun _ _ _ h => h) (fun _ _ h => of_decide_eq_true h) (.start referralStart_init) hguard hw
  obtain ⟨hkept, hdue⟩ := referrals_paid (hrun.guarded fun _ _ => trivial)
  refine ⟨_, w, hkept, hchecks.1.1, hdue ?_ fun i => ?_⟩
  · exact hrun.steps (P := fun w m _ => w.Unlost m) fun _ _ _ _ hg _ => hg
  · match i with
    | 0 => exact hchecks.1.2
    | 1 => exact hchecks.2
    | i + 2 =>
      refine (locals_of_runList hw fun m hm => ?_).trans rfl
      have hworkers : ∀ m ∈ payoutMoves, m.worker ≠ some (i + 2) := by
        simp [payoutMoves, invitedMoves, ReferralMove.worker]
      exact hworkers m hm

/-- The sweep has nothing left to settle, nobody is at work, and the user who attended is
    still waiting for the reward. -/
theorem payout_lost : ∃ w, Reachable ReferralWorld.Init ReferralWorld.Step w ∧ w.Quiet ∧
    attendanceCandidates (demoEnv 130) w.db = [] ∧
    ∃ r, w.Pending r ∧ w.db.hasAttended r.referredUserId = true := by
  have hplay : (runList ReferralWorld.exec referralStart lostPayoutMoves).any (fun w =>
      (w.locals 0).isNone && (w.locals 1).isNone && (w.locals 2).isNone &&
      (attendanceCandidates (demoEnv 130) w.db).isEmpty &&
      w.shared.referrals.rows.any fun r => decide (r.status = .PENDING) &&
        w.db.hasAttended r.referredUserId) = true := by decide +kernel
  obtain ⟨w, hw, hchecks⟩ := (Option.any_eq_true _ _).1 hplay
  simp only [Bool.and_eq_true, Option.isNone_iff_eq_none, List.isEmpty_iff, List.any_eq_true,
    decide_eq_true_eq] at hchecks
  obtain ⟨⟨⟨⟨h0, h1⟩, h2⟩, hswept⟩, r, hr, hst, hattended⟩ := hchecks
  refine ⟨w, reachable_of_runList (fun _ _ _ h => h) (.start referralStart_init) hw, fun i => ?_,
    hswept, r, ⟨hr, hst⟩, hattended⟩
  match i with
  | 0 => exact h0
  | 1 => exact h1
  | 2 => exact h2
  | i + 3 =>
    refine (locals_of_runList hw fun m hm => ?_).trans rfl
    have hworkers : ∀ m ∈ lostPayoutMoves, m.worker ≠ some (i + 3) := by
      simp [lostPayoutMoves, invitedMoves, ReferralMove.worker]
    exact hworkers m hm

end Paayatam
