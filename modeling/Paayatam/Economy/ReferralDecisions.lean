/-
  Paayatam.Economy.ReferralDecisions

  `ReferralAdminService`: a moderator refuses a referral, or puts it back.

  Both read the status, check the edge and write by id, and neither locks the
  row: anything may happen between the read and the write.  What keeps a paid
  referral paid is the table's own `CHECK`, that a referral has the date of its
  qualification exactly while it is QUALIFIED; neither write clears that date.
-/

import Paayatam.Economy.ReferralRuns

namespace Paayatam

open Lib

def REFERRAL_TRANSITIONS : TransitionTable ReferralStatus
  | .PENDING => [.QUALIFIED, .REJECTED]
  | .QUALIFIED => []
  | .REJECTED => [.PENDING]

def assertReferralTransition (old new : ReferralStatus) : ReferralAct Unit :=
  guardTx (canTransition REFERRAL_TRANSITIONS old new = true) (.of .INVALID_STATE_TRANSITION)

/-! ## The two decisions -/

inductive ReferralDecision where
  | reject
  | reinstate

def ReferralDecision.status : ReferralDecision → ReferralStatus
  | .reject => .REJECTED
  | .reinstate => .PENDING

/-- Up to the read and its check. -/
def readReferral (mayManage : Bool) (note : String) (decision : ReferralDecision)
    (referralId : ReferralId) : ReferralAct Unit := do
  guardTx (mayManage = true) (.of .FORBIDDEN)
  guardTx (5 ≤ utf16Length (trim note)) (.of .VALIDATION_FAILED)
  let found ← findRow referralId
  let existing ← orThrow (.of .NOT_FOUND) (found : Option ReferralRow)
  assertReferralTransition existing.status decision.status

def ReferralRow.decided (decision : ReferralDecision) (r : ReferralRow) : ReferralRow :=
  { r with status := decision.status }

/-- The update, by id. -/
def writeReferral (decision : ReferralDecision) (referralId : ReferralId) : ReferralAct Unit :=
  updateRow referralId (ReferralRow.decided decision)

/-! ## The system -/

/-- The referrals at work, and the moderators between their read and their write. -/
abbrev DecisionWorld := Threads Nat ReferralWorld (Option (ReferralDecision × ReferralId))

inductive DecisionMove where
  /-- Anything else that happens to referrals, payouts among it. -/
  | referral (m : ReferralMove)
  /-- Moderator `i` reads a referral. -/
  | read (i : Nat) (mayManage : Bool) (note : String) (decision : ReferralDecision)
      (referralId : ReferralId)
  /-- Moderator `i` writes, or the write fails. -/
  | write (i : Nat)
  | crash (i : Nat)

namespace DecisionWorld

def exec (w : DecisionWorld) : DecisionMove → Option DecisionWorld
  | .referral m => (w.shared.exec m).map fun shared => { w with shared := shared }
  | .read i mayManage note decision referralId =>
    match w.locals i, (readReferral mayManage note decision referralId).run w.shared.store with
    | none, .ok _ => some (w.set i w.shared (some (decision, referralId)))
    | _, _ => none
  | .write i =>
    match w.locals i with
    | some (decision, referralId) =>
      let store := commit (writeReferral decision referralId) w.shared.store
      some (w.set i { w.shared with shared := w.shared.shared.put store } none)
    | none => none
  | .crash i => some (w.set i w.shared none)

def Step (w : DecisionWorld) (m : DecisionMove) (w' : DecisionWorld) : Prop := w.exec m = some w'

def Init (w : DecisionWorld) : Prop := w.shared.Init ∧ ∀ i, w.locals i = none

def referrals (w : DecisionWorld) : List ReferralRow := w.shared.store.referrals.rows

def ledger (w : DecisionWorld) : List CoinLedgerRow := w.shared.db.coinLedger.rows

end DecisionWorld

/-! ## What a write does -/

section Write

variable {s s' : ReferralDb} {decision : ReferralDecision} {id : ReferralId}

theorem ReferralRow.qualifiedAt_iff {t : Table ReferralRow} {r : ReferralRow} (h : r ∈ t.rows) :
    r.status = .QUALIFIED ↔ r.qualifiedAt.isSome = true := by
  have hcheck : ReferralRow.constraints r = true := t.valid r h
  simp only [ReferralRow.constraints, Bool.and_eq_true, beq_iff_eq] at hcheck
  rw [← hcheck.1.2, decide_eq_true_iff]

/-- A write that goes through finds the referral unqualified. -/
theorem writeReferral_spec (h : Runs (writeReferral decision id) s () s') :
    ∃ r t, s.referrals.find? id = some r ∧ r.status ≠ .QUALIFIED ∧
      s.referrals.Rewrites r (ReferralRow.decided decision) t ∧ s' = { s with referrals := t } := by
  rw [writeReferral, runs_updateRow] at h
  obtain ⟨r, hr, t, ht, rfl⟩ := h
  refine ⟨r, t, hr, fun hst => ?_, ht, rfl⟩
  have hdate := (ReferralRow.qualifiedAt_iff (Table.mem_of_find? hr)).1 hst
  have hafter := (ReferralRow.qualifiedAt_iff ht.self).2 hdate
  cases decision <;> cases hafter

/-- Every referral is as it was, or is one that was not QUALIFIED, decided. -/
structure ReferralDecided (decision : ReferralDecision) (s s' : ReferralDb) : Prop where
  db : s'.db = s.db
  rows : ∀ x ∈ s'.referrals.rows, x ∈ s.referrals.rows ∨
    ∃ r ∈ s.referrals.rows, r.status ≠ .QUALIFIED ∧ x = r.decided decision
  last : ReferralsLast s s'

theorem commit_writeReferral :
    ReferralDecided decision s (commit (writeReferral decision id) s) := by
  rcases commit_cases (writeReferral decision id) s with ⟨_, hrun⟩ | hsame
  · obtain ⟨r, t, hr, hst, ht, hs'⟩ := writeReferral_spec hrun
    rw [hs']
    refine ⟨rfl, fun x hx => ?_, fun x hx => ?_, fun _ h => h⟩
    · rcases ht.cases hx with rfl | ⟨hx, -⟩
      · exact .inr ⟨r, ht.mem, hst, rfl⟩
      · exact .inl hx
    · by_cases hxr : x = r
      · subst hxr
        exact ⟨_, ht.self, ⟨rfl, rfl, rfl⟩, fun h => absurd h hst⟩
      · exact ⟨x, ht.other hx hxr, .refl x, fun h => h⟩
  · rw [hsame]
    exact ⟨rfl, fun x hx => .inl hx, .refl s⟩

/-- No decision touches a qualified referral, or the ledger. -/
theorem ReferralsSound.decided (h : ReferralsSound s) (hd : ReferralDecided decision s s') :
    ReferralsSound s' where
  linked := by
    rw [hd.db]
    exact h.linked
  paid l hl hkey := by
    rw [hd.db] at hl
    obtain ⟨r, hr, hst, hhalf⟩ := h.paid l hl hkey
    obtain ⟨r', hr', hsame, hkeep⟩ := hd.last.referrals r hr
    exact ⟨r', hr', hkeep hst, hhalf.same hsame⟩
  qualified r hr hst := by
    rw [hd.db]
    rcases hd.rows r hr with hr | ⟨q, -, -, rfl⟩
    · exact h.qualified r hr hst
    · cases decision <;> cases hst

end Write

/-! ## Every run -/

/-- A referral keeps its status, or moves along an edge. -/
def FollowsEdges (before after : List ReferralRow) : Prop :=
  ∀ r ∈ before, ∀ r' ∈ after, r'.id = r.id →
    r'.status = r.status ∨ canTransition REFERRAL_TRANSITIONS r.status r'.status = true

section Steps

variable {s s' : ReferralDb} {decision : ReferralDecision} {w w' : DecisionWorld}

theorem followsEdges_same {t : Table ReferralRow} : FollowsEdges t.rows t.rows := by
  intro r hr r' hr' hid
  rw [Table.eq_of_key hr' hr hid]
  exact .inl rfl

theorem PaidOut.followsEdges {q : ReferralRow} (h : PaidOut q s s') :
    FollowsEdges s.referrals.rows s'.referrals.rows := by
  intro r hr r' hr' hid
  rcases h.origin hr' with hold | ⟨hst, hsame⟩
  · exact followsEdges_same r hr r' hold hid
  · have hrq : r = q := Table.eq_of_key hr (Table.mem_of_find? h.found) (hid.symm.trans hsame.id)
    rw [hrq, h.pending, hst]
    exact .inr rfl

theorem ReferralDecided.followsEdges (h : ReferralDecided decision s s') :
    FollowsEdges s.referrals.rows s'.referrals.rows := by
  intro r hr r' hr' hid
  rcases h.rows r' hr' with hold | ⟨q, hq, hst, rfl⟩
  · exact followsEdges_same r hr r' hold hid
  · have hrq : r = q := Table.eq_of_key hr hq hid.symm
    rw [hrq]
    show decision.status = q.status ∨ canTransition _ q.status decision.status = true
    cases hq' : q.status with
    | QUALIFIED => exact absurd hq' hst
    | PENDING => cases decision <;> decide
    | REJECTED => cases decision <;> decide

/-- Nothing else but a payout changes a status. -/
theorem ReferralEffect.followsEdges {v v' : ReferralWorld} {m : ReferralMove}
    (h : ReferralEffect v m v') :
    FollowsEdges v.store.referrals.rows v'.store.referrals.rows := by
  cases h with
  | settled | called | moved => exact followsEdges_same
  | paid _ _ _ paid => exact paid.followsEdges
  | @claimed i now c id store _ _ rows =>
    intro r hr r' hr' hid
    have hkept : r ∈ store.referrals.rows := by
      rw [rows]
      exact List.mem_append_left _ hr
    exact followsEdges_same r hkept r' hr' hid

/-- What one step keeps. -/
theorem DecisionWorld.sound_step {m : DecisionMove} (h : w.shared.Sound) (hstep : w.Step m w') :
    w'.shared.Sound ∧ FollowsEdges w.referrals w'.referrals := by
  cases m with
  | referral m =>
    simp only [DecisionWorld.Step, DecisionWorld.exec, Option.map_eq_some_iff] at hstep
    obtain ⟨shared, hshared, rfl⟩ := hstep
    exact ⟨h.step hshared, (h.effect hshared).followsEdges⟩
  | read i mayManage note decision id =>
    simp only [DecisionWorld.Step, DecisionWorld.exec] at hstep
    split at hstep
    · obtain rfl := Option.some.inj hstep
      exact ⟨h, followsEdges_same⟩
    · cases hstep
  | write i =>
    simp only [DecisionWorld.Step, DecisionWorld.exec] at hstep
    split at hstep
    · next decision id hl =>
      obtain rfl := Option.some.inj hstep
      have hdecided : ReferralDecided decision w.shared.store
          (commit (writeReferral decision id) w.shared.store) := commit_writeReferral
      refine ⟨⟨h.tables.decided hdecided, fun j work hwork => ?_⟩, hdecided.followsEdges⟩
      exact (h.known j work hwork).last hdecided.last
    · cases hstep
  | crash i =>
    obtain rfl := Option.some.inj hstep
    exact ⟨h, followsEdges_same⟩

end Steps

/-! ## Whose rows are in the ledger -/

theorem toString_nat_inj {a b : Nat} (h : toString a = toString b) : a = b := by
  have hdigits : Nat.toDigits 10 a = Nat.toDigits 10 b := by
    rw [← Nat.toList_repr, ← Nat.toList_repr]
    exact congrArg String.toList h
  rw [← Nat.ofDigitChars_toDigits (b := 10) (n := a) (by omega) (by omega), hdigits,
    Nat.ofDigitChars_toDigits (by omega) (by omega)]

/-- A ledger row that pays a half of the reward of the referral `id`. -/
def PaysReferral (id : ReferralId) (l : CoinLedgerRow) : Prop :=
  l.idempotencyKey = referrerRewardKey id ∨ l.idempotencyKey = referredRewardKey id

theorem rewardKey_inj {p : String} {a b : Nat}
    (h : CoinKey.other (p ++ toString a) = .other (p ++ toString b)) : a = b := by
  apply toString_nat_inj
  have hlist := congrArg String.toList (CoinKey.other.inj h)
  rw [String.toList_append, String.toList_append] at hlist
  exact String.toList_injective (List.append_cancel_left hlist)

theorem referrerRewardKey_ne {a b : ReferralId} : referrerRewardKey a ≠ referredRewardKey b := by
  intro h
  have hchars := congrArg (fun s => (s.toList.drop 16).head?) (CoinKey.other.inj h)
  simp [toString] at hchars

theorem PaysReferral.of_half {r : ReferralRow} {id : ReferralId} {l : CoinLedgerRow}
    (h : PaysReferral id l) (hhalf : IsHalfOf r l) : r.id = id := by
  obtain ⟨-, ⟨hkey, -⟩ | ⟨hkey, -⟩⟩ := hhalf
  · rcases h with h | h
    · exact rewardKey_inj (hkey.symm.trans h)
    · exact absurd (hkey.symm.trans h) referrerRewardKey_ne
  · rcases h with h | h
    · exact absurd (h.symm.trans hkey) referrerRewardKey_ne
    · exact rewardKey_inj (hkey.symm.trans h)

/-- In every run a referral's status moves along the edges, and a referral that was paid
    is QUALIFIED. -/
theorem referral_status_kept {tr : List (DecisionWorld × DecisionMove × DecisionWorld)}
    {w : DecisionWorld}
    (h : Run DecisionWorld.Init DecisionWorld.Step (fun _ _ => True) tr w) :
    (∀ x ∈ tr, FollowsEdges x.1.referrals x.2.2.referrals) ∧
      ∀ r ∈ w.referrals, ((∃ l ∈ w.ledger, PaysReferral r.id l) ∨ r.rewardLedgerId.isSome = true) →
        r.status = .QUALIFIED := by
  have hsound : ∀ {v : DecisionWorld}, Reachable DecisionWorld.Init DecisionWorld.Step v →
      v.shared.Sound := fun hv =>
    hv.invariant (I := fun v : DecisionWorld => v.shared.Sound) (fun _ h0 => .init h0.1)
      fun _ _ _ hI _ hstep => (DecisionWorld.sound_step hI hstep).1
  refine ⟨?_, fun r hr hpaid => ?_⟩
  · exact h.steps (P := fun v _ v' => FollowsEdges v.referrals v'.referrals)
      fun _ _ _ hreach _ hstep => (DecisionWorld.sound_step (hsound hreach) hstep).2
  · rcases hpaid with ⟨l, hl, hpays⟩ | hnamed
    · have hkey : IsReferralKey l.idempotencyKey := ⟨r.id, hpays⟩
      obtain ⟨q, hq, hst, hhalf⟩ := (hsound h.reach).tables.paid l hl hkey
      have hqr : q = r := Table.eq_of_key hq hr (hpays.of_half hhalf)
      rw [← hqr]
      exact hst
    · have hcheck : ReferralRow.constraints r = true := w.shared.store.referrals.valid r hr
      simp only [ReferralRow.constraints, Bool.and_eq_true, Bool.or_eq_true,
        Option.isNone_iff_eq_none, decide_eq_true_eq] at hcheck
      rcases hcheck.2 with hnone | hst
      · rw [hnone] at hnamed
        cases hnamed
      · exact hst

def decisionStart : DecisionWorld := ⟨referralStart, fun _ => none⟩

/-- A moderator reads the referral before it is paid, and writes after. -/
def lateRejection : List DecisionMove :=
  invitedMoves.map .referral ++
    [.read 0 true "invited himself" .reject 1, .referral (.look 1), .referral (.attend 1),
      .referral (.pay 1 (demoReferralEnv 121)), .write 0]

theorem referral_status_kept_late_rejection :
    ∃ (tr : List (DecisionWorld × DecisionMove × DecisionWorld)) (w : DecisionWorld),
    (∀ x ∈ tr, FollowsEdges x.1.referrals x.2.2.referrals) ∧
      ∃ r ∈ w.referrals, r.status = .QUALIFIED ∧ ∃ l ∈ w.ledger, PaysReferral r.id l := by
  have hplay : (runList DecisionWorld.exec decisionStart lateRejection).any (fun w =>
      w.referrals.any fun r => w.ledger.any fun l =>
        decide (l.idempotencyKey = referrerRewardKey r.id)) = true := by decide +kernel
  obtain ⟨w, hw, hchecks⟩ := (Option.any_eq_true _ _).1 hplay
  simp only [List.any_eq_true, decide_eq_true_eq] at hchecks
  obtain ⟨r, hr, l, hl, hkey⟩ := hchecks
  have hstart : Run DecisionWorld.Init DecisionWorld.Step (fun _ _ => True) [] decisionStart :=
    .start ⟨referralStart_init, fun _ => rfl⟩
  have hrun := run_of_runList (g := fun _ _ => true) (fun _ _ _ h => h) (fun _ _ _ => trivial)
    hstart (by decide +kernel) hw
  obtain ⟨hedges, hpaid⟩ := referral_status_kept hrun
  exact ⟨_, w, hedges, r, hr, hpaid r hr (.inl ⟨l, hl, .inl hkey⟩), l, hl, .inl hkey⟩

end Paayatam
