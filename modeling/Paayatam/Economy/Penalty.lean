/-
  Paayatam.Economy.Penalty

  `PenaltyService`: what a cancellation or an absence costs, and what a guest
  gets back when taking part was called off.

  Prices come from the settings by bucket; the charge is a coin penalty,
  capped at the balance, and a trust movement under keys derived from the
  participation or the event.  Refunding reverses every unreversed charge of
  a participation that is not itself a penalty.
-/

import Paayatam.Economy.Trust
import Mathlib.Data.List.Sort

namespace Paayatam

open Lib

structure PenaltyPrice where
  coins : Int
  trust : Int

structure ChargedPenalty where
  bucket : CancellationBucket
  price : PenaltyPrice
  coinsCharged : Int
  trustApplied : Int
  ledgerId : Option LedgerId

def CANCEL_PENALTY_REASON : String := "cancellation.participant_penalty"
def NO_SHOW_PENALTY_REASON : String := "cancellation.no_show_penalty"
def HOST_PENALTY_REASON : String := "cancellation.host_penalty"
def HOST_REFUND_REASON : String := "cancellation.host_refund"

/-- The bucket of a cancellation by how long before the start it comes. -/
def bucketForLateness (startsAt now : Instant) : CancellationBucket :=
  if startsAt - now > 24 * msPerHour then .GT_24H
  else if startsAt - now ≥ 3 * msPerHour then .H24_TO_H3
  else .LT_3H

def priceFor (st : Settings) : CancellationBucket → PenaltyPrice
  | .GRACE => ⟨0, 0⟩
  | .GT_24H => ⟨st.cancellation_coins_gt_24h, st.cancellation_trust_gt_24h⟩
  | .H24_TO_H3 => ⟨st.cancellation_coins_h24_to_h3, st.cancellation_trust_h24_to_h3⟩
  | .LT_3H => ⟨st.cancellation_coins_lt_3h, st.cancellation_trust_lt_3h⟩
  | .NO_SHOW => ⟨st.cancellation_coins_no_show, st.cancellation_trust_no_show⟩

def hostPriceFor (st : Settings) (bucket : CancellationBucket) : PenaltyPrice where
  coins := mathRound ((priceFor st bucket).coins * st.cancellation_host_penalty_multiplier)
  trust := if bucket = .GT_24H then st.cancellation_host_trust_gt24h
    else st.cancellation_host_trust_lt24h

/-- Opens and locks every account in one fixed order. -/
def lockAccounts (userIds : List UserId) : Act Unit :=
  (userIds.dedup.insertionSort (· ≤ ·)).forM ensureCoinAccount

/-- The trust half of a charge: what the score moved by, when there is a price. -/
def chargeTrust (env : Env) (price : Int) (trust : TrustMovementInput) : Act Int :=
  if 0 < price then do
    let movement ← applyTrust env { trust with delta := -price }
    return movement.effectiveDelta
  else return 0

/-- A charge: coins as a penalty, then trust when there is any to take. -/
def charge (env : Env) (bucket : CancellationBucket) (price : PenaltyPrice)
    (coins : CoinMovementInput) (trust : TrustMovementInput) : Act ChargedPenalty := do
  let penalty ← penalize env { coins with amount := price.coins }
  let trustApplied ← chargeTrust env price.trust trust
  return { bucket := bucket, price := price, coinsCharged := penalty.charged,
           trustApplied := trustApplied, ledgerId := penalty.ledgerId }

def chargeParticipant (env : Env) (participantId : ParticipantId) (userId : UserId)
    (bucket : CancellationBucket) : Act ChargedPenalty :=
  let noShow := decide (bucket = .NO_SHOW)
  let reason := if noShow then NO_SHOW_PENALTY_REASON else CANCEL_PENALTY_REASON
  charge env bucket (priceFor env.settings bucket)
    { userId := userId, amount := 0
      type := if noShow then .NO_SHOW_PENALTY else .CANCELLATION_PENALTY
      reasonCode := reason, idempotencyKey := .participantPenalty participantId
      actorType := .SYSTEM, ref := some (.event_participant participantId) }
    { userId := userId, delta := 0, type := if noShow then .NO_SHOW else .CANCELLATION
      reasonCode := reason, idempotencyKey := .participantPenalty participantId
      actorType := .SYSTEM, ref := some (.event_participant participantId) }

/-- Cancelling an event nobody was seated on is free. -/
def chargeHost (env : Env) (eventId : EventId) (hostUserId : UserId)
    (bucket : CancellationBucket) (affected : Nat) : Act ChargedPenalty :=
  charge env bucket (if 0 < affected then hostPriceFor env.settings bucket else ⟨0, 0⟩)
    { userId := hostUserId, amount := 0, type := .CANCELLATION_PENALTY
      reasonCode := HOST_PENALTY_REASON, idempotencyKey := .hostPenalty eventId
      actorType := .USER, actorId := some hostUserId, ref := some (.event eventId) }
    { userId := hostUserId, delta := 0, type := .CANCELLATION
      reasonCode := HOST_PENALTY_REASON, idempotencyKey := .hostPenalty eventId
      actorType := .USER, actorId := some hostUserId, ref := some (.event eventId) }

/-- The charges `refundParticipant` gives back: what taking part cost, penalties
    apart. -/
def Db.refundableCharges (db : Db) (participantId : ParticipantId) : List CoinLedgerRow :=
  db.coinLedger.rows.filter fun r =>
    decide (r.ref = some (.event_participant participantId)) && decide (r.amount < 0) &&
    !([.CANCELLATION_PENALTY, .NO_SHOW_PENALTY, .REVERSAL] : List CoinLedgerType).contains r.type &&
    !db.isReversed r.id

def refundParticipant (env : Env) (participantId : ParticipantId) (actorId : UserId)
    (actorType : ActorType) (reasonCode : String) : Act Int := do
  let db ← get
  reverseCharges env (db.refundableCharges participantId) reasonCode actorType (some actorId)

/-! ## Specifications -/

theorem ensureCoinAccount_books {P : CoinLedgerRow → Prop} {u : UserId} {s s' : Db}
    (h : Runs (ensureCoinAccount u) s () s') : Books P s s' := by
  rw [ensureCoinAccount_coinsOnly h]
  exact .of_same_ledger rfl rfl rfl rfl rfl

theorem lockAccounts_books {P : CoinLedgerRow → Prop} {us : List UserId} {s s' : Db}
    (h : Runs (lockAccounts us) s () s') : Books P s s' :=
  Runs.forM_rel Books.refl Books.trans (fun _ _ _ _ hr => ensureCoinAccount_books hr) h

theorem chargeTrust_trustOnly {env : Env} {price n : Int} {trust : TrustMovementInput} {s s' : Db}
    (h : Runs (chargeTrust env price trust) s n s') : TrustOnly s s' := by
  rw [chargeTrust, runs_ite] at h
  rcases h with ⟨-, h⟩ | ⟨-, h⟩
  · simp only [runs_bind, runs_pure] at h
    obtain ⟨_, _, hmove, -, rfl⟩ := h
    exact applyTrust_trustOnly hmove
  · rw [runs_pure] at h
    obtain ⟨-, rfl⟩ := h
    exact .refl _

/-- A charge writes at most one coin row, of the given type and under the given
    key. -/
theorem charge_books {env : Env} {b : CancellationBucket} {price : PenaltyPrice}
    {coins : CoinMovementInput} {trust : TrustMovementInput} {s s' : Db} {r : ChargedPenalty}
    (h : Runs (charge env b price coins trust) s r s') (hf : coins.Forward) :
    Books (RowOf coins) s s' := by
  simp only [charge, runs_bind, runs_pure] at h
  obtain ⟨_, s₁, hpen, _, s₂, htrust, -, rfl⟩ := h
  have h₁ : Books (RowOf coins) s s₁ := (penalize_books hpen hf).mono fun _ hx => hx
  exact h₁.trans (chargeTrust_trustOnly htrust).books

/-- A penalty row: neither a join charge nor a reversal, nor paid to a host. -/
def IsPenalty (r : CoinLedgerRow) : Prop :=
  r.type = .CANCELLATION_PENALTY ∨ r.type = .NO_SHOW_PENALTY

theorem chargeParticipant_books {env : Env} {p : ParticipantId} {u : UserId}
    {b : CancellationBucket} {s s' : Db} {r : ChargedPenalty}
    (h : Runs (chargeParticipant env p u b) s r s') :
    Books (fun x => IsPenalty x ∧ x.idempotencyKey = .participantPenalty p) s s' := by
  refine (charge_books h ⟨rfl, by simp⟩).mono fun x hx => ⟨?_, hx.2.2.1⟩
  rw [IsPenalty, hx.2.1]
  by_cases hb : b = .NO_SHOW <;> simp [hb]

theorem chargeHost_books {env : Env} {e : EventId} {u : UserId} {b : CancellationBucket} {n : Nat}
    {s s' : Db} {r : ChargedPenalty} (h : Runs (chargeHost env e u b n) s r s') :
    Books (fun x => IsPenalty x ∧ x.idempotencyKey = .hostPenalty e) s s' :=
  (charge_books h ⟨rfl, by simp⟩).mono fun _ hx => ⟨.inl hx.2.1, hx.2.2.1⟩

theorem refundParticipant_books {env : Env} {p : ParticipantId} {a : UserId} {t : ActorType}
    {reason : String} {n : Int} {s s' : Db} (h : Runs (refundParticipant env p a t reason) s n s') :
    Books IsReversal s s' ∧ ∀ c ∈ s.refundableCharges p, s'.ReversalTaken c.id := by
  rw [refundParticipant, runs_get_bind] at h
  exact reverseCharges_books h

end Paayatam
