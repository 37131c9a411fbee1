/-
  Paayatam.Economy.CoinTransactions

  `CoinService` with its transactions interleaved.

  `Economy.Coins` runs one movement at a time.  Here any number of database
  transactions run at once, each making any number of calls of `apply`,
  `penalize` and `reverse`, and every statement of a call is a step of its own:
  reading the row to reverse, creating and locking the account, looking up the
  idempotency key, inserting the ledger row together with the new balance.
  Between two of its statements the other transactions may do anything their
  locks allow.

  What a statement sees is the committed store and the transaction's own
  writes.  An account stays locked until its transaction ends; an insert waits
  while another transaction holds an uncommitted row it collides with, and
  fails when a committed one does.
-/

import Paayatam.Economy.Coins
import Paayatam.Lib.Chain
import Paayatam.Lib.System
import Paayatam.Lib.Threads
import Mathlib.Data.Fintype.Pi

namespace Paayatam

open Lib

/-- A call of the service.  `reversesLedgerId` is set only by `reverse`. -/
inductive CoinCall where
  | apply (input : CoinMovementInput) (forward : input.reversesLedgerId = none)
  | penalize (input : CoinMovementInput) (forward : input.reversesLedgerId = none)
  | reverse (ledgerId : LedgerId) (reasonCode : String) (actorType : ActorType)
      (actorId : Option UserId)

/-- How far a transaction has come in its current call. -/
inductive CallPhase where
  | idle
  /-- About to create and lock the account. -/
  | entering (input : CoinMovementInput) (penaltyRequested : Option Int)
  /-- Holds the account, about to look the key up. -/
  | locked (input : CoinMovementInput) (penaltyRequested : Option Int)
  /-- Found no row of the key, about to insert one of this amount. -/
  | writing (input : CoinMovementInput) (penaltyRequested : Option Int) (amount : Int)

/-- The committed `coin_account` and `coin_ledger`, the latter in commit order. -/
structure CoinStore where
  accounts : UserId → Option Int
  ledger : List CoinLedgerRow

/-- One transaction. -/
structure CoinTx where
  /-- The accounts it holds, with the balances it has given them. -/
  held : UserId → Option Int
  /-- The ledger rows it has inserted and not committed. -/
  pending : List CoinLedgerRow
  phase : CallPhase
  /-- What its calls answered. -/
  answers : List (Except AppError CoinPenalty)

/-- A balance, committed; an absent account holds nothing. -/
def CoinStore.balance (st : CoinStore) (u : UserId) : Int := (st.accounts u).getD 0

namespace CoinTx

/-- A balance, as the transaction sees it. -/
def balance (tx : CoinTx) (st : CoinStore) (u : UserId) : Int := (tx.held u).getD (st.balance u)

/-- The ledger, as the transaction sees it. -/
def rows (tx : CoinTx) (st : CoinStore) : List CoinLedgerRow := st.ledger ++ tx.pending

/-- The current call returns. -/
def answer (tx : CoinTx) (a : Except AppError CoinPenalty) : CoinTx :=
  { tx with phase := .idle, answers := tx.answers ++ [a] }

/-- The transaction is over: it holds nothing. -/
def released (tx : CoinTx) : CoinTx :=
  { held := fun _ => none, pending := [], phase := .idle, answers := tx.answers }

/-- Entry of `applyWithin`. -/
def enter (tx : CoinTx) (input : CoinMovementInput) (penaltyRequested : Option Int) : CoinTx :=
  if input.amount = 0 then tx.answer (.error (.of .INTERNAL_ERROR))
  else { tx with phase := .entering input penaltyRequested }

/-- A call, up to the account. -/
def call (tx : CoinTx) (st : CoinStore) : CoinCall → CoinTx
  | .apply input _ => tx.enter input none
  | .penalize input _ =>
      let requested := |input.amount|
      if requested = 0 then
        tx.answer (.ok { applied := false, ledgerId := none, charged := 0, requested := 0,
                         balance := tx.balance st input.userId })
      else tx.enter { input with amount := -requested } (some requested)
  | .reverse ledgerId reasonCode actorType actorId =>
      match (tx.rows st).find? fun r => decide (r.id = ledgerId) with
      | none => tx.answer (.error (.of .NOT_FOUND))
      | some original =>
          if original.type = .REVERSAL then tx.answer (.error (.of .INVALID_STATE_TRANSITION))
          else tx.enter (reversalOf original reasonCode actorType actorId) none

/-- `INSERT … ON CONFLICT DO NOTHING`, then `SELECT … FOR UPDATE`. -/
def lock (tx : CoinTx) (st : CoinStore) (input : CoinMovementInput)
    (penaltyRequested : Option Int) : CoinTx :=
  { tx with
    held := Function.update tx.held input.userId (some (tx.balance st input.userId))
    phase := .locked input penaltyRequested }

/-- The idempotency key, then the funds. -/
def lookup (tx : CoinTx) (st : CoinStore) (input : CoinMovementInput)
    (penaltyRequested : Option Int) : CoinTx :=
  let balanceBefore := tx.balance st input.userId
  match (tx.rows st).find? fun r => decide (r.idempotencyKey = input.idempotencyKey) with
  | some existing => tx.answer (.ok (replayed existing penaltyRequested balanceBefore))
  | none =>
    let amount := cappedAmount input.amount penaltyRequested balanceBefore
    if balanceBefore + amount < 0 then
      tx.answer (.error (.raised .INSUFFICIENT_COINS (.coins balanceBefore (-amount))))
    else if amount = 0 then
      -- a penalty against an empty account: `apply` never gets here
      tx.answer (.ok { applied := false, ledgerId := none, charged := 0,
                       requested := penaltyRequested.getD 0, balance := balanceBefore })
    else { tx with phase := .writing input penaltyRequested amount }

/-- The row the insert writes. -/
def row (tx : CoinTx) (st : CoinStore) (now : Instant) (id : LedgerId) (input : CoinMovementInput)
    (penaltyRequested : Option Int) (amount : Int) : CoinLedgerRow :=
  ledgerRow now id input penaltyRequested (tx.balance st input.userId) amount

/-- The ledger row goes in, and the account takes the balance the row states. -/
def insert (tx : CoinTx) (r : CoinLedgerRow) : CoinTx :=
  { tx with
    held := Function.update tx.held r.userId (some r.balanceAfter)
    pending := tx.pending ++ [r]
    phase := .idle }

/-- The insert and the update of the balance, or the constraint that refused them. -/
def write (tx : CoinTx) (st : CoinStore) (now : Instant) (id : LedgerId)
    (input : CoinMovementInput) (penaltyRequested : Option Int) (amount : Int) : CoinTx :=
  let r := tx.row st now id input penaltyRequested amount
  if Row.check r = false then (tx.answer (.error (.db .checkViolation))).released
  else if ∀ q ∈ tx.rows st, Row.compatible r q then
    (tx.insert r).answer
      (.ok { applied := true, ledgerId := some id, charged := |amount|,
             requested := penaltyRequested.getD |amount|, balance := r.balanceAfter })
  else (tx.answer (.error (.db .uniqueViolation))).released

end CoinTx

/-- The store after the transaction commits. -/
def CoinStore.publish (st : CoinStore) (tx : CoinTx) : CoinStore where
  accounts u := (tx.held u).or (st.accounts u)
  ledger := st.ledger ++ tx.pending

/-- One statement of transaction `i`. -/
inductive CoinStep (ι : Type) where
  | call (i : ι) (c : CoinCall)
  | lock (i : ι)
  | lookup (i : ι)
  | write (i : ι) (id : LedgerId) (now : Instant)
  | commit (i : ι)
  /-- Given up at any point: a caller's error, a deadlock, a lost connection. -/
  | abort (i : ι)

/-- The transactions over the coin tables. -/
abbrev CoinWorld (ι : Type) := Threads ι CoinStore CoinTx

namespace CoinWorld

variable {ι : Type} [DecidableEq ι] [Fintype ι]

/-- No other transaction holds the account. -/
def free (w : CoinWorld ι) (i : ι) (u : UserId) : Bool :=
  decide (∀ j, j ≠ i → (w.locals j).held u = none)

/-- No other transaction holds an uncommitted row the insert would have to wait for. -/
def clear (w : CoinWorld ι) (i : ι) (r : CoinLedgerRow) : Bool :=
  decide (∀ j, j ≠ i → ∀ q ∈ (w.locals j).pending, Row.compatible r q)

def exec (w : CoinWorld ι) : CoinStep ι → Option (CoinWorld ι)
  | .call i c =>
      match (w.locals i).phase with
      | .idle => some (w.set i w.shared ((w.locals i).call w.shared c))
      | _ => none
  | .lock i =>
      match (w.locals i).phase with
      | .entering input pr =>
          if w.free i input.userId then some (w.set i w.shared ((w.locals i).lock w.shared input pr))
          else none
      | _ => none
  | .lookup i =>
      match (w.locals i).phase with
      | .locked input pr => some (w.set i w.shared ((w.locals i).lookup w.shared input pr))
      | _ => none
  | .write i id now =>
      match (w.locals i).phase with
      | .writing input pr amount =>
          if w.clear i ((w.locals i).row w.shared now id input pr amount) then
            some (w.set i w.shared ((w.locals i).write w.shared now id input pr amount))
          else none
      | _ => none
  | .commit i =>
      match (w.locals i).phase with
      | .idle => some (w.set i (w.shared.publish (w.locals i)) (w.locals i).released)
      | _ => none
  | .abort i => some (w.set i w.shared (w.locals i).released)

def Step (w : CoinWorld ι) (l : CoinStep ι) (w' : CoinWorld ι) : Prop := w.exec l = some w'

/-- Empty tables, and no transaction under way. -/
def Init (w : CoinWorld ι) : Prop :=
  w.shared = ⟨fun _ => none, []⟩ ∧ ∀ i, w.locals i = ⟨fun _ => none, [], .idle, []⟩

end CoinWorld

end Paayatam
