/-
  Paayatam.Economy.TrustTransactions

  `TrustService` with its transactions interleaved.

  As in `Economy.CoinTransactions`, any number of transactions run at once, each
  making any number of calls of `apply`, and every statement of a call is a step
  of its own: creating and locking the score, looking up the seed row, inserting
  it, looking up the idempotency key, inserting the ledger row.  Each insert goes
  together with the update of the score.  `trust.initial_score` is whatever the
  call reads when it asks for it.
-/

import Paayatam.Economy.Trust
import Paayatam.Lib.Journal
import Paayatam.Lib.System
import Paayatam.Lib.Threads
import Mathlib.Data.Fintype.Pi

namespace Paayatam

open Lib

/-- A call of `apply`; only `seedIfNeeded` writes rows of the type `INITIAL`. -/
structure TrustCall where
  input : TrustMovementInput
  earned : input.type ≠ .INITIAL

/-- How far a transaction has come in its current call, with the score it has read. -/
inductive TrustPhase where
  | idle
  /-- About to create and lock the score. -/
  | entering (call : TrustCall)
  /-- About to read the initial score and look for the seed row. -/
  | locked (call : TrustCall) (score : Int)
  /-- Found no seed row, about to insert one. -/
  | seeding (call : TrustCall) (score initial : Int)
  /-- About to look the key up. -/
  | seeded (call : TrustCall) (score : Int)
  /-- Found no row of the key, about to insert one. -/
  | writing (call : TrustCall) (score : Int)

/-- What a row of the ledger says. -/
def trustEntries : EntryKind UserId TrustLedgerRow Int where
  owner := TrustLedgerRow.userId
  before := TrustLedgerRow.scoreBefore
  after := TrustLedgerRow.scoreAfter
  Compatible := Row.compatible
  Valid r := Row.check r = true ∧ (r.type = .INITIAL → r.idempotencyKey = .initial r.userId)
  symm _ _ h := symm_of Row.compatible h

/-- The committed `trust_score` and `trust_score_ledger`, the latter in commit order. -/
abbrev TrustStore := Journal UserId TrustLedgerRow Int

abbrev TrustDraft := Draft UserId TrustLedgerRow Int

/-- One transaction: what it holds and has written, and what its calls answered. -/
structure TrustTx where
  draft : TrustDraft
  phase : TrustPhase
  answers : List (Except AppError TrustMovement)

/-- The row `writeRow` inserts. -/
def trustRow (now : Instant) (id : LedgerId) (input : TrustMovementInput) (scoreBefore : Int) :
    TrustLedgerRow :=
  let scoreAfter := clampScore (scoreBefore + input.delta)
  let delta := scoreAfter - scoreBefore
  { id := id
    userId := input.userId
    idempotencyKey := input.idempotencyKey
    type := input.type
    delta := delta
    scoreBefore := scoreBefore
    scoreAfter := scoreAfter
    reasonCode := input.reasonCode
    actorType := input.actorType
    actorId := input.actorId
    ref := input.ref
    reversesLedgerId := none
    requestedDelta := if delta = input.delta then none else some input.delta
    createdAt := now }

/-- The movement `seedIfNeeded` writes. -/
def seedInput (userId : UserId) (initial : Int) : TrustMovementInput where
  userId := userId
  delta := initial
  type := .INITIAL
  reasonCode := "trust.initial"
  idempotencyKey := .initial userId
  actorType := .SYSTEM

/-- `findUnique({ idempotencyKey })`. -/
def trustByKey (rows : List TrustLedgerRow) (k : TrustKey) : Option TrustLedgerRow :=
  rows.find? fun r => decide (r.idempotencyKey = k)

namespace TrustTx

/-- The transaction is over: it holds nothing. -/
def released (tx : TrustTx) : TrustTx := { draft := .empty, phase := .idle, answers := tx.answers }

/-- The current call returns. -/
def answer (tx : TrustTx) (a : Except AppError TrustMovement) : TrustTx :=
  { tx with phase := .idle, answers := tx.answers ++ [a] }

def call (tx : TrustTx) (c : TrustCall) : TrustTx :=
  if c.input.delta = 0 then tx.answer (.error (.of .INTERNAL_ERROR))
  else { tx with phase := .entering c }

/-- `INSERT … ON CONFLICT DO NOTHING`, then `SELECT … FOR UPDATE`. -/
def lock (tx : TrustTx) (st : TrustStore) (c : TrustCall) : TrustTx :=
  { tx with
    draft := tx.draft.lock st c.input.userId
    phase := .locked c (tx.draft.figure st c.input.userId) }

/-- The first half of `seedIfNeeded`: the setting, then the seed row. -/
def findSeed (tx : TrustTx) (st : TrustStore) (c : TrustCall) (score initial : Int) : TrustTx :=
  if initial = 0 then { tx with phase := .seeded c score }
  else match trustByKey (tx.draft.entries st) (.initial c.input.userId) with
    | some _ => { tx with phase := .seeded c score }
    | none => { tx with phase := .seeding c score initial }

def lookup (tx : TrustTx) (st : TrustStore) (c : TrustCall) (score : Int) : TrustTx :=
  match trustByKey (tx.draft.entries st) c.input.idempotencyKey with
  | some existing =>
    tx.answer (.ok { applied := false, ledgerId := existing.id, score := score,
                     effectiveDelta := existing.delta })
  | none => { tx with phase := .writing c score }

/-- `writeRow`: the insert and the update of the score, or the constraint that refused them. -/
def writeRow (tx : TrustTx) (st : TrustStore) (r : TrustLedgerRow) (wrote : TrustTx → TrustTx) :
    TrustTx :=
  if Row.check r = false then (tx.answer (.error (.db .checkViolation))).released
  else if ∀ q ∈ tx.draft.entries st, Row.compatible r q then
    wrote { tx with draft := tx.draft.write trustEntries r }
  else (tx.answer (.error (.db .uniqueViolation))).released

/-- The second half of `seedIfNeeded`. -/
def writeSeed (tx : TrustTx) (st : TrustStore) (now : Instant) (id : LedgerId) (c : TrustCall)
    (score initial : Int) : TrustTx :=
  let r := trustRow now id (seedInput c.input.userId initial) score
  tx.writeRow st r fun tx => { tx with phase := .seeded c r.scoreAfter }

def write (tx : TrustTx) (st : TrustStore) (now : Instant) (id : LedgerId) (c : TrustCall)
    (score : Int) : TrustTx :=
  let r := trustRow now id c.input score
  tx.writeRow st r fun tx =>
    tx.answer (.ok { applied := true, ledgerId := id, score := r.scoreAfter,
                     effectiveDelta := r.delta })

end TrustTx

/-- One statement of transaction `i`. -/
inductive TrustStep (ι : Type) where
  | call (i : ι) (c : TrustCall)
  | lock (i : ι)
  | findSeed (i : ι) (initial : Int)
  | writeSeed (i : ι) (id : LedgerId) (now : Instant)
  | lookup (i : ι)
  | write (i : ι) (id : LedgerId) (now : Instant)
  | commit (i : ι)
  /-- Given up at any point: a caller's error, a deadlock, a lost connection. -/
  | abort (i : ι)

/-- The transactions over the trust tables. -/
abbrev TrustWorld (ι : Type) := Threads ι TrustStore TrustTx

namespace TrustWorld

variable {ι : Type} [DecidableEq ι] [Fintype ι]

/-- No other transaction holds the score. -/
def free (w : TrustWorld ι) (i : ι) (u : UserId) : Bool :=
  decide (∀ j, j ≠ i → (w.locals j).draft.held u = none)

/-- No other transaction holds an uncommitted row the insert would have to wait for. -/
def clear (w : TrustWorld ι) (i : ι) (r : TrustLedgerRow) : Bool :=
  decide (∀ j, j ≠ i → ∀ q ∈ (w.locals j).draft.pending, Row.compatible r q)

def exec (w : TrustWorld ι) : TrustStep ι → Option (TrustWorld ι)
  | .call i c =>
    match (w.locals i).phase with
    | .idle => some (w.set i w.shared ((w.locals i).call c))
    | _ => none
  | .lock i =>
    match (w.locals i).phase with
    | .entering c =>
      if w.free i c.input.userId then some (w.set i w.shared ((w.locals i).lock w.shared c))
      else none
    | _ => none
  | .findSeed i initial =>
    match (w.locals i).phase with
    | .locked c score =>
      some (w.set i w.shared ((w.locals i).findSeed w.shared c score initial))
    | _ => none
  | .writeSeed i id now =>
    match (w.locals i).phase with
    | .seeding c score initial =>
      if w.clear i (trustRow now id (seedInput c.input.userId initial) score) then
        some (w.set i w.shared ((w.locals i).writeSeed w.shared now id c score initial))
      else none
    | _ => none
  | .lookup i =>
    match (w.locals i).phase with
    | .seeded c score => some (w.set i w.shared ((w.locals i).lookup w.shared c score))
    | _ => none
  | .write i id now =>
    match (w.locals i).phase with
    | .writing c score =>
      if w.clear i (trustRow now id c.input score) then
        some (w.set i w.shared ((w.locals i).write w.shared now id c score))
      else none
    | _ => none
  | .commit i =>
    match (w.locals i).phase with
    | .idle => some (w.set i (w.shared.publish (w.locals i).draft) (w.locals i).released)
    | _ => none
  | .abort i => some (w.set i w.shared (w.locals i).released)

def Step (w : TrustWorld ι) (l : TrustStep ι) (w' : TrustWorld ι) : Prop := w.exec l = some w'

/-- Empty tables, and no transaction under way. -/
def Init (w : TrustWorld ι) : Prop :=
  w.shared = ⟨fun _ => none, []⟩ ∧ ∀ i, w.locals i = ⟨.empty, .idle, []⟩

end TrustWorld

end Paayatam
