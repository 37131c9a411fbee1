/-
  Paayatam.Economy.Coins

  `CoinService`: the one way a balance moves.

  `applyWithin` is the write path of every movement.  It creates the account,
  locks it, answers a replayed idempotency key from the recorded row, refuses
  an overdraft, and otherwise appends one ledger row and moves the balance to
  the figure the row states.  `penalize` is the same path with the amount
  capped at the balance, and `reverse` is the same path with the negated
  amount of the row it undoes.

  What a caller needs to know is in two relations.  `Movement` says what one
  committed movement did: nothing, or one appended row.  `Books` says what
  any number of them leave alone, and is what the loops over charges carry.
-/

import Paayatam.Env

namespace Paayatam

open Lib

/-- `CoinMovementInput`. -/
structure CoinMovementInput where
  userId : UserId
  amount : Int
  type : CoinLedgerType
  reasonCode : String
  idempotencyKey : CoinKey
  actorType : ActorType
  actorId : Option UserId := none
  ref : Option LedgerRef := none
  reversesLedgerId : Option LedgerId := none

/-- `CoinPenalty`: what a movement answers. -/
structure CoinPenalty where
  applied : Bool
  ledgerId : Option LedgerId
  charged : Int
  requested : Int
  balance : Int
  deriving DecidableEq

/-- A penalty takes what is there; a spend does not get to overdraw. -/
def cappedAmount (amount : Int) (penaltyRequested : Option Int) (balanceBefore : Int) : Int :=
  if penaltyRequested.isSome then max amount (-balanceBefore) else amount

/-- The answer to a replayed key, from the row that key recorded. -/
def replayed (existing : CoinLedgerRow) (penaltyRequested : Option Int) (balanceBefore : Int) :
    CoinPenalty where
  applied := false
  ledgerId := some existing.id
  charged := |existing.amount|
  requested := penaltyRequested.getD |existing.amount|
  balance := balanceBefore

/-- The row a movement of `amount` appends. -/
def ledgerRow (now : Instant) (id : LedgerId) (input : CoinMovementInput)
    (penaltyRequested : Option Int) (balanceBefore amount : Int) : CoinLedgerRow where
  id := id
  userId := input.userId
  idempotencyKey := input.idempotencyKey
  type := input.type
  amount := amount
  balanceBefore := balanceBefore
  balanceAfter := balanceBefore + amount
  reasonCode := input.reasonCode
  actorType := input.actorType
  actorId := input.actorId
  ref := input.ref
  reversesLedgerId := input.reversesLedgerId
  requestedAmount := if penaltyRequested.any (fun q => -amount != q) then penaltyRequested else none
  createdAt := now

/-- `coin_account.balance` of a user; an absent account holds nothing. -/
def Db.balanceOf (db : Db) (u : UserId) : Int :=
  ((db.coinAccounts.find? u).map (·.balance)).getD 0

/-- `coin_ledger.findUnique({ idempotencyKey })`. -/
def Db.ledgerByKey (db : Db) (k : CoinKey) : Option CoinLedgerRow :=
  db.coinLedger.rows.find? fun r => decide (r.idempotencyKey = k)

/-- Creates the account a lock needs to find, `ON CONFLICT DO NOTHING`. -/
def ensureCoinAccount (u : UserId) : Act Unit := do
  let _ ← (insertRowOrIgnore { userId := u, balance := 0, version := 0 : CoinAccountRow } : Act Bool)

def applyWithin (env : Env) (input : CoinMovementInput) (penaltyRequested : Option Int) :
    Act CoinPenalty := do
  guardTx (input.amount ≠ 0) (.of .INTERNAL_ERROR)
  ensureCoinAccount input.userId
  let db ← get
  let balanceBefore := db.balanceOf input.userId
  match db.ledgerByKey input.idempotencyKey with
  | some existing => return replayed existing penaltyRequested balanceBefore
  | none =>
    let amount := cappedAmount input.amount penaltyRequested balanceBefore
    let balanceAfter := balanceBefore + amount
    guardTx (0 ≤ balanceAfter) (.raised .INSUFFICIENT_COINS (.coins balanceBefore (-amount)))
    if amount = 0 then
      return { applied := false, ledgerId := none, charged := 0,
               requested := penaltyRequested.getD 0, balance := balanceBefore }
    else
      let id := freshId (db.coinLedger.rows.map (·.id))
      insertRow (ledgerRow env.now id input penaltyRequested balanceBefore amount)
      updateRow input.userId fun a : CoinAccountRow =>
        { a with balance := balanceAfter, version := a.version + 1 }
      return { applied := true, ledgerId := some id, charged := |amount|,
               requested := penaltyRequested.getD |amount|, balance := balanceAfter }

/-- `CoinService.apply`. -/
def applyCoins (env : Env) (input : CoinMovementInput) : Act CoinPenalty := do
  let result ← applyWithin env input none
  guardTx (result.ledgerId.isSome = true) (.of .INTERNAL_ERROR)
  return result

/-- `CoinService.penalize`: the magnitude is what the policy asks for. -/
def penalize (env : Env) (input : CoinMovementInput) : Act CoinPenalty := do
  let requested := |input.amount|
  if requested = 0 then
    let db ← get
    return { applied := false, ledgerId := none, charged := 0, requested := 0,
             balance := db.balanceOf input.userId }
  else
    applyWithin env { input with amount := -requested } (some requested)

/-- The movement that undoes `original`. -/
def reversalOf (original : CoinLedgerRow) (reasonCode : String) (actorType : ActorType)
    (actorId : Option UserId) : CoinMovementInput where
  userId := original.userId
  amount := -original.amount
  type := .REVERSAL
  reasonCode := reasonCode
  idempotencyKey := .reversal original.id
  actorType := actorType
  actorId := actorId
  ref := original.ref
  reversesLedgerId := some original.id

/-- `CoinService.reverse`. -/
def reverse (env : Env) (ledgerId : LedgerId) (reasonCode : String) (actorType : ActorType)
    (actorId : Option UserId) : Act CoinPenalty := do
  let found ← findRow ledgerId
  let original ← orThrow (.of .NOT_FOUND) (found : Option CoinLedgerRow)
  guardTx (original.type ≠ .REVERSAL) (.of .INVALID_STATE_TRANSITION)
  applyCoins env (reversalOf original reasonCode actorType actorId)

/-! ## What one movement does -/

theorem Db.mem_of_ledgerByKey {db : Db} {k : CoinKey} {r : CoinLedgerRow}
    (h : db.ledgerByKey k = some r) : r ∈ db.coinLedger.rows ∧ r.idempotencyKey = k :=
  ⟨List.mem_of_find?_eq_some h, by simpa using List.find?_some h⟩

theorem Db.not_mem_of_ledgerByKey {db : Db} {k : CoinKey} (h : db.ledgerByKey k = none) :
    ∀ r ∈ db.coinLedger.rows, r.idempotencyKey ≠ k := by
  simpa [Db.ledgerByKey] using h

/-- Only the coin accounts and the coin ledger moved. -/
def CoinsOnly (s s' : Db) : Prop :=
  s' = { s with coinAccounts := s'.coinAccounts, coinLedger := s'.coinLedger }

/-- A committed movement of `input`: the ledger is as it was, or one row of the
    input's key was appended whose amount is the capped one. -/
structure Movement (env : Env) (input : CoinMovementInput) (penaltyRequested : Option Int)
    (s : Db) (result : CoinPenalty) (s' : Db) : Prop where
  coinsOnly : CoinsOnly s s'
  outcome :
    (s'.coinLedger = s.coinLedger ∧ result.applied = false ∧
      ((∃ r, s.ledgerByKey input.idempotencyKey = some r ∧ result.ledgerId = some r.id) ∨
        (s.ledgerByKey input.idempotencyKey = none ∧ result.ledgerId = none ∧
          penaltyRequested.isSome = true))) ∨
    (s.ledgerByKey input.idempotencyKey = none ∧ result.applied = true ∧
      ∃ id, result.ledgerId = some id ∧
        s'.coinLedger.rows = s.coinLedger.rows ++
          [ledgerRow env.now id input penaltyRequested (s.balanceOf input.userId)
            (cappedAmount input.amount penaltyRequested (s.balanceOf input.userId))])

theorem ensureCoinAccount_coinsOnly {u : UserId} {s s' : Db} (h : Runs (ensureCoinAccount u) s () s') :
    s' = { s with coinAccounts := s'.coinAccounts } := by
  simp only [ensureCoinAccount, runs_bind, runs_pure] at h
  obtain ⟨b, _, h₁, -, rfl⟩ := h
  obtain ⟨t, rfl, -⟩ := runs_insertRowOrIgnore h₁
  rfl

/-- An account a movement asks for is there, with the balance its absence had. -/
theorem ensureCoinAccount_account {u : UserId} {s s' : Db}
    (h : Runs (ensureCoinAccount u) s () s') (v : UserId) :
    (s'.coinAccounts.find? v).map (·.balance) =
      if u = v then some (s.balanceOf u) else (s.coinAccounts.find? v).map (·.balance) := by
  simp only [ensureCoinAccount, runs_bind, runs_pure] at h
  obtain ⟨b, _, h₁, -, rfl⟩ := h
  obtain ⟨t, rfl, ⟨-, ht⟩ | ⟨-, rfl, a, ha, hclash⟩⟩ := runs_insertRowOrIgnore h₁
  · have hfind := Table.find?_of_insert ht v
    by_cases huv : u = v
    · subst huv
      have hfresh : s.coinAccounts.find? u = none := by
        rw [Table.find?_eq_none]
        intro a ha hk
        exact (Table.compatible_of_insert ht ha).1 hk
      simp [Db.balanceOf, hfind, hfresh, Row.key]
    · simp [hfind, Row.key, huv]
  · -- the insert clashed, and accounts clash on nothing but their user
    have hk : a.userId = u := by simpa [Row.compatible, Row.key, Row.collide] using hclash
    have hfound : s.coinAccounts.find? u = some a := Table.find?_eq_some.2 ⟨ha, hk⟩
    by_cases huv : u = v
    · subst huv
      simp [Db.balanceOf, hfound]
    · simp [huv]

theorem ensureCoinAccount_balanceOf {u v : UserId} {s s' : Db}
    (h : Runs (ensureCoinAccount u) s () s') : s'.balanceOf v = s.balanceOf v := by
  rw [Db.balanceOf, ensureCoinAccount_account h v]
  split
  · next huv =>
      subst huv
      rfl
  · rfl

theorem applyWithin_spec {env : Env} {input : CoinMovementInput} {pr : Option Int} {s s' : Db}
    {r : CoinPenalty} (h : Runs (applyWithin env input pr) s r s') :
    input.amount ≠ 0 ∧ Movement env input pr s r s' := by
  simp only [applyWithin, runs_guardTx_bind] at h
  obtain ⟨hamount, h⟩ := h
  rw [runs_bind] at h
  obtain ⟨_, s₁, hens, h⟩ := h
  simp only [runs_get_bind] at h
  have hs₁ := ensureCoinAccount_coinsOnly hens
  have hkey : s₁.ledgerByKey input.idempotencyKey = s.ledgerByKey input.idempotencyKey := by
    rw [hs₁]
    rfl
  have hled : s₁.coinLedger = s.coinLedger := by rw [hs₁]
  refine ⟨hamount, ?_⟩
  cases hk : s₁.ledgerByKey input.idempotencyKey with
  | some existing =>
      -- a replay: the recorded row answers
      simp only [hk, runs_pure] at h
      obtain ⟨rfl, rfl⟩ := h
      refine ⟨?_, .inl ⟨hled, rfl, .inl ⟨existing, hkey ▸ hk, rfl⟩⟩⟩
      rw [CoinsOnly, hs₁]
  | none =>
      simp only [hk, runs_guardTx_bind, runs_ite] at h
      obtain ⟨hfunds, h⟩ := h
      rcases h with ⟨hzero, h⟩ | ⟨hne, h⟩
      · -- capped to nothing: only a penalty gets here
        rw [runs_pure] at h
        obtain ⟨rfl, rfl⟩ := h
        have hpr : pr.isSome = true := by
          by_contra hnone
          simp only [cappedAmount, hnone] at hzero
          exact hamount (by simpa using hzero)
        refine ⟨?_, .inl ⟨hled, rfl, .inr ⟨hkey ▸ hk, rfl, hpr⟩⟩⟩
        rw [CoinsOnly, hs₁]
      · simp only [runs_insertRow_bind, runs_updateRow_bind, runs_pure] at h
        obtain ⟨t, ht, _, -, t', -, rfl, rfl⟩ := h
        refine ⟨?_, .inr ⟨hkey ▸ hk, rfl, _, rfl, ?_⟩⟩
        · rw [CoinsOnly, hs₁]
          rfl
        · rw [← ensureCoinAccount_balanceOf hens, ← hled]
          exact ht

theorem applyCoins_spec {env : Env} {input : CoinMovementInput} {s s' : Db} {r : CoinPenalty}
    (h : Runs (applyCoins env input) s r s') :
    Movement env input none s r s' ∧ r.ledgerId.isSome = true := by
  simp only [applyCoins, runs_bind, runs_guardTx, runs_pure] at h
  obtain ⟨_, _, happly, _, _, ⟨hsome, rfl⟩, rfl, rfl⟩ := h
  exact ⟨(applyWithin_spec happly).2, hsome⟩

/-- A committed reversal found its row, and either the row had already been
    reversed or the negated movement was appended. -/
theorem reverse_spec {env : Env} {l : LedgerId} {reason : String} {at' : ActorType}
    {ai : Option UserId} {s s' : Db} {r : CoinPenalty}
    (h : Runs (reverse env l reason at' ai) s r s') :
    ∃ o, s.coinLedger.find? l = some o ∧ o.type ≠ .REVERSAL ∧
      Movement env (reversalOf o reason at' ai) none s r s' := by
  simp only [reverse, runs_findRow_bind, runs_orThrow_bind, runs_guardTx_bind,
    table_coinLedger] at h
  obtain ⟨o, ho, htype, happly⟩ := h
  exact ⟨o, ho, htype, (applyCoins_spec happly).1⟩

/-! ## What any number of movements leave alone -/

/-- The key of a row names the row it reverses exactly when its column does, and
    a reversal is the negation of a forward movement on the same account. -/
structure WellLinked (ledger : Table CoinLedgerRow) (r : CoinLedgerRow) : Prop where
  key_iff : ∀ l, r.idempotencyKey = .reversal l ↔ r.reversesLedgerId = some l
  original : ∀ l, r.reversesLedgerId = some l →
    ∃ o ∈ ledger.rows, o.id = l ∧ o.type ≠ .REVERSAL ∧ r.userId = o.userId ∧ r.amount = -o.amount

/-- Every row of the ledger is well linked. -/
def Db.Linked (db : Db) : Prop := ∀ r ∈ db.coinLedger.rows, WellLinked db.coinLedger r

theorem WellLinked.mono {t t' : Table CoinLedgerRow} {r : CoinLedgerRow} (h : WellLinked t r)
    (hsub : ∀ o ∈ t.rows, o ∈ t'.rows) : WellLinked t' r where
  key_iff := h.key_iff
  original l hl := by
    obtain ⟨o, ho, hrest⟩ := h.original l hl
    exact ⟨o, hsub o ho, hrest⟩

/-- The coin ledger only grew, by well-linked rows that all satisfy `P`. -/
def LedgerGrows (P : CoinLedgerRow → Prop) (s s' : Db) : Prop :=
  ∃ added, s'.coinLedger.rows = s.coinLedger.rows ++ added ∧
    ∀ r ∈ added, P r ∧ WellLinked s'.coinLedger r

/-- Some ledger row carries the key under which `l` is reversed. -/
def Db.ReversalTaken (db : Db) (l : LedgerId) : Prop :=
  ∃ r ∈ db.coinLedger.rows, r.idempotencyKey = .reversal l

namespace LedgerGrows

variable {P Q : CoinLedgerRow → Prop} {s s₁ s' : Db}

theorem of_eq (h : s'.coinLedger = s.coinLedger) : LedgerGrows P s s' :=
  ⟨[], by simp [h], by simp⟩

theorem mono (h : LedgerGrows P s s') (hPQ : ∀ r, P r → Q r) : LedgerGrows Q s s' := by
  obtain ⟨added, hrows, hadded⟩ := h
  exact ⟨added, hrows, fun r hr => ⟨hPQ r (hadded r hr).1, (hadded r hr).2⟩⟩

theorem mem (h : LedgerGrows P s s') {r : CoinLedgerRow} (hr : r ∈ s.coinLedger.rows) :
    r ∈ s'.coinLedger.rows := by
  obtain ⟨added, hrows, -⟩ := h
  simp [hrows, hr]

theorem mem_or_new (h : LedgerGrows P s s') {r : CoinLedgerRow} (hr : r ∈ s'.coinLedger.rows) :
    r ∈ s.coinLedger.rows ∨ P r := by
  obtain ⟨added, hrows, hadded⟩ := h
  rw [hrows, List.mem_append] at hr
  exact hr.imp_right fun hr => (hadded r hr).1

theorem trans (h₁ : LedgerGrows P s s₁) (h₂ : LedgerGrows P s₁ s') : LedgerGrows P s s' := by
  have hmem : ∀ o ∈ s₁.coinLedger.rows, o ∈ s'.coinLedger.rows := fun o ho => h₂.mem ho
  obtain ⟨a₁, hr₁, ha₁⟩ := h₁
  obtain ⟨a₂, hr₂, ha₂⟩ := h₂
  refine ⟨a₁ ++ a₂, by rw [hr₂, hr₁, List.append_assoc], fun r hr => ?_⟩
  rcases List.mem_append.1 hr with hr | hr
  · exact ⟨(ha₁ r hr).1, (ha₁ r hr).2.mono hmem⟩
  · exact ha₂ r hr

theorem linked (h : LedgerGrows P s s') (hs : s.Linked) : s'.Linked := by
  intro r hr
  have hmem : ∀ o ∈ s.coinLedger.rows, o ∈ s'.coinLedger.rows := fun o ho => h.mem ho
  obtain ⟨added, hrows, hadded⟩ := h
  rw [hrows, List.mem_append] at hr
  rcases hr with hr | hr
  · exact (hs r hr).mono hmem
  · exact (hadded r hr).2

theorem isReversed (h : LedgerGrows P s s') {l : LedgerId} (hl : s.isReversed l = true) :
    s'.isReversed l = true := by
  simp only [Db.isReversed, List.any_eq_true, decide_eq_true_eq] at hl ⊢
  obtain ⟨r, hr, hrl⟩ := hl
  exact ⟨r, h.mem hr, hrl⟩

theorem reversalTaken (h : LedgerGrows P s s') {l : LedgerId} (hl : s.ReversalTaken l) :
    s'.ReversalTaken l := by
  obtain ⟨r, hr, hk⟩ := hl
  exact ⟨r, h.mem hr, hk⟩

end LedgerGrows

/-- Bookings, cases and claims stand still while coins, trust, review windows
    and the outbox may move. -/
structure Books (P : CoinLedgerRow → Prop) (s s' : Db) : Prop where
  events : s'.events = s.events
  participants : s'.participants = s.participants
  cases : s'.cases = s.cases
  claims : s'.claims = s.claims
  ledger : LedgerGrows P s s'

namespace Books

variable {P Q : CoinLedgerRow → Prop} {s s₁ s' : Db}

theorem refl (s : Db) : Books P s s := ⟨rfl, rfl, rfl, rfl, .of_eq rfl⟩

theorem mono (h : Books P s s') (hPQ : ∀ r, P r → Q r) : Books Q s s' :=
  ⟨h.events, h.participants, h.cases, h.claims, h.ledger.mono hPQ⟩

theorem trans (h₁ : Books P s s₁) (h₂ : Books P s₁ s') : Books P s s' where
  events := h₂.events.trans h₁.events
  participants := h₂.participants.trans h₁.participants
  cases := h₂.cases.trans h₁.cases
  claims := h₂.claims.trans h₁.claims
  ledger := h₁.ledger.trans h₂.ledger

end Books

/-- A change to accounts, trust, review windows or the outbox alone. -/
theorem Books.of_same_ledger {P : CoinLedgerRow → Prop} {s s' : Db} (he : s'.events = s.events)
    (hp : s'.participants = s.participants) (hc : s'.cases = s.cases) (hcl : s'.claims = s.claims)
    (hl : s'.coinLedger = s.coinLedger) : Books P s s' :=
  ⟨he, hp, hc, hcl, .of_eq hl⟩

@[simp] theorem ledgerRow_idempotencyKey {now : Instant} {id : LedgerId} {i : CoinMovementInput}
    {pr : Option Int} {b a : Int} : (ledgerRow now id i pr b a).idempotencyKey = i.idempotencyKey :=
  rfl

/-- What the row of `input` carries over from it. -/
def RowOf (input : CoinMovementInput) (r : CoinLedgerRow) : Prop :=
  r.userId = input.userId ∧ r.type = input.type ∧ r.idempotencyKey = input.idempotencyKey ∧
    r.ref = input.ref ∧ r.reversesLedgerId = input.reversesLedgerId

theorem CoinsOnly.frame {s s' : Db} (h : CoinsOnly s s') :
    s'.events = s.events ∧ s'.participants = s.participants ∧ s'.cases = s.cases ∧
      s'.claims = s.claims := by
  rw [h]
  exact ⟨rfl, rfl, rfl, rfl⟩

/-- A forward movement: one that neither is a reversal nor takes a reversal's key. -/
def CoinMovementInput.Forward (i : CoinMovementInput) : Prop :=
  i.reversesLedgerId = none ∧ ∀ l, i.idempotencyKey ≠ .reversal l

theorem Movement.books {env : Env} {input : CoinMovementInput} {pr : Option Int} {s s' : Db}
    {r : CoinPenalty} (h : Movement env input pr s r s') (hf : input.Forward) :
    Books (RowOf input) s s' := by
  obtain ⟨he, hp, hc, hcl⟩ := h.coinsOnly.frame
  rcases h.outcome with ⟨hl, -, -⟩ | ⟨-, -, id, -, hrows⟩
  · exact .of_same_ledger he hp hc hcl hl
  · refine ⟨he, hp, hc, hcl, _, hrows, fun x hx => ?_⟩
    obtain rfl := List.mem_singleton.1 hx
    refine ⟨⟨rfl, rfl, rfl, rfl, rfl⟩, ⟨fun l => ?_, fun l hl => ?_⟩⟩
    · exact ⟨fun hk => absurd hk (hf.2 l), fun hk => by simp [ledgerRow, hf.1] at hk⟩
    · simp [ledgerRow, hf.1] at hl

/-- A penalty is a forward movement, or no movement at all. -/
theorem penalize_books {env : Env} {input : CoinMovementInput} {s s' : Db} {r : CoinPenalty}
    (h : Runs (penalize env input) s r s') (hf : input.Forward) : Books (RowOf input) s s' := by
  simp only [penalize, runs_ite] at h
  rcases h with ⟨-, h⟩ | ⟨-, h⟩
  · simp only [runs_get_bind, runs_pure] at h
    obtain ⟨-, rfl⟩ := h
    exact .refl _
  · exact (applyWithin_spec h).2.books hf

theorem applyCoins_books {env : Env} {input : CoinMovementInput} {s s' : Db} {r : CoinPenalty}
    (h : Runs (applyCoins env input) s r s') (hf : input.Forward) : Books (RowOf input) s s' :=
  (applyCoins_spec h).1.books hf

/-- A row that reverses `l`. -/
def Reverses (l : LedgerId) (r : CoinLedgerRow) : Prop :=
  r.type = .REVERSAL ∧ r.idempotencyKey = .reversal l

/-- In a linked ledger a taken reversal key is a reversal. -/
theorem Db.Linked.isReversed_of_taken {db : Db} (h : db.Linked) {l : LedgerId}
    (hl : db.ReversalTaken l) : db.isReversed l = true := by
  obtain ⟨r, hr, hk⟩ := hl
  simp only [Db.isReversed, List.any_eq_true, decide_eq_true_eq]
  exact ⟨r, hr, ((h r hr).key_iff l).1 hk⟩

theorem reverse_books {env : Env} {l : LedgerId} {reason : String} {at' : ActorType}
    {ai : Option UserId} {s s' : Db} {r : CoinPenalty}
    (h : Runs (reverse env l reason at' ai) s r s') :
    Books (Reverses l) s s' ∧ s'.ReversalTaken l := by
  obtain ⟨o, ho, htype, hmove⟩ := reverse_spec h
  have hid : o.id = l := Table.key_of_find? ho
  have hmem := Table.mem_of_find? ho
  obtain ⟨he, hp, hc, hcl⟩ := hmove.coinsOnly.frame
  rcases hmove.outcome with ⟨hl, -, ⟨x, hx, -⟩ | ⟨-, -, hpr⟩⟩ | ⟨-, -, id, -, hrows⟩
  · -- already reversed: the recorded row has the key
    obtain ⟨hxm, hxk⟩ := Db.mem_of_ledgerByKey hx
    exact ⟨.of_same_ledger he hp hc hcl hl, x, by rw [hl]; exact hxm, by rw [hxk, ← hid]; rfl⟩
  · cases hpr
  · have hlast := List.mem_append_right s.coinLedger.rows (List.mem_singleton_self
      (ledgerRow env.now id (reversalOf o reason at' ai) none
        (s.balanceOf (reversalOf o reason at' ai).userId)
        (cappedAmount (reversalOf o reason at' ai).amount none
          (s.balanceOf (reversalOf o reason at' ai).userId))))
    rw [← hrows] at hlast
    refine ⟨⟨he, hp, hc, hcl, _, hrows, fun x hx => ?_⟩, ⟨_, hlast, by rw [← hid]; rfl⟩⟩
    obtain rfl := List.mem_singleton.1 hx
    refine ⟨⟨rfl, by rw [← hid]; rfl⟩, ⟨fun k => ?_, fun k hk => ?_⟩⟩
    · simp [ledgerRow, reversalOf]
    · refine ⟨o, by rw [hrows]; simp [hmem], ?_, htype, rfl, rfl⟩
      simpa [ledgerRow, reversalOf] using hk

/-! ## Giving charges back -/

/-- The loop both refunds run: reverse each charge and add up what came back. -/
def reverseCharges (env : Env) (charges : List CoinLedgerRow) (reasonCode : String)
    (actorType : ActorType) (actorId : Option UserId) : Act Int :=
  charges.foldlM (fun refunded charge => do
    let _ ← reverse env charge.id reasonCode actorType actorId
    return refunded + |charge.amount|) 0

/-- A ledger row that is a reversal. -/
def IsReversal (r : CoinLedgerRow) : Prop := ∃ l, Reverses l r

theorem reverseCharges_loop {env : Env} {reason : String} {at' : ActorType} {ai : Option UserId} :
    ∀ {charges : List CoinLedgerRow} {n m : Int} {s s' : Db},
      Runs (charges.foldlM (fun refunded charge => do
        let _ ← reverse env charge.id reason at' ai
        return refunded + |charge.amount|) n) s m s' →
      Books IsReversal s s' ∧ ∀ c ∈ charges, s'.ReversalTaken c.id := by
  intro charges
  induction charges with
  | nil =>
      intro n m s s' h
      rw [runs_foldlM_nil] at h
      obtain ⟨-, rfl⟩ := h
      exact ⟨.refl _, by simp⟩
  | cons c cs ih =>
      intro n m s s' h
      simp only [runs_foldlM_cons, runs_bind, runs_pure] at h
      obtain ⟨_, _, ⟨_, s₁, h₁, -, rfl⟩, h₂⟩ := h
      obtain ⟨hb₁, ht₁⟩ := reverse_books h₁
      obtain ⟨hb₂, ht₂⟩ := ih h₂
      refine ⟨(hb₁.mono fun r hr => ⟨_, hr⟩).trans hb₂, fun x hx => ?_⟩
      rcases List.mem_cons.1 hx with rfl | hx
      · exact hb₂.ledger.reversalTaken ht₁
      · exact ht₂ x hx

/-- After the loop every charge has its reversal, and only reversals were written. -/
theorem reverseCharges_books {env : Env} {charges : List CoinLedgerRow} {reason : String}
    {at' : ActorType} {ai : Option UserId} {n : Int} {s s' : Db}
    (h : Runs (reverseCharges env charges reason at' ai) s n s') :
    Books IsReversal s s' ∧ ∀ c ∈ charges, s'.ReversalTaken c.id :=
  reverseCharges_loop h

end Paayatam
