/-
  Paayatam.Economy.GiftRuns

  Any number of redemptions at once.

  A call is a worker: it finds the code, locks its row and checks it, grants
  it, or is refused and puts that on the record.  The row stays locked from the
  check to the end of the transaction; other codes, other coins and the panel
  go on meanwhile, and a worker may be gone at any point.
-/

import Paayatam.Economy.GiftCodes
import Paayatam.Booking.World
import Paayatam.Lib.Threads

namespace Paayatam

open Lib

/-! ## The system -/

/-- How far a call has come. -/
inductive RedeemPhase where
  | found (giftCodeId : GiftCodeId)
  /-- The row as it was locked, and the ordinal of this redemption. -/
  | locked (giftCode : GiftCodeRow) (seq : Nat)
  | refused (giftCodeId : Option GiftCodeId) (reason : String)

/-- A call of `redeem` in progress. -/
structure RedeemCall where
  env : Env
  userId : UserId
  phase : RedeemPhase

/-- The tables, and the worker that holds the row of each code. -/
structure GiftShared where
  store : GiftDb
  holder : GiftCodeId → Option Nat

/-- A movement of coins by another service. -/
structure OtherCoins where
  input : CoinMovementInput
  type_ok : input.type ≠ .GIFT_CODE_REDEEM

abbrev GiftWorld := Threads Nat GiftShared (Option RedeemCall)

inductive GiftMove where
  /-- Worker `i` starts a call: the kill switch, and the lookup. -/
  | redeem (i : Nat) (env : Env) (enabled : Bool) (userId : UserId) (rawCode : String)
  /-- Worker `i` locks the row and checks it. -/
  | lock (i : Nat)
  /-- Worker `i` does the rest of the transaction, and commits or fails. -/
  | grant (i : Nat)
  /-- Worker `i` records its refusal. -/
  | record (i : Nat)
  /-- Worker `i` is gone, and its transaction with it. -/
  | crash (i : Nat)
  | create (input : NewGiftCode)
  | setActive (giftCodeId : GiftCodeId) (isActive : Bool)
  | retune (giftCodeId : GiftCodeId) (patch : GiftCodePatch)
  | moveCoins (env : Env) (m : OtherCoins)

/-- The worker whose call a move is part of. -/
def GiftMove.worker : GiftMove → Option Nat
  | .redeem i _ _ _ _ | .lock i | .grant i | .record i | .crash i => some i
  | _ => none

namespace RedeemCall

/-- The call after its transaction failed. -/
def failed (c : RedeemCall) (giftCodeId : GiftCodeId) : AppError → Option RedeemCall
  | .raised code _ => some { c with phase := .refused (some giftCodeId) (reasonLabel code) }
  | .db _ => none

end RedeemCall

namespace GiftShared

def release (s : GiftShared) (g : GiftCodeId) : GiftShared :=
  { s with holder := Function.update s.holder g none }

end GiftShared

namespace GiftWorld

def store (w : GiftWorld) : GiftDb := w.shared.store

def put (w : GiftWorld) (store : GiftDb) : GiftWorld :=
  { w with shared := { w.shared with store := store } }

def exec (w : GiftWorld) : GiftMove → Option GiftWorld
  | .redeem i env enabled userId rawCode =>
    match w.locals i with
    | some _ => none
    | none =>
      if enabled = false then some w
      else match findCode (exactCode rawCode) w.store with
        | none => some (w.set i w.shared
            (some ⟨env, userId, .refused none (reasonLabel .GIFT_CODE_INVALID)⟩))
        | some g => some (w.set i w.shared (some ⟨env, userId, .found g.id⟩))
  | .lock i =>
    match w.locals i with
    | some ⟨env, userId, .found g⟩ =>
      if w.shared.holder g = none then
        match (lockCode env.now userId g).run w.store with
        | .ok ((giftCode, seq), _) =>
          some (w.set i { w.shared with holder := Function.update w.shared.holder g (some i) }
            (some ⟨env, userId, .locked giftCode seq⟩))
        | .error e => some (w.set i w.shared (RedeemCall.failed ⟨env, userId, .found g⟩ g e))
      else none
    | _ => none
  | .grant i =>
    match w.locals i with
    | some ⟨env, userId, .locked giftCode seq⟩ =>
      match (grantCode env userId giftCode seq).run w.store with
      | .ok (_, store) => some (w.set i ({ w.shared with store := store }.release giftCode.id) none)
      | .error e => some (w.set i (w.shared.release giftCode.id)
          (RedeemCall.failed ⟨env, userId, .locked giftCode seq⟩ giftCode.id e))
    | _ => none
  | .record i =>
    match w.locals i with
    | some ⟨_, userId, .refused g reason⟩ =>
      some (w.set i { w.shared with store := commit (recordRefusal userId g reason) w.store } none)
    | _ => none
  | .crash i =>
    match w.locals i with
    | some ⟨_, _, .locked giftCode _⟩ => some (w.set i (w.shared.release giftCode.id) none)
    | some _ => some (w.set i w.shared none)
    | none => none
  | .create input => some (w.put (commit (createCode input) w.store))
  | .setActive g isActive =>
    if w.shared.holder g = none then some (w.put (commit (Paayatam.setActive g isActive) w.store))
    else none
  | .retune g patch =>
    if w.shared.holder g = none then some (w.put (commit (retuneCode g patch) w.store)) else none
  | .moveCoins env m => some (w.put (commit (joined (applyCoins env m.input)) w.store))

def Step (w : GiftWorld) (m : GiftMove) (w' : GiftWorld) : Prop := w.exec m = some w'

/-- Empty tables, nothing locked, nobody redeeming. -/
def Init (w : GiftWorld) : Prop :=
  w.store = ⟨Db.initial, Table.empty, Table.empty, []⟩ ∧ (∀ g, w.shared.holder g = none) ∧
    ∀ i, w.locals i = none

def initial : GiftWorld where
  shared := { store := ⟨Db.initial, Table.empty, Table.empty, []⟩, holder := fun _ => none }
  locals _ := none

theorem init_initial : initial.Init := ⟨rfl, fun _ => rfl, fun _ => rfl⟩

end GiftWorld

/-- The steps of a run. -/
abbrev GiftTrace := List (GiftWorld × GiftMove × GiftWorld)

/-! ## What a grant does -/

/-- The ledger row is the credit of the redemption. -/
structure Credits (l : CoinLedgerRow) (r : GiftCodeRedemptionRow) : Prop where
  id : l.id = r.coinLedgerId
  user : l.userId = r.userId
  type : l.type = .GIFT_CODE_REDEEM
  amount : l.amount = r.coins
  key : l.idempotencyKey = giftCodeRedemptionKey r.giftCodeId r.userId r.seq

/-- A committed grant: one credit, one redemption, counted once. -/
structure Granted (userId : UserId) (giftCode : GiftCodeRow) (seq : Nat) (l : CoinLedgerRow)
    (r : GiftCodeRedemptionRow) (s s' : GiftDb) : Prop where
  coinsOnly : CoinsOnly s.db s'.db
  ledger : s'.db.coinLedger.rows = s.db.coinLedger.rows ++ [l]
  redemptions : s'.redemptions.rows = s.redemptions.rows ++ [r]
  codes : ∃ g, s.giftCodes.find? giftCode.id = some g ∧
    s.giftCodes.Rewrites g GiftCodeRow.counted s'.giftCodes
  credits : Credits l r
  code : r.giftCodeId = giftCode.id
  user : r.userId = userId
  ordinal : r.seq = seq
  audit : s'.audit = s.audit ++ [.redeemed userId giftCode.id giftCode.coins seq]

theorem grantCode_spec {env : Env} {u : UserId} {g : GiftCodeRow} {seq : Nat}
    {o : RedeemedGiftCode} {s s' : GiftDb} (h : Runs (grantCode env u g seq) s o s') :
    ∃ l r, Granted u g seq l r s s' := by
  simp only [grantCode, joined, runs_within_bind, runs_guardTx_bind, runs_orThrow_bind,
    runs_get_bind] at h
  obtain ⟨movement, db, happly, happlied, ledgerId, hledger, h⟩ := h
  obtain ⟨hmove, -⟩ := applyCoins_spec happly
  rcases hmove.outcome with ⟨-, hno, -⟩ | ⟨-, -, id, hid, hrows⟩
  · rw [hno] at happlied
    cases happlied
  · rw [runs_bind] at h
    obtain ⟨inserted, s₁, hins, h⟩ := h
    simp only [runs_guardTx_bind, runs_updateRow_bind, runs_modify_bind, runs_pure] at h
    obtain ⟨hinserted, g₀, hg₀, t, ht, -, rfl⟩ := h
    obtain ⟨t', rfl, ⟨-, ht'⟩ | ⟨hfalse, -⟩⟩ := runs_insertRowOrIgnore hins
    · have hsame : id = ledgerId := Option.some.inj (hid.symm.trans hledger)
      exact ⟨_, _, hmove.coinsOnly, hrows, ht', ⟨g₀, hg₀, ht⟩, ⟨hsame, rfl, rfl, rfl, rfl⟩, rfl,
        rfl, rfl, rfl⟩
    · rw [hfalse] at hinserted
      cases hinserted

/-- A locked row is the one in the table, open to this user once more. -/
theorem lockCode_spec {now : Instant} {u : UserId} {c : GiftCodeId} {g : GiftCodeRow} {seq : Nat}
    {s s' : GiftDb} (h : Runs (lockCode now u c) s (g, seq) s') :
    s' = s ∧ g.id = c ∧ s.giftCodes.find? g.id = some g ∧
      seq = (s.redemptionsBy g.id u).length + 1 ∧ seq ≤ g.perUserLimit := by
  simp only [lockCode, runs_findRow_bind, runs_orThrow_bind, runs_guardTx_bind,
    runs_countRows_bind, runs_pure, Prod.mk.injEq, table_giftCodes, table_redemptions] at h
  obtain ⟨g', hg', -, -, -, -, hlimit, ⟨rfl, rfl⟩, rfl⟩ := h
  have hid : g.id = c := Table.key_of_find? hg'
  refine ⟨rfl, hid, by rw [hid]; exact hg', ?_, ?_⟩
  · rw [GiftDb.redemptionsBy, List.countP_eq_length_filter]
  · exact hlimit

/-! ## The invariant -/

/-- What holds of the tables between transactions. -/
structure GiftSound (s : GiftDb) : Prop where
  counted : ∀ g ∈ s.giftCodes.rows, g.redeemedCount = (s.redemptionsOf g.id).length
  limited : ∀ g ∈ s.giftCodes.rows, ∀ u, (s.redemptionsBy g.id u).length ≤ g.perUserLimit
  ordered : ∀ c u, (s.redemptionsBy c u).map (·.seq) =
    List.range' 1 (s.redemptionsBy c u).length
  credited : ∀ r ∈ s.redemptions.rows, ∃ l ∈ s.db.coinLedger.rows, Credits l r
  covered : ∀ l ∈ s.db.coinLedger.rows, l.type = .GIFT_CODE_REDEEM →
    ∃ r ∈ s.redemptions.rows, r.coinLedgerId = l.id
  known : ∀ r ∈ s.redemptions.rows, ∃ g ∈ s.giftCodes.rows, g.id = r.giftCodeId

/-- What a call relies on while its row is locked. -/
def RedeemCall.Sound (w : GiftWorld) (i : Nat) (c : RedeemCall) : Prop :=
  match c.phase with
  | .locked g seq => w.shared.holder g.id = some i ∧ w.store.giftCodes.find? g.id = some g ∧
      seq = (w.store.redemptionsBy g.id c.userId).length + 1 ∧ seq ≤ g.perUserLimit
  | _ => True

section Tables

variable {s s' : GiftDb} {u : UserId} {g : GiftCodeRow} {seq : Nat} {l : CoinLedgerRow}
  {r : GiftCodeRedemptionRow}

theorem Granted.redemptionsOf (h : Granted u g seq l r s s') (c : GiftCodeId) :
    s'.redemptionsOf c = s.redemptionsOf c ++ if g.id = c then [r] else [] := by
  rw [GiftDb.redemptionsOf, h.redemptions, List.filter_append, GiftDb.redemptionsOf]
  by_cases hc : g.id = c
  · simp [h.code, hc]
  · simp [h.code, hc]

theorem Granted.redemptionsBy (h : Granted u g seq l r s s') (c : GiftCodeId) (v : UserId) :
    s'.redemptionsBy c v =
      s.redemptionsBy c v ++ if g.id = c ∧ u = v then [r] else [] := by
  rw [GiftDb.redemptionsBy, h.redemptions, List.filter_append, GiftDb.redemptionsBy]
  by_cases hc : g.id = c ∧ u = v
  · simp [h.code, h.user, hc]
  · rw [if_neg hc]
    congr 1
    rw [List.filter_eq_nil_iff]
    intro x hx
    obtain rfl := List.mem_singleton.1 hx
    simpa [h.code, h.user] using hc

/-- A grant by the holder of the row keeps the tables sound. -/
theorem GiftSound.granted (hs : GiftSound s) (h : Granted u g seq l r s s')
    (hfound : s.giftCodes.find? g.id = some g) (hseq : seq = (s.redemptionsBy g.id u).length + 1)
    (hlimit : seq ≤ g.perUserLimit) : GiftSound s' := by
  obtain ⟨g₀, hg₀, ht⟩ := h.codes
  obtain rfl := Option.some.inj (hfound.symm.trans hg₀)
  have hmem : g ∈ s.giftCodes.rows := Table.mem_of_find? hfound
  have hother : ∀ x ∈ s.giftCodes.rows, x ≠ g → g.id ≠ x.id := fun x hx hne hid =>
    hne (Table.eq_of_key hx hmem hid.symm)
  refine ⟨fun x hx => ?_, fun x hx v => ?_, fun c v => ?_, fun x hx => ?_, fun x hx htype => ?_,
    fun x hx => ?_⟩
  · rw [h.redemptionsOf]
    rcases ht.cases hx with rfl | ⟨hx, hne⟩
    · have hcount := hs.counted g hmem
      show g.redeemedCount + 1 = (s.redemptionsOf g.id ++ if g.id = g.id then [r] else []).length
      rw [hcount, if_pos rfl, List.length_append]
      rfl
    · rw [if_neg (hother x hx hne), List.append_nil]
      exact hs.counted x hx
  · rw [h.redemptionsBy]
    rcases ht.cases hx with rfl | ⟨hx, hne⟩
    · show (s.redemptionsBy g.id v ++ if g.id = g.id ∧ u = v then [r] else []).length ≤
        g.perUserLimit
      by_cases huv : u = v
      · subst huv
        rw [if_pos ⟨rfl, rfl⟩, List.length_append, List.length_singleton, ← hseq]
        exact hlimit
      · rw [if_neg fun hc => huv hc.2, List.append_nil]
        exact hs.limited g hmem v
    · rw [if_neg fun hc => hother x hx hne hc.1, List.append_nil]
      exact hs.limited x hx v
  · rw [h.redemptionsBy]
    by_cases hc : g.id = c ∧ u = v
    · obtain ⟨rfl, rfl⟩ := hc
      have hold := hs.ordered g.id u
      rw [if_pos ⟨rfl, rfl⟩, List.map_append, hold, List.length_append, List.map_singleton,
        h.ordinal, hseq, List.length_singleton, List.range'_concat, Nat.one_mul, Nat.add_comm 1]
    · rw [if_neg hc, List.append_nil]
      exact hs.ordered c v
  · rw [h.redemptions] at hx
    rcases List.mem_append.1 hx with hx | hx
    · obtain ⟨l', hl', hcredits⟩ := hs.credited x hx
      exact ⟨l', by rw [h.ledger]; exact List.mem_append_left _ hl', hcredits⟩
    · obtain rfl := List.mem_singleton.1 hx
      exact ⟨l, by rw [h.ledger]; exact List.mem_append_right _ (List.mem_singleton.2 rfl),
        h.credits⟩
  · rw [h.ledger] at hx
    rw [h.redemptions]
    rcases List.mem_append.1 hx with hx | hx
    · obtain ⟨r', hr', hid⟩ := hs.covered x hx htype
      exact ⟨r', List.mem_append_left _ hr', hid⟩
    · obtain rfl := List.mem_singleton.1 hx
      exact ⟨r, List.mem_append_right _ (List.mem_singleton.2 rfl), h.credits.id.symm⟩
  · rw [h.redemptions] at hx
    have hkept : ∀ c, (∃ y ∈ s.giftCodes.rows, y.id = c) → ∃ y ∈ s'.giftCodes.rows, y.id = c := by
      rintro c ⟨y, hy, rfl⟩
      by_cases hyg : y = g
      · subst hyg
        exact ⟨_, ht.self, rfl⟩
      · exact ⟨y, ht.other hy hyg, rfl⟩
    rcases List.mem_append.1 hx with hx | hx
    · exact hkept _ (hs.known x hx)
    · obtain rfl := List.mem_singleton.1 hx
      exact hkept _ ⟨g, hmem, h.code.symm⟩

/-- The panel changes a code but not how often it was redeemed nor how often it may be by one
    user. -/
theorem GiftSound.tuned (hs : GiftSound s) {f : GiftCodeRow → GiftCodeRow}
    {t : Table GiftCodeRow} (ht : s.giftCodes.Rewrites g f t)
    (hf : ∀ x, (f x).id = x.id ∧ (f x).redeemedCount = x.redeemedCount ∧
      (f x).perUserLimit = x.perUserLimit) : GiftSound { s with giftCodes := t } where
  counted x hx := by
    rcases ht.cases hx with rfl | ⟨hx, -⟩
    · rw [(hf g).1, (hf g).2.1]
      exact hs.counted g ht.mem
    · exact hs.counted x hx
  limited x hx v := by
    rcases ht.cases hx with rfl | ⟨hx, -⟩
    · rw [(hf g).1, (hf g).2.2]
      exact hs.limited g ht.mem v
    · exact hs.limited x hx v
  ordered := hs.ordered
  credited := hs.credited
  covered := hs.covered
  known x hx := by
    obtain ⟨y, hy, hid⟩ := hs.known x hx
    by_cases hyg : y = g
    · subst hyg
      exact ⟨_, ht.self, (hf y).1.trans hid⟩
    · exact ⟨y, ht.other hy hyg, hid⟩

/-- A new code has not been redeemed. -/
theorem GiftSound.created (hs : GiftSound s) {t : Table GiftCodeRow}
    (ht : t.rows = s.giftCodes.rows ++ [g]) (hzero : g.redeemedCount = 0)
    (hfresh : ∀ x ∈ s.giftCodes.rows, x.id ≠ g.id) : GiftSound { s with giftCodes := t } := by
  have hnone : ∀ x ∈ s.redemptions.rows, x.giftCodeId ≠ g.id := by
    intro x hx he
    obtain ⟨y, hy, hid⟩ := hs.known x hx
    exact hfresh y hy (hid.trans he)
  have hof : s.redemptionsOf g.id = [] := by
    rw [GiftDb.redemptionsOf, List.filter_eq_nil_iff]
    intro x hx
    simpa using hnone x hx
  have hby : ∀ v, s.redemptionsBy g.id v = [] := by
    intro v
    rw [GiftDb.redemptionsBy, List.filter_eq_nil_iff]
    intro x hx
    simp [hnone x hx]
  refine ⟨fun x hx => ?_, fun x hx v => ?_, hs.ordered, hs.credited, hs.covered, fun x hx => ?_⟩
  · rw [ht] at hx
    rcases List.mem_append.1 hx with hx | hx
    · exact hs.counted x hx
    · obtain rfl := List.mem_singleton.1 hx
      show x.redeemedCount = (s.redemptionsOf x.id).length
      rw [hzero, hof]
      rfl
  · rw [ht] at hx
    rcases List.mem_append.1 hx with hx | hx
    · exact hs.limited x hx v
    · obtain rfl := List.mem_singleton.1 hx
      show (s.redemptionsBy x.id v).length ≤ _
      rw [hby]
      exact Nat.zero_le _
  · obtain ⟨y, hy, hid⟩ := hs.known x hx
    exact ⟨y, by rw [ht]; exact List.mem_append_left _ hy, hid⟩

/-- Coins of other kinds move. -/
theorem GiftSound.coins (hs : GiftSound s) {db : Db}
    (hrows : db.coinLedger.rows = s.db.coinLedger.rows ∨ ∃ l, l.type ≠ .GIFT_CODE_REDEEM ∧
      db.coinLedger.rows = s.db.coinLedger.rows ++ [l]) : GiftSound { s with db := db } where
  counted := hs.counted
  limited := hs.limited
  ordered := hs.ordered
  credited r hr := by
    obtain ⟨l, hl, hcredits⟩ := hs.credited r hr
    rcases hrows with hsame | ⟨l', -, hnew⟩
    · exact ⟨l, by rw [hsame]; exact hl, hcredits⟩
    · exact ⟨l, by rw [hnew]; exact List.mem_append_left _ hl, hcredits⟩
  covered l hl htype := by
    rcases hrows with hsame | ⟨l', hother, hnew⟩
    · rw [hsame] at hl
      exact hs.covered l hl htype
    · rw [hnew] at hl
      rcases List.mem_append.1 hl with hl | hl
      · exact hs.covered l hl htype
      · obtain rfl := List.mem_singleton.1 hl
        exact absurd htype hother
  known := hs.known

end Tables

/-! ## One step -/

/-- What a move of a call does to the tables. -/
inductive CallEffect (m : GiftMove) (s s' : GiftDb) : Prop
  | nothing (h : s' = s)
  | granted {u : UserId} {g : GiftCodeRow} {seq : Nat} {l : CoinLedgerRow}
      {r : GiftCodeRedemptionRow} (h : Granted u g seq l r s s')
  | recorded {i : Nat} {u : UserId} {c : Option GiftCodeId} {reason : String}
      (hm : m = .record i) (h : s' = { s with audit := s.audit ++ [.redeem_failed u c reason] })

/-- Between moves: the tables are sound, and whoever has locked a row still sees it. -/
structure GiftInv (w : GiftWorld) : Prop where
  store : GiftSound w.store
  own : ∀ i c, w.locals i = some c → c.Sound w i

/-- The row of a code and its redemptions stand still. -/
structure CodeKept (c : GiftCodeId) (s s' : GiftDb) : Prop where
  row : s'.giftCodes.find? c = s.giftCodes.find? c
  redemptions : ∀ u, s'.redemptionsBy c u = s.redemptionsBy c u

theorem CodeKept.refl (c : GiftCodeId) (s : GiftDb) : CodeKept c s s := ⟨rfl, fun _ => rfl⟩

section Steps

variable {w w' : GiftWorld} {m : GiftMove} {i : Nat} {s s' : GiftDb}

/-- A call keeps what it relies on while its code stands still and its lock is its own. -/
theorem RedeemCall.Sound.next {c : RedeemCall} (h : c.Sound w i)
    (hlocked : ∀ g seq, c.phase = .locked g seq → w.shared.holder g.id = some i →
      w'.shared.holder g.id = some i ∧ CodeKept g.id w.store w'.store) : c.Sound w' i := by
  obtain ⟨env, u, phase⟩ := c
  cases phase with
  | locked g seq =>
      obtain ⟨hholder, hfound, hseq, hlimit⟩ := h
      obtain ⟨hholder', hkept⟩ := hlocked g seq rfl hholder
      exact ⟨hholder', hkept.row.trans hfound, by rw [hkept.redemptions]; exact hseq, hlimit⟩
  | found g => trivial
  | refused g reason => trivial

theorem Granted.kept {u : UserId} {g : GiftCodeRow} {seq : Nat} {l : CoinLedgerRow}
    {r : GiftCodeRedemptionRow} {c : GiftCodeId} (h : Granted u g seq l r s s') (hne : g.id ≠ c) :
    CodeKept c s s' := by
  obtain ⟨g₀, hg₀, ht⟩ := h.codes
  have hid : g₀.id = g.id := Table.key_of_find? hg₀
  refine ⟨?_, fun v => ?_⟩
  · have hfind := ht.find? rfl c
    rw [hfind, if_neg]
    exact fun hk => hne (hid.symm.trans hk)
  · rw [h.redemptionsBy, if_neg fun hc => hne hc.1, List.append_nil]

theorem kept_of_tuned {g : GiftCodeRow} {f : GiftCodeRow → GiftCodeRow} {t : Table GiftCodeRow}
    {c : GiftCodeId} (ht : s.giftCodes.Rewrites g f t) (hf : (f g).id = g.id) (hne : g.id ≠ c) :
    CodeKept c s { s with giftCodes := t } := by
  refine ⟨?_, fun _ => rfl⟩
  have hfind := ht.find? hf c
  exact hfind.trans (if_neg hne)

/-- The panel writes a code nobody holds. -/
theorem inv_of_tuned (h : GiftInv w) {c : GiftCodeId} {f : GiftCodeRow → GiftCodeRow}
    (hf : ∀ x, (f x).id = x.id ∧ (f x).redeemedCount = x.redeemedCount ∧
      (f x).perUserLimit = x.perUserLimit) (hfree : w.shared.holder c = none) :
    GiftInv (w.put (commit (updateRow c f : GiftAct Unit) w.store)) := by
  rcases commit_cases (updateRow c f : GiftAct Unit) w.store with ⟨_, hrun⟩ | hsame
  · obtain ⟨g, hg, t, ht, hdb⟩ := runs_updateRow.1 hrun
    have hid : g.id = c := Table.key_of_find? hg
    rw [hdb]
    refine ⟨h.store.tuned ht hf, fun j call hj => (h.own j call hj).next fun g' seq _ hheld => ?_⟩
    refine ⟨hheld, kept_of_tuned ht (hf g).1 ?_⟩
    intro he
    rw [← he, hid, hfree] at hheld
    cases hheld
  · rw [hsame]
    exact h

theorem inv_of_coins (h : GiftInv w) {env : Env} {o : OtherCoins} :
    GiftInv (w.put (commit (joined (applyCoins env o.input)) w.store)) := by
  rcases commit_cases (joined (applyCoins env o.input)) w.store with ⟨_, hrun⟩ | hsame
  · obtain ⟨db, happly, hdb⟩ := runs_within.1 hrun
    obtain ⟨hmove, -⟩ := applyCoins_spec happly
    rw [hdb]
    refine ⟨h.store.coins ?_, fun j call hj => (h.own j call hj).next fun g' seq _ hheld =>
      ⟨hheld, ⟨rfl, fun _ => rfl⟩⟩⟩
    rcases hmove.outcome with ⟨hledger, -⟩ | ⟨-, -, id, -, hrows⟩
    · exact .inl (by rw [hledger])
    · exact .inr ⟨_, o.type_ok, hrows⟩
  · rw [hsame]
    exact h

theorem createCode_spec {input : NewGiftCode} (h : Runs (createCode input) s () s') :
    ∃ g t, t.rows = s.giftCodes.rows ++ [g] ∧ g.redeemedCount = 0 ∧
      (∀ x ∈ s.giftCodes.rows, x.id ≠ g.id) ∧ s' = { s with giftCodes := t } := by
  simp only [createCode, runs_get_bind, runs_insertRow] at h
  obtain ⟨t, ht, rfl⟩ := h
  exact ⟨_, t, ht, rfl, fun x hx => Nat.ne_of_lt (lt_freshId (List.mem_map_of_mem hx)), rfl⟩

theorem inv_of_create (h : GiftInv w) {input : NewGiftCode} :
    GiftInv (w.put (commit (createCode input) w.store)) := by
  rcases commit_cases (createCode input) w.store with ⟨_, hrun⟩ | hsame
  · obtain ⟨g₀, t, ht, hzero, hfresh, hdb⟩ := createCode_spec hrun
    rw [hdb]
    refine ⟨h.store.created ht hzero hfresh, fun j call hj => ?_⟩
    refine RedeemCall.Sound.next (w := w) ?_ fun g seq hphase hheld => ⟨hheld, ?_, fun _ => rfl⟩
    · exact h.own j call hj
    · -- the locked row was there before
      have hsound := h.own j call hj
      simp only [RedeemCall.Sound, hphase] at hsound
      have hmem := Table.mem_of_find? hsound.2.1
      have hfind := Table.find?_of_insert ht g.id
      refine hfind.trans (if_neg fun hk => ?_)
      exact hfresh g hmem hk.symm
  · rw [hsame]
    exact h

/-- A worker moves on without touching the tables. -/
theorem inv_of_local (h : GiftInv w) {l : Option RedeemCall} (hl : ∀ c, l = some c →
      ∀ g seq, c.phase ≠ .locked g seq) : GiftInv (w.set i w.shared l) := by
  refine ⟨h.store, fun j c hc => ?_⟩
  by_cases hj : j = i
  · subst hj
    rw [Threads.set_locals_self] at hc
    unfold RedeemCall.Sound
    split
    · next g seq hphase => exact absurd hphase (hl c hc g seq)
    · trivial
  · rw [Threads.set_locals_ne hj] at hc
    exact (h.own j c hc).next fun g seq _ hheld => ⟨hheld, .refl _ _⟩

/-- The holder of a row lets go of it, with other tables perhaps. -/
theorem inv_of_release (h : GiftInv w) {c : RedeemCall} {g : GiftCodeRow} {seq : Nat}
    {l : Option RedeemCall} {t : GiftDb} (hlocals : w.locals i = some c)
    (hphase : c.phase = .locked g seq) (hstore : GiftSound t)
    (hkept : ∀ k, g.id ≠ k → CodeKept k w.store t)
    (hl : ∀ c', l = some c' → ∀ g' seq', c'.phase ≠ .locked g' seq') :
    GiftInv (w.set i ({ w.shared with store := t }.release g.id) l) := by
  refine ⟨hstore, fun j c' hc' => ?_⟩
  by_cases hj : j = i
  · subst hj
    rw [Threads.set_locals_self] at hc'
    unfold RedeemCall.Sound
    split
    · next g' seq' hphase' => exact absurd hphase' (hl c' hc' g' seq')
    · trivial
  · rw [Threads.set_locals_ne hj] at hc'
    refine (h.own j c' hc').next fun g' seq' _ hheld => ?_
    have hmine := h.own i c hlocals
    simp only [RedeemCall.Sound, hphase] at hmine
    have hne : g.id ≠ g'.id := by
      intro he
      rw [← he, hmine.1] at hheld
      exact hj (Option.some.inj hheld).symm
    refine ⟨?_, hkept _ hne⟩
    show Function.update w.shared.holder g.id none g'.id = some j
    rw [Function.update_of_ne hne.symm]
    exact hheld

theorem failed_phase {c : RedeemCall} {k : GiftCodeId} {e : AppError} {c' : RedeemCall}
    (h : c.failed k e = some c') (g : GiftCodeRow) (seq : Nat) : c'.phase ≠ .locked g seq := by
  cases e with
  | raised code details =>
      obtain rfl := Option.some.inj h
      exact fun hphase => by cases hphase
  | db e => cases h

theorem step_gift (h : GiftInv w) (hstep : w.Step m w') :
    GiftInv w' ∧ (m.worker.isSome = true → CallEffect m w.store w'.store) := by
  cases m with
  | create input =>
      simp only [GiftWorld.Step, GiftWorld.exec] at hstep
      obtain rfl := Option.some.inj hstep
      exact ⟨inv_of_create h, fun hno => by cases hno⟩
  | setActive c isActive =>
      simp only [GiftWorld.Step, GiftWorld.exec] at hstep
      split at hstep
      · next hfree =>
          obtain rfl := Option.some.inj hstep
          exact ⟨inv_of_tuned h (fun _ => ⟨rfl, rfl, rfl⟩) hfree, fun hno => by cases hno⟩
      · cases hstep
  | retune c patch =>
      simp only [GiftWorld.Step, GiftWorld.exec] at hstep
      split at hstep
      · next hfree =>
          obtain rfl := Option.some.inj hstep
          exact ⟨inv_of_tuned h (fun _ => ⟨rfl, rfl, rfl⟩) hfree, fun hno => by cases hno⟩
      · cases hstep
  | moveCoins env o =>
      simp only [GiftWorld.Step, GiftWorld.exec] at hstep
      obtain rfl := Option.some.inj hstep
      exact ⟨inv_of_coins h, fun hno => by cases hno⟩
  | redeem i env enabled u rawCode =>
      simp only [GiftWorld.Step, GiftWorld.exec] at hstep
      split at hstep
      · cases hstep
      · split at hstep
        · obtain rfl := Option.some.inj hstep
          exact ⟨h, fun _ => .nothing rfl⟩
        · split at hstep
          · obtain rfl := Option.some.inj hstep
            refine ⟨inv_of_local h fun c hc => ?_, fun _ => .nothing rfl⟩
            obtain rfl := Option.some.inj hc
            exact fun g seq hphase => by cases hphase
          · obtain rfl := Option.some.inj hstep
            refine ⟨inv_of_local h fun c hc => ?_, fun _ => .nothing rfl⟩
            obtain rfl := Option.some.inj hc
            exact fun g seq hphase => by cases hphase
  | lock i =>
      simp only [GiftWorld.Step, GiftWorld.exec] at hstep
      split at hstep
      · next env u k hlocals =>
          split at hstep
          · next hfree =>
              split at hstep
              · next g seq s' hrun =>
                  obtain rfl := Option.some.inj hstep
                  obtain ⟨-, hid, hfound, hseq, hlimit⟩ := lockCode_spec hrun
                  refine ⟨⟨h.store, fun j c hc => ?_⟩, fun _ => .nothing rfl⟩
                  by_cases hj : j = i
                  · subst hj
                    rw [Threads.set_locals_self] at hc
                    obtain rfl := Option.some.inj hc
                    refine ⟨?_, hfound, hseq, hlimit⟩
                    show Function.update w.shared.holder k (some j) g.id = some j
                    rw [hid, Function.update_self]
                  · rw [Threads.set_locals_ne hj] at hc
                    refine (h.own j c hc).next fun g' seq' _ hheld => ⟨?_, .refl _ _⟩
                    show Function.update w.shared.holder k (some i) g'.id = some j
                    have hne : g'.id ≠ k := by
                      intro he
                      rw [he, hfree] at hheld
                      cases hheld
                    rw [Function.update_of_ne hne]
                    exact hheld
              · next e hrun =>
                  obtain rfl := Option.some.inj hstep
                  exact ⟨inv_of_local h fun c hc => failed_phase hc, fun _ => .nothing rfl⟩
          · cases hstep
      · cases hstep
  | grant i =>
      simp only [GiftWorld.Step, GiftWorld.exec] at hstep
      split at hstep
      · next env u g seq hlocals =>
          have hmine := h.own i _ hlocals
          simp only [RedeemCall.Sound] at hmine
          obtain ⟨-, hfound, hseq, hlimit⟩ := hmine
          split at hstep
          · next o s' hrun =>
              obtain rfl := Option.some.inj hstep
              obtain ⟨l, r, hgranted⟩ := grantCode_spec hrun
              refine ⟨inv_of_release h hlocals rfl (h.store.granted hgranted hfound hseq hlimit)
                (fun k hne => hgranted.kept hne) fun c' hc' => ?_, fun _ => .granted hgranted⟩
              cases hc'
          · next e hrun =>
              obtain rfl := Option.some.inj hstep
              exact ⟨inv_of_release (t := w.store) h hlocals rfl h.store (fun k _ => .refl k _)
                fun c' hc' => failed_phase hc', fun _ => .nothing rfl⟩
      · cases hstep
  | record i =>
      simp only [GiftWorld.Step, GiftWorld.exec] at hstep
      split at hstep
      · next env u k reason hlocals =>
          have hw' := Option.some.inj hstep
          have hstore : w'.store = { w.store with
              audit := w.store.audit ++ [.redeem_failed u k reason] } := by
            rw [← hw']
            rfl
          refine ⟨⟨?_, fun j c hc => ?_⟩, fun _ => .recorded rfl hstore⟩
          · rw [hstore]
            exact ⟨h.store.counted, h.store.limited, h.store.ordered, h.store.credited,
              h.store.covered, h.store.known⟩
          · have hj : j ≠ i := by
              rintro rfl
              rw [← hw', Threads.set_locals_self] at hc
              cases hc
            rw [← hw', Threads.set_locals_ne hj] at hc
            refine (h.own j c hc).next fun g seq _ hheld => ⟨?_, ?_⟩
            · rw [← hw']
              exact hheld
            · rw [hstore]
              exact ⟨rfl, fun _ => rfl⟩
      · cases hstep
  | crash i =>
      simp only [GiftWorld.Step, GiftWorld.exec] at hstep
      split at hstep
      · next env u g seq hlocals =>
          obtain rfl := Option.some.inj hstep
          refine ⟨inv_of_release (t := w.store) h hlocals rfl h.store (fun k _ => .refl k _)
            fun c' hc' => ?_, fun _ => .nothing rfl⟩
          cases hc'
      · obtain rfl := Option.some.inj hstep
        refine ⟨inv_of_local h fun c hc => ?_, fun _ => .nothing rfl⟩
        cases hc
      · cases hstep

end Steps

/-! ## Runs -/

/-- What holds of the gift codes after the moves `tr`. -/
structure GiftCodesKept (tr : GiftTrace) (w : GiftWorld) : Prop where
  /-- The counter of a code counts its redemptions, and stays within the cap. -/
  counted : ∀ g ∈ w.store.giftCodes.rows, g.redeemedCount = (w.store.redemptionsOf g.id).length ∧
    ∀ n ∈ g.maxRedemptions, g.redeemedCount ≤ n
  limited : ∀ g ∈ w.store.giftCodes.rows, ∀ u,
    (w.store.redemptionsBy g.id u).length ≤ g.perUserLimit
  /-- The ordinals of a user are one, two, three and so on, in the order they were made. -/
  ordered : ∀ c u, (w.store.redemptionsBy c u).map (·.seq) =
    List.range' 1 (w.store.redemptionsBy c u).length
  /-- Every redemption has its credit, the only ledger row of its key. -/
  credited : ∀ r ∈ w.store.redemptions.rows, ∃ l ∈ w.store.db.coinLedger.rows, Credits l r ∧
    ∀ l' ∈ w.store.db.coinLedger.rows,
      l'.idempotencyKey = giftCodeRedemptionKey r.giftCodeId r.userId r.seq → l' = l
  /-- Every credit of a code has its redemption, and only one. -/
  covered : ∀ l ∈ w.store.db.coinLedger.rows, l.type = .GIFT_CODE_REDEEM →
    ∃ r ∈ w.store.redemptions.rows, r.coinLedgerId = l.id ∧
      ∀ r' ∈ w.store.redemptions.rows, r'.coinLedgerId = l.id → r' = r
  /-- A step of a call grants a redemption, or leaves every table alone; the record of a
      refusal adds its line to the audit log and does nothing else. -/
  calls : ∀ x ∈ tr, x.2.1.worker.isSome = true → CallEffect x.2.1 x.1.store x.2.2.store

theorem giftInv_init {w : GiftWorld} (h : w.Init) : GiftInv w := by
  obtain ⟨hstore, -, hidle⟩ := h
  refine ⟨?_, fun i c hc => ?_⟩
  · rw [hstore]
    refine ⟨fun g hg => ?_, fun g hg => ?_, fun c u => rfl, fun r hr => ?_, fun l hl => ?_,
      fun r hr => ?_⟩
    · cases hg
    · cases hg
    · cases hr
    · cases hl
    · cases hr
  · rw [hidle i] at hc
    cases hc

theorem giftInv_of_reach {w : GiftWorld} (h : Reachable GiftWorld.Init GiftWorld.Step w) :
    GiftInv w :=
  h.invariant (I := GiftInv) (fun _ => giftInv_init) fun _ _ _ hs _ hstep => (step_gift hs hstep).1

theorem GiftSound.within_cap {s : GiftDb} {g : GiftCodeRow} {n : Nat}
    (hg : g ∈ s.giftCodes.rows) (hn : n ∈ g.maxRedemptions) : g.redeemedCount ≤ n := by
  have hcheck : g.constraints = true := s.giftCodes.valid g hg
  simp only [GiftCodeRow.constraints, Bool.and_eq_true] at hcheck
  have hcap := hcheck.1.2
  rw [Option.mem_def.1 hn] at hcap
  simpa using hcap

/-- However redemptions interleave, every code is counted, capped and paid exactly once for
    each redemption, and a call that is refused changes nothing but the audit log. -/
theorem gift_codes_kept {tr : GiftTrace} {w : GiftWorld}
    (h : Lib.Run GiftWorld.Init GiftWorld.Step (fun _ _ => True) tr w) : GiftCodesKept tr w := by
  have hs := (giftInv_of_reach h.reach).store
  refine ⟨fun g hg => ⟨hs.counted g hg, fun n hn => GiftSound.within_cap hg hn⟩, hs.limited,
    hs.ordered, fun r hr => ?_, fun l hl htype => ?_, ?_⟩
  · obtain ⟨l, hl, hcredits⟩ := hs.credited r hr
    refine ⟨l, hl, hcredits, fun l' hl' hkey => ?_⟩
    refine Table.eq_of_collide hl' hl ?_
    simp [Row.collide, hkey, hcredits.key]
  · obtain ⟨r, hr, hid⟩ := hs.covered l hl htype
    refine ⟨r, hr, hid, fun r' hr' hid' => ?_⟩
    refine Table.eq_of_collide hr' hr ?_
    simp [Row.collide, hid, hid']
  · exact h.steps (P := fun w m w' => m.worker.isSome = true → CallEffect m w.store w'.store)
      fun _ _ _ hreach _ hstep => (step_gift (giftInv_of_reach hreach) hstep).2

/-- A campaign of two redemptions, one for each user. -/
def nowruz : NewGiftCode where
  code := "NOWRUZ"
  coins := 50
  maxRedemptions := some 2
  perUserLimit := 1
  startsAt := none
  expiresAt := some (100 * msPerHour)

/-- Two users redeem at once; one of them taps twice, and a third comes too late. -/
def nowruzMoves : List GiftMove :=
  [.create nowruz, .redeem 0 (demoEnv 1) true 10 " NOWRUZ ", .redeem 1 (demoEnv 1) true 10 "NOWRUZ",
   .redeem 2 (demoEnv 1) true 11 "NOWRUZ", .lock 0, .grant 0, .lock 1, .lock 2, .record 1, .grant 2,
   .redeem 0 (demoEnv 2) true 12 "NOWRUZ", .lock 0, .record 0]

theorem gift_codes_kept_nowruz : ∃ tr w, GiftCodesKept tr w ∧
    w.store.redemptions.rows.length = 2 := by
  have hplay : (runList GiftWorld.exec GiftWorld.initial nowruzMoves).any (fun w =>
      decide (w.store.redemptions.rows.length = 2)) = true := by decide
  obtain ⟨w, hw, hlen⟩ := (Option.any_eq_true _ _).1 hplay
  have hrun := run_of_runList (G := fun _ _ => True) (g := fun _ _ => true)
    (fun _ _ _ h => h) (fun _ _ _ => trivial) (.start GiftWorld.init_initial)
    (by decide) hw
  exact ⟨_, w, gift_codes_kept hrun, of_decide_eq_true hlen⟩

/-- A code that does not exist is refused, and the audit log has one row more. -/
theorem refusal_recorded : ∃ w w', Reachable GiftWorld.Init GiftWorld.Step w ∧
    (∃ c ∈ w.locals 0, c.phase = .refused none "invalid") ∧ w.Step (.record 0) w' ∧
    w'.store.audit = w.store.audit ++ [.redeem_failed 10 none "invalid"] := by
  have hplay : (runList GiftWorld.exec GiftWorld.initial
      [.redeem 0 (demoEnv 1) true 10 "NORUZ"]).isSome = true := by decide
  obtain ⟨w, hw⟩ := Option.isSome_iff_exists.1 hplay
  obtain rfl : w = _ := (Option.some.inj hw).symm
  exact ⟨_, _, reachable_of_runList (fun _ _ _ h => h) (.start GiftWorld.init_initial) hw,
    ⟨_, rfl, rfl⟩, rfl, rfl⟩

end Paayatam
