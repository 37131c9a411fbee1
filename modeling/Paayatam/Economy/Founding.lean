/-
  Paayatam.Economy.Founding

  `FoundingService.award`: the ranks of the launch campaign.

  A rank is taken from a counter by a conditional update, which holds the row
  of the campaign to the end of the caller's transaction; the coins and the
  member row are written in that transaction.  Any number of profiles are
  completed at once, and a transaction may be rolled back at any point.
-/

import Paayatam.Booking.World
import Paayatam.Lib.System
import Paayatam.Lib.Threads
import Paayatam.Lib.Within

namespace Paayatam

open Lib

def FOUNDING_REWARD_REASON : String := "founding.member_reward"

def foundingRewardKey (userId : UserId) : CoinKey := .other s!"founding:{userId}"

/-! ## The tables -/

/-- `founding_campaign`, a single row. -/
structure FoundingCampaign where
  nextRank : Nat
  maxRank : Nat

/-- `founding_member`. -/
structure FoundingMemberRow where
  userId : UserId
  rank : Nat
  tier : Nat
  coins : Int
  coinLedgerId : Option LedgerId

instance : Row FoundingMemberRow UserId where
  key m := m.userId
  -- founding_member_rank_positive, _tier_positive, _coins_non_negative
  check m := decide (1 ≤ m.rank) && decide (1 ≤ m.tier) && decide (0 ≤ m.coins)
  -- UNIQUE (rank), UNIQUE (coin_ledger_id)
  collide m n := decide (m.rank = n.rank) ||
    (m.coinLedgerId.isSome && decide (m.coinLedgerId = n.coinLedgerId))
  collide_comm m n := by
    by_cases h : m.coinLedgerId = n.coinLedgerId
    · simp [h, eq_comm]
    · have h' : ¬ n.coinLedgerId = m.coinLedgerId := fun he => h he.symm
      simp [h, h', eq_comm]

/-- The database, with the tables of the campaign. -/
structure FoundingDb where
  db : Db
  campaign : Option FoundingCampaign
  members : Table FoundingMemberRow

instance : HasTable FoundingDb FoundingMemberRow :=
  ⟨FoundingDb.members, fun t s => { s with members := t }⟩

@[simp] theorem table_members {s : FoundingDb} :
    (HasTable.table s : Table FoundingMemberRow) = s.members := rfl
@[simp] theorem setTable_members {s : FoundingDb} {t : Table FoundingMemberRow} :
    HasTable.setTable t s = { s with members := t } := rfl

abbrev FoundingAct := Tx FoundingDb AppError

/-! ## One award -/

structure FoundingAward where
  rank : Nat
  tier : Nat
  coins : Int

/-- The `founding.*` settings. -/
structure FoundingSettings where
  enabled : Nat := 0
  tier1_max_rank : Nat := 100
  tier1_coins : Nat := 30
  tier2_max_rank : Nat := 400
  tier2_coins : Nat := 20
  tier3_coins : Nat := 10

/-- Which tier a rank falls in, and what it pays; past the last boundary, the last tier. -/
def tierFor (rank : Nat) (tiers : FoundingSettings) : Nat × Nat :=
  if rank ≤ tiers.tier1_max_rank then (1, tiers.tier1_coins)
  else if rank ≤ tiers.tier2_max_rank then (2, tiers.tier2_coins)
  else (3, tiers.tier3_coins)

/-- The kill switch, and the read that spares the counter. -/
def mayAward (settings : FoundingSettings) (userId : UserId) (s : FoundingDb) : Bool :=
  decide (settings.enabled ≠ 0) && (s.members.find? userId).isNone

/-- The conditional update of the counter: the rank, or nothing where the campaign is full or
    has no row. -/
def allocateRank : FoundingAct (Option Nat) := do
  let s ← get
  match s.campaign with
  | none => return none
  | some c =>
    if c.nextRank ≤ c.maxRank then
      modify fun s : FoundingDb =>
        { s with campaign := some { c with nextRank := c.nextRank + 1 } }
      return some c.nextRank
    else return none

/-- The movement of an award. -/
def foundingMovement (userId : UserId) (coins : Nat) : CoinMovementInput where
  userId := userId
  amount := coins
  type := .FOUNDING_REWARD
  reasonCode := FOUNDING_REWARD_REASON
  idempotencyKey := foundingRewardKey userId
  actorType := .SYSTEM
  actorId := none
  ref := some (.other "founding_member" (toString userId))

/-- The coins of a rank; a tier that pays nothing moves nothing. -/
def payRank (env : Env) (userId : UserId) (coins : Nat) : FoundingAct (Option LedgerId) :=
  if 0 < coins then do
    let movement ← within FoundingDb.db (fun db s => { s with db := db })
      (applyCoins env (foundingMovement userId coins))
    return movement.ledgerId
  else return none

/-- The coins of a rank, and the row that records them, in that order. -/
def grantRank (env : Env) (tiers : FoundingSettings) (userId : UserId) (rank : Nat) :
    FoundingAct FoundingAward := do
  let tier := (tierFor rank tiers).1
  let coins := (tierFor rank tiers).2
  let coinLedgerId ← payRank env userId coins
  insertRow ({ userId, rank, tier, coins, coinLedgerId } : FoundingMemberRow)
  return { rank, tier, coins }

/-- `award`, from the counter on. -/
def awardRank (env : Env) (tiers : FoundingSettings) (userId : UserId) :
    FoundingAct (Option FoundingAward) := do
  let allocated ← allocateRank
  match allocated with
  | none => return none
  | some rank =>
    let award ← grantRank env tiers userId rank
    return some award

/-- What the update of the counter wrote, as it becomes visible. -/
def FoundingDb.taken (s : FoundingDb) (rank : Nat) : FoundingDb :=
  { s with campaign := s.campaign.map fun c => { c with nextRank := rank + 1 } }

/-- Taking the rank first and granting it later, with nothing in between, is `award`. -/
theorem award_in_turn {env : Env} {tiers : FoundingSettings} {u : UserId} {rank : Nat}
    {s s₁ s' : FoundingDb} {a : FoundingAward} (halloc : Runs allocateRank s (some rank) s₁)
    (hgrant : Runs (grantRank env tiers u rank) (s.taken rank) a s') :
    Runs (awardRank env tiers u) s (some a) s' := by
  have hsame : s₁ = s.taken rank := by
    simp only [allocateRank, runs_get_bind] at halloc
    cases hc : s.campaign with
    | none => simp [hc] at halloc
    | some c =>
        by_cases hroom : c.nextRank ≤ c.maxRank
        · simp only [hc, hroom, if_true, runs_modify_bind, runs_pure] at halloc
          obtain ⟨hrank, rfl⟩ := halloc
          obtain rfl := Option.some.inj hrank
          simp [FoundingDb.taken, hc]
        · simp [hc, hroom] at halloc
  subst hsame
  refine runs_bind.2 ⟨some rank, _, halloc, runs_bind.2 ⟨a, s', hgrant, ?_⟩⟩
  exact runs_pure.2 ⟨rfl, rfl⟩

/-! ## The system -/

inductive AwardPhase where
  /-- Switched on, and not a member when it looked. -/
  | checked
  /-- The rank is taken from the counter; the row of the campaign is held. -/
  | allocated (rank : Nat)

/-- A call of `award` in progress, in the transaction of its caller. -/
structure AwardCall where
  userId : UserId
  phase : AwardPhase

structure FoundingShared where
  store : FoundingDb
  /-- Who holds the row of the campaign. -/
  holder : Option Nat
  /-- The awards of the transactions that committed, oldest first. -/
  awarded : List (UserId × FoundingAward)

abbrev FoundingWorld := Threads Nat FoundingShared (Option AwardCall)

inductive AwardMove where
  /-- Call `i` reads the switch and whether the user is a member. -/
  | check (i : Nat) (settings : FoundingSettings) (userId : UserId)
  /-- Call `i` updates the counter, and holds it. -/
  | allocate (i : Nat)
  /-- Call `i` pays and records the member, and the transaction commits or fails. -/
  | finish (i : Nat) (env : Env) (tiers : FoundingSettings)
  /-- The transaction of call `i` is rolled back. -/
  | abort (i : Nat)
  /-- A movement of coins by another service. -/
  | moveCoins (env : Env) (input : CoinMovementInput)

namespace FoundingWorld

def store (w : FoundingWorld) : FoundingDb := w.shared.store

def exec (w : FoundingWorld) : AwardMove → Option FoundingWorld
  | .check i settings userId =>
    match w.locals i with
    | some _ => none
    | none =>
      if mayAward settings userId w.store then some (w.set i w.shared (some ⟨userId, .checked⟩))
      else some w
  | .allocate i =>
    match w.locals i, w.shared.holder with
    | some ⟨userId, .checked⟩, none =>
      match allocateRank.run w.store with
      | .ok (some rank, _) =>
        some (w.set i { w.shared with holder := some i } (some ⟨userId, .allocated rank⟩))
      | _ => some (w.set i w.shared none)
    | _, _ => none
  | .finish i env tiers =>
    match w.locals i with
    | some ⟨userId, .allocated rank⟩ =>
      match (grantRank env tiers userId rank).run (w.store.taken rank) with
      | .ok (award, store) => some (w.set i
          { store, holder := none, awarded := w.shared.awarded ++ [(userId, award)] } none)
      | .error _ => some (w.set i { w.shared with holder := none } none)
    | _ => none
  | .abort i =>
    match w.locals i with
    | some ⟨_, .checked⟩ => some (w.set i w.shared none)
    | some ⟨_, .allocated _⟩ => some (w.set i { w.shared with holder := none } none)
    | none => none
  | .moveCoins env input => some { w with shared := { w.shared with
      store := commit (within FoundingDb.db (fun db s => { s with db := db })
        (applyCoins env input)) w.store } }

def Step (w : FoundingWorld) (m : AwardMove) (w' : FoundingWorld) : Prop := w.exec m = some w'

/-- No members, a counter at 1 under any cap, and nobody at work. -/
def Init (w : FoundingWorld) : Prop :=
  (∀ c ∈ w.store.campaign, c.nextRank = 1) ∧ w.store.members = Table.empty ∧
    w.shared.awarded = [] ∧ w.shared.holder = none ∧ ∀ i, w.locals i = none

def initial (maxRank : Nat) : FoundingWorld where
  shared := ⟨⟨Db.initial, some ⟨1, maxRank⟩, Table.empty⟩, none, []⟩
  locals _ := none

theorem init_initial (maxRank : Nat) : (initial maxRank).Init := by
  refine ⟨?_, rfl, rfl, rfl, fun _ => rfl⟩
  rintro c ⟨⟩
  rfl

end FoundingWorld

/-! ## Ranks without gaps -/

/-- What holds of the counter, the members and the awards. -/
structure RanksKept (s : FoundingShared) : Prop where
  /-- The members hold the ranks 1 to n, in the order they were recorded. -/
  ranks : s.store.members.rows.map (·.rank) = List.range' 1 s.store.members.rows.length
  /-- Every rank handed out is a member's, and the other way round. -/
  awarded : s.awarded.map (fun a => (a.1, a.2.rank)) =
    s.store.members.rows.map fun m => (m.userId, m.rank)
  counter : ∀ c ∈ s.store.campaign, c.nextRank = s.store.members.rows.length + 1
  cap : ∀ c ∈ s.store.campaign, ∀ m ∈ s.store.members.rows, m.rank ≤ c.maxRank

theorem runs_allocateRank {s s' : FoundingDb} {rank : Nat}
    (h : Runs allocateRank s (some rank) s') :
    ∃ c, s.campaign = some c ∧ c.nextRank ≤ c.maxRank ∧ rank = c.nextRank := by
  simp only [allocateRank, runs_get_bind] at h
  cases hc : s.campaign with
  | none => simp [hc] at h
  | some c =>
      by_cases hroom : c.nextRank ≤ c.maxRank
      · simp only [hc, hroom, if_true, runs_modify_bind, runs_pure] at h
        exact ⟨c, rfl, hroom, Option.some.inj h.1⟩
      · simp [hc, hroom] at h

theorem runs_payRank {env : Env} {u : UserId} {coins : Nat} {s s' : FoundingDb}
    {o : Option LedgerId} (h : Runs (payRank env u coins) s o s') :
    s'.campaign = s.campaign ∧ s'.members = s.members := by
  unfold payRank at h
  split at h
  · obtain ⟨movement, db, -, h⟩ := runs_within_bind.1 h
    obtain ⟨-, rfl⟩ := runs_pure.1 h
    exact ⟨rfl, rfl⟩
  · obtain ⟨-, rfl⟩ := runs_pure.1 h
    exact ⟨rfl, rfl⟩

/-- A grant records one member, and leaves the counter. -/
theorem grantRank_spec {env : Env} {tiers : FoundingSettings} {u : UserId} {rank : Nat}
    {s s' : FoundingDb} {a : FoundingAward} (h : Runs (grantRank env tiers u rank) s a s') :
    a.rank = rank ∧ s'.campaign = s.campaign ∧ ∃ m : FoundingMemberRow, m.userId = u ∧
      m.rank = rank ∧ s'.members.rows = s.members.rows ++ [m] := by
  obtain ⟨ledgerId, s₁, hpay, hrecord⟩ := runs_bind.1 h
  obtain ⟨hcampaign, hmembers⟩ := runs_payRank hpay
  simp only [runs_insertRow_bind, runs_pure, table_members, setTable_members] at hrecord
  obtain ⟨t, ht, rfl, rfl⟩ := hrecord
  exact ⟨rfl, hcampaign, _, rfl, rfl, by rw [ht, hmembers]⟩

/-- A call that has taken a rank holds the counter, which still shows that rank to the others. -/
def AwardCall.Holds (shared : FoundingShared) (call : AwardCall) : Prop :=
  ∀ rank, call.phase = .allocated rank → shared.holder.isSome = true ∧
    ∃ c, shared.store.campaign = some c ∧ c.nextRank = rank ∧ rank ≤ c.maxRank

def AwardCall.HasRank (call : AwardCall) : Prop := ∃ rank, call.phase = .allocated rank

/-- The invariant: the ranks are kept, and at most one call holds the counter. -/
abbrev FoundingKept : FoundingWorld → Prop :=
  Threads.Holds RanksKept (fun shared call => ∀ c ∈ call, c.Holds shared)
    fun a b => ¬ ((∃ c ∈ a, c.HasRank) ∧ ∃ c ∈ b, c.HasRank)

section Moves

variable {w w' : FoundingWorld} {i : Nat} {shared : FoundingShared} {call : Option AwardCall}

theorem founding_apart_symm (a b : Option AwardCall)
    (h : ¬ ((∃ c ∈ a, c.HasRank) ∧ ∃ c ∈ b, c.HasRank)) :
    ¬ ((∃ c ∈ b, c.HasRank) ∧ ∃ c ∈ a, c.HasRank) := fun hba => h ⟨hba.2, hba.1⟩

/-- While one call holds the counter, no other has a rank. -/
theorem FoundingKept.alone (h : FoundingKept w) {c : AwardCall} (hl : w.locals i = some c)
    (hrank : c.HasRank) {j : Nat} (hj : j ≠ i) : ∀ d ∈ w.locals j, ¬ d.HasRank :=
  fun d hd hdrank => h.apart i j (Ne.symm hj) ⟨⟨c, hl, hrank⟩, d, hd, hdrank⟩

/-- A call without a rank holds nothing. -/
theorem AwardCall.holds_of_not {c : AwardCall} (h : ¬ c.HasRank) : c.Holds shared :=
  fun rank hphase => absurd ⟨rank, hphase⟩ h

/-- A move after which the mover has no rank, and no other had one. -/
theorem FoundingKept.release (h : FoundingKept w) (hkept : RanksKept shared)
    (halone : ∀ j, j ≠ i → ∀ d ∈ w.locals j, ¬ d.HasRank) : FoundingKept (w.set i shared none) :=
  h.set founding_apart_symm hkept (by simp) fun j hj =>
    ⟨fun d hd => AwardCall.holds_of_not (halone j hj d hd), by simp⟩

/-- The next rank, to a user who is recorded with it. -/
theorem RanksKept.grant (h : RanksKept shared) {c : FoundingCampaign} {env : Env}
    {tiers : FoundingSettings} {u : UserId} {a : FoundingAward} {store : FoundingDb}
    (hc : shared.store.campaign = some c) (hroom : c.nextRank ≤ c.maxRank)
    (hgrant : Runs (grantRank env tiers u c.nextRank) (shared.store.taken c.nextRank) a store) :
    RanksKept { store, holder := none, awarded := shared.awarded ++ [(u, a)] } := by
  obtain ⟨harank, hcampaign, m, hmu, hmrank, hrows⟩ := grantRank_spec hgrant
  have hnext : c.nextRank = shared.store.members.rows.length + 1 := h.counter c hc
  have hmembers : store.members.rows = shared.store.members.rows ++ [m] := hrows
  have hcounter : store.campaign = some { c with nextRank := c.nextRank + 1 } := by
    rw [hcampaign, FoundingDb.taken, hc, Option.map_some]
  constructor
  · show store.members.rows.map (·.rank) = List.range' 1 store.members.rows.length
    rw [hmembers, List.map_append, h.ranks, List.length_append, List.length_singleton,
      List.range'_1_concat]
    simp [hmrank, hnext, Nat.add_comm]
  · show (shared.awarded ++ [(u, a)]).map _ = store.members.rows.map _
    rw [hmembers, List.map_append, List.map_append, h.awarded]
    simp [hmu, hmrank, harank]
  · intro d hd
    obtain rfl := Option.some.inj (hcounter.symm.trans hd)
    show c.nextRank + 1 = store.members.rows.length + 1
    rw [hmembers, List.length_append, List.length_singleton, hnext]
  · intro d hd x hx
    obtain rfl := Option.some.inj (hcounter.symm.trans hd)
    have hx' : x ∈ shared.store.members.rows ++ [m] := hmembers ▸ hx
    rcases List.mem_append.1 hx' with hold | hnew
    · exact h.cap c hc x hold
    · rw [List.mem_singleton.1 hnew, hmrank]
      exact hroom

theorem FoundingKept.step (h : FoundingKept w) {m : AwardMove} (hs : w.Step m w') :
    FoundingKept w' := by
  unfold FoundingWorld.Step FoundingWorld.exec at hs
  cases m with
  | check i settings userId =>
      cases hl : w.locals i with
      | some c => simp [hl] at hs
      | none =>
          simp only [hl] at hs
          split at hs
          · obtain rfl := Option.some.inj hs
            refine h.set_local founding_apart_symm ?_ fun j _ => ?_
            · rintro c ⟨⟩ rank hphase
              cases hphase
            · rintro ⟨⟨c, ⟨⟩, rank, hphase⟩, -⟩
              cases hphase
          · obtain rfl := Option.some.inj hs
            exact h
  | allocate i =>
      match hl : w.locals i, hholder : w.shared.holder with
      | none, _ => simp [hl] at hs
      | some ⟨userId, .allocated rank⟩, _ => simp [hl] at hs
      | some ⟨userId, .checked⟩, some j => simp [hl, hholder] at hs
      | some ⟨userId, .checked⟩, none =>
          simp only [hl, hholder] at hs
          -- nobody holds the counter, so nobody has a rank
          have hnobody : ∀ j, ∀ d ∈ w.locals j, ¬ d.HasRank := by
            rintro j d hd ⟨rank, hphase⟩
            have hheld := (h.own j d hd rank hphase).1
            rw [hholder] at hheld
            cases hheld
          split at hs
          · next rank s₁ halloc =>
              obtain rfl := Option.some.inj hs
              obtain ⟨c, hc, hroom, rfl⟩ := runs_allocateRank halloc
              have hkept : RanksKept { w.shared with holder := some i } :=
                ⟨h.shared.ranks, h.shared.awarded, h.shared.counter, h.shared.cap⟩
              refine h.set founding_apart_symm hkept ?_ fun j hj => ⟨?_, ?_⟩
              · rintro d ⟨⟩ rank hphase
                obtain rfl := AwardPhase.allocated.inj hphase
                exact ⟨rfl, c, hc, rfl, hroom⟩
              · exact fun d hd => AwardCall.holds_of_not (hnobody j d hd)
              · rintro ⟨-, d, hd, hrank⟩
                exact hnobody j d hd hrank
          · obtain rfl := Option.some.inj hs
            exact h.release h.shared fun j _ => hnobody j
  | finish i env tiers =>
      match hl : w.locals i with
      | none => simp [hl] at hs
      | some ⟨userId, .checked⟩ => simp [hl] at hs
      | some ⟨userId, .allocated rank⟩ =>
          simp only [hl] at hs
          obtain ⟨-, c, hc, rfl, hroom⟩ := h.own i _ hl rank rfl
          have halone : ∀ j, j ≠ i → ∀ d ∈ w.locals j, ¬ d.HasRank :=
            fun j hj => h.alone hl ⟨_, rfl⟩ hj
          split at hs
          · next award store hgrant =>
              obtain rfl := Option.some.inj hs
              exact h.release (h.shared.grant hc hroom hgrant) halone
          · obtain rfl := Option.some.inj hs
            exact h.release ⟨h.shared.ranks, h.shared.awarded, h.shared.counter, h.shared.cap⟩
              halone
  | abort i =>
      match hl : w.locals i with
      | none => simp [hl] at hs
      | some ⟨userId, .checked⟩ =>
          simp only [hl] at hs
          obtain rfl := Option.some.inj hs
          exact h.set_local founding_apart_symm (by simp) (by simp)
      | some ⟨userId, .allocated rank⟩ =>
          simp only [hl] at hs
          obtain rfl := Option.some.inj hs
          exact h.release ⟨h.shared.ranks, h.shared.awarded, h.shared.counter, h.shared.cap⟩
            fun j hj => h.alone hl ⟨_, rfl⟩ hj
  | moveCoins env input =>
      simp only at hs
      obtain rfl := Option.some.inj hs
      have hsame : ∀ s : FoundingDb, (commit (within FoundingDb.db (fun db s => { s with db := db })
          (applyCoins env input)) s).campaign = s.campaign ∧
          (commit (within FoundingDb.db (fun db s => { s with db := db })
            (applyCoins env input)) s).members = s.members := by
        intro s
        unfold commit
        split
        · next hrun =>
            obtain ⟨db, -, rfl⟩ := runs_within.1 hrun
            exact ⟨rfl, rfl⟩
        · exact ⟨rfl, rfl⟩
      obtain ⟨hcampaign, hmembers⟩ := hsame w.store
      refine ⟨⟨?_, ?_, ?_, ?_⟩, fun j d hd rank hphase => ?_, h.apart⟩
      · exact hmembers ▸ h.shared.ranks
      · exact hmembers ▸ h.shared.awarded
      · intro c hc
        rw [hmembers]
        exact h.shared.counter c (hcampaign ▸ hc)
      · intro c hc m hm
        rw [hmembers] at hm
        exact h.shared.cap c (hcampaign ▸ hc) m hm
      · obtain ⟨hheld, c, hc, hrank⟩ := h.own j d hd rank hphase
        exact ⟨hheld, c, hcampaign.trans hc, hrank⟩

theorem foundingKept_init (h : w.Init) : FoundingKept w := by
  obtain ⟨hnext, hmembers, hawarded, -, hidle⟩ := h
  have hrows : w.shared.store.members.rows = [] := congrArg Table.rows hmembers
  refine ⟨⟨?_, ?_, ?_, ?_⟩, by simp [hidle], by simp [hidle]⟩
  · rw [hrows]
    rfl
  · rw [hrows, hawarded]
    rfl
  · intro c hc
    rw [hrows]
    exact hnext c hc
  · rw [hrows]
    simp

end Moves

/-- The ranks of the campaign, whatever runs at once and whatever is rolled back: the members
    hold the ranks 1 to n, each once and no user twice, none above the cap; the ranks that the
    committed calls answered are those of the members; and the counter shows n + 1. -/
theorem founding_ranks_kept {w : FoundingWorld}
    (h : Reachable FoundingWorld.Init FoundingWorld.Step w) :
    w.shared.awarded.map (fun a => a.2.rank) = List.range' 1 w.shared.awarded.length ∧
      (w.shared.awarded.map (·.1)).Nodup ∧
      w.shared.awarded.map (fun a => (a.1, a.2.rank)) =
        w.store.members.rows.map (fun m => (m.userId, m.rank)) ∧
      ∀ c ∈ w.store.campaign, c.nextRank - 1 = w.store.members.rows.length ∧
        ∀ a ∈ w.shared.awarded, a.2.rank ≤ c.maxRank := by
  have hkept : FoundingKept w := h.invariant (I := FoundingKept) (fun _ => foundingKept_init)
    fun _ _ _ hI _ hs => hI.step hs
  have hranks := hkept.shared
  have hlen : w.shared.awarded.length = w.store.members.rows.length := by
    have h := congrArg List.length hranks.awarded
    rw [List.length_map, List.length_map] at h
    exact h
  have hfst : w.shared.awarded.map (·.1) = w.store.members.rows.map (·.userId) := by
    have h := congrArg (List.map Prod.fst) hranks.awarded
    rw [List.map_map, List.map_map] at h
    exact h
  have hsnd : w.shared.awarded.map (fun a => a.2.rank) = w.store.members.rows.map (·.rank) := by
    have h := congrArg (List.map Prod.snd) hranks.awarded
    rw [List.map_map, List.map_map] at h
    exact h
  refine ⟨?_, ?_, hranks.awarded, fun c hc => ⟨?_, fun a ha => ?_⟩⟩
  · rw [hsnd, hlen]
    exact hranks.ranks
  · rw [hfst, List.nodup_iff_pairwise_ne, List.pairwise_map]
    exact w.store.members.distinct.imp fun hab => hab.1
  · rw [hranks.counter c hc, Nat.add_sub_cancel]
    rfl
  · have hmem : a.2.rank ∈ w.store.members.rows.map (·.rank) := by
      rw [← hsnd]
      exact List.mem_map_of_mem ha
    obtain ⟨m, hm, hrank⟩ := List.mem_map.1 hmem
    rw [← hrank]
    exact hranks.cap c hc m hm

/-- Two users at once: the first one's transaction is rolled back, so the second gets its rank
    and the third the next. -/
def foundingMoves : List AwardMove :=
  [.check 0 { enabled := 1 } 10, .check 1 { enabled := 1 } 11, .allocate 0, .abort 0, .allocate 1,
   .finish 1 (demoEnv 1) { enabled := 1 }, .check 0 { enabled := 1 } 11,
   .check 2 { enabled := 1 } 12, .allocate 2, .finish 2 (demoEnv 1) { enabled := 1 }]

theorem founding_ranks_kept_rolledBack : ∃ w : FoundingWorld,
    w.shared.awarded.map (fun a => a.2.rank) = List.range' 1 w.shared.awarded.length ∧
      w.shared.awarded.map (fun a => (a.1, a.2.rank)) = [(11, 1), (12, 2)] := by
  have hplay : (runList FoundingWorld.exec (FoundingWorld.initial 1000) foundingMoves).any (fun w =>
      decide (w.shared.awarded.map (fun a => (a.1, a.2.rank)) = [(11, 1), (12, 2)])) = true := by
    decide
  obtain ⟨w, hw, hawards⟩ := (Option.any_eq_true _ _).1 hplay
  have hreach : Reachable FoundingWorld.Init FoundingWorld.Step w :=
    reachable_of_runList (fun _ _ _ h => h) (.start (FoundingWorld.init_initial 1000)) hw
  exact ⟨w, (founding_ranks_kept hreach).1, of_decide_eq_true hawards⟩

end Paayatam
