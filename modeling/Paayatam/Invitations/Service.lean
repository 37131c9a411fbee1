/-
  Paayatam.Invitations.Service

  `InvitationService.inviteTop`: the twenty most likely guests of one event.

  The pool is read and ranked first; the coins, the campaign, the invitations
  and the recipients are written later, in one transaction.  Any number of
  calls of the host run at once, with any keys.
-/

import Paayatam.Booking.World
import Paayatam.Lib.Within
import Paayatam.Lib.Threads
import Mathlib.Data.List.Sort
import Mathlib.Data.Rat.Floor

namespace Paayatam

open Lib

namespace Invitations

/-! ## Scoring -/

structure InviteWeights where
  sameCity : ℚ
  interestMatch : ℚ
  categoryHistory : ℚ
  recentActivity : ℚ
  trust : ℚ
  recentInvitePenalty : ℚ

structure InviteCandidate where
  userId : UserId
  cityId : Option CityId
  interestCategoryIds : List CategoryId
  categoryAttendances : Nat
  recentlyActive : Bool
  trustScore : Option Int
  invitedRecently : Bool

structure InviteTarget where
  cityId : CityId
  categoryId : CategoryId

def CATEGORY_HISTORY_CAP : Nat := 3

/-- `scoreCandidate`: the total of its terms. -/
def scoreCandidate (candidate : InviteCandidate) (target : InviteTarget) (weights : InviteWeights) :
    ℚ :=
  let sameCity := if candidate.cityId = some target.cityId then weights.sameCity else 0
  let interestMatch :=
    if target.categoryId ∈ candidate.interestCategoryIds then weights.interestMatch else 0
  let historyRatio : ℚ :=
    (min candidate.categoryAttendances CATEGORY_HISTORY_CAP : Nat) / CATEGORY_HISTORY_CAP
  let categoryHistory := (⌊weights.categoryHistory * historyRatio⌋ : ℚ)
  let recentActivity := if candidate.recentlyActive then weights.recentActivity else 0
  let trust := match candidate.trustScore with
    | none => 0
    | some score => (⌊weights.trust * (max score 0 : Int) / 100⌋ : ℚ)
  let recentInvitePenalty := if candidate.invitedRecently then -weights.recentInvitePenalty else 0
  sameCity + interestMatch + categoryHistory + recentActivity + trust + recentInvitePenalty

structure ScoredCandidate where
  userId : UserId
  score : ℚ

/-- Best score first, then by user id. -/
def ranksBefore (a b : ScoredCandidate) : Bool :=
  decide (b.score < a.score) || (decide (a.score = b.score) && decide (a.userId ≤ b.userId))

def rankCandidates (candidates : List InviteCandidate) (target : InviteTarget)
    (weights : InviteWeights) (limit : Nat) : List ScoredCandidate :=
  ((candidates.map fun candidate =>
    { userId := candidate.userId, score := scoreCandidate candidate target weights }).insertionSort
      fun a b => ranksBefore a b = true).take limit

section Ranking

variable {candidates : List InviteCandidate} {target : InviteTarget} {weights : InviteWeights}
  {limit : Nat}

/-- The ranked users are users of the pool. -/
theorem mem_of_ranked {u : UserId}
    (h : u ∈ (rankCandidates candidates target weights limit).map (·.userId)) :
    u ∈ candidates.map (·.userId) := by
  obtain ⟨ranked, hranked, rfl⟩ := List.mem_map.1 h
  have hsorted := (List.perm_insertionSort _ _).mem_iff.1 (List.mem_of_mem_take hranked)
  obtain ⟨candidate, hcandidate, rfl⟩ := List.mem_map.1 hsorted
  exact List.mem_map.2 ⟨candidate, hcandidate, rfl⟩

/-- Nobody is ranked twice. -/
theorem nodup_ranked (h : (candidates.map (·.userId)).Nodup) :
    ((rankCandidates candidates target weights limit).map (·.userId)).Nodup := by
  unfold rankCandidates
  rw [List.map_take]
  refine List.Nodup.sublist (List.take_sublist _ _) ?_
  refine ((List.perm_insertionSort _ _).map ScoredCandidate.userId).nodup_iff.2 ?_
  rw [List.map_map]
  exact h

end Ranking

/-! ## The tables -/

def INVITE_SPEND_REASON : String := "event.invite_top"

def inviteSpendKey (eventId : EventId) (clientKey : String) : CoinKey :=
  .other s!"invite-top:{eventId}:{clientKey}"

/-- `message_campaign` of one event, with its `message_recipient` rows. -/
structure InviteCampaign where
  idempotencyKey : CoinKey
  coinLedgerId : Option LedgerId
  recipients : List UserId

/-- `event_invitation` of one event. -/
structure EventInvitation where
  userId : UserId
  campaign : CoinKey
  score : ℚ

/-- The database, with the campaigns and the invitations of the event. -/
structure InviteStore where
  db : Db
  campaigns : List InviteCampaign
  invitations : List EventInvitation

abbrev InviteAct := Tx InviteStore AppError

def InviteStore.invited (s : InviteStore) : List UserId := s.invitations.map (·.userId)

/-- The candidates outside the invitations: users of the event's city who may be messaged and
    take no part, newest first. -/
abbrev Eligible := {candidates : List InviteCandidate // (candidates.map (·.userId)).Nodup}

def CANDIDATE_POOL : Nat := 500

def candidatePool (eligible : Eligible) (invited : List UserId) : List InviteCandidate :=
  (eligible.1.filter fun candidate => candidate.userId ∉ invited).take CANDIDATE_POOL

/-! ## One purchase -/

/-- The host's own event, published and still to come. -/
def loadInvitableEvent (env : Env) (db : Db) (host : UserId) (eventId : EventId) :
    Except AppError EventRow :=
  match db.events.find? eventId with
  | none => .error (.of .EVENT_NOT_FOUND)
  | some event =>
    if event.deletedAt.isSome || decide (event.hostUserId ≠ host) then
      .error (.of .EVENT_NOT_FOUND)
    else if event.status ≠ .PUBLISHED ∨ event.startsAt ≤ env.now then
      .error (.of .EVENT_NOT_INVITABLE)
    else .ok event

def inviteMovement (host : UserId) (eventId : EventId) (key : CoinKey) (cost : Nat) :
    CoinMovementInput where
  userId := host
  amount := -(cost : Int)
  type := .INVITE_SPEND
  reasonCode := INVITE_SPEND_REASON
  idempotencyKey := key
  actorType := .USER
  actorId := some host
  ref := some (.event eventId)

/-- The coins; a free invitation moves none. -/
def payInvitation (env : Env) (host : UserId) (eventId : EventId) (key : CoinKey) (cost : Nat) :
    InviteAct (Option LedgerId) :=
  if 0 < cost then do
    let movement ← within InviteStore.db (fun db s => { s with db := db })
      (applyCoins env (inviteMovement host eventId key cost))
    return movement.ledgerId
  else return none

/-- The transaction: coins, campaign, invitations and recipients together. -/
def purchase (env : Env) (host : UserId) (eventId : EventId) (key : CoinKey) (cost : Nat)
    (ranked : List ScoredCandidate) : InviteAct Unit := do
  let coinLedgerId ← payInvitation env host eventId key cost
  let s ← get
  guardTx (key ∉ s.campaigns.map (·.idempotencyKey)) (.db .uniqueViolation)
  modify fun s : InviteStore =>
    { s with
      campaigns := s.campaigns ++ [⟨key, coinLedgerId, ranked.map (·.userId)⟩]
      -- skipDuplicates on (event, user)
      invitations := s.invitations ++
        (ranked.filter fun row => row.userId ∉ s.invited).map fun row =>
          ⟨row.userId, key, row.score⟩ }

/-! ## The system -/

inductive InvitePhase where
  /-- The checks passed and no campaign was found. -/
  | asked (target : InviteTarget)
  /-- The pool is ranked; with it, who was invited when it was read. -/
  | ranked (invited : List UserId) (rows : List ScoredCandidate)

/-- A call of `inviteTop` in progress. -/
structure InviteCall where
  key : CoinKey
  cost : Nat
  maxRecipients : Nat
  phase : InvitePhase

abbrev InviteWorld := Threads Nat InviteStore (Option InviteCall)

/-- A movement of coins by another service, or for another event. -/
structure OtherMovement (eventId : EventId) where
  input : CoinMovementInput
  key_ok : ∀ clientKey, input.idempotencyKey ≠ inviteSpendKey eventId clientKey

inductive InviteMove (eventId : EventId) where
  /-- Call `i` loads the event, the settings and the campaign of its key. -/
  | ask (i : Nat) (env : Env) (mayInvite : Bool) (cost maxRecipients : Nat) (clientKey : String)
  /-- Call `i` reads the pool and ranks it. -/
  | rank (i : Nat) (eligible : Eligible) (weights : InviteWeights)
  /-- Call `i` pays for what it ranked. -/
  | buy (i : Nat) (env : Env)
  /-- The process of call `i` dies. -/
  | crash (i : Nat)
  | moveCoins (env : Env) (movement : OtherMovement eventId)
  /-- What other services do to the tables other than the coin ledger. -/
  | elsewhere (db : Db)

namespace InviteWorld

variable (host : UserId) (eventId : EventId)

def store (w : InviteWorld) : InviteStore := w.shared

def exec (w : InviteWorld) : InviteMove eventId → Option InviteWorld
  | .ask i env mayInvite cost maxRecipients clientKey =>
    match w.locals i with
    | some _ => none
    | none =>
      match loadInvitableEvent env w.store.db host eventId with
      | .error _ => some w
      | .ok event =>
        if mayInvite && !(w.store.campaigns.any fun c =>
            decide (c.idempotencyKey = inviteSpendKey eventId clientKey)) then
          some (w.set i w.shared
            (some ⟨inviteSpendKey eventId clientKey, cost, maxRecipients,
              .asked ⟨event.cityId, event.categoryId⟩⟩))
        else some w
  | .rank i eligible weights =>
    match w.locals i with
    | some ⟨key, cost, maxRecipients, .asked target⟩ =>
      let rows := rankCandidates (candidatePool eligible w.store.invited) target weights
        maxRecipients
      -- nobody to message, so nothing to buy
      if rows = [] then some (w.set i w.shared none)
      else some (w.set i w.shared
        (some ⟨key, cost, maxRecipients, .ranked w.store.invited rows⟩))
    | _ => none
  | .buy i env =>
    match w.locals i with
    | some ⟨key, cost, _, .ranked _ rows⟩ =>
      some (w.set i (commit (purchase env host eventId key cost rows) w.shared) none)
    | _ => none
  | .crash i => (w.locals i).map fun _ => w.set i w.shared none
  | .moveCoins env movement => some { w with shared := commit (within InviteStore.db
      (fun db s => { s with db := db }) (applyCoins env movement.input)) w.shared }
  | .elsewhere db => some { w with shared := { w.shared with
      db := { db with coinLedger := w.store.db.coinLedger } } }

def Step (w : InviteWorld) (m : InviteMove eventId) (w' : InviteWorld) : Prop :=
  w.exec host eventId m = some w'

/-- Nothing bought for the event yet, and nobody at work. -/
def Init (w : InviteWorld) : Prop :=
  (∀ clientKey, w.store.db.ledgerByKey (inviteSpendKey eventId clientKey) = none) ∧
    w.store.campaigns = [] ∧ w.store.invitations = [] ∧ ∀ i, w.locals i = none

def initial (db : Db) : InviteWorld where
  shared := ⟨db, [], []⟩
  locals _ := none

end InviteWorld

/-- A call buys at a price above zero, and only while the invitations are those it ranked
    against, unless its key has bought already. -/
def BuysWhatItRead {eventId : EventId} (w : InviteWorld) : InviteMove eventId → Prop
  | .ask _ _ _ cost _ _ => 0 < cost
  | .buy i _ => ∀ call ∈ w.locals i, ∀ invited rows, call.phase = .ranked invited rows →
      call.key ∈ w.store.campaigns.map (·.idempotencyKey) ∨ w.store.invited = invited
  | _ => True

/-! ## One invitation for each user -/

/-- The host paid under the key. -/
def Charged (host : UserId) (db : Db) (key : CoinKey) : Prop :=
  ∃ row ∈ db.coinLedger.rows, row.idempotencyKey = key ∧ row.userId = host ∧ row.amount < 0

/-- What holds of the tables. -/
structure InvitesKept (host : UserId) (eventId : EventId) (s : InviteStore) : Prop where
  once : (s.campaigns.flatMap (·.recipients)).Nodup
  invited : ∀ c ∈ s.campaigns, ∀ u ∈ c.recipients, u ∈ s.invited
  someone : ∀ c ∈ s.campaigns, c.recipients ≠ []
  paid : ∀ c ∈ s.campaigns, Charged host s.db c.idempotencyKey
  bought : ∀ clientKey, ∀ row ∈ s.db.coinLedger.rows,
    row.idempotencyKey = inviteSpendKey eventId clientKey →
      ∃ c ∈ s.campaigns, c.idempotencyKey = inviteSpendKey eventId clientKey

/-- What a call holds. -/
structure InviteCall.Holds (eventId : EventId) (call : InviteCall) : Prop where
  key : ∃ clientKey, call.key = inviteSpendKey eventId clientKey
  cost : 0 < call.cost
  ranked : ∀ invited rows, call.phase = .ranked invited rows →
    rows ≠ [] ∧ (rows.map (·.userId)).Nodup ∧ ∀ u ∈ rows.map (·.userId), u ∉ invited

/-- What a step does to the invitations of the event. -/
structure InvitedOnce (host : UserId) (eventId : EventId)
    (x : InviteWorld × InviteMove eventId × InviteWorld) : Prop where
  /-- No user is a recipient of two campaigns, or twice of one. -/
  once : (x.2.2.store.campaigns.flatMap (·.recipients)).Nodup
  /-- The host is charged under a key exactly when it created a recipient. -/
  charged : ∀ clientKey, Charged host x.2.2.store.db (inviteSpendKey eventId clientKey) ↔
    ∃ c ∈ x.2.2.store.campaigns, c.idempotencyKey = inviteSpendKey eventId clientKey ∧
      c.recipients ≠ []
  /-- A replay of a key that has bought writes nothing: neither a new call, nor one under way. -/
  replayed : ∀ i, (∃ env mayInvite cost maxRecipients clientKey,
      x.2.1 = .ask i env mayInvite cost maxRecipients clientKey ∧
        ∃ c ∈ x.1.store.campaigns, c.idempotencyKey = inviteSpendKey eventId clientKey) ∨
      (∃ env, x.2.1 = .buy i env) ∧
        (∃ call ∈ x.1.locals i, ∃ c ∈ x.1.store.campaigns, c.idempotencyKey = call.key) →
    x.2.2.store = x.1.store

section Steps

variable {host : UserId} {eventId : EventId} {env : Env} {w w' : InviteWorld}
  {s s' : InviteStore} {key : CoinKey} {cost : Nat} {rows : List ScoredCandidate}

theorem InvitesKept.charged_iff (h : InvitesKept host eventId s) (clientKey : String) :
    Charged host s.db (inviteSpendKey eventId clientKey) ↔
      ∃ c ∈ s.campaigns, c.idempotencyKey = inviteSpendKey eventId clientKey ∧
        c.recipients ≠ [] := by
  constructor
  · rintro ⟨row, hrow, hkey, -, -⟩
    obtain ⟨c, hc, hckey⟩ := h.bought clientKey row hrow hkey
    exact ⟨c, hc, hckey, h.someone c hc⟩
  · rintro ⟨c, hc, hckey, -⟩
    exact hckey ▸ h.paid c hc

/-- The payment of a purchase writes one row of its key, or finds one. -/
theorem payInvitation_spec {ledgerId : Option LedgerId} (hcost : 0 < cost)
    (h : Runs (payInvitation env host eventId key cost) s ledgerId s') :
    s'.campaigns = s.campaigns ∧ s'.invitations = s.invitations ∧
      (∀ row ∈ s.db.coinLedger.rows, row ∈ s'.db.coinLedger.rows) ∧
      (∀ row ∈ s'.db.coinLedger.rows, row ∈ s.db.coinLedger.rows ∨ row.idempotencyKey = key) ∧
      ((∃ row ∈ s.db.coinLedger.rows, row.idempotencyKey = key) ∨ Charged host s'.db key) := by
  rw [payInvitation, if_pos hcost] at h
  obtain ⟨movement, db, hpay, hend⟩ := runs_within_bind.1 h
  obtain ⟨-, rfl⟩ := runs_pure.1 hend
  refine ⟨rfl, rfl, ?_⟩
  rcases (applyCoins_spec hpay).1.outcome with ⟨hsame, -, hfound⟩ | ⟨-, -, id, -, hrows⟩
  · have hrow : ∃ row ∈ s.db.coinLedger.rows, row.idempotencyKey = key := by
      rcases hfound with ⟨row, hrow, -⟩ | ⟨-, -, hnone⟩
      · exact ⟨row, Db.mem_of_ledgerByKey hrow⟩
      · cases hnone
    show (∀ row ∈ s.db.coinLedger.rows, row ∈ db.coinLedger.rows) ∧
      (∀ row ∈ db.coinLedger.rows, row ∈ s.db.coinLedger.rows ∨ row.idempotencyKey = key) ∧ _
    rw [hsame]
    exact ⟨fun _ hr => hr, fun _ hr => .inl hr, .inl hrow⟩
  · show (∀ row ∈ s.db.coinLedger.rows, row ∈ db.coinLedger.rows) ∧
      (∀ row ∈ db.coinLedger.rows, row ∈ s.db.coinLedger.rows ∨ row.idempotencyKey = key) ∧ _
    have hwritten := List.mem_append_right s.db.coinLedger.rows (List.mem_singleton_self
      (ledgerRow env.now id (inviteMovement host eventId key cost) none (s.db.balanceOf host)
        (cappedAmount (-(cost : Int)) none (s.db.balanceOf host))))
    refine ⟨fun row hr => ?_, fun row hr => ?_, .inr ⟨_, hrows ▸ hwritten, rfl, rfl, ?_⟩⟩
    · rw [hrows]
      exact List.mem_append_left _ hr
    · rw [hrows] at hr
      rcases List.mem_append.1 hr with hold | hnew
      · exact .inl hold
      · rw [List.mem_singleton.1 hnew]
        exact .inr rfl
    · show -(cost : Int) < 0
      omega

/-- A key that has bought buys nothing more. -/
theorem purchase_replayed (hkey : key ∈ s.campaigns.map (·.idempotencyKey)) :
    commit (purchase env host eventId key cost rows) s = s := by
  unfold commit
  split
  · next hrun =>
      exfalso
      obtain ⟨ledgerId, s₁, hpay, hrest⟩ := runs_bind.1 hrun
      simp only [runs_get_bind, runs_guardTx_bind] at hrest
      have hsame : s₁.campaigns = s.campaigns := by
        unfold payInvitation at hpay
        split at hpay
        · obtain ⟨movement, db, -, hend⟩ := runs_within_bind.1 hpay
          obtain ⟨-, rfl⟩ := runs_pure.1 hend
          rfl
        · obtain ⟨-, rfl⟩ := runs_pure.1 hpay
          rfl
      exact hrest.1 (hsame ▸ hkey)
  · rfl

/-- A purchase for users who are not invited yet. -/
theorem InvitesKept.purchase (h : InvitesKept host eventId s) {call : InviteCall}
    (hcall : call.Holds eventId) {invited : List UserId}
    (hphase : call.phase = .ranked invited rows) (hread : s.invited = invited)
    (hrun : Runs (Invitations.purchase env host eventId call.key call.cost rows) s () s') :
    InvitesKept host eventId s' := by
  obtain ⟨hsome, hnodup, hfresh⟩ := hcall.ranked invited rows hphase
  obtain ⟨clientKey, hkey⟩ := hcall.key
  obtain ⟨ledgerId, s₁, hpay, hrest⟩ := runs_bind.1 hrun
  simp only [runs_get_bind, runs_guardTx_bind, runs_modify] at hrest
  obtain ⟨hnew, rfl⟩ := hrest
  obtain ⟨hcampaigns, hinvitations, hkept, hrows, hcharged⟩ := payInvitation_spec hcall.cost hpay
  have hinvited : s₁.invited = invited := by
    rw [InviteStore.invited, hinvitations]
    exact hread
  -- nobody ranked is invited, so every ranked user gets a row
  have hall : (rows.filter fun row => row.userId ∉ s₁.invited) = rows := by
    refine List.filter_eq_self.2 fun row hrow => ?_
    have hnot := hfresh row.userId (List.mem_map_of_mem hrow)
    simpa [hinvited] using hnot
  rw [hall]
  have hfree : ¬ ∃ row ∈ s.db.coinLedger.rows, row.idempotencyKey = call.key := by
    rintro ⟨row, hrow, hrowkey⟩
    obtain ⟨c, hc, hckey⟩ := h.bought clientKey row hrow (hrowkey.trans hkey)
    apply hnew
    rw [hcampaigns]
    exact List.mem_map.2 ⟨c, hc, hckey.trans hkey.symm⟩
  have hpaid : ∀ k, Charged host s.db k → Charged host s₁.db k := by
    rintro k ⟨row, hrow, hrest⟩
    exact ⟨row, hkept row hrow, hrest⟩
  constructor
  · show ((s₁.campaigns ++ [_]).flatMap InviteCampaign.recipients).Nodup
    rw [hcampaigns, List.flatMap_append, List.flatMap_singleton]
    refine List.nodup_append.2 ⟨h.once, hnodup, fun a ha b hb hab => ?_⟩
    obtain ⟨c, hc, hac⟩ := List.mem_flatMap.1 ha
    exact hfresh b hb (hread ▸ hab ▸ h.invited c hc a hac)
  · intro c hc u hu
    show u ∈ (s₁.invitations ++ _).map (·.userId)
    rw [List.map_append, hinvitations]
    have hc' : c ∈ s.campaigns ++ [_] := hcampaigns ▸ hc
    rcases List.mem_append.1 hc' with hold | hnewc
    · exact List.mem_append_left _ (h.invited c hold u hu)
    · rw [List.mem_singleton.1 hnewc] at hu
      refine List.mem_append_right _ ?_
      rw [List.map_map]
      exact hu
  · intro c hc
    have hc' : c ∈ s.campaigns ++ [_] := hcampaigns ▸ hc
    rcases List.mem_append.1 hc' with hold | hnewc
    · exact h.someone c hold
    · rw [List.mem_singleton.1 hnewc]
      exact fun hnil => hsome (List.map_eq_nil_iff.1 hnil)
  · intro c hc
    have hc' : c ∈ s.campaigns ++ [_] := hcampaigns ▸ hc
    rcases List.mem_append.1 hc' with hold | hnewc
    · exact hpaid _ (h.paid c hold)
    · rw [List.mem_singleton.1 hnewc]
      exact hcharged.resolve_left hfree
  · intro k row hrow hrowkey
    have hin : ∀ c ∈ s.campaigns, c ∈ s₁.campaigns ++
        [⟨call.key, ledgerId, rows.map (·.userId)⟩] := fun c hc =>
      List.mem_append_left _ (hcampaigns ▸ hc)
    rcases hrows row hrow with hold | hnewrow
    · obtain ⟨c, hc, hckey⟩ := h.bought k row hold hrowkey
      exact ⟨c, hin c hc, hckey⟩
    · exact ⟨_, List.mem_append_right _ (List.mem_singleton_self _), hnewrow.symm.trans hrowkey⟩

/-- The rows of a table of coins that another service's movement leaves. -/
theorem InvitesKept.moveCoins (h : InvitesKept host eventId s) (movement : OtherMovement eventId)
    {db : Db} {result : CoinPenalty} (hrun : Runs (applyCoins env movement.input) s.db result db) :
    InvitesKept host eventId { s with db } := by
  have hgrow : (∀ row ∈ s.db.coinLedger.rows, row ∈ db.coinLedger.rows) ∧
      ∀ row ∈ db.coinLedger.rows,
        row ∈ s.db.coinLedger.rows ∨ row.idempotencyKey = movement.input.idempotencyKey := by
    rcases (applyCoins_spec hrun).1.outcome with ⟨hsame, -, -⟩ | ⟨-, -, id, -, hrows⟩
    · rw [hsame]
      exact ⟨fun _ hr => hr, fun _ hr => .inl hr⟩
    · rw [hrows]
      refine ⟨fun row hr => List.mem_append_left _ hr, fun row hr => ?_⟩
      rcases List.mem_append.1 hr with hold | hnew
      · exact .inl hold
      · rw [List.mem_singleton.1 hnew]
        exact .inr rfl
  refine ⟨h.once, h.invited, h.someone, fun c hc => ?_, fun clientKey row hrow hkey => ?_⟩
  · obtain ⟨row, hrow, hrest⟩ := h.paid c hc
    exact ⟨row, hgrow.1 row hrow, hrest⟩
  · rcases hgrow.2 row hrow with hold | hnew
    · exact h.bought clientKey row hold hkey
    · exact absurd (hnew.symm.trans hkey) (movement.key_ok clientKey)

/-- The invariant. -/
abbrev InviteSystemKept (host : UserId) (eventId : EventId) : InviteWorld → Prop :=
  Threads.Holds (InvitesKept host eventId) (fun _ call => ∀ c ∈ call, c.Holds eventId)
    fun _ _ => True

/-- Call `i` moves on, or comes to its end. -/
theorem InviteSystemKept.set (h : InviteSystemKept host eventId w) {i : Nat} {store : InviteStore}
    {l : Option InviteCall} (hstore : InvitesKept host eventId store)
    (hl : ∀ c ∈ l, c.Holds eventId) : InviteSystemKept host eventId (w.set i store l) :=
  Threads.Holds.set_alone h hstore hl fun j _ => h.own j

theorem InviteSystemKept.step (h : InviteSystemKept host eventId w) {m : InviteMove eventId}
    (hg : BuysWhatItRead w m) (hs : InviteWorld.Step host eventId w m w') :
    InviteSystemKept host eventId w' := by
  unfold InviteWorld.Step InviteWorld.exec at hs
  cases m with
  | ask i env mayInvite cost maxRecipients clientKey =>
      have hcost : 0 < cost := hg
      cases hl : w.locals i with
      | some call => simp [hl] at hs
      | none =>
          simp only [hl] at hs
          split at hs
          · obtain rfl := Option.some.inj hs
            exact h
          · split at hs
            · obtain rfl := Option.some.inj hs
              refine h.set h.shared ?_
              rintro c ⟨⟩
              exact ⟨⟨clientKey, rfl⟩, hcost, nofun⟩
            · obtain rfl := Option.some.inj hs
              exact h
  | rank i eligible weights =>
      match hl : w.locals i with
      | none => simp [hl] at hs
      | some ⟨key, cost, maxRecipients, .ranked _ _⟩ => simp [hl] at hs
      | some ⟨key, cost, maxRecipients, .asked target⟩ =>
          simp only [hl] at hs
          have hcall := h.own i _ hl
          split at hs
          · obtain rfl := Option.some.inj hs
            exact h.set h.shared (by simp)
          · next hsome =>
              obtain rfl := Option.some.inj hs
              refine h.set h.shared ?_
              rintro c ⟨⟩
              refine ⟨hcall.key, hcall.cost, fun invited rows hphase => ?_⟩
              obtain ⟨rfl, rfl⟩ := InvitePhase.ranked.inj hphase
              refine ⟨hsome, nodup_ranked ?_, fun u hu => ?_⟩
              · unfold candidatePool
                rw [List.map_take]
                refine List.Nodup.sublist (List.take_sublist _ _) ?_
                exact List.Nodup.sublist (List.Sublist.map _ List.filter_sublist) eligible.2
              · obtain ⟨candidate, hcandidate, rfl⟩ := List.mem_map.1 (mem_of_ranked hu)
                simpa using (List.mem_filter.1 (List.mem_of_mem_take hcandidate)).2
  | buy i env =>
      match hl : w.locals i with
      | none => simp [hl] at hs
      | some ⟨key, cost, maxRecipients, .asked target⟩ => simp [hl] at hs
      | some ⟨key, cost, maxRecipients, .ranked invited rows⟩ =>
          simp only [hl] at hs
          obtain rfl := Option.some.inj hs
          refine h.set ?_ (by simp)
          rcases hg _ hl invited rows rfl with hdone | hread
          · have hsame : commit (purchase env host eventId key cost rows) w.shared = w.shared :=
              purchase_replayed hdone
            rw [hsame]
            exact h.shared
          · unfold commit
            split
            · next hrun => exact h.shared.purchase (h.own i _ hl) rfl hread hrun
            · exact h.shared
  | crash i =>
      obtain ⟨call, -, rfl⟩ := Option.map_eq_some_iff.1 hs
      exact h.set h.shared (by simp)
  | moveCoins env movement =>
      obtain rfl := Option.some.inj hs
      refine ⟨?_, h.own, h.apart⟩
      show InvitesKept host eventId (commit _ w.shared)
      unfold commit
      split
      · next hrun =>
          obtain ⟨db, hrun', rfl⟩ := runs_within.1 hrun
          exact h.shared.moveCoins movement hrun'
      · exact h.shared
  | elsewhere db =>
      obtain rfl := Option.some.inj hs
      exact ⟨⟨h.shared.once, h.shared.invited, h.shared.someone, h.shared.paid, h.shared.bought⟩,
        h.own, h.apart⟩

/-- A replay writes nothing, whatever else is going on. -/
theorem replay_writes_nothing {m : InviteMove eventId}
    (hs : InviteWorld.Step host eventId w m w') {i : Nat}
    (hreplay : (∃ env mayInvite cost maxRecipients clientKey,
        m = .ask i env mayInvite cost maxRecipients clientKey ∧
          ∃ c ∈ w.store.campaigns, c.idempotencyKey = inviteSpendKey eventId clientKey) ∨
      (∃ env, m = .buy i env) ∧
        ∃ call ∈ w.locals i, ∃ c ∈ w.store.campaigns, c.idempotencyKey = call.key) :
    w'.store = w.store := by
  unfold InviteWorld.Step InviteWorld.exec at hs
  rcases hreplay with ⟨env, mayInvite, cost, maxRecipients, clientKey, rfl, -⟩ |
    ⟨⟨env, rfl⟩, call, hcall, c, hc, hkey⟩
  · -- asking writes nothing
    simp only at hs
    repeat' split at hs
    all_goals first
      | (obtain rfl := Option.some.inj hs; rfl)
      | cases hs
  · match hl : w.locals i with
    | none => simp [hl] at hs
    | some ⟨key, cost, maxRecipients, .asked target⟩ => simp [hl] at hs
    | some ⟨key, cost, maxRecipients, .ranked invited rows⟩ =>
        simp only [hl] at hs
        obtain rfl := Option.some.inj hs
        obtain rfl := Option.some.inj (hl.symm.trans hcall)
        exact purchase_replayed (List.mem_map.2 ⟨c, hc, hkey⟩)

theorem inviteSystemKept_init (h : w.Init eventId) : InviteSystemKept host eventId w := by
  obtain ⟨hfree, hcampaigns, -, hidle⟩ := h
  have hnone : w.shared.campaigns = [] := hcampaigns
  refine ⟨⟨?_, ?_, ?_, ?_, fun clientKey row hrow hkey => ?_⟩, by simp [hidle],
    fun _ _ _ => trivial⟩
  · rw [hnone]
    exact List.nodup_nil
  · simp [hnone]
  · simp [hnone]
  · simp [hnone]
  · exact absurd hkey (Db.not_mem_of_ledgerByKey (hfree clientKey) row hrow)

/-- One invitation per user, where a call buys at a price and only while nobody was invited since
    it read the pool: after every step no user is a recipient twice and the host is charged under
    a key exactly when it created recipients, and a replay writes nothing. -/
theorem invited_once
    {tr : List (InviteWorld × InviteMove eventId × InviteWorld)} {w : InviteWorld}
    (h : Run (InviteWorld.Init eventId) (InviteWorld.Step host eventId) BuysWhatItRead tr w) :
    ∀ x ∈ tr, InvitedOnce host eventId x :=
  h.steps (P := fun w m w' => InvitedOnce host eventId (w, m, w')) fun _ _ _ hw hg hs => by
    have hkept := (hw.invariant (I := InviteSystemKept host eventId)
      (fun _ h => inviteSystemKept_init h) fun _ _ _ hI hg hs => hI.step hg hs).step hg hs
    exact ⟨hkept.shared.once, hkept.shared.charged_iff, fun i => replay_writes_nothing hs⟩

end Steps

/-! ## One key after the other, and two keys at once -/

/-- The guard, where a key that has bought is not tried again by a call under way. -/
def buysWhatItRead {eventId : EventId} (w : InviteWorld) : InviteMove eventId → Bool
  | .ask _ _ _ cost _ _ => decide (0 < cost)
  | .buy i _ => (w.locals i).all fun call => match call.phase with
      | .ranked invited _ => decide (w.store.invited = invited)
      | .asked _ => true
  | _ => true

theorem buysWhatItRead_of {eventId : EventId} (w : InviteWorld) (m : InviteMove eventId)
    (h : buysWhatItRead w m = true) : BuysWhatItRead w m := by
  cases m with
  | ask i env mayInvite cost maxRecipients clientKey =>
      exact of_decide_eq_true (p := 0 < cost) h
  | buy i env =>
      intro call hcall invited rows hphase
      simp only [buysWhatItRead, show w.locals i = some call from hcall, Option.all_some, hphase,
        decide_eq_true_eq] at h
      exact .inr h
  | rank i eligible weights | crash i | moveCoins env movement | elsewhere db => trivial

/-- A host with 100 coins and an event to come. -/
def hostedDb : Db :=
  commit (create (demoEnv 1) 1 (demoEvent 100 4) false 7)
    (commit (applyCoins (demoEnv 0) (onboardingReward 1 100).input) Db.initial)

/-- Two users of the city, one of them interested in the category. -/
def neighbours : Eligible :=
  ⟨[{ userId := 6, cityId := some 1, interestCategoryIds := [], categoryAttendances := 0
      recentlyActive := true, trustScore := some 50, invitedRecently := false },
    { userId := 5, cityId := some 1, interestCategoryIds := [1], categoryAttendances := 2
      recentlyActive := true, trustScore := none, invitedRecently := false }], by decide⟩

def demoWeights : InviteWeights := ⟨40, 25, 15, 10, 10, 20⟩

def askFor (i : Nat) (clientKey : String) : InviteMove 7 := .ask i (demoEnv 2) true 5 1 clientKey

/-- One purchase, its replay, and a second purchase under another key. -/
def invitesInTurn : List (InviteMove 7) :=
  [askFor 0 "a", .rank 0 neighbours demoWeights, .buy 0 (demoEnv 2), askFor 0 "a", askFor 0 "b",
    .rank 0 neighbours demoWeights, .buy 0 (demoEnv 2)]

/-- No other key begins as those of the invitations do. -/
theorem inviteSpendKey_ne {eventId : EventId} {clientKey key : String}
    (h : key.toList.head? ≠ some 'i') : CoinKey.other key ≠ inviteSpendKey eventId clientKey := by
  intro he
  apply h
  rw [CoinKey.other.inj he]
  simp [toString]

theorem init_hosted : (InviteWorld.initial hostedDb).Init 7 := by
  refine ⟨fun clientKey => ?_, rfl, rfl, fun _ => rfl⟩
  have hkeys : hostedDb.coinLedger.rows.map (·.idempotencyKey) =
      [.other "onboarding:1:1", .eventCreateSpend 7] := by
    decide
  show hostedDb.coinLedger.rows.find? _ = none
  refine List.find?_eq_none.2 fun row hrow => ?_
  have hkey : row.idempotencyKey ∈ [CoinKey.other "onboarding:1:1", .eventCreateSpend 7] :=
    hkeys ▸ List.mem_map_of_mem hrow
  rcases List.mem_cons.1 hkey with hother | hcreate
  · rw [hother]
    simpa using inviteSpendKey_ne (by decide)
  · rw [List.mem_singleton.1 hcreate]
    simp [inviteSpendKey]

theorem invited_once_inTurn : ∃ tr w,
    Run (InviteWorld.Init 7) (InviteWorld.Step 1 7) BuysWhatItRead tr w ∧
    w.store.campaigns.map (·.recipients) = [[5], [6]] ∧ ∀ x ∈ tr, InvitedOnce 1 7 x := by
  have hplay : guardList (InviteWorld.exec 1 7) buysWhatItRead (.initial hostedDb) invitesInTurn =
        true ∧ (runList (InviteWorld.exec 1 7) (.initial hostedDb) invitesInTurn).any
        (fun w => decide (w.store.campaigns.map (·.recipients) = [[5], [6]])) = true := by
    decide +kernel
  obtain ⟨w, hw, hcampaigns⟩ := (Option.any_eq_true _ _).1 hplay.2
  have hrun : Run (InviteWorld.Init 7) (InviteWorld.Step 1 7) BuysWhatItRead
      (traceList (InviteWorld.exec 1 7) (.initial hostedDb) invitesInTurn) w :=
    run_of_runList (g := buysWhatItRead) (fun _ _ _ h => h) buysWhatItRead_of (.start init_hosted)
    hplay.1 hw
  exact ⟨_, w, hrun, of_decide_eq_true hcampaigns, invited_once hrun⟩

/-- Two keys at once: both calls rank the same pool before either buys. -/
def invitesAtOnce : List (InviteMove 7) :=
  [askFor 0 "a", askFor 1 "b", .rank 0 neighbours demoWeights, .rank 1 neighbours demoWeights,
    .buy 0 (demoEnv 2), .buy 1 (demoEnv 2)]

/-- One user is invited twice to one event, and the host pays for both. -/
theorem user_invited_twice : ∃ w,
    Reachable (InviteWorld.Init 7) (InviteWorld.Step 1 7) w ∧
    w.store.campaigns.map (·.recipients) = [[5], [5]] ∧
    Charged 1 w.store.db (inviteSpendKey 7 "a") ∧ Charged 1 w.store.db (inviteSpendKey 7 "b") := by
  have hplay : (runList (InviteWorld.exec 1 7) (.initial hostedDb) invitesAtOnce).any (fun w =>
      decide (w.store.campaigns.map (·.recipients) = [[5], [5]] ∧
        (∃ row ∈ w.store.db.coinLedger.rows, row.idempotencyKey = inviteSpendKey 7 "a" ∧
          row.userId = 1 ∧ row.amount < 0) ∧
        ∃ row ∈ w.store.db.coinLedger.rows, row.idempotencyKey = inviteSpendKey 7 "b" ∧
          row.userId = 1 ∧ row.amount < 0)) = true := by
    decide +kernel
  obtain ⟨w, hw, htwice⟩ := (Option.any_eq_true _ _).1 hplay
  obtain ⟨hrecipients, hfirst, hsecond⟩ := of_decide_eq_true htwice
  exact ⟨w, reachable_of_runList (fun _ _ _ h => h) (.start init_hosted) hw, hrecipients, hfirst,
    hsecond⟩

end Invitations

end Paayatam
