/-
  Paayatam.Identity.Completion

  `ProfileService.complete` and `update`, and the advance of `acceptPolicies`: how a
  user gets from `NEW` to `PROFILE_COMPLETE`, and what that pays.

  A completion locks the user's row, writes the profile, takes a founding rank, and
  moves coins and trust, in one transaction.  An edit locks nothing.
-/

import Paayatam.Economy.Founding
import Paayatam.Economy.Postings
import Paayatam.Events.Service

namespace Paayatam

open Lib

namespace Completion

abbrev InterestId := Nat

/-- `user_profile`. -/
structure UserProfileRow where
  displayName : String
  gender : Option Gender
  birthYear : Option Int
  cityId : CityId
  districtId : Option DistrictId
  bio : Option String
  inviteOptOut : Bool
  completedAt : Option Instant

/-- The database, with the profiles, the interests and the users' states. -/
structure ProfileDb where
  founding : FoundingDb
  profiles : UserId → Option UserProfileRow
  interests : UserId → List InterestId
  onboardingState : UserId → Option OnboardingState

abbrev ProfileAct := Tx ProfileDb AppError

inductive ProfileError where
  | GENDER_NOT_SELECTABLE | GENDER_NOT_EDITABLE | AGE_BELOW_MINIMUM | INVALID_INTEREST
  | PROFILE_INCOMPLETE
  | location (e : AppError)

/-! ## What is asked first -/

structure CompleteProfileInput where
  displayName : String
  gender : Gender
  birthYear : Int
  cityId : CityId
  districtId : Option DistrictId
  bio : Option String
  interestIds : List InterestId

/-- The settings of a completion. -/
structure CompletionSettings where
  onboarding_reward_coins : Nat := 35
  profile_complete_delta : Nat := 5
  min_age_years : Nat := 18

def isOldEnough (env : Env) (birthYear : Int) (minAgeYears : Nat) : Bool :=
  decide ((minAgeYears : Int) ≤ env.gregorianYear env.now - birthYear)

def assertSelectableGender (gender : Option Gender) : Except ProfileError Unit :=
  if gender ≠ some .MALE ∧ gender ≠ some .FEMALE then .error .GENDER_NOT_SELECTABLE else .ok ()

/-- What a completion asks before its transaction. -/
def mayComplete (env : Env) (settings : CompletionSettings) (input : CompleteProfileInput) :
    Except ProfileError Unit := do
  assertSelectableGender (some input.gender)
  if isOldEnough env input.birthYear settings.min_age_years = false then throw .AGE_BELOW_MINIMUM

/-- The interests asked for, each once, if all are in the catalogue. -/
def assertInterestsSelectable (active : InterestId → Bool) (interestIds : List InterestId) :
    Except ProfileError (List InterestId) :=
  let requested := interestIds.dedup
  if requested.all active then .ok requested else .error .INVALID_INTEREST

/-! ## The transaction of a completion -/

def ONBOARDING_REWARD_REASON : String := "onboarding.profile_completed"

def TRUST_PROFILE_COMPLETE_REASON : String := "trust.profile_completed"

def onboardingRewardKey (userId : UserId) : CoinKey := .other s!"onboarding:{userId}"

def profileTrustKey (userId : UserId) : TrustKey := .other s!"trust-profile:{userId}"

/-- `FoundingService.award`. -/
def award (env : Env) (settings : FoundingSettings) (userId : UserId) :
    FoundingAct (Option FoundingAward) := do
  let s ← get
  if mayAward settings userId s then awardRank env settings userId else return none

def onboardingMovement (userId : UserId) (rewardCoins : Nat) : CoinMovementInput where
  userId := userId
  amount := rewardCoins
  type := .ONBOARDING_REWARD
  reasonCode := ONBOARDING_REWARD_REASON
  idempotencyKey := onboardingRewardKey userId
  actorType := .SYSTEM
  ref := some (.other "user_profile" (toString userId))

def profileTrustMovement (userId : UserId) (trustDelta : Nat) : TrustMovementInput where
  userId := userId
  delta := trustDelta
  type := .PROFILE_COMPLETE
  reasonCode := TRUST_PROFILE_COMPLETE_REASON
  idempotencyKey := profileTrustKey userId
  actorType := .SYSTEM
  ref := some (.other "user_profile" (toString userId))

def inFounding {α : Type} (m : FoundingAct α) : ProfileAct α :=
  within ProfileDb.founding (fun f s => { s with founding := f }) m

/-- On the tables of coins and trust. -/
def inDb {α : Type} (m : Act α) : ProfileAct α :=
  inFounding (within FoundingDb.db (fun db s => { s with db := db }) m)

/-- What a completion has read before it writes. -/
structure CompletionRead where
  previousState : OnboardingState
  cityId : CityId
  districtId : Option DistrictId
  interestIds : List InterestId
  completedAt : Option Instant

/-- A call of `complete` past its first checks. -/
structure CompletionCall where
  userId : UserId
  input : CompleteProfileInput
  rewardCoins : Nat
  trustDelta : Nat
  now : Instant

def profileData (call : CompletionCall) (read : CompletionRead) (inviteOptOut : Bool) :
    UserProfileRow where
  displayName := call.input.displayName
  gender := some call.input.gender
  birthYear := some call.input.birthYear
  cityId := read.cityId
  districtId := read.districtId
  bio := call.input.bio
  inviteOptOut := inviteOptOut
  completedAt := some (read.completedAt.getD call.now)

/-- Drops what is no longer wanted, and adds what is not there. -/
def setInterests (old wanted : List InterestId) : List InterestId :=
  old.filter (wanted.contains ·) ++ wanted.filter (!old.contains ·)

/-- The upsert of the profile, and the interests. -/
def writeProfile (call : CompletionCall) (read : CompletionRead) (s : ProfileDb) : ProfileDb :=
  { s with
    profiles := Function.update s.profiles call.userId (some (profileData call read
      (((s.profiles call.userId).map (·.inviteOptOut)).getD false)))
    interests := Function.update s.interests call.userId
      (setInterests (s.interests call.userId) read.interestIds) }

def setOnboarding (s : ProfileDb) (userId : UserId) (state : OnboardingState) : ProfileDb :=
  { s with onboardingState := Function.update s.onboardingState userId (some state) }

/-- The advance and the rank, on a first completion. -/
def advance (env : Env) (founding : FoundingSettings) (call : CompletionCall)
    (previousState : OnboardingState) : ProfileAct (Option FoundingAward) :=
  if previousState ≠ .PROFILE_COMPLETE then do
    modify fun s => setOnboarding s call.userId .PROFILE_COMPLETE
    inFounding (award env founding call.userId)
  else return none

structure CompletionResult where
  balance : Int
  rewardGranted : Bool
  trustScore : Int
  founding : Option FoundingAward

/-- `complete`, from its first write to its commit. -/
def finishCompletion (env : Env) (founding : FoundingSettings) (call : CompletionCall)
    (read : CompletionRead) : ProfileAct CompletionResult := do
  modify (writeProfile call read)
  let rank ← advance env founding call read.previousState
  let movement ← inDb (applyCoins env (onboardingMovement call.userId call.rewardCoins))
  let trust ← inDb (applyTrust env (profileTrustMovement call.userId call.trustDelta))
  return { balance := movement.balance, rewardGranted := movement.applied,
           trustScore := trust.score, founding := rank }

/-! ## Editing -/

structure UpdateProfileInput where
  displayName : Option String
  gender : Option (Option Gender)
  birthYear : Option Int
  cityId : Option CityId
  districtId : Option (Option DistrictId)
  bio : Option (Option String)
  interestIds : Option (List InterestId)
  inviteOptOut : Option Bool

inductive ProfileEditor where
  | USER | ADMIN
  deriving DecidableEq

/-- What an edit asks before its transaction. -/
def mayUpdate (env : Env) (settings : CompletionSettings) (editor : ProfileEditor)
    (input : UpdateProfileInput) : Except ProfileError Unit := do
  if editor = .USER ∧ input.gender.isSome = true then throw .GENDER_NOT_EDITABLE
  match input.gender with
  | some gender => assertSelectableGender gender
  | none => pure ()
  match input.birthYear with
  | some year =>
    if isOldEnough env year settings.min_age_years = false then throw .AGE_BELOW_MINIMUM
  | none => pure ()

/-- What an edit writes: a field left out stays, and the city and district go together. -/
structure ProfileEdit where
  input : UpdateProfileInput
  location : Option (CityId × Option DistrictId)
  interestIds : Option (List InterestId)

/-- Reads the profile, and resolves what the edit names. -/
def planUpdate (env : Env) (active : InterestId → Bool) (existing : Option UserProfileRow)
    (input : UpdateProfileInput) : Except ProfileError ProfileEdit := do
  match existing with
  | none => throw .PROFILE_INCOMPLETE
  | some row =>
    let location ←
      if input.cityId.isSome = true ∨ input.districtId.isSome = true then
        let cityId := input.cityId.getD row.cityId
        let districtId := match input.districtId with
          | some d => d
          | none => if input.cityId.any (· ≠ row.cityId) then none else row.districtId
        match resolveLocation env.catalog cityId districtId false with
        | .ok found => pure (some found)
        | .error e => throw (.location e)
      else pure none
    let interestIds ← match input.interestIds with
      | some ids => (assertInterestsSelectable active ids).map some
      | none => pure none
    return { input, location, interestIds }

def ProfileEdit.apply (e : ProfileEdit) (row : UserProfileRow) : UserProfileRow :=
  { row with
    displayName := e.input.displayName.getD row.displayName
    gender := e.input.gender.getD row.gender
    birthYear := e.input.birthYear <|> row.birthYear
    cityId := (e.location.map Prod.fst).getD row.cityId
    districtId := (e.location.map Prod.snd).getD row.districtId
    bio := e.input.bio.getD row.bio
    inviteOptOut := e.input.inviteOptOut.getD row.inviteOptOut }

/-- The writes of `update`. -/
def writeEdit (userId : UserId) (e : ProfileEdit) (s : ProfileDb) : ProfileDb :=
  { s with
    profiles := Function.update s.profiles userId ((s.profiles userId).map e.apply)
    interests := Function.update s.interests userId (match e.interestIds with
      | some ids => setInterests (s.interests userId) ids
      | none => s.interests userId) }

/-! ## Calls at work -/

inductive ProfileWork where
  /-- Past the first checks of `complete`. -/
  | asked (call : CompletionCall)
  /-- The user's row is locked, and its state read. -/
  | locked (call : CompletionCall) (previousState : OnboardingState)
  | read (call : CompletionCall) (read : CompletionRead)
  /-- Past the reads of `update`. -/
  | editing (userId : UserId) (edit : ProfileEdit)

/-- The database, who has locked a user's row, and the completions that advanced their user, with
    the rank each took. -/
structure ProfileShared (ι : Type) where
  store : ProfileDb
  holder : UserId → Option ι
  completed : List (UserId × Option FoundingAward)

abbrev ProfileWorld (ι : Type) := Threads ι (ProfileShared ι) (Option ProfileWork)

inductive ProfileMove (ι : Type) where
  | complete (i : ι) (env : Env) (settings : CompletionSettings) (userId : UserId)
      (input : CompleteProfileInput)
  | lock (i : ι)
  | read (i : ι) (env : Env) (active : InterestId → Bool)
  | finish (i : ι) (env : Env) (founding : FoundingSettings)
  | update (i : ι) (env : Env) (active : InterestId → Bool) (settings : CompletionSettings)
      (editor : ProfileEditor) (userId : UserId) (input : UpdateProfileInput)
  | write (i : ι)
  /-- The write of `acceptPolicies` to the user. -/
  | acceptPolicies (userId : UserId)
  /-- A movement by another service. -/
  | moveCoins (env : Env) (input : CoinMovementInput)
  | moveTrust (env : Env) (input : TrustMovementInput)
  | abort (i : ι)

namespace ProfileWorld

variable {ι : Type} [DecidableEq ι]

def store (w : ProfileWorld ι) : ProfileDb := w.shared.store

/-- The user whose row a call has locked. -/
def lockedUser : Option ProfileWork → Option UserId
  | some (.locked call _) => some call.userId
  | some (.read call _) => some call.userId
  | _ => none

/-- The rows call `i` has locked are free again. -/
def release (w : ProfileWorld ι) (i : ι) : UserId → Option ι := fun u =>
  if lockedUser (w.locals i) = some u then none else w.shared.holder u

/-- Call `i` ends, and nothing it wrote stays. -/
def rollback (w : ProfileWorld ι) (i : ι) : ProfileWorld ι :=
  w.set i { w.shared with holder := w.release i } none

def exec (w : ProfileWorld ι) : ProfileMove ι → Option (ProfileWorld ι)
  | .complete i env settings userId input =>
    match w.locals i, mayComplete env settings input with
    | none, .ok () => some (w.set i w.shared (some (.asked ⟨userId, input,
        settings.onboarding_reward_coins, settings.profile_complete_delta, env.now⟩)))
    | none, .error _ => some w
    | some _, _ => none
  | .lock i =>
    match w.locals i with
    | some (.asked call) =>
      match w.shared.holder call.userId, w.store.onboardingState call.userId with
      -- no such user: UNAUTHENTICATED; a NEW one: TERMS_NOT_ACCEPTED
      | none, none => some (w.rollback i)
      | none, some .NEW => some (w.rollback i)
      | none, some previousState => some (w.set i
          { w.shared with holder := Function.update w.shared.holder call.userId (some i) }
          (some (.locked call previousState)))
      | some _, _ => none
    | _ => none
  | .read i env active =>
    match w.locals i with
    | some (.locked call previousState) =>
      match resolveLocation env.catalog call.input.cityId call.input.districtId false,
          assertInterestsSelectable active call.input.interestIds with
      | .ok (cityId, districtId), .ok interestIds => some (w.set i w.shared (some (.read call
          ⟨previousState, cityId, districtId, interestIds,
            (w.store.profiles call.userId).bind (·.completedAt)⟩)))
      | _, _ => some (w.rollback i)
    | _ => none
  | .finish i env founding =>
    match w.locals i with
    | some (.read call read) =>
      match (finishCompletion env founding call read).run w.store with
      | .ok (result, store) => some (w.set i
          { store
            holder := w.release i
            completed := if read.previousState = .PROFILE_COMPLETE then w.shared.completed
              else (call.userId, result.founding) :: w.shared.completed } none)
      | .error _ => some (w.rollback i)
    | _ => none
  | .update i env active settings editor userId input =>
    match w.locals i, mayUpdate env settings editor input with
    | none, .ok () =>
      match planUpdate env active (w.store.profiles userId) input with
      | .ok edit => some (w.set i w.shared (some (.editing userId edit)))
      | .error _ => some w
    | none, .error _ => some w
    | some _, _ => none
  | .write i =>
    match w.locals i with
    | some (.editing userId edit) =>
      some (w.set i { w.shared with store := writeEdit userId edit w.store } none)
    | _ => none
  | .acceptPolicies userId =>
    match w.shared.holder userId, w.store.onboardingState userId with
    | none, some .NEW => some { w with shared := { w.shared with
        store := setOnboarding w.store userId .TERMS_ACCEPTED } }
    | none, _ => some w
    | some _, _ => none
  | .moveCoins env input => some { w with shared := { w.shared with
      store := commit (inDb (applyCoins env input)) w.store } }
  | .moveTrust env input => some { w with shared := { w.shared with
      store := commit (inDb (applyTrust env input)) w.store } }
  | .abort i => some (w.rollback i)

def Step (w : ProfileWorld ι) (m : ProfileMove ι) (w' : ProfileWorld ι) : Prop :=
  w.exec m = some w'

/-- No completion yet, and nobody at work. -/
def Init (w : ProfileWorld ι) : Prop :=
  w.shared.completed = [] ∧ (∀ u, w.shared.holder u = none) ∧ ∀ i, w.locals i = none

end ProfileWorld

/-! ## What a transaction adds -/

/-- No ledger row and no member is lost. -/
structure Grows (s s' : FoundingDb) : Prop where
  coins : ∀ r ∈ s.db.coinLedger.rows, r ∈ s'.db.coinLedger.rows
  trust : ∀ t ∈ s.db.trustLedger.rows, t ∈ s'.db.trustLedger.rows
  members : ∀ m ∈ s.members.rows, m ∈ s'.members.rows

theorem Grows.refl (s : FoundingDb) : Grows s s :=
  ⟨fun _ h => h, fun _ h => h, fun _ h => h⟩

theorem Grows.trans {s s₁ s' : FoundingDb} (h : Grows s s₁) (h' : Grows s₁ s') : Grows s s' :=
  ⟨fun r hr => h'.coins r (h.coins r hr), fun t ht => h'.trust t (h.trust t ht),
    fun m hm => h'.members m (h.members m hm)⟩

/-- The row of a key. -/
def HasCoins (s : FoundingDb) (key : CoinKey) : Prop :=
  ∃ r ∈ s.db.coinLedger.rows, r.idempotencyKey = key

def HasTrust (s : FoundingDb) (key : TrustKey) : Prop :=
  ∃ t ∈ s.db.trustLedger.rows, t.idempotencyKey = key

section Transactions

variable {env : Env} {settings : FoundingSettings} {u : UserId} {f f' : FoundingDb}
  {s s' : ProfileDb} {call : CompletionCall} {read : CompletionRead}

theorem applyCoins_grows {input : CoinMovementInput} {r : CoinPenalty}
    (h : Runs (within FoundingDb.db (fun db s => { s with db := db }) (applyCoins env input))
      f r f') :
    Grows f f' ∧ HasCoins f' input.idempotencyKey ∧ f'.members = f.members := by
  obtain ⟨db, hrun, rfl⟩ := runs_within.1 h
  obtain ⟨hmove, -⟩ := applyCoins_spec hrun
  have htrust : db.trustLedger = f.db.trustLedger := by rw [hmove.coinsOnly]
  rcases hmove.outcome with ⟨hsame, -, ⟨row, hrow, -⟩ | ⟨-, -, hpenalty⟩⟩ | ⟨-, -, id, -, hrows⟩
  · obtain ⟨hmem, hkey⟩ := Db.mem_of_ledgerByKey hrow
    refine ⟨⟨fun r hr => ?_, fun t ht => ?_, fun m hm => hm⟩, ⟨row, ?_, hkey⟩, rfl⟩
    · show r ∈ db.coinLedger.rows
      rw [hsame]
      exact hr
    · show t ∈ db.trustLedger.rows
      rw [htrust]
      exact ht
    · show row ∈ db.coinLedger.rows
      rw [hsame]
      exact hmem
  · cases hpenalty
  · refine ⟨⟨fun r hr => ?_, fun t ht => ?_, fun m hm => hm⟩,
      ⟨ledgerRow env.now id input none (f.db.balanceOf input.userId) (cappedAmount input.amount none
        (f.db.balanceOf input.userId)), ?_, rfl⟩, rfl⟩
    · show r ∈ db.coinLedger.rows
      rw [hrows]
      exact List.mem_append_left _ hr
    · show t ∈ db.trustLedger.rows
      rw [htrust]
      exact ht
    · show _ ∈ db.coinLedger.rows
      rw [hrows]
      exact List.mem_append_right _ (List.mem_singleton.2 rfl)

theorem applyTrust_grows {input : TrustMovementInput} {r : TrustMovement}
    (h : Runs (within FoundingDb.db (fun db s => { s with db := db }) (applyTrust env input))
      f r f') :
    Grows f f' ∧ HasTrust f' input.idempotencyKey := by
  obtain ⟨db, hrun, rfl⟩ := runs_within.1 h
  obtain ⟨hposts, hthere⟩ := applyTrust_asks (K := fun _ => True) (R := fun _ => True) hrun
  exact ⟨⟨fun r hr => hposts.coins.mem hr, fun t ht => hposts.trust_mem ht, fun m hm => hm⟩, hthere⟩

/-- The user has no rank to take: the campaign is off, or he has one, or there is none left. -/
def NoRank (settings : FoundingSettings) (u : UserId) (f : FoundingDb) : Prop :=
  mayAward settings u f = false ∨ ∀ c ∈ f.campaign, c.maxRank < c.nextRank

theorem grantRank_grows {rank : Nat} {a : FoundingAward}
    (h : Runs (grantRank env settings u rank) f a f') :
    Grows f f' ∧ ∃ m ∈ f'.members.rows, m.userId = u ∧ m.rank = a.rank := by
  obtain ⟨harank, -, m, hmu, hmrank, hrows⟩ := grantRank_spec h
  refine ⟨⟨?_, ?_, ?_⟩, m, by simp [hrows], hmu, hmrank.trans harank.symm⟩
  all_goals
    obtain ⟨ledgerId, f₁, hpay, hrecord⟩ := runs_bind.1 h
    simp only [runs_insertRow_bind, runs_pure, table_members, setTable_members] at hrecord
    obtain ⟨t, ht, -, rfl⟩ := hrecord
    unfold payRank at hpay
    split at hpay
    · obtain ⟨movement, f₂, hcoins, hpure⟩ := runs_bind.1 hpay
      obtain ⟨-, rfl⟩ := runs_pure.1 hpure
      have hgrows := (applyCoins_grows hcoins).1
      first
        | exact hgrows.coins
        | exact hgrows.trust
        | exact fun m hm => hrows ▸ List.mem_append_left _ hm
    · obtain ⟨-, rfl⟩ := runs_pure.1 hpay
      first
        | exact fun _ h => h
        | exact fun m hm => hrows ▸ List.mem_append_left _ hm

theorem award_spec {o : Option FoundingAward} (h : Runs (award env settings u) f o f') :
    Grows f f' ∧ (∀ a, o = some a → ∃ m ∈ f'.members.rows, m.userId = u ∧ m.rank = a.rank) ∧
      (o = none → NoRank settings u f) := by
  simp only [award, runs_get_bind, runs_ite] at h
  rcases h with ⟨-, h⟩ | ⟨hoff, h⟩
  · unfold awardRank at h
    obtain ⟨allocated, f₁, halloc, hrest⟩ := runs_bind.1 h
    simp only [allocateRank, runs_get_bind] at halloc
    cases hc : f.campaign with
    | none =>
        simp only [hc, runs_pure] at halloc
        obtain ⟨rfl, rfl⟩ := halloc
        obtain ⟨rfl, rfl⟩ := runs_pure.1 hrest
        exact ⟨.refl _, by simp, fun _ => .inr (by simp [hc])⟩
    | some c =>
        by_cases hroom : c.nextRank ≤ c.maxRank
        · simp only [hc, hroom, if_true, runs_modify_bind, runs_pure] at halloc
          obtain ⟨rfl, rfl⟩ := halloc
          obtain ⟨a, f₂, hgrant, hpure⟩ := runs_bind.1 hrest
          obtain ⟨rfl, rfl⟩ := runs_pure.1 hpure
          obtain ⟨hgrows, hmember⟩ := grantRank_grows hgrant
          refine ⟨⟨hgrows.coins, hgrows.trust, hgrows.members⟩, fun a' ha => ?_, by simp⟩
          obtain rfl := Option.some.inj ha
          exact hmember
        · simp only [hc, hroom, if_false, runs_pure] at halloc
          obtain ⟨rfl, rfl⟩ := halloc
          obtain ⟨rfl, rfl⟩ := runs_pure.1 hrest
          refine ⟨.refl _, by simp, fun _ => .inr fun d hd => ?_⟩
          obtain rfl := Option.some.inj (hc.symm.trans hd)
          omega
  · obtain ⟨rfl, rfl⟩ := runs_pure.1 h
    exact ⟨.refl _, by simp, fun _ => .inl (by simpa using hoff)⟩

/-- What a completion that commits has done. -/
structure Completes (settings : FoundingSettings) (call : CompletionCall) (read : CompletionRead)
    (s : ProfileDb) (o : Option FoundingAward) (s' : ProfileDb) : Prop where
  grows : Grows s.founding s'.founding
  profiles : s'.profiles = (writeProfile call read s).profiles
  state : s'.onboardingState = if read.previousState = .PROFILE_COMPLETE then s.onboardingState
    else Function.update s.onboardingState call.userId (some .PROFILE_COMPLETE)
  coins : HasCoins s'.founding (onboardingRewardKey call.userId)
  trust : HasTrust s'.founding (profileTrustKey call.userId)
  member : ∀ a, o = some a →
    ∃ m ∈ s'.founding.members.rows, m.userId = call.userId ∧ m.rank = a.rank
  noRank : o = none → read.previousState = .PROFILE_COMPLETE ∨
    NoRank settings call.userId s.founding

theorem advance_spec {o : Option FoundingAward} {previousState : OnboardingState}
    (h : Runs (advance env settings call previousState) s o s') :
    Grows s.founding s'.founding ∧ s'.profiles = s.profiles ∧
      (s'.onboardingState = if previousState = .PROFILE_COMPLETE then s.onboardingState
        else Function.update s.onboardingState call.userId (some .PROFILE_COMPLETE)) ∧
      (∀ a, o = some a → ∃ m ∈ s'.founding.members.rows, m.userId = call.userId ∧
        m.rank = a.rank) ∧
      (o = none → previousState = .PROFILE_COMPLETE ∨ NoRank settings call.userId s.founding) := by
  simp only [advance, runs_ite] at h
  rcases h with ⟨hfirst, h⟩ | ⟨hagain, h⟩
  · rw [runs_modify_bind] at h
    obtain ⟨f, haward, rfl⟩ := runs_within.1 h
    obtain ⟨hgrows, hmember, hnone⟩ := award_spec haward
    exact ⟨hgrows, rfl, by rw [if_neg hfirst]; rfl, hmember, fun hn => .inr (hnone hn)⟩
  · obtain ⟨rfl, rfl⟩ := runs_pure.1 h
    have hcomplete : previousState = .PROFILE_COMPLETE := not_not.1 hagain
    exact ⟨.refl _, rfl, by rw [if_pos hcomplete], nofun, fun _ => .inl hcomplete⟩

theorem finishCompletion_spec {result : CompletionResult}
    (h : Runs (finishCompletion env settings call read) s result s') :
    Completes settings call read s result.founding s' := by
  simp only [finishCompletion, runs_modify_bind] at h
  obtain ⟨rank, s₁, hadvance, hafter⟩ := runs_bind.1 h
  obtain ⟨hgrows, hprofiles, hstate, hmember, hnone⟩ := advance_spec hadvance
  obtain ⟨movement, s₂, hpay, hrest⟩ := runs_bind.1 hafter
  obtain ⟨f₂, hcoins, rfl⟩ := runs_within.1 hpay
  obtain ⟨hgrows₂, hpaid, -⟩ := applyCoins_grows hcoins
  obtain ⟨trust, s₃, hraise, hlast⟩ := runs_bind.1 hrest
  obtain ⟨f₃, htrust, rfl⟩ := runs_within.1 hraise
  obtain ⟨hgrows₃, htrusted⟩ := applyTrust_grows htrust
  obtain ⟨rfl, rfl⟩ := runs_pure.1 hlast
  refine ⟨(hgrows.trans hgrows₂).trans hgrows₃, hprofiles, hstate, ?_, htrusted, fun a ha => ?_,
    hnone⟩
  · obtain ⟨r, hr, hkey⟩ := hpaid
    exact ⟨r, hgrows₃.coins r hr, hkey⟩
  · obtain ⟨m, hm, hmu⟩ := hmember a ha
    exact ⟨m, (hgrows₂.trans hgrows₃).members m hm, hmu⟩

end Transactions

/-! ## Every run -/

def ProfileDb.completedAt (s : ProfileDb) (u : UserId) : Option Instant :=
  (s.profiles u).bind (·.completedAt)

/-- States move in order, and a completion keeps its time. -/
structure Forward (s s' : ProfileDb) : Prop where
  state : ∀ u, s'.onboardingState u = s.onboardingState u ∨
    (s.onboardingState u = some .NEW ∧ s'.onboardingState u = some .TERMS_ACCEPTED) ∨
    (s.onboardingState u = some .TERMS_ACCEPTED ∧ s'.onboardingState u = some .PROFILE_COMPLETE)
  completedAt : ∀ u t, s.completedAt u = some t → s'.completedAt u = some t

/-- The user is `PROFILE_COMPLETE`, and was paid for it; his rank is the one his completion took. -/
structure Paid (s : ProfileDb) (u : UserId) (rank : Option FoundingAward) : Prop where
  state : s.onboardingState u = some .PROFILE_COMPLETE
  coins : HasCoins s.founding (onboardingRewardKey u)
  trust : HasTrust s.founding (profileTrustKey u)
  rank : ∀ a, rank = some a → ∃ m ∈ s.founding.members.rows, m.userId = u ∧ m.rank = a.rank

/-- Each is granted once at most. -/
structure GrantedOnce (s : ProfileDb) (u : UserId) : Prop where
  coins : ∀ r ∈ s.founding.db.coinLedger.rows, ∀ q ∈ s.founding.db.coinLedger.rows,
    r.idempotencyKey = onboardingRewardKey u → q.idempotencyKey = onboardingRewardKey u → r = q
  trust : ∀ r ∈ s.founding.db.trustLedger.rows, ∀ q ∈ s.founding.db.trustLedger.rows,
    r.idempotencyKey = profileTrustKey u → q.idempotencyKey = profileTrustKey u → r = q
  rank : ∀ m ∈ s.founding.members.rows, ∀ n ∈ s.founding.members.rows,
    m.userId = u → n.userId = u → m = n

theorem grantedOnce (s : ProfileDb) (u : UserId) : GrantedOnce s u where
  coins r hr q hq hrk hqk := by
    apply Table.eq_of_collide hr hq
    simp [Row.collide, hrk, hqk]
  trust r hr q hq hrk hqk := by
    apply Table.eq_of_collide hr hq
    simp [Row.collide, hrk, hqk]
  rank m hm n hn hmu hnu := Table.eq_of_key hm hn (hmu.trans hnu.symm)

section Runs

variable {ι : Type} [DecidableEq ι] {w w' w₀ : ProfileWorld ι} {m : ProfileMove ι} {i j : ι}
  {shared shared' : ProfileShared ι} {s s' s₀ : ProfileDb} {u : UserId} {work : ProfileWork}

/-- What a call that has locked a row has read under the lock. -/
def ProfileWork.Good (shared : ProfileShared ι) (i : ι) : ProfileWork → Prop
  | .locked call previousState => shared.holder call.userId = some i ∧
      shared.store.onboardingState call.userId = some previousState ∧ previousState ≠ .NEW
  | .read call found => shared.holder call.userId = some i ∧
      shared.store.onboardingState call.userId = some found.previousState ∧
      found.previousState ≠ .NEW ∧ shared.store.completedAt call.userId = found.completedAt
  | _ => True

/-- Nothing a call relies on has moved. -/
def Undisturbed (shared shared' : ProfileShared ι) (u : UserId) : Prop :=
  shared'.holder u = shared.holder u ∧
    shared'.store.onboardingState u = shared.store.onboardingState u ∧
    shared'.store.completedAt u = shared.store.completedAt u

/-- The completions on record, and who is complete through one. -/
structure Recorded (s₀ : ProfileDb) (shared : ProfileShared ι) : Prop where
  paid : ∀ x ∈ shared.completed, Paid shared.store x.1 x.2
  once : (shared.completed.map Prod.fst).Nodup
  through : ∀ u, shared.store.onboardingState u = some .PROFILE_COMPLETE →
    s₀.onboardingState u = some .PROFILE_COMPLETE ∨ u ∈ shared.completed.map Prod.fst

structure ProfileSound (s₀ : ProfileDb) (w : ProfileWorld ι) : Prop where
  recorded : Recorded s₀ w.shared
  own : ∀ i work, w.locals i = some work → work.Good w.shared i

theorem Paid.grows {rank : Option FoundingAward} (h : Paid s u rank)
    (hg : Grows s.founding s'.founding)
    (hstate : s'.onboardingState u = some .PROFILE_COMPLETE) : Paid s' u rank where
  state := hstate
  coins := by
    obtain ⟨r, hr, hk⟩ := h.coins
    exact ⟨r, hg.coins r hr, hk⟩
  trust := by
    obtain ⟨t, ht, hk⟩ := h.trust
    exact ⟨t, hg.trust t ht, hk⟩
  rank a ha := by
    obtain ⟨m, hm, hmu⟩ := h.rank a ha
    exact ⟨m, hg.members m hm, hmu⟩

omit [DecidableEq ι] in
theorem ProfileWork.Good.holder (h : work.Good shared i)
    (hu : ProfileWorld.lockedUser (some work) = some u) : shared.holder u = some i := by
  cases work with
  | locked call p =>
      obtain rfl := Option.some.inj hu
      exact h.1
  | read call r =>
      obtain rfl := Option.some.inj hu
      exact h.1
  | asked | editing => cases hu

omit [DecidableEq ι] in
theorem ProfileWork.Good.undisturbed (h : work.Good shared i)
    (hsame : ∀ u, ProfileWorld.lockedUser (some work) = some u → Undisturbed shared shared' u) :
    work.Good shared' i := by
  cases work with
  | locked call p =>
      obtain ⟨hholder, hstate, -⟩ := hsame call.userId rfl
      exact ⟨hholder.trans h.1, hstate.trans h.2.1, h.2.2⟩
  | read call r =>
      obtain ⟨hholder, hstate, hat⟩ := hsame call.userId rfl
      exact ⟨hholder.trans h.1, hstate.trans h.2.1, h.2.2.1, hat.trans h.2.2.2⟩
  | asked | editing => trivial

omit [DecidableEq ι] in
/-- A call that has ended relies on nothing. -/
theorem idle_good : ∀ work, (none : Option ProfileWork) = some work → work.Good shared i :=
  fun _ h => absurd h (Option.some_ne_none _).symm

/-- One call moves; what the others have locked stays. -/
theorem ProfileSound.set (h : ProfileSound s₀ w) {l : Option ProfileWork}
    (hrecorded : Recorded s₀ shared) (hl : ∀ work, l = some work → work.Good shared i)
    (hothers : ∀ j, j ≠ i → ∀ u, w.shared.holder u = some j → Undisturbed w.shared shared u) :
    ProfileSound s₀ (w.set i shared l) where
  recorded := hrecorded
  own j work hj := by
    by_cases hji : j = i
    · subst hji
      rw [Threads.set_locals_self] at hj
      exact hl work hj
    · rw [Threads.set_locals_ne hji] at hj
      have hgood := h.own j work hj
      exact hgood.undisturbed fun u hu => hothers j hji u (hgood.holder hu)

/-- A call goes on without a write. -/
theorem ProfileSound.goes (h : ProfileSound s₀ w) (hgood : work.Good w.shared i) :
    ProfileSound s₀ (w.set i w.shared (some work)) := by
  refine h.set h.recorded (fun work' hw => ?_) fun _ _ _ _ => ⟨rfl, rfl, rfl⟩
  obtain rfl := Option.some.inj hw
  exact hgood

omit [DecidableEq ι] in
/-- Releasing its own lock disturbs nobody. -/
theorem ProfileSound.release_ne (h : ProfileSound s₀ w) (hj : j ≠ i)
    (hu : w.shared.holder u = some j) : w.release i u = w.shared.holder u := by
  unfold ProfileWorld.release
  split
  · next hlocked =>
      cases hl : w.locals i with
      | none =>
          rw [hl] at hlocked
          cases hlocked
      | some work =>
          rw [hl] at hlocked
          have hmine := (h.own i work hl).holder hlocked
          exact absurd (Option.some.inj (hu.symm.trans hmine)) hj
  · rfl

theorem ProfileSound.rollback (h : ProfileSound s₀ w) : ProfileSound s₀ (w.rollback i) := by
  unfold ProfileWorld.rollback
  refine h.set ?_ idle_good fun j hj u hu => ?_
  · exact ⟨h.recorded.paid, h.recorded.once, h.recorded.through⟩
  · exact ⟨h.release_ne hj hu, rfl, rfl⟩

omit [DecidableEq ι] in
/-- A write by another service, or of a profile. -/
theorem Recorded.moves (h : Recorded s₀ shared) (hg : Grows shared.store.founding s.founding)
    (hstate : ∀ u, s.onboardingState u = shared.store.onboardingState u) :
    Recorded s₀ { shared with store := s } := by
  refine ⟨fun x hx => ?_, h.once, fun u hu => h.through u ?_⟩
  · exact (h.paid x hx).grows hg ((hstate x.1).trans (h.paid x hx).state)
  · exact (hstate u).symm.trans hu

theorem writeEdit_completedAt {e : ProfileEdit} (v : UserId) :
    (writeEdit u e s).completedAt v = s.completedAt v := by
  show (Function.update s.profiles u ((s.profiles u).map e.apply) v).bind _ = (s.profiles v).bind _
  by_cases hv : v = u
  · subst hv
    rw [Function.update_self]
    cases s.profiles v <;> rfl
  · rw [Function.update_of_ne hv]

theorem Forward.refl (s : ProfileDb) : Forward s s := ⟨fun _ => .inl rfl, fun _ _ h => h⟩

/-- A movement by another service leaves the profiles and the states. -/
theorem commit_inDb {α : Type} {m : Act α} (hm : ∀ f f' r,
    Runs (within FoundingDb.db (fun db s => { s with db := db }) m) f r f' → Grows f f') :
    Grows s.founding (commit (inDb m) s).founding ∧
      (commit (inDb m) s).onboardingState = s.onboardingState ∧
      (commit (inDb m) s).profiles = s.profiles := by
  unfold commit
  split
  · next hrun =>
      obtain ⟨f, hf, rfl⟩ := runs_within.1 hrun
      exact ⟨hm _ _ _ hf, rfl, rfl⟩
  · exact ⟨.refl _, rfl, rfl⟩

theorem writeProfile_completedAt {call : CompletionCall} {read : CompletionRead}
    (hs : s'.profiles = (writeProfile call read s).profiles)
    (hread : s.completedAt call.userId = read.completedAt) (v : UserId) :
    s'.completedAt v = if v = call.userId then some ((s.completedAt v).getD call.now)
      else s.completedAt v := by
  unfold ProfileDb.completedAt at *
  rw [hs]
  by_cases hv : v = call.userId
  · rw [hv, if_pos rfl, hread]
    simp [writeProfile, profileData]
  · rw [if_neg hv]
    simp [writeProfile, Function.update_of_ne hv]

section Finish

variable {settings : FoundingSettings} {call : CompletionCall} {read : CompletionRead}
  {rank : Option FoundingAward}

theorem Completes.state_self (h : Completes settings call read s rank s')
    (hread : s.onboardingState call.userId = some read.previousState) :
    s'.onboardingState call.userId = some .PROFILE_COMPLETE := by
  rw [h.state]
  split
  · next hagain => rw [hread, hagain]
  · rw [Function.update_self]

theorem Completes.state_ne (h : Completes settings call read s rank s') {v : UserId}
    (hv : v ≠ call.userId) : s'.onboardingState v = s.onboardingState v := by
  rw [h.state]
  split
  · rfl
  · rw [Function.update_of_ne hv]

theorem Completes.forward (h : Completes settings call read s rank s')
    (hread : s.onboardingState call.userId = some read.previousState)
    (hnew : read.previousState ≠ .NEW) (hat : s.completedAt call.userId = read.completedAt) :
    Forward s s' where
  state v := by
    by_cases hv : v = call.userId
    · subst hv
      cases hprevious : read.previousState with
      | NEW => exact absurd hprevious hnew
      | TERMS_ACCEPTED => exact .inr (.inr ⟨hprevious ▸ hread, h.state_self hread⟩)
      | PROFILE_COMPLETE => exact .inl ((h.state_self hread).trans (hprevious ▸ hread).symm)
    · exact .inl (h.state_ne hv)
  completedAt v t ht := by
    rw [writeProfile_completedAt h.profiles hat, ht]
    split <;> rfl

omit [DecidableEq ι] in
theorem Completes.recorded (h : Completes settings call read shared.store rank s')
    (hrecorded : Recorded s₀ shared)
    (hread : shared.store.onboardingState call.userId = some read.previousState)
    (holder : UserId → Option ι) : Recorded s₀
      { store := s', holder, completed := if read.previousState = .PROFILE_COMPLETE
          then shared.completed else (call.userId, rank) :: shared.completed } := by
  have hkept : ∀ x ∈ shared.completed, Paid s' x.1 x.2 := by
    intro x hx
    have hpaid := hrecorded.paid x hx
    refine hpaid.grows h.grows ?_
    by_cases hxu : x.1 = call.userId
    · rw [hxu]
      exact h.state_self hread
    · rw [h.state_ne hxu]
      exact hpaid.state
  by_cases hagain : read.previousState = .PROFILE_COMPLETE
  · rw [if_pos hagain]
    refine ⟨hkept, hrecorded.once, fun u hu => hrecorded.through u ?_⟩
    have hu' : s'.onboardingState u = some .PROFILE_COMPLETE := hu
    rw [h.state, if_pos hagain] at hu'
    exact hu'
  · rw [if_neg hagain]
    refine ⟨fun x hx => ?_, ?_, fun u hu => ?_⟩
    · rcases List.mem_cons.1 hx with rfl | hx
      · exact ⟨h.state_self hread, h.coins, h.trust, h.member⟩
      · exact hkept x hx
    · refine List.nodup_cons.2 ⟨fun hmem => ?_, hrecorded.once⟩
      obtain ⟨x, hx, hxu⟩ := List.mem_map.1 hmem
      have hstate := (hrecorded.paid x hx).state
      rw [hxu, hread] at hstate
      exact hagain (Option.some.inj hstate)
    · by_cases huc : u = call.userId
      · exact .inr (List.mem_cons.2 (.inl huc))
      · have hu' : s'.onboardingState u = some .PROFILE_COMPLETE := hu
        rw [h.state_ne huc] at hu'
        exact (hrecorded.through u hu').imp_right (List.mem_cons_of_mem _)

end Finish

/-- What a step does to the users' progress. -/
structure StepKept (w : ProfileWorld ι) (m : ProfileMove ι) (w' : ProfileWorld ι) : Prop where
  forward : Forward w.store w'.store
  /-- What is rolled back, or has not come to its writes, leaves everything as it was. -/
  aborted : (∃ i, m = .abort i) ∨ (∃ i, m = .lock i) ∨ (∃ i env active, m = .read i env active) →
    w'.store = w.store
  /-- A completion commits all of it or nothing, and takes a rank where there is one. -/
  whole : ∀ i env settings, m = .finish i env settings → w'.store = w.store ∨
    ∃ call found rank, w.locals i = some (.read call found) ∧ Paid w'.store call.userId rank ∧
      (found.previousState ≠ .PROFILE_COMPLETE →
        w'.shared.completed = (call.userId, rank) :: w.shared.completed ∧
          (rank = none → NoRank settings call.userId w.store.founding))

omit [DecidableEq ι] in
/-- A step that leaves the store alone, and is no completion. -/
theorem StepKept.still (h : w'.store = w.store) : StepKept w m w' :=
  ⟨h ▸ .refl _, fun _ => h, fun _ _ _ _ => .inl h⟩

theorem ProfileSound.finish (h : ProfileSound s₀ w) {env : Env} {settings : FoundingSettings}
    (hs : w.Step (.finish i env settings) w') :
    ProfileSound s₀ w' ∧ StepKept w (.finish i env settings) w' := by
  simp only [ProfileWorld.Step, ProfileWorld.exec] at hs
  split at hs
  · next call found hl =>
      obtain ⟨hholder, hread, hnew, hat⟩ := h.own i _ hl
      split at hs
      · next result store hrun =>
          obtain rfl := Option.some.inj hs
          have hdone := finishCompletion_spec hrun
          have hrecorded := hdone.recorded h.recorded hread (w.release i)
          refine ⟨h.set hrecorded idle_good fun j hj u hu => ⟨h.release_ne hj hu, ?_, ?_⟩,
            hdone.forward hread hnew hat, ?_, ?_⟩
          · apply hdone.state_ne
            rintro rfl
            exact hj (Option.some.inj (hu.symm.trans hholder))
          · refine (writeProfile_completedAt hdone.profiles hat u).trans (if_neg ?_)
            rintro rfl
            exact hj (Option.some.inj (hu.symm.trans hholder))
          · rintro (⟨i', hi⟩ | ⟨i', hi⟩ | ⟨i', env', active, hi⟩) <;> cases hi
          · intro i' env' settings' hi
            cases hi
            refine .inr ⟨call, found, result.founding, hl,
              ⟨hdone.state_self hread, hdone.coins, hdone.trust, hdone.member⟩, fun hfirst => ?_⟩
            exact ⟨if_neg hfirst, fun hnone => (hdone.noRank hnone).resolve_left hfirst⟩
      · obtain rfl := Option.some.inj hs
        exact ⟨h.rollback, .still rfl⟩
  · cases hs

omit [DecidableEq ι] in
/-- A step that is none of a completion's. -/
theorem StepKept.aside (h : Forward w.store w'.store)
    (hm : (∃ u, m = .acceptPolicies u) ∨ (∃ env input, m = .moveCoins env input) ∨
      (∃ env input, m = .moveTrust env input) ∨ ∃ i, m = .write i) : StepKept w m w' := by
  refine ⟨h, fun hi => ?_, fun i env settings hi => ?_⟩
  · rcases hm with ⟨u, rfl⟩ | ⟨env, input, rfl⟩ | ⟨env, input, rfl⟩ | ⟨i, rfl⟩ <;>
      rcases hi with ⟨i', hi⟩ | ⟨i', hi⟩ | ⟨i', env', active, hi⟩ <;> cases hi
  · rcases hm with ⟨u, rfl⟩ | ⟨env, input, rfl⟩ | ⟨env, input, rfl⟩ | ⟨i, rfl⟩ <;> cases hi

omit [DecidableEq ι] in
/-- The advance of a user whose row nobody has locked. -/
theorem ProfileSound.accepts (h : ProfileSound s₀ w) (hholder : w.shared.holder u = none)
    (hstate : w.store.onboardingState u = some .NEW) :
    ProfileSound s₀ { w with shared := { w.shared with
        store := setOnboarding w.store u .TERMS_ACCEPTED } } ∧
      StepKept w (.acceptPolicies u) { w with shared := { w.shared with
        store := setOnboarding w.store u .TERMS_ACCEPTED } } := by
  have hne : ∀ {v : UserId}, v ≠ u →
      (setOnboarding w.store u .TERMS_ACCEPTED).onboardingState v = w.store.onboardingState v :=
    fun hv => Function.update_of_ne hv _ _
  have hself : (setOnboarding w.store u .TERMS_ACCEPTED).onboardingState u =
      some .TERMS_ACCEPTED := Function.update_self ..
  refine ⟨⟨⟨fun x hx => ?_, h.recorded.once, fun v hv => ?_⟩, fun j work hj => ?_⟩,
    .aside ⟨fun v => ?_, fun _ _ ht => ht⟩ (.inl ⟨u, rfl⟩)⟩
  · have hpaid := h.recorded.paid x hx
    refine hpaid.grows (.refl _) ((hne ?_).trans hpaid.state)
    intro hxu
    have hcomplete := hpaid.state
    rw [hxu] at hcomplete
    cases hcomplete.symm.trans hstate
  · by_cases hvu : v = u
    · rw [hvu] at hv
      cases hself.symm.trans hv
    · exact h.recorded.through v ((hne hvu).symm.trans hv)
  · have hgood := h.own j work hj
    refine hgood.undisturbed fun v hv => ⟨rfl, hne ?_, rfl⟩
    rintro rfl
    cases hholder.symm.trans (hgood.holder hv)
  · by_cases hvu : v = u
    · rw [hvu]
      exact .inr (.inl ⟨hstate, hself⟩)
    · exact .inl (hne hvu)

omit [DecidableEq ι] in
/-- A movement by another service. -/
theorem ProfileSound.moved (h : ProfileSound s₀ w)
    (hmove : Grows w.store.founding s.founding ∧ s.onboardingState = w.store.onboardingState ∧
      s.profiles = w.store.profiles)
    (hm : (∃ env input, m = .moveCoins env input) ∨ ∃ env input, m = .moveTrust env input) :
    ProfileSound s₀ { w with shared := { w.shared with store := s } } ∧
      StepKept w m { w with shared := { w.shared with store := s } } := by
  obtain ⟨hgrows, hstate, hprofiles⟩ := hmove
  have hat : ∀ v, s.completedAt v = w.store.completedAt v := fun v => by
    unfold ProfileDb.completedAt
    rw [hprofiles]
  refine ⟨⟨h.recorded.moves hgrows (congrFun hstate), fun j work hj => ?_⟩,
    .aside ⟨fun v => .inl (congrFun hstate v), fun v t ht => (hat v).trans ht⟩
      (.inr (hm.imp_right .inl))⟩
  exact (h.own j work hj).undisturbed fun v _ => ⟨rfl, congrFun hstate v, hat v⟩

theorem ProfileSound.step (h : ProfileSound s₀ w) (hs : w.Step m w') :
    ProfileSound s₀ w' ∧ StepKept w m w' := by
  cases m with
  | finish i env settings => exact h.finish hs
  | complete i env settings u input =>
      simp only [ProfileWorld.Step, ProfileWorld.exec] at hs
      split at hs
      · obtain rfl := Option.some.inj hs
        exact ⟨h.goes trivial, .still rfl⟩
      · obtain rfl := Option.some.inj hs
        exact ⟨h, .still rfl⟩
      · cases hs
  | lock i =>
      simp only [ProfileWorld.Step, ProfileWorld.exec] at hs
      split at hs
      · next call hl =>
          split at hs
          · obtain rfl := Option.some.inj hs
            exact ⟨h.rollback, .still rfl⟩
          · obtain rfl := Option.some.inj hs
            exact ⟨h.rollback, .still rfl⟩
          · next previousState hnew hholder hstate =>
              obtain rfl := Option.some.inj hs
              refine ⟨h.set ⟨h.recorded.paid, h.recorded.once, h.recorded.through⟩
                (fun work hw => ?_) fun j _ u hu => ⟨?_, rfl, rfl⟩, .still rfl⟩
              · obtain rfl := Option.some.inj hw
                exact ⟨Function.update_self .., hstate, hnew⟩
              · apply Function.update_of_ne
                rintro rfl
                rw [hholder] at hu
                cases hu
          · cases hs
      · cases hs
  | read i env active =>
      simp only [ProfileWorld.Step, ProfileWorld.exec] at hs
      split at hs
      · next call previousState hl =>
          obtain ⟨hholder, hstate, hnew⟩ := h.own i _ hl
          split at hs
          · obtain rfl := Option.some.inj hs
            exact ⟨h.goes ⟨hholder, hstate, hnew, rfl⟩, .still rfl⟩
          · obtain rfl := Option.some.inj hs
            exact ⟨h.rollback, .still rfl⟩
      · cases hs
  | update i env active settings editor u input =>
      simp only [ProfileWorld.Step, ProfileWorld.exec] at hs
      split at hs
      · split at hs
        · obtain rfl := Option.some.inj hs
          exact ⟨h.goes trivial, .still rfl⟩
        · obtain rfl := Option.some.inj hs
          exact ⟨h, .still rfl⟩
      · obtain rfl := Option.some.inj hs
        exact ⟨h, .still rfl⟩
      · cases hs
  | write i =>
      simp only [ProfileWorld.Step, ProfileWorld.exec] at hs
      split at hs
      · next u edit hl =>
          obtain rfl := Option.some.inj hs
          refine ⟨h.set (h.recorded.moves (.refl _) fun _ => rfl) idle_good
            fun j _ v _ => ⟨rfl, rfl, writeEdit_completedAt v⟩, .aside ⟨fun _ => .inl rfl, ?_⟩ ?_⟩
          · intro v t ht
            exact (writeEdit_completedAt v).trans ht
          · exact .inr (.inr (.inr ⟨i, rfl⟩))
      · cases hs
  | acceptPolicies u =>
      simp only [ProfileWorld.Step, ProfileWorld.exec] at hs
      split at hs
      · next hholder hstate =>
          obtain rfl := Option.some.inj hs
          exact h.accepts hholder hstate
      · obtain rfl := Option.some.inj hs
        exact ⟨h, .still rfl⟩
      · cases hs
  | moveCoins env input =>
      obtain rfl := Option.some.inj hs
      exact h.moved (commit_inDb fun _ _ _ hf => (applyCoins_grows hf).1) (.inl ⟨env, input, rfl⟩)
  | moveTrust env input =>
      obtain rfl := Option.some.inj hs
      exact h.moved (commit_inDb fun _ _ _ hf => (applyTrust_grows hf).1) (.inr ⟨env, input, rfl⟩)
  | abort i =>
      obtain rfl := Option.some.inj hs
      exact ⟨h.rollback, .still rfl⟩

omit [DecidableEq ι] in
theorem profileSound_init (h : w.Init) : ProfileSound w.store w := by
  obtain ⟨hcompleted, hfree, hidle⟩ := h
  refine ⟨⟨fun x hx => ?_, ?_, fun u hu => .inl hu⟩, fun i work hl => ?_⟩
  · rw [hcompleted] at hx
    cases hx
  · rw [hcompleted]
    exact List.nodup_nil
  · rw [hidle i] at hl
    cases hl

/-- Whatever runs at once: states move in order and completions keep their time; who is complete
    through `complete` was paid, once, and has the rank that his completion took, if it took one;
    and a completion takes one where the campaign has one for him. -/
theorem completing_pays_once {tr : List (ProfileWorld ι × ProfileMove ι × ProfileWorld ι)}
    (h₀ : w₀.Init) (h : Run (· = w₀) ProfileWorld.Step (fun _ _ => True) tr w) :
    (∀ x ∈ tr, StepKept x.1 x.2.1 x.2.2) ∧ (∀ u, GrantedOnce w.store u) ∧
      Recorded w₀.store w.shared := by
  have hsound : ∀ {v : ProfileWorld ι}, Reach (· = w₀) ProfileWorld.Step (fun _ _ => True) v →
      ProfileSound w₀.store v := fun hv => by
    refine hv.invariant (fun v hv => ?_) fun _ _ _ hI _ hs => (hI.step hs).1
    rw [hv]
    exact profileSound_init h₀
  exact ⟨h.steps fun v m v' hv _ hs => ((hsound hv).step hs).2, fun u => grantedOnce w.store u,
    (hsound h.reach).recorded⟩

end Runs

/-! ## One user -/

def newUser : ProfileWorld Bool where
  shared :=
    { store := ⟨⟨Db.initial, some ⟨1, 1000⟩, Table.empty⟩, fun _ => none, fun _ => [],
        fun u => if u = 10 then some .NEW else none⟩
      holder := fun _ => none
      completed := [] }
  locals _ := none

theorem newUser_init : newUser.Init := ⟨rfl, fun _ => rfl, fun _ => rfl⟩

def demoInput : CompleteProfileInput := ⟨"Sara", .FEMALE, 2000, 1, none, none, [1, 2]⟩

/-- The terms are accepted, and two completions at once: the second waits for the row, finds the
    user complete, and pays nothing. -/
def completions (founding : FoundingSettings) : List (ProfileMove Bool) :=
  [.acceptPolicies 10, .complete true (demoEnv 1) {} 10 demoInput,
    .complete false (demoEnv 1) {} 10 demoInput, .lock true, .read true (demoEnv 1) fun _ => true,
    .finish true (demoEnv 1) founding, .lock false, .read false (demoEnv 1) fun _ => true,
    .finish false (demoEnv 1) founding]

/-- The user's state, the completions on record, the rows of the reward, and the members. -/
abbrev Outcome := Option OnboardingState × List (UserId × Option Nat) × Nat × List UserId

def outcome (w : ProfileWorld Bool) : Outcome :=
  (w.store.onboardingState 10, w.shared.completed.map fun x => (x.1, x.2.map (·.rank)),
    w.store.founding.db.coinLedger.rows.countP fun r =>
      decide (r.idempotencyKey = onboardingRewardKey 10),
    w.store.founding.members.rows.map (·.userId))

theorem guardList_true {moves : List (ProfileMove Bool)} (w : ProfileWorld Bool) :
    guardList ProfileWorld.exec (fun _ _ => true) w moves = true := by
  induction moves generalizing w with
  | nil => rfl
  | cons m moves ih =>
      rw [guardList, Bool.true_and]
      split
      · exact ih _
      · rfl

theorem reach_outcome (founding : FoundingSettings) {o : Outcome}
    (h : (runList ProfileWorld.exec newUser (completions founding)).any (fun w =>
      decide (outcome w = o)) = true) :
    ∃ tr w, Run (· = newUser) ProfileWorld.Step (fun _ _ => True) tr w ∧ outcome w = o := by
  obtain ⟨w, hw, ho⟩ := (Option.any_eq_true _ _).1 h
  have hrun : Run (· = newUser) ProfileWorld.Step (fun _ _ => True) _ w :=
    run_of_runList (g := fun _ _ => true) (fun _ _ _ h => h) (fun _ _ _ => trivial) (.start rfl)
      (guardList_true newUser) hw
  exact ⟨_, w, hrun, of_decide_eq_true ho⟩

theorem completing_pays_once_ranked : ∃ w : ProfileWorld Bool,
    Recorded newUser.store w.shared ∧
      outcome w = (some .PROFILE_COMPLETE, [(10, some 1)], 1, [10]) := by
  obtain ⟨tr, w, hrun, ho⟩ := reach_outcome { enabled := 1 }
    (o := (some .PROFILE_COMPLETE, [(10, some 1)], 1, [10])) (by decide)
  exact ⟨w, (completing_pays_once newUser_init hrun).2.2, ho⟩

/-- With the campaign off, which is the default, a user completes and gets no rank. -/
theorem completed_without_rank : ∃ tr w,
    Run (· = newUser) ProfileWorld.Step (fun _ _ => True) tr w ∧
      outcome w = (some .PROFILE_COMPLETE, [(10, none)], 1, []) :=
  reach_outcome {} (by decide)

end Completion

end Paayatam
