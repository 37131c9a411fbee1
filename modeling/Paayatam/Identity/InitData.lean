/-
  Paayatam.Identity.InitData

  Telegram sign-in: the check of a Mini App `initData` blob, the one-time mark
  of its verified hash, and the attempts that pass through both.

  The query-string parser, the HMAC, `JSON.parse` and `Number` of the runtime
  are parameters.  A Redis key set with an expiry is there until the expiry,
  and from then on is not.  Moments are milliseconds.
-/

import Paayatam.Types
import Mathlib.Data.List.Sort
import Mathlib.Data.Rat.Defs

namespace Paayatam

/-! ## The runtime the check stands on -/

/-- What `JSON.parse` yields. -/
inductive Json where
  | null
  | bool (b : Bool)
  | number (q : ℚ)
  | string (s : String)
  | array (items : List Json)
  | object (fields : List (String × Json))

/-- A member of a parsed object. -/
def Json.member (record : List (String × Json)) (key : String) : Option Json :=
  (record.find? fun p => p.1 == key).map (·.2)

structure JsRuntime where
  /-- The decoded pairs of a query string, in order. -/
  searchParams : String → List (String × String)
  /-- HMAC-SHA256 of a message under a key. -/
  hmacSha256 : List UInt8 → String → List UInt8
  parseJson : String → Option Json
  /-- `Number(raw)`; `none` where it is not finite. -/
  number : String → Option ℚ

def utf8 (s : String) : List UInt8 := s.toUTF8.toList

/-- The UTF-16 code units of a character. -/
def utf16Units (c : Char) : List Nat :=
  if c.toNat < 0x10000 then [c.toNat]
  else [0xD800 + (c.toNat - 0x10000) / 0x400, 0xDC00 + (c.toNat - 0x10000) % 0x400]

def unitsLe : List Nat → List Nat → Bool
  | [], _ => true
  | _ :: _, [] => false
  | a :: as, b :: bs => a < b || (a == b && unitsLe as bs)

/-- The order of `Array.sort`: by code units. -/
def jsLe (a b : String) : Prop :=
  unitsLe (a.toList.flatMap utf16Units) (b.toList.flatMap utf16Units) = true

instance : DecidableRel jsLe := fun _ _ => inferInstanceAs (Decidable (_ = true))

/-- The value of a hexadecimal digit, of either case. -/
def hexDigit (c : Char) : Option Nat :=
  if '0' ≤ c ∧ c ≤ '9' then some (c.toNat - '0'.toNat)
  else if 'a' ≤ c ∧ c ≤ 'f' then some (c.toNat - 'a'.toNat + 10)
  else if 'A' ≤ c ∧ c ≤ 'F' then some (c.toNat - 'A'.toNat + 10)
  else none

/-- `Buffer.from(hash, 'hex')` of a string of digits. -/
def bytesOfHex : List Char → List UInt8
  | a :: b :: rest =>
    UInt8.ofNat ((hexDigit a).getD 0 * 16 + (hexDigit b).getD 0) :: bytesOfHex rest
  | _ => []

/-! ## The validator -/

structure InitDataUser where
  telegramUserId : Nat
  firstName : Option String
  lastName : Option String
  username : Option String
  languageCode : Option String

/-- A `Date`: its time value, or none for an invalid one. -/
abbrev JsDate := Option Int

structure ParsedInitData where
  user : InitDataUser
  authDate : JsDate
  hash : String
  startParam : Option String

def DEFAULT_MAX_AGE_SECONDS : Nat := 300

def EXCLUDED_FROM_CHECK_STRING : List String := ["hash"]

/-- The largest time value of a `Date`. -/
def maxTimeValue : Int := 8640000000000000

/-- `new Date(ms)`. -/
def jsDate (ms : Int) : JsDate :=
  if -maxTimeValue ≤ ms ∧ ms ≤ maxTimeValue then some ms else none

/-- `URLSearchParams.get`. -/
def getParam (params : List (String × String)) (key : String) : Option String :=
  (params.find? fun p => p.1 == key).map (·.2)

/-- A parameter that is there and is not empty. -/
def truthy : Option String → Option String
  | some s => if s = "" then none else some s
  | none => none

structure InitDataValidator where
  runtime : JsRuntime
  botToken : String
  maxAgeSeconds : Nat := DEFAULT_MAX_AGE_SECONDS

/-- The validator the identity module provides. -/
def initDataValidator (runtime : JsRuntime) (botToken : String) : InitDataValidator where
  runtime
  botToken

def invalidInitData : AppError := .raised .INVALID_INIT_DATA .none

/-- A string member of the user record, unless it is empty. -/
def optionalString (record : List (String × Json)) (key : String) : Option String :=
  match Json.member record key with
  | some (.string s) => truthy (some s)
  | _ => none

namespace InitDataValidator

variable (v : InitDataValidator)

def dataCheckString (params : List (String × String)) : String :=
  "\n".intercalate (((params.filter fun p => !EXCLUDED_FROM_CHECK_STRING.contains p.1).map
    fun p => p.1 ++ "=" ++ p.2).insertionSort jsLe)

/-- The signature the bot token gives these parameters. -/
def expectedHash (params : List (String × String)) : List UInt8 :=
  v.runtime.hmacSha256 (v.runtime.hmacSha256 (utf8 "WebAppData") v.botToken)
    (dataCheckString params)

/-- Steps 1 to 5: the parameters and the hash, with the signature verified. -/
def verify (rawInitData : String) : Except AppError (List (String × String) × String) := do
  if rawInitData = "" then
    throw invalidInitData
  let params := v.runtime.searchParams rawInitData
  match getParam params "hash" with
  | none => throw invalidInitData
  | some hash =>
    if hash.length ≠ 64 ∨ ¬ hash.toList.all (fun c => (hexDigit c).isSome) then
      throw invalidInitData
    if bytesOfHex hash.toList ≠ v.expectedHash params then
      throw invalidInitData
    return (params, hash)

def parseAuthDate (raw : Option String) : Except AppError JsDate :=
  match truthy raw with
  | none => throw invalidInitData
  | some raw =>
    match v.runtime.number raw with
    | none => throw invalidInitData
    | some seconds =>
      if seconds.den ≠ 1 ∨ seconds ≤ 0 then throw invalidInitData
      else return jsDate (seconds.num * 1000)

def parseUser (raw : Option String) : Except AppError InitDataUser :=
  match truthy raw with
  | none => throw invalidInitData
  | some raw =>
    match v.runtime.parseJson raw with
    | some (.object record) =>
      match Json.member record "id" with
      | some (.number id) =>
        if id.den ≠ 1 ∨ id ≤ 0 then throw invalidInitData
        else return {
          telegramUserId := id.num.toNat
          firstName := optionalString record "first_name"
          lastName := optionalString record "last_name"
          username := optionalString record "username"
          languageCode := optionalString record "language_code" }
      | _ => throw invalidInitData
    | _ => throw invalidInitData

/-- `ageSeconds > maxAgeSeconds`; the age of an invalid date is not a number, and compares
    with nothing. -/
def tooOld (now : Int) : JsDate → Bool
  | some authDate => (now - authDate : Int) > v.maxAgeSeconds * 1000
  | none => false

/-- `ageSeconds < -maxAgeSeconds`. -/
def tooEarly (now : Int) : JsDate → Bool
  | some authDate => (now - authDate : Int) < -(v.maxAgeSeconds * 1000)
  | none => false

def validate (now : Int) (rawInitData : String) : Except AppError ParsedInitData := do
  let (params, hash) ← v.verify rawInitData
  let authDate ← v.parseAuthDate (getParam params "auth_date")
  if v.tooOld now authDate then
    throw (.raised .INIT_DATA_EXPIRED .none)
  if v.tooEarly now authDate then
    throw invalidInitData
  let user ← v.parseUser (getParam params "user")
  return { user, authDate, hash := hash.toLower, startParam := truthy (getParam params "start_param") }

end InitDataValidator

/-! ## The one-time mark and the sign-in -/

/-- The expiry of each mark in Redis, where one was set. -/
abbrev ReplayMarks := String → Option Int

def ReplayMarks.empty : ReplayMarks := fun _ => none

/-- The key is there: it was set, and its time has not run out. -/
def ReplayMarks.live (marks : ReplayMarks) (now : Int) (hash : String) : Bool :=
  match marks hash with
  | some expiry => now < expiry
  | none => false

def ttlSeconds : Nat := DEFAULT_MAX_AGE_SECONDS + 60

/-- `SET key 1 EX ttl NX`; the caller fails where nothing was stored. -/
def consume (now : Int) (hash : String) (marks : ReplayMarks) :
    Except AppError Unit × ReplayMarks :=
  if marks.live now hash then (throw invalidInitData, marks)
  else (return (), Function.update marks hash (some (now + ttlSeconds * 1000)))

structure AuthResponse where
  accessToken : String
  refreshToken : String
  expiresInSeconds : Nat
  user : UserId
  onboardingState : OnboardingState

/-- One attempt: when it is made, and what finding the account and issuing the session would
    answer then. -/
structure SignIn where
  now : Int
  session : InitDataUser → Except AppError AuthResponse

def authenticateWithTelegram (v : InitDataValidator) (a : SignIn) (initData : String)
    (marks : ReplayMarks) : Except AppError AuthResponse × ReplayMarks :=
  match v.validate a.now initData with
  | .error e => (.error e, marks)
  | .ok parsed =>
    match consume a.now parsed.hash marks with
    | (.error e, marks) => (.error e, marks)
    | (.ok _, marks) => (a.session parsed.user, marks)

/-- The answers of attempts made one after another with one blob. -/
def attempts (v : InitDataValidator) (initData : String) :
    List SignIn → ReplayMarks → List (Except AppError AuthResponse)
  | [], _ => []
  | a :: rest, marks =>
    (authenticateWithTelegram v a initData marks).1 ::
      attempts v initData rest (authenticateWithTelegram v a initData marks).2

/-- The sessions they opened, from a Redis that has not seen the blob. -/
def sessionsOpened (v : InitDataValidator) (initData : String) (as : List SignIn) :
    List AuthResponse :=
  (attempts v initData as ReplayMarks.empty).filterMap Except.toOption

/-! ## When a blob validates -/

/-- The blob passes the check at this moment. -/
def Validates (v : InitDataValidator) (initData : String) (now : Int) : Prop :=
  (v.validate now initData).isOk = true

instance (v : InitDataValidator) (initData : String) (now : Int) :
    Decidable (Validates v initData now) :=
  inferInstanceAs (Decidable (_ = true))

section Window

variable {v : InitDataValidator} {initData : String} {now now' : Int} {p : ParsedInitData}

/-- The moment lies in the window around the date the blob carries. -/
def InWindow (v : InitDataValidator) (now : Int) (authDate : JsDate) : Prop :=
  v.tooOld now authDate = false ∧ v.tooEarly now authDate = false

theorem inWindow_some {now d : Int} : InWindow v now (some d) ↔
    d - v.maxAgeSeconds * 1000 ≤ now ∧ now ≤ d + v.maxAgeSeconds * 1000 := by
  simp only [InWindow, InitDataValidator.tooOld, InitDataValidator.tooEarly, decide_eq_false_iff_not,
    gt_iff_lt, not_lt]
  constructor
  · rintro ⟨hold, hearly⟩
    have hold' : (now - d : ℤ) ≤ v.maxAgeSeconds * 1000 := hold
    have hearly' : -(v.maxAgeSeconds * 1000 : ℤ) ≤ now - d := hearly
    omega
  · rintro ⟨hearly, hold⟩
    show (now - d : ℤ) ≤ v.maxAgeSeconds * 1000 ∧ -(v.maxAgeSeconds * 1000 : ℤ) ≤ now - d
    omega

theorem inWindow_none : InWindow v now none := ⟨rfl, rfl⟩

/-- A blob that validates does so within its window. -/
theorem validate_window (h : v.validate now initData = .ok p) : InWindow v now p.authDate := by
  simp only [InitDataValidator.validate, bind, Except.bind, pure, Except.pure, throw,
    throwThe, MonadExceptOf.throw] at h
  split at h
  · cases h
  · rename_i verified hverify
    split at h
    · cases h
    · rename_i authDate hdate
      by_cases hold : v.tooOld now authDate = true
      · simp [hold] at h
      · by_cases hearly : v.tooEarly now authDate = true
        · simp [hold, hearly] at h
        · simp only [hold, hearly, Bool.false_eq_true, if_false] at h
          split at h
          · cases h
          · rename_i user huser
            obtain rfl := Except.ok.inj h
            exact ⟨by simpa using hold, by simpa using hearly⟩

/-- It validates, as the same data, at every other moment of the window, and at no other. -/
theorem validate_iff (h : v.validate now initData = .ok p) (now' : Int) :
    (InWindow v now' p.authDate → v.validate now' initData = .ok p) ∧
      (¬ InWindow v now' p.authDate → ∃ e, v.validate now' initData = .error e) := by
  simp only [InitDataValidator.validate, bind, Except.bind, pure, Except.pure, throw,
    throwThe, MonadExceptOf.throw] at h ⊢
  split at h
  · cases h
  · rename_i verified hverify
    split at h
    · cases h
    · rename_i authDate hdate
      by_cases hold : v.tooOld now authDate = true
      · simp [hold] at h
      · by_cases hearly : v.tooEarly now authDate = true
        · simp [hold, hearly] at h
        · simp only [hold, hearly, Bool.false_eq_true, if_false] at h
          split at h
          · cases h
          · rename_i user huser
            obtain rfl := Except.ok.inj h
            constructor
            · rintro ⟨hold', hearly'⟩
              dsimp only at hold' hearly'
              simp [hold', hearly']
            · intro hout
              cases hold' : v.tooOld now' authDate with
              | true => exact ⟨_, rfl⟩
              | false =>
                  cases hearly' : v.tooEarly now' authDate with
                  | true => exact ⟨_, rfl⟩
                  | false => exact absurd ⟨hold', hearly'⟩ hout

end Window

/-! ## The sessions of one blob -/

/-- The moment of the first attempt at which the blob passes the check. -/
def firstUse (v : InitDataValidator) (initData : String) (as : List SignIn) : Option Int :=
  (as.find? fun a => Validates v initData a.now).map (·.now)

/-- The attempts in the order they are made. -/
def InOrder (as : List SignIn) : Prop := as.Pairwise fun a b => a.now ≤ b.now

instance (as : List SignIn) : Decidable (InOrder as) :=
  inferInstanceAs (Decidable (as.Pairwise _))

/-- The date in the blob, where it validates. -/
def authDateOf (v : InitDataValidator) (initData : String) (now : Int) : JsDate :=
  match v.validate now initData with
  | .ok parsed => parsed.authDate
  | .error _ => none

section Attempts

variable {v : InitDataValidator} {initData : String} {now : Int} {p : ParsedInitData}
  {marks : ReplayMarks}

/-- While the mark of its hash lives, a blob opens nothing, and the mark stays. -/
theorem attempts_marked (h : v.validate now initData = .ok p) {expiry : Int}
    (hmark : marks p.hash = some expiry) {as : List SignIn}
    (hbefore : ∀ a ∈ as, Validates v initData a.now → a.now < expiry) :
    (attempts v initData as marks).filterMap Except.toOption = [] := by
  induction as with
  | nil => rfl
  | cons a rest ih =>
      have hrest := ih fun b hb => hbefore b (List.mem_cons_of_mem _ hb)
      have hstep : ∃ e, authenticateWithTelegram v a initData marks = (.error e, marks) := by
        unfold authenticateWithTelegram
        by_cases hwin : InWindow v a.now p.authDate
        · have hok := (validate_iff h a.now).1 hwin
          have hlt : a.now < expiry := hbefore a List.mem_cons_self (by rw [Validates, hok]; rfl)
          have hlive : marks.live a.now p.hash = true := by simp [ReplayMarks.live, hmark, hlt]
          simp [hok, consume, hlive, throw, throwThe, MonadExceptOf.throw]
        · obtain ⟨e, he⟩ := (validate_iff h a.now).2 hwin
          exact ⟨e, by simp [he]⟩
      obtain ⟨e, he⟩ := hstep
      simp only [attempts, he]
      exact hrest

/-- An attempt outside the window of the blob leaves the marks alone. -/
theorem authenticate_outside (marks : ReplayMarks) {a : SignIn}
    (h : ¬ Validates v initData a.now) :
    ∃ e, authenticateWithTelegram v a initData marks = (.error e, marks) := by
  unfold authenticateWithTelegram
  cases hval : v.validate a.now initData with
  | error e => exact ⟨e, rfl⟩
  | ok parsed => exact absurd (by rw [Validates, hval]; rfl) h

/-- The first attempt that validates uses the blob up, whatever the later steps answer. -/
theorem authenticate_first {a : SignIn} (h : v.validate a.now initData = .ok p)
    (hmark : marks p.hash = none) :
    authenticateWithTelegram v a initData marks =
      (a.session p.user, Function.update marks p.hash (some (a.now + ttlSeconds * 1000))) := by
  have hlive : marks.live a.now p.hash = false := by simp [ReplayMarks.live, hmark]
  simp [authenticateWithTelegram, h, consume, hlive, pure, Except.pure]

/-- When no later attempt can validate after the mark set at the first use has run out, the
    blob opens at most one session. -/
theorem attempts_atMostOne (h : v.validate now initData = .ok p) (hmark : marks p.hash = none)
    {as : List SignIn} (hin : InOrder as)
    (hbefore : ∀ a ∈ as, ∀ b ∈ as, Validates v initData a.now → a.now ≤ b.now →
      Validates v initData b.now → b.now < a.now + ttlSeconds * 1000) :
    ((attempts v initData as marks).filterMap Except.toOption).length ≤ 1 := by
  induction as with
  | nil => exact Nat.zero_le 1
  | cons a rest ih =>
      obtain ⟨hfirst, hrest⟩ := List.pairwise_cons.1 hin
      by_cases hval : Validates v initData a.now
      · have hok : v.validate a.now initData = .ok p := by
          by_cases hwin : InWindow v a.now p.authDate
          · exact (validate_iff h a.now).1 hwin
          · obtain ⟨e, he⟩ := (validate_iff h a.now).2 hwin
            rw [Validates, he] at hval
            cases hval
        have hlater : ∀ b ∈ rest, Validates v initData b.now → b.now < a.now + ttlSeconds * 1000 :=
          fun b hb hb' => hbefore a List.mem_cons_self b (List.mem_cons_of_mem _ hb) hval
            (hfirst b hb) hb'
        have hset : Function.update marks p.hash (some (a.now + ttlSeconds * 1000)) p.hash =
            some (a.now + ttlSeconds * 1000) := Function.update_self _ _ _
        have hnone := attempts_marked hok hset hlater
        simp only [attempts, authenticate_first hok hmark, List.filterMap_cons, hnone]
        cases a.session p.user <;> simp [Except.toOption]
      · obtain ⟨e, he⟩ := authenticate_outside marks hval
        simp only [attempts, he, List.filterMap_cons, Except.toOption]
        exact ih hrest fun b hb c hc => hbefore b (List.mem_cons_of_mem _ hb) c
          (List.mem_cons_of_mem _ hc)

/-- No attempt before the first use validates. -/
theorem firstUse_le {as : List SignIn} (hin : InOrder as) {first : Int}
    (hfirst : firstUse v initData as = some first) {a : SignIn} (ha : a ∈ as)
    (hval : Validates v initData a.now) : first ≤ a.now := by
  induction as with
  | nil => cases ha
  | cons b rest ih =>
      obtain ⟨hle, hrest⟩ := List.pairwise_cons.1 hin
      by_cases hb : Validates v initData b.now
      · have hsame : b.now = first := by simpa [firstUse, hb] using hfirst
        rcases List.mem_cons.1 ha with rfl | ha
        · exact hsame.ge
        · exact hsame.ge.trans (hle a ha)
      · have hnext : firstUse v initData rest = some first := by
          simpa [firstUse, hb] using hfirst
        rcases List.mem_cons.1 ha with rfl | ha
        · exact absurd hval hb
        · exact ih hrest hnext ha

end Attempts

/-- A session for whoever asks. -/
def someSession (user : InitDataUser) : Except AppError AuthResponse :=
  .ok ⟨"access", "refresh", 900, user.telegramUserId, .NEW⟩

/-- A blob opens at most one session, whatever is tried with it and whenever, exactly if it
    was first used later than a minute before the date it carries: until then the mark set
    at first use runs out while the blob still validates.  A date too large for a `Date`
    never stops validating. -/
theorem initData_opens_once_iff (runtime : JsRuntime) (botToken initData : String)
    (first : Int) (hvalid : Validates (initDataValidator runtime botToken) initData first) :
    (∀ as : List SignIn, InOrder as →
        firstUse (initDataValidator runtime botToken) initData as = some first →
        (sessionsOpened (initDataValidator runtime botToken) initData as).length ≤ 1) ↔
      ∃ authDate ∈ authDateOf (initDataValidator runtime botToken) initData first,
        (authDate - 60 * 1000 : Int) < first := by
  generalize hv : initDataValidator runtime botToken = v at hvalid ⊢
  have hage : v.maxAgeSeconds = 300 := by rw [← hv]; rfl
  obtain ⟨p, hp⟩ : ∃ p, v.validate first initData = .ok p := by
    cases h : v.validate first initData with
    | ok p => exact ⟨p, rfl⟩
    | error e => rw [Validates, h] at hvalid; cases hvalid
  have hdate : authDateOf v initData first = p.authDate := by rw [authDateOf, hp]
  rw [hdate]
  constructor
  · intro hall
    by_contra hearly
    -- a second attempt, made when the mark of the first has just run out
    have hlater : InWindow v (first + 360000) p.authDate := by
      have hwindow := validate_window hp
      cases hd : p.authDate with
      | none => exact inWindow_none
      | some d =>
          rw [hd] at hwindow hearly
          rw [inWindow_some, hage] at hwindow ⊢
          have hmin : ¬ (d - 60 * 1000 : Int) < first := fun h => hearly ⟨d, rfl, h⟩
          omega
    have hagain := (validate_iff hp (first + 360000)).1 hlater
    have hdead : ReplayMarks.live
        (Function.update ReplayMarks.empty p.hash (some (first + ttlSeconds * 1000)))
        (first + 360000) p.hash = false := by
      have hend : first + ttlSeconds * 1000 = first + 360000 := rfl
      simp [ReplayMarks.live, hend]
    have hsecond : authenticateWithTelegram v ⟨(first + 360000), someSession⟩ initData
        (Function.update ReplayMarks.empty p.hash (some (first + ttlSeconds * 1000))) =
        (someSession p.user, Function.update
          (Function.update ReplayMarks.empty p.hash (some (first + ttlSeconds * 1000))) p.hash
          (some ((first + 360000) + ttlSeconds * 1000))) := by
      simp [authenticateWithTelegram, hagain, consume, hdead, pure, Except.pure]
    have hfirst : authenticateWithTelegram v ⟨first, someSession⟩ initData ReplayMarks.empty =
        (someSession p.user,
          Function.update ReplayMarks.empty p.hash (some (first + ttlSeconds * 1000))) :=
      authenticate_first hp rfl
    have hone := hall [⟨first, someSession⟩, ⟨(first + 360000), someSession⟩]
      (by
        simp only [InOrder, List.pairwise_cons, List.mem_singleton, forall_eq, List.not_mem_nil,
          false_implies, implies_true, List.Pairwise.nil, and_true]
        omega)
      (by simp [firstUse, hvalid])
    have htwo : sessionsOpened v initData
        [⟨first, someSession⟩, ⟨(first + 360000), someSession⟩] =
        [⟨"access", "refresh", 900, p.user.telegramUserId, .NEW⟩,
          ⟨"access", "refresh", 900, p.user.telegramUserId, .NEW⟩] := by
      simp [sessionsOpened, attempts, hfirst, hsecond, someSession, Except.toOption]
    rw [htwo] at hone
    exact absurd hone (Nat.not_succ_le_self 1)
  · rintro ⟨d, hd, hlt⟩ as hin hfirst
    have hd : p.authDate = some d := hd
    refine attempts_atMostOne hp rfl hin fun a ha b hb hval _ hval' => ?_
    have hle : (first : Int) ≤ a.now := firstUse_le hin hfirst ha hval
    obtain ⟨q, hq⟩ : ∃ q, v.validate b.now initData = .ok q := by
      cases h : v.validate b.now initData with
      | ok q => exact ⟨q, rfl⟩
      | error e => rw [Validates, h] at hval'; cases hval'
    have hwin : InWindow v b.now p.authDate := by
      by_contra hout
      obtain ⟨e, he⟩ := (validate_iff hp b.now).2 hout
      rw [he] at hq
      cases hq
    rw [hd, inWindow_some, hage] at hwin
    show (b.now : Int) < a.now + 360 * 1000
    omega

/-- What the runtime answers about one blob, signed for the token `12345:token`. -/
def oneBlobRuntime : JsRuntime where
  searchParams _ := [("auth_date", "1700000000"), ("user", "\x7b\"id\":1\x7d"),
    ("hash", "a07ec7fae63af9e4f18674c92fbe84cd641d0624bd6de7d0ff5e4b1ec1210e72")]
  hmacSha256 _ message :=
    if message = "12345:token" then
      bytesOfHex "e57132afa92ddc2cb6a6c87d82263b097e3dc4347e0905a461a7804c5aef2cf7".toList
    else if message = "auth_date=1700000000\nuser=\x7b\"id\":1\x7d" then
      bytesOfHex "a07ec7fae63af9e4f18674c92fbe84cd641d0624bd6de7d0ff5e4b1ec1210e72".toList
    else []
  parseJson _ := some (.object [("id", .number 1)])
  number _ := some 1700000000

def oneBlob : String :=
  "auth_date=1700000000&user=%7B%22id%22%3A1%7D" ++
    "&hash=a07ec7fae63af9e4f18674c92fbe84cd641d0624bd6de7d0ff5e4b1ec1210e72"

theorem initData_opens_once_iff_oneBlob :
    (∀ as : List SignIn, InOrder as →
        firstUse (initDataValidator oneBlobRuntime "12345:token") oneBlob as =
          some 1700000000000 →
        (sessionsOpened (initDataValidator oneBlobRuntime "12345:token") oneBlob as).length ≤ 1) ↔
      ∃ authDate ∈ authDateOf (initDataValidator oneBlobRuntime "12345:token") oneBlob
        1700000000000, (authDate - 60 * 1000 : Int) < 1700000000000 :=
  initData_opens_once_iff oneBlobRuntime "12345:token" oneBlob 1700000000000 (by decide +kernel)

/-- Used at the start of its window, and again six minutes later: two sessions. -/
theorem initData_opened_twice :
    let v := initDataValidator oneBlobRuntime "12345:token"
    let as : List SignIn := [⟨1699999700000, someSession⟩, ⟨1700000060000, someSession⟩]
    InOrder as ∧ ¬ (sessionsOpened v oneBlob as).length ≤ 1 := by
  decide +kernel

end Paayatam
