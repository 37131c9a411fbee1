/-
  Paayatam.Telegram.Callbacks

  The strings the bot's buttons carry, and how they are read back.

  Every protocol is a prefix and one or two fields, joined by colons, within the 64
  bytes that Telegram allows.  A string is a list of characters here.
-/

import Paayatam.Env
import Paayatam.Lib.Digits
import Paayatam.Lib.Fields
import Mathlib.Data.List.GetD
import Mathlib.Data.List.Induction

namespace Paayatam

open Lib

namespace Callbacks

abbrev Data := List Char

def MAX_BYTES : Nat := 64

/-- `Buffer.byteLength(data, 'utf8')`. -/
def byteLength (data : Data) : Nat := (data.map Char.utf8Size).sum

/-- The encoders throw past the limit. -/
def guardLength (data : Data) : Option Data :=
  if byteLength data > MAX_BYTES then none else some data

/-- Three fields, as every protocol but one writes them. -/
def joined (head action id : Data) : Data := head ++ ':' :: (action ++ ':' :: id)

/-! ## Fields -/

def isHexDigit (c : Char) : Bool :=
  c.isDigit || ('a' ≤ c && c ≤ 'f') || ('A' ≤ c && c ≤ 'F')

/-- `PUBLIC_ID`: groups of 8, 4, 4, 4 and 12 digits. -/
def isPublicId (value : Data) : Bool :=
  decide (value.length = 36) && (value.all fun c => isHexDigit c || c == '-') &&
    value.zipIdx.all fun x => (x.1 == '-') == [8, 13, 18, 23].contains x.2

def BASE36 : Data := "0123456789abcdefghijklmnopqrstuvwxyz".toList

/-- The last page a digit can name: `MAX_DISCOVER_PAGE` and the others. -/
def MAX_PAGE : Nat := 35

/-- A page, clamped to what a digit holds. -/
def encodePage (page : Int) : Data := [BASE36.getD (min (max page 0) MAX_PAGE).toNat '0']

/-- One base-36 digit. -/
def decodeDigit (field : Data) : Option Nat :=
  match field with
  | [c] => (BASE36.idxOf? c).filter (· ≤ MAX_PAGE)
  | _ => none

/-! ## An action and a public id: chat, events, direct messages, editing a review -/

def encodeAction (head action id : Data) : Option Data := guardLength (joined head action id)

def parseAction (head : Data) (actions : List Data) (data : Data) : Option (Data × Data) :=
  match data.splitOn ':' with
  | [pfx, action, id] =>
    if pfx = head ∧ isPublicId id = true ∧ action ∈ actions then some (action, id) else none
  | _ => none

def CHAT_CALLBACK_ACTIONS : List Data := ["accept".toList, "reject".toList]

def encodeChatCallback : Data → Data → Option Data := encodeAction "chat".toList

def parseChatCallback : Data → Option (Data × Data) :=
  parseAction "chat".toList CHAT_CALLBACK_ACTIONS

def EVENT_CALLBACK_ACTIONS : List Data :=
  ["join", "joinyes", "cancel", "cancelyes", "show", "disp", "habs", "hresp", "hrev", "who",
    "noshow", "noshowyes", "post", "postyes", "invite", "inviteyes", "drop", "dropyes", "acc",
    "rej"].map String.toList

def encodeEventCallback : Data → Data → Option Data := encodeAction "ev".toList

def parseEventCallback : Data → Option (Data × Data) :=
  parseAction "ev".toList EVENT_CALLBACK_ACTIONS

def DIRECT_CALLBACK_ACTIONS : List Data :=
  ["write", "view", "reply", "guest", "block", "unblock"].map String.toList

def encodeDirectCallback : Data → Data → Option Data := encodeAction "dm".toList

def parseDirectCallback : Data → Option (Data × Data) :=
  parseAction "dm".toList DIRECT_CALLBACK_ACTIONS

def encodeReviewEditCallback (id : Data) : Option Data :=
  encodeAction "rv".toList "edit".toList id

def parseReviewEditCallback (data : Data) : Option Data :=
  (parseAction "rv".toList ["edit".toList] data).map Prod.snd

/-! ## Ratings -/

def REVIEW_RATINGS : List Nat := [1, 2, 3, 4, 5]

/-- `DecimalDigits`, and the digits of the other radices. -/
def digitValue (base : Nat) (c : Char) : Option Nat :=
  ((("0123456789abcdef".toList.idxOf? c).orElse fun _ => "0123456789ABCDEF".toList.idxOf? c)).filter
    (· < base)

def digitsValue (base : Nat) (digits : Data) : Option Nat :=
  digits.foldlM (fun n c => (digitValue base c).map (n * base + ·)) 0

/-- At least one digit. -/
def natLiteral (base : Nat) (digits : Data) : Option Nat :=
  if digits = [] then none else digitsValue base digits

/-- `ExponentPart`, after its letter. -/
def exponentLiteral : Data → Option Int
  | '-' :: digits => (natLiteral 10 digits).map fun n => -(n : Int)
  | '+' :: digits => (natLiteral 10 digits).map fun n => (n : Int)
  | digits => (natLiteral 10 digits).map fun n => (n : Int)

/-- `StrUnsignedDecimalLiteral`. -/
def unsignedLiteral (text : Data) : Option ℚ := do
  let significand := text.takeWhile fun c => c ≠ 'e' ∧ c ≠ 'E'
  let exponent ← match text.dropWhile fun c => c ≠ 'e' ∧ c ≠ 'E' with
    | [] => some 0
    | _ :: digits => exponentLiteral digits
  let whole := significand.takeWhile (· ≠ '.')
  let fraction := (significand.dropWhile (· ≠ '.')).drop 1
  let digits ← natLiteral 10 (whole ++ fraction)
  return digits * (10 : ℚ) ^ (exponent - fraction.length)

/-- The value of a string as a number, before it is rounded to a double; an infinity is none. -/
def stringToNumber (text : Data) : Option ℚ :=
  match ((text.dropWhile isTrimmed).reverse.dropWhile isTrimmed).reverse with
  | [] => some 0
  | '0' :: 'x' :: digits | '0' :: 'X' :: digits => (natLiteral 16 digits).map fun n => (n : ℚ)
  | '0' :: 'o' :: digits | '0' :: 'O' :: digits => (natLiteral 8 digits).map fun n => (n : ℚ)
  | '0' :: 'b' :: digits | '0' :: 'B' :: digits => (natLiteral 2 digits).map fun n => (n : ℚ)
  | '-' :: digits => (unsignedLiteral digits).map fun q => -q
  | '+' :: digits => unsignedLiteral digits
  | digits => unsignedLiteral digits

/-- The distance from a rating to the next double below and above it. -/
def spacing : Nat → ℚ × ℚ
  | 1 => (1 / 2 ^ 53, 1 / 2 ^ 52)
  | 2 => (1 / 2 ^ 52, 1 / 2 ^ 51)
  | 3 => (1 / 2 ^ 51, 1 / 2 ^ 51)
  | 4 => (1 / 2 ^ 51, 1 / 2 ^ 50)
  | _ => (1 / 2 ^ 50, 1 / 2 ^ 50)

/-- `Number(text) === rating`: the value rounds to it, and a tie goes to it, as it is even. -/
def isNumber (text : Data) (rating : Nat) : Bool :=
  (stringToNumber text).any fun q =>
    decide (rating - (spacing rating).1 / 2 ≤ q) && decide (q ≤ rating + (spacing rating).2 / 2)

/-- The action of a rating's button. -/
def ratingAction (rating : Nat) : Data := "rate".toList ++ Nat.toDigits 10 rating

def encodeReviewCallback (rating : Nat) (id : Data) : Option Data :=
  encodeAction "rv".toList (ratingAction rating) id

def parseReviewCallback (data : Data) : Option (Nat × Data) :=
  match data.splitOn ':' with
  | [pfx, action, id] =>
    if pfx = "rv".toList ∧ isPublicId id = true ∧ "rate".toList.isPrefixOf action = true then
      (REVIEW_RATINGS.find? fun rating => isNumber (action.drop 4) rating).map fun rating =>
        (rating, id)
    else none
  | _ => none

/-! ## Discovery -/

def DISCOVER_WHEN : List Char := ['a', 't', 'w']
def DISCOVER_COST : List Char := ['a', 'f']
def DISCOVER_VIEWS : List Char := ['l', 'f']
def ANY_CATEGORY : Data := "all".toList

structure DiscoverFilters where
  when : Char
  cost : Char
  categoryId : Option Data
  page : Nat
  view : Char
  age : Bool
  deriving DecidableEq

def discoverFlags (f : DiscoverFilters) : Data :=
  [f.when, f.cost] ++ encodePage f.page ++ [f.view, if f.age then 'y' else 'n']

def encodeDiscoverCallback (f : DiscoverFilters) : Option Data :=
  guardLength (joined "dc".toList (discoverFlags f) (f.categoryId.getD ANY_CATEGORY))

/-- A flag that every button has. -/
def oneOf (allowed : List Char) : Option Char → Option Char
  | none => none
  | some c => if c ∈ allowed then some c else none

/-- A flag that an older button leaves out has its default. -/
def flagOr (default : Char) (allowed : List Char) : Option Char → Option Char
  | none => some default
  | some c => if c ∈ allowed then some c else none

def decodePage : Option Char → Option Nat
  | none => some 0
  | some c => decodeDigit [c]

def parseCategory (category : Data) : Option (Option Data) :=
  if category = ANY_CATEGORY then some none
  else if isPublicId category = true then some (some category) else none

/-- The flags of a button, the last three of which an older one may lack. -/
def parseFlags (flags : Data) (categoryId : Option Data) : Option DiscoverFilters := do
  let when ← oneOf DISCOVER_WHEN flags[0]?
  let cost ← oneOf DISCOVER_COST flags[1]?
  let page ← decodePage flags[2]?
  let view ← flagOr 'l' DISCOVER_VIEWS flags[3]?
  let age ← flagOr 'n' ['y', 'n'] flags[4]?
  return { when, cost, categoryId, page, view, age := age == 'y' }

def parseDiscoverCallback (data : Data) : Option DiscoverFilters :=
  match data.splitOn ':' with
  | [pfx, flags, category] =>
    if pfx = "dc".toList ∧ 2 ≤ flags.length ∧ flags.length ≤ 5 then
      (parseCategory category).bind (parseFlags flags)
    else none
  | _ => none

/-! ## Going back -/

def BACK_TARGETS : List Data := ["d".toList, "m".toList]

def encodeBackCallback (target : Data) (commandMessageId : Option Nat) : Option Data :=
  guardLength (joined "bk".toList target (Nat.toDigits 10 (commandMessageId.getD 0)))

def parseBackCallback (data : Data) : Option (Data × Option Nat) :=
  match data.splitOn ':' with
  | [pfx, target, id] =>
    if pfx = "bk".toList ∧ target ∈ BACK_TARGETS ∧ 1 ≤ id.length ∧ id.length ≤ 12 ∧
        id.all Char.isDigit = true then
      let messageId := Nat.ofDigitChars 10 id 0
      some (target, if messageId = 0 then none else some messageId)
    else none
  | _ => none

/-! ## Pages: my events, the wallet, trust, and the policies -/

def encodePaging (head : Data) (page : Int) : Data := joined head (encodePage page) "x".toList

/-- The third field is not looked at. -/
def parsePaging (head : Data) (data : Data) : Option Nat :=
  match data.splitOn ':' with
  | [pfx, page, _] => if pfx = head then decodeDigit page else none
  | _ => none

def encodeMyEventsCallback : Int → Data := encodePaging "mv".toList
def parseMyEventsCallback : Data → Option Nat := parsePaging "mv".toList

def encodeWalletCallback : Int → Data := encodePaging "wl".toList
def parseWalletCallback : Data → Option Nat := parsePaging "wl".toList

def encodeTrustCallback : Int → Data := encodePaging "ts".toList
def parseTrustCallback : Data → Option Nat := parsePaging "ts".toList

def POLICY_DOC_LETTERS : List Data := ["s", "t", "p", "c"].map String.toList

def encodePolicyCallback (doc : Data) (page : Int) : Data :=
  joined "pl".toList doc (encodePage page)

def parsePolicyCallback (data : Data) : Option (Data × Nat) :=
  match data.splitOn ':' with
  | [pfx, doc, page] =>
    if pfx = "pl".toList ∧ doc ∈ POLICY_DOC_LETTERS then (decodeDigit page).map fun p => (doc, p)
    else none
  | _ => none

/-! ## Guides and the wizards -/

inductive GuideCallback where
  | index
  | commands
  | guide (slug : Data)
  deriving DecidableEq

def isLowerOrDigit (c : Char) : Bool := c.isDigit || ('a' ≤ c && c ≤ 'z')

/-- `GUIDE_SLUG`. -/
def isSlug (value : Data) : Bool :=
  decide (1 ≤ value.length) && decide (value.length ≤ 40) &&
    value.all fun c => isLowerOrDigit c || c == '_' || c == '-'

def encodeGuideCallback : GuideCallback → Data
  | .index => "gd".toList ++ ':' :: "i".toList
  | .commands => "gd".toList ++ ':' :: "k".toList
  | .guide slug => joined "gd".toList "g".toList slug

def parseGuideCallback (data : Data) : Option GuideCallback :=
  match data.splitOn ':' with
  | [pfx, kind] =>
    if pfx = "gd".toList then
      if kind = "i".toList then some .index
      else if kind = "k".toList then some .commands else none
    else none
  | [pfx, kind, slug] =>
    if pfx = "gd".toList ∧ kind = "g".toList ∧ isSlug slug = true then some (.guide slug) else none
  | _ => none

/-- `TOKEN`. -/
def isToken (action : Data) : Bool :=
  decide (1 ≤ action.length) && decide (action.length ≤ 16) &&
    action.all fun c => isLowerOrDigit c || c == '_'

/-- `VALUE`. -/
def isEncodable (value : Data) : Bool :=
  decide (value.length ≤ 40) && value.all fun c =>
    isLowerOrDigit c || ('A' ≤ c && c ≤ 'Z') || c == '_' || c == '-' || c == '.'

def encodeWizardCallback (action value : Data) : Option Data :=
  if isToken action = true ∧ isEncodable value = true then
    guardLength (joined "wz".toList action value)
  else none

def parseWizardCallback (data : Data) : Option (Data × Data) :=
  match data.splitOn ':' with
  | [pfx, action, value] =>
    if pfx = "wz".toList ∧ isToken action = true ∧ isEncodable value = true then
      some (action, value)
    else none
  | _ => none

/-! ## All of them -/

inductive Protocol where
  | chat | event | direct | review | reviewEdit | discover | back | myEvents | wallet | trust
  | policy | guide | wizard
  deriving DecidableEq

/-- What a button says. -/
inductive Callback where
  | chat (action id : Data)
  | event (action id : Data)
  | direct (action id : Data)
  | review (rating : Nat) (id : Data)
  | reviewEdit (id : Data)
  | discover (filters : DiscoverFilters)
  | back (target : Data) (commandMessageId : Option Nat)
  | myEvents (page : Nat)
  | wallet (page : Nat)
  | trust (page : Nat)
  | policy (doc : Data) (page : Nat)
  | guide (callback : GuideCallback)
  | wizard (action value : Data)
  deriving DecidableEq

def Callback.protocol : Callback → Protocol
  | .chat .. => .chat
  | .event .. => .event
  | .direct .. => .direct
  | .review .. => .review
  | .reviewEdit .. => .reviewEdit
  | .discover .. => .discover
  | .back .. => .back
  | .myEvents .. => .myEvents
  | .wallet .. => .wallet
  | .trust .. => .trust
  | .policy .. => .policy
  | .guide .. => .guide
  | .wizard .. => .wizard

def encode : Callback → Option Data
  | .chat action id => encodeChatCallback action id
  | .event action id => encodeEventCallback action id
  | .direct action id => encodeDirectCallback action id
  | .review rating id => encodeReviewCallback rating id
  | .reviewEdit id => encodeReviewEditCallback id
  | .discover filters => encodeDiscoverCallback filters
  | .back target commandMessageId => encodeBackCallback target commandMessageId
  | .myEvents page => some (encodeMyEventsCallback page)
  | .wallet page => some (encodeWalletCallback page)
  | .trust page => some (encodeTrustCallback page)
  | .policy doc page => some (encodePolicyCallback doc page)
  | .guide callback => some (encodeGuideCallback callback)
  | .wizard action value => encodeWizardCallback action value

def parse : Protocol → Data → Option Callback
  | .chat, data => (parseChatCallback data).map fun x => .chat x.1 x.2
  | .event, data => (parseEventCallback data).map fun x => .event x.1 x.2
  | .direct, data => (parseDirectCallback data).map fun x => .direct x.1 x.2
  | .review, data => (parseReviewCallback data).map fun x => .review x.1 x.2
  | .reviewEdit, data => (parseReviewEditCallback data).map .reviewEdit
  | .discover, data => (parseDiscoverCallback data).map .discover
  | .back, data => (parseBackCallback data).map fun x => .back x.1 x.2
  | .myEvents, data => (parseMyEventsCallback data).map .myEvents
  | .wallet, data => (parseWalletCallback data).map .wallet
  | .trust, data => (parseTrustCallback data).map .trust
  | .policy, data => (parsePolicyCallback data).map fun x => .policy x.1 x.2
  | .guide, data => (parseGuideCallback data).map .guide
  | .wizard, data => (parseWizardCallback data).map fun x => .wizard x.1 x.2

/-- The values a button may say. -/
def Callback.InDomain : Callback → Prop
  | .chat action id => action ∈ CHAT_CALLBACK_ACTIONS ∧ isPublicId id = true
  | .event action id => action ∈ EVENT_CALLBACK_ACTIONS ∧ isPublicId id = true
  | .direct action id => action ∈ DIRECT_CALLBACK_ACTIONS ∧ isPublicId id = true
  | .review rating id => rating ∈ REVIEW_RATINGS ∧ isPublicId id = true
  | .reviewEdit id => isPublicId id = true
  | .discover f => f.when ∈ DISCOVER_WHEN ∧ f.cost ∈ DISCOVER_COST ∧ f.page ≤ MAX_PAGE ∧
      f.view ∈ DISCOVER_VIEWS ∧ ∀ id, f.categoryId = some id → isPublicId id = true
  | .back target commandMessageId => target ∈ BACK_TARGETS ∧ commandMessageId ≠ some 0
  | .myEvents page | .wallet page | .trust page => page ≤ MAX_PAGE
  | .policy doc page => doc ∈ POLICY_DOC_LETTERS ∧ page ≤ MAX_PAGE
  | .guide (.guide slug) => isSlug slug = true
  | .guide _ => True
  | .wizard action value => isToken action = true ∧ isEncodable value = true

/-! ## Fields without colons, and their lengths -/

section Fields

variable {data head action id : Data} {actions : List Data} {c : Char} {p : Char → Bool}

theorem splitOn_joined (hhead : ':' ∉ head) (haction : ':' ∉ action) (hid : ':' ∉ id) :
    (joined head action id).splitOn ':' = [head, action, id] :=
  splitOn_eq_three.2 ⟨rfl, hhead, haction, hid⟩

theorem all_plain (hp : p ':' = false) (h : data.all p = true) : ':' ∉ data := by
  intro hmem
  rw [List.all_eq_true.1 h ':' hmem] at hp
  cases hp

theorem byteLength_joined : byteLength (joined head action id) =
    byteLength head + byteLength action + byteLength id + 2 := by
  simp only [byteLength, joined, List.map_append, List.map_cons, List.sum_append, List.sum_cons,
    show Char.utf8Size ':' = 1 from rfl]
  omega

theorem byteLength_ascii (hp : ∀ c, p c = true → c ≤ 'z') (h : data.all p = true) :
    byteLength data = data.length := by
  induction data with
  | nil => rfl
  | cons c data ih =>
      rw [List.all_cons, Bool.and_eq_true] at h
      have hone : c.utf8Size = 1 :=
        Char.utf8Size_eq_one_iff.2 (UInt32.le_trans (hp c h.1) (by decide))
      have hrest := ih h.2
      simp only [byteLength, List.map_cons, List.sum_cons, List.length_cons] at hrest ⊢
      omega

theorem guardLength_of_le (h : byteLength data ≤ MAX_BYTES) : guardLength data = some data :=
  if_neg (Nat.not_lt.2 h)

theorem guardLength_some {s : Data} (h : guardLength data = some s) :
    s = data ∧ byteLength data ≤ MAX_BYTES := by
  unfold guardLength at h
  split at h
  · cases h
  · next hle => exact ⟨(Option.some.inj h).symm, Nat.not_lt.1 hle⟩

theorem le_z_of_isDigit (h : c.isDigit = true) : c ≤ 'z' := by
  simp only [Char.isDigit, Bool.and_eq_true, decide_eq_true_eq] at h
  exact UInt32.le_trans h.2 (by decide)

theorem le_z_of_isHexDigit (h : isHexDigit c = true) : c ≤ 'z' := by
  simp only [isHexDigit, Bool.or_eq_true, Bool.and_eq_true, decide_eq_true_eq] at h
  rcases h with (h | h) | h
  · exact le_z_of_isDigit h
  · exact Char.le_trans h.2 (by decide)
  · exact Char.le_trans h.2 (by decide)

theorem le_z_of_isLowerOrDigit (h : isLowerOrDigit c = true) : c ≤ 'z' := by
  simp only [isLowerOrDigit, Bool.or_eq_true, Bool.and_eq_true, decide_eq_true_eq] at h
  rcases h with h | h
  · exact le_z_of_isDigit h
  · exact h.2

theorem publicId_chars (h : isPublicId id = true) :
    (id.all fun c => isHexDigit c || c == '-') = true ∧ id.length = 36 := by
  simp only [isPublicId, Bool.and_eq_true, decide_eq_true_eq] at h
  exact ⟨h.1.2, h.1.1⟩

theorem publicId_plain (h : isPublicId id = true) : ':' ∉ id :=
  all_plain (by decide) (publicId_chars h).1

theorem byteLength_publicId (h : isPublicId id = true) : byteLength id = 36 := by
  rw [byteLength_ascii (fun c hc => ?_) (publicId_chars h).1, (publicId_chars h).2]
  simp only [Bool.or_eq_true, beq_iff_eq] at hc
  rcases hc with hc | rfl
  · exact le_z_of_isHexDigit hc
  · decide

/-- What the parsers of an action and an id accept. -/
theorem parseAction_iff (hhead : ':' ∉ head) (hactions : ∀ a ∈ actions, ':' ∉ a) :
    parseAction head actions data = some (action, id) ↔
      joined head action id = data ∧ action ∈ actions ∧ isPublicId id = true := by
  unfold parseAction
  constructor
  · intro h
    split at h
    · next pfx a i hsplit =>
        split at h
        · next hok =>
            obtain ⟨rfl, rfl⟩ := Prod.mk.inj (Option.some.inj h)
            exact ⟨hok.1 ▸ (splitOn_eq_three.1 hsplit).1, hok.2.2, hok.2.1⟩
        · cases h
    · cases h
  · rintro ⟨rfl, haction, hid⟩
    rw [splitOn_joined hhead (hactions action haction) (publicId_plain hid)]
    exact if_pos ⟨rfl, hid, haction⟩

theorem encodeAction_eq (hshort : byteLength head + byteLength action ≤ 26)
    (hid : isPublicId id = true) :
    encodeAction head action id = some (joined head action id) ∧
      byteLength (joined head action id) ≤ MAX_BYTES := by
  have hlen : byteLength (joined head action id) ≤ MAX_BYTES := by
    rw [byteLength_joined, byteLength_publicId hid, MAX_BYTES]
    omega
  exact ⟨guardLength_of_le hlen, hlen⟩

end Fields

/-! ## Digits -/

section Digits

variable {c : Char} {n : Nat} {field ds : Data}

theorem base36_idxOf : ∀ n : Fin 36, BASE36.idxOf? (BASE36.getD n '0') = some n.val := by
  decide

theorem encodePage_of_le (h : n ≤ MAX_PAGE) : encodePage n = [BASE36.getD n '0'] := by
  have hclamp : (min (max (n : Int) 0) MAX_PAGE).toNat = n := by
    have hle : n ≤ 35 := h
    simp only [MAX_PAGE]
    omega
  rw [encodePage, hclamp]

theorem decodeDigit_encodePage (h : n ≤ MAX_PAGE) : decodeDigit (encodePage n) = some n := by
  rw [encodePage_of_le h]
  have hidx : BASE36.idxOf? (BASE36.getD n '0') = some n :=
    base36_idxOf ⟨n, Nat.lt_succ_of_le h⟩
  rw [decodeDigit, hidx]
  exact Option.filter_some_pos (by simpa using h)

/-- A digit has one spelling. -/
theorem decodeDigit_some (h : decodeDigit field = some n) :
    n ≤ MAX_PAGE ∧ encodePage n = field := by
  unfold decodeDigit at h
  split at h
  · next c =>
      rw [Option.filter_eq_some_iff] at h
      obtain ⟨hidx, hle⟩ := h
      have hle' : n ≤ MAX_PAGE := by simpa using hle
      refine ⟨hle', ?_⟩
      rw [encodePage_of_le hle']
      obtain ⟨hlt, hget, -⟩ := List.findIdx?_eq_some_iff_getElem.1 hidx
      rw [List.getD_eq_getElem _ _ hlt]
      exact congrArg (fun x => [x]) (by simpa using hget)
  · cases h

theorem encodePage_plain : ':' ∉ encodePage n ∧ byteLength (encodePage n) = 1 := by
  have hall : ∀ k : Fin 36, BASE36.getD k '0' ≠ ':' ∧ (BASE36.getD k '0').utf8Size = 1 := by decide
  have hlt : (min (max (n : Int) 0) MAX_PAGE).toNat < 36 := by
    simp only [MAX_PAGE]
    omega
  obtain ⟨hne, hone⟩ := hall ⟨_, hlt⟩
  refine ⟨fun hmem => hne (List.mem_singleton.1 hmem).symm, ?_⟩
  simp only [encodePage, byteLength, List.map_cons, List.map_nil, List.sum_cons, List.sum_nil]
  exact hone

/-- No leading zero. -/
def Plain10 (ds : Data) : Prop := ds = ['0'] ∨ ds.head? ≠ some '0'

/-- Digits without a leading zero are those of their value. -/
theorem toDigits_ofDigitChars (hall : ds.all Char.isDigit = true) (hne : ds ≠ [])
    (hhead : ds.head? ≠ some '0') :
    Nat.toDigits 10 (Nat.ofDigitChars 10 ds 0) = ds ∧ 0 < Nat.ofDigitChars 10 ds 0 := by
  induction ds using List.reverseRecOn with
  | nil => exact absurd rfl hne
  | append_singleton ds c ih =>
      rw [List.all_append, Bool.and_eq_true, List.all_cons, List.all_nil, Bool.and_true] at hall
      obtain ⟨hdigit, hlt, hpos⟩ := digitChar_toNat hall.2
      rw [ofDigitChars_concat]
      by_cases hnil : ds = []
      · subst hnil
        have hc : c ≠ '0' := fun heq => hhead (by rw [heq]; rfl)
        have hpos' := hpos hc
        rw [Nat.ofDigitChars_nil, Nat.mul_zero, Nat.zero_add, Nat.toDigits_of_lt_base hlt, hdigit]
        exact ⟨rfl, hpos'⟩
      · rw [List.head?_append_of_ne_nil ds hnil] at hhead
        obtain ⟨hds, hdspos⟩ := ih hall.1 hnil hhead
        refine ⟨?_, by omega⟩
        rw [← Nat.toDigits_append_toDigits (by omega) hdspos hlt, hds,
          Nat.toDigits_of_lt_base hlt, hdigit]

/-- The digits of a number have no leading zero. -/
theorem head_toDigits (h : 0 < n) : (Nat.toDigits 10 n).head? ≠ some '0' := by
  induction n using Nat.strongRecOn with
  | ind n ih =>
      by_cases hlt : n < 10
      · have hall : ∀ k : Fin 10, k.val ≠ 0 → Nat.digitChar k ≠ '0' := by decide
        rw [Nat.toDigits_of_lt_base hlt]
        intro heq
        exact hall ⟨n, hlt⟩ (by simp only; omega) (Option.some.inj heq)
      · rw [Nat.toDigits_of_base_le (by omega) (by omega),
          List.head?_append_of_ne_nil _ Nat.toDigits_ne_nil]
        exact ih (n / 10) (by omega) (by omega)

theorem toDigits_all : (Nat.toDigits 10 n).all Char.isDigit = true := by
  rw [List.all_eq_true]
  exact fun c hc => Nat.isDigit_of_mem_toDigits (by omega) (by omega) hc

theorem toDigits_plain : ':' ∉ Nat.toDigits 10 n := all_plain (by decide) toDigits_all

theorem byteLength_toDigits : byteLength (Nat.toDigits 10 n) = (Nat.toDigits 10 n).length :=
  byteLength_ascii (fun _ => le_z_of_isDigit) toDigits_all

end Digits

/-! ## Protocol by protocol -/

/-- A field of the string, counted from 0. -/
def field (data : Data) (n : Nat) : Data := (data.splitOn ':').getD n []

section Protocols

variable {data head action id : Data} {n : Nat}

theorem field_joined (hhead : ':' ∉ head) (haction : ':' ∉ action) (hid : ':' ∉ id) :
    field (joined head action id) 0 = head ∧ field (joined head action id) 1 = action ∧
      field (joined head action id) 2 = id := by
  unfold field
  rw [splitOn_joined hhead haction hid]
  exact ⟨rfl, rfl, rfl⟩

/-- The tokens of the three protocols of an action have no colon, and leave room for the id. -/
theorem actions_plain :
    (∀ a ∈ CHAT_CALLBACK_ACTIONS, ':' ∉ a ∧ byteLength "chat".toList + byteLength a ≤ 26) ∧
    (∀ a ∈ EVENT_CALLBACK_ACTIONS, ':' ∉ a ∧ byteLength "ev".toList + byteLength a ≤ 26) ∧
    ∀ a ∈ DIRECT_CALLBACK_ACTIONS, ':' ∉ a ∧ byteLength "dm".toList + byteLength a ≤ 26 := by
  decide

theorem edit_plain : ':' ∉ "rv".toList ∧ ∀ a ∈ ["edit".toList], ':' ∉ a ∧
    byteLength "rv".toList + byteLength a ≤ 26 := by
  decide

theorem ratings_plain : ∀ r ∈ REVIEW_RATINGS, ':' ∉ ratingAction r ∧
    byteLength "rv".toList + byteLength (ratingAction r) ≤ 26 ∧
    "rate".toList.isPrefixOf (ratingAction r) = true ∧
    (REVIEW_RATINGS.find? fun n => isNumber ((ratingAction r).drop 4) n) = some r := by
  decide +kernel

theorem parseReview_some {rating : Nat} (h : parseReviewCallback data = some (rating, id)) :
    rating ∈ REVIEW_RATINGS ∧ isPublicId id = true ∧
      ∃ action, joined "rv".toList action id = data ∧ ':' ∉ action ∧
        "rate".toList.isPrefixOf action = true ∧
        (REVIEW_RATINGS.find? fun n => isNumber (action.drop 4) n) = some rating := by
  unfold parseReviewCallback at h
  split at h
  · next pfx action i hsplit =>
      split at h
      · next hok =>
          obtain ⟨hpfx, hid, hrate⟩ := hok
          obtain ⟨r, hfind, hr⟩ := Option.map_eq_some_iff.1 h
          obtain ⟨rfl, rfl⟩ := Prod.mk.inj hr
          obtain ⟨hdata, -, haction, -⟩ := splitOn_eq_three.1 hsplit
          exact ⟨List.mem_of_find?_eq_some hfind, hid, action, hpfx ▸ hdata, haction, hrate, hfind⟩
      · cases h
  · cases h

theorem parseReview_encode {rating : Nat} (hrating : rating ∈ REVIEW_RATINGS)
    (hid : isPublicId id = true) :
    parseReviewCallback (joined "rv".toList (ratingAction rating) id) = some (rating, id) := by
  obtain ⟨hplain, -, hrate, hfind⟩ := ratings_plain rating hrating
  unfold parseReviewCallback
  rw [splitOn_joined (by decide) hplain (publicId_plain hid)]
  show (if _ then _ else none) = _
  rw [if_pos ⟨rfl, hid, hrate⟩, hfind]
  rfl

theorem parsePaging_some (h : parsePaging head data = some n) :
    n ≤ MAX_PAGE ∧ ∃ x, joined head (encodePage n) x = data ∧ ':' ∉ x ∧ ':' ∉ head := by
  unfold parsePaging at h
  split at h
  · next pfx page x hsplit =>
      split at h
      · next hpfx =>
          obtain ⟨hle, hpage⟩ := decodeDigit_some h
          obtain ⟨hdata, hhead, -, hx⟩ := splitOn_eq_three.1 hsplit
          exact ⟨hle, x, by rw [hpage, ← hpfx]; exact hdata, hx, hpfx ▸ hhead⟩
      · cases h
  · cases h

theorem parsePaging_encode (hhead : ':' ∉ head) (h : n ≤ MAX_PAGE) :
    parsePaging head (encodePaging head n) = some n := by
  unfold parsePaging encodePaging
  rw [splitOn_joined hhead encodePage_plain.1 (by decide)]
  show (if _ then _ else none) = _
  rw [if_pos rfl, decodeDigit_encodePage h]

theorem docs_plain : ∀ d ∈ POLICY_DOC_LETTERS, ':' ∉ d ∧ byteLength d = 1 := by decide

theorem parsePolicy_iff {doc : Data} : parsePolicyCallback data = some (doc, n) ↔
    encodePolicyCallback doc n = data ∧ doc ∈ POLICY_DOC_LETTERS ∧ n ≤ MAX_PAGE := by
  unfold parsePolicyCallback encodePolicyCallback
  constructor
  · intro h
    split at h
    · next pfx d page hsplit =>
        split at h
        · next hok =>
            obtain ⟨p, hp, heq⟩ := Option.map_eq_some_iff.1 h
            obtain ⟨rfl, rfl⟩ := Prod.mk.inj heq
            obtain ⟨hle, hpage⟩ := decodeDigit_some hp
            refine ⟨?_, hok.2, hle⟩
            rw [hpage, ← hok.1]
            exact (splitOn_eq_three.1 hsplit).1
        · cases h
    · cases h
  · rintro ⟨rfl, hdoc, hle⟩
    rw [splitOn_joined (by decide) (docs_plain doc hdoc).1 encodePage_plain.1]
    show (if _ then _ else none) = _
    rw [if_pos ⟨rfl, hdoc⟩, decodeDigit_encodePage hle]
    rfl

theorem slug_plain {slug : Data} (h : isSlug slug = true) :
    ':' ∉ slug ∧ byteLength slug ≤ 40 := by
  simp only [isSlug, Bool.and_eq_true, decide_eq_true_eq] at h
  refine ⟨all_plain (by decide) h.2, ?_⟩
  rw [byteLength_ascii (fun c hc => ?_) h.2]
  · exact h.1.2
  · simp only [Bool.or_eq_true, beq_iff_eq] at hc
    rcases hc with (hc | rfl) | rfl
    · exact le_z_of_isLowerOrDigit hc
    · decide
    · decide

theorem parseGuide_iff {callback : GuideCallback} : parseGuideCallback data = some callback ↔
    encodeGuideCallback callback = data ∧ (Callback.guide callback).InDomain := by
  unfold parseGuideCallback
  constructor
  · intro h
    split at h
    · next pfx kind hsplit =>
        obtain ⟨hdata, -⟩ := splitOn_eq_two.1 hsplit
        split at h
        · next hpfx =>
            split at h
            · next hkind =>
                obtain rfl := Option.some.inj h
                exact ⟨by rw [← hdata, hpfx, hkind]; rfl, trivial⟩
            · split at h
              · next hkind =>
                  obtain rfl := Option.some.inj h
                  exact ⟨by rw [← hdata, hpfx, hkind]; rfl, trivial⟩
              · cases h
        · cases h
    · next pfx kind slug hsplit =>
        obtain ⟨hdata, -⟩ := splitOn_eq_three.1 hsplit
        split at h
        · next hok =>
            obtain rfl := Option.some.inj h
            exact ⟨by rw [← hdata, hok.1, hok.2.1]; rfl, hok.2.2⟩
        · cases h
    · cases h
  · rintro ⟨rfl, hdomain⟩
    cases callback with
    | index => decide
    | commands => decide
    | guide slug =>
        rw [encodeGuideCallback, splitOn_joined (by decide) (by decide) (slug_plain hdomain).1]
        exact if_pos ⟨rfl, rfl, hdomain⟩

theorem token_plain (h : isToken action = true) : ':' ∉ action ∧ byteLength action ≤ 16 := by
  simp only [isToken, Bool.and_eq_true, decide_eq_true_eq] at h
  refine ⟨all_plain (by decide) h.2, ?_⟩
  rw [byteLength_ascii (fun c hc => ?_) h.2]
  · exact h.1.2
  · simp only [Bool.or_eq_true, beq_iff_eq] at hc
    rcases hc with hc | rfl
    · exact le_z_of_isLowerOrDigit hc
    · decide

theorem encodable_plain {value : Data} (h : isEncodable value = true) :
    ':' ∉ value ∧ byteLength value ≤ 40 := by
  simp only [isEncodable, Bool.and_eq_true, decide_eq_true_eq] at h
  refine ⟨all_plain (by decide) h.2, ?_⟩
  rw [byteLength_ascii (fun c hc => ?_) h.2]
  · exact h.1
  · simp only [Bool.or_eq_true, Bool.and_eq_true, decide_eq_true_eq, beq_iff_eq] at hc
    rcases hc with (((hc | hc) | rfl) | rfl) | rfl
    · exact le_z_of_isLowerOrDigit hc
    · exact Char.le_trans hc.2 (by decide)
    · decide
    · decide
    · decide

theorem encodeWizard_eq {value : Data} (haction : isToken action = true)
    (hvalue : isEncodable value = true) :
    encodeWizardCallback action value = some (joined "wz".toList action value) ∧
      byteLength (joined "wz".toList action value) ≤ MAX_BYTES := by
  have hlen : byteLength (joined "wz".toList action value) ≤ MAX_BYTES := by
    have ha := (token_plain haction).2
    have hv := (encodable_plain hvalue).2
    have hw : byteLength "wz".toList = 2 := by decide
    rw [byteLength_joined, MAX_BYTES]
    omega
  exact ⟨by rw [encodeWizardCallback, if_pos ⟨haction, hvalue⟩, guardLength_of_le hlen], hlen⟩

theorem parseWizard_iff {value : Data} : parseWizardCallback data = some (action, value) ↔
    joined "wz".toList action value = data ∧ isToken action = true ∧ isEncodable value = true := by
  unfold parseWizardCallback
  constructor
  · intro h
    split at h
    · next pfx a v hsplit =>
        split at h
        · next hok =>
            obtain ⟨rfl, rfl⟩ := Prod.mk.inj (Option.some.inj h)
            exact ⟨hok.1 ▸ (splitOn_eq_three.1 hsplit).1, hok.2⟩
        · cases h
    · cases h
  · rintro ⟨rfl, haction, hvalue⟩
    rw [splitOn_joined (by decide) (token_plain haction).1 (encodable_plain hvalue).1]
    exact if_pos ⟨rfl, haction, hvalue⟩

theorem category_plain {category : Option Data}
    (h : ∀ id, category = some id → isPublicId id = true) :
    ':' ∉ category.getD ANY_CATEGORY ∧ byteLength (category.getD ANY_CATEGORY) ≤ 36 ∧
      parseCategory (category.getD ANY_CATEGORY) = some category := by
  cases category with
  | none => decide
  | some id =>
      have hid := h id rfl
      have hne : id ≠ ANY_CATEGORY := by
        intro heq
        have hlen := (publicId_chars hid).2
        rw [heq] at hlen
        exact absurd hlen (by decide)
      refine ⟨publicId_plain hid, Nat.le_of_eq (byteLength_publicId hid), ?_⟩
      show parseCategory id = some (some id)
      rw [parseCategory, if_neg hne, if_pos hid]

theorem parseCategory_some {category : Data} {o : Option Data}
    (h : parseCategory category = some o) :
    o.getD ANY_CATEGORY = category ∧ ∀ id, o = some id → isPublicId id = true := by
  unfold parseCategory at h
  split at h
  · next hany =>
      obtain rfl := Option.some.inj h
      exact ⟨hany.symm, nofun⟩
  · split at h
    · next hid =>
        obtain rfl := Option.some.inj h
        exact ⟨rfl, fun id heq => Option.some.inj heq ▸ hid⟩
    · cases h

theorem discoverFlags_eq {f : DiscoverFilters} (h : f.page ≤ MAX_PAGE) : discoverFlags f =
    [f.when, f.cost, BASE36.getD f.page '0', f.view, if f.age then 'y' else 'n'] := by
  rw [discoverFlags, encodePage_of_le h]
  rfl

theorem discoverFlags_plain {f : DiscoverFilters} (h : (Callback.discover f).InDomain) :
    ':' ∉ discoverFlags f ∧ byteLength (discoverFlags f) = 5 ∧ (discoverFlags f).length = 5 := by
  obtain ⟨hwhen, hcost, hpage, hview, -⟩ := h
  have hnarrow : ∀ c ∈ DISCOVER_WHEN ++ DISCOVER_COST ++ DISCOVER_VIEWS ++ ['y', 'n'] ++ BASE36,
      c ≠ ':' ∧ c.utf8Size = 1 := by
    have hall : ((DISCOVER_WHEN ++ DISCOVER_COST ++ DISCOVER_VIEWS ++ ['y', 'n'] ++ BASE36).all
        fun c => c != ':' && c.utf8Size == 1) = true := by decide
    simpa using List.all_eq_true.1 hall
  have hw := hnarrow f.when (by simp [hwhen])
  have hc := hnarrow f.cost (by simp [hcost])
  have hv := hnarrow f.view (by simp [hview])
  have ha := hnarrow (if f.age then 'y' else 'n') (by cases f.age <;> simp)
  have hlt : f.page < BASE36.length := Nat.lt_succ_of_le hpage
  have hp := hnarrow (BASE36.getD f.page '0') (by
    rw [List.getD_eq_getElem _ _ hlt]
    exact List.mem_append_right _ (List.getElem_mem hlt))
  rw [discoverFlags_eq hpage]
  refine ⟨fun hmem => ?_, ?_, rfl⟩
  · simp only [List.mem_cons, List.not_mem_nil, or_false] at hmem
    rcases hmem with heq | heq | heq | heq | heq
    · exact hw.1 heq.symm
    · exact hc.1 heq.symm
    · exact hp.1 heq.symm
    · exact hv.1 heq.symm
    · exact ha.1 heq.symm
  · simp only [byteLength, List.map_cons, List.map_nil, List.sum_cons, List.sum_nil, hw.2, hc.2,
      hp.2, hv.2, ha.2]
    rfl

theorem oneOf_some {allowed : List Char} {c : Option Char} {d : Char} :
    oneOf allowed c = some d ↔ c = some d ∧ d ∈ allowed := by
  cases c with
  | none => simp [oneOf]
  | some c =>
      simp only [oneOf, Option.ite_none_right_eq_some, Option.some.injEq]
      exact ⟨fun h => ⟨h.2, h.2 ▸ h.1⟩, fun h => ⟨h.1 ▸ h.2, h.1⟩⟩

theorem flagOr_some {default c d : Char} {allowed : List Char} :
    flagOr default allowed (some c) = some d ↔ c = d ∧ d ∈ allowed := by
  simp only [flagOr, Option.ite_none_right_eq_some, Option.some.injEq]
  exact ⟨fun h => ⟨h.2, h.2 ▸ h.1⟩, fun h => ⟨h.1 ▸ h.2, h.1⟩⟩

theorem parseFlags_eq_some {flags : Data} {o : Option Data} {f : DiscoverFilters} :
    parseFlags flags o = some f ↔ oneOf DISCOVER_WHEN flags[0]? = some f.when ∧
      oneOf DISCOVER_COST flags[1]? = some f.cost ∧ decodePage flags[2]? = some f.page ∧
      flagOr 'l' DISCOVER_VIEWS flags[3]? = some f.view ∧
      (∃ age, flagOr 'n' ['y', 'n'] flags[4]? = some age ∧ f.age = (age == 'y')) ∧
      f.categoryId = o := by
  simp only [parseFlags, Option.bind_eq_bind, Option.bind_eq_some_iff, Option.pure_def,
    Option.some.injEq]
  constructor
  · rintro ⟨when, hwhen, cost, hcost, page, hpage, view, hview, age, hage, rfl⟩
    exact ⟨hwhen, hcost, hpage, hview, ⟨age, hage, rfl⟩, rfl⟩
  · rintro ⟨hwhen, hcost, hpage, hview, ⟨age, hage, heq⟩, rfl⟩
    exact ⟨_, hwhen, _, hcost, _, hpage, _, hview, age, hage, by rw [← heq]⟩

theorem parseFlags_encode {f : DiscoverFilters} (h : (Callback.discover f).InDomain) :
    parseFlags (discoverFlags f) f.categoryId = some f := by
  obtain ⟨hwhen, hcost, hpage, hview, -⟩ := h
  rw [discoverFlags_eq hpage, parseFlags_eq_some]
  refine ⟨oneOf_some.2 ⟨rfl, hwhen⟩, oneOf_some.2 ⟨rfl, hcost⟩, ?_, flagOr_some.2 ⟨rfl, hview⟩,
    ⟨if f.age then 'y' else 'n', flagOr_some.2 ⟨rfl, ?_⟩, ?_⟩, rfl⟩
  · show decodeDigit [BASE36.getD f.page '0'] = some f.page
    rw [← encodePage_of_le hpage]
    exact decodeDigit_encodePage hpage
  · cases f.age <;> decide
  · cases f.age <;> decide

/-- What a string of flags says; five of them say it in one way. -/
theorem parseFlags_some {flags : Data} {o : Option Data} {f : DiscoverFilters}
    (ho : ∀ id, o = some id → isPublicId id = true) (hle : flags.length ≤ 5)
    (h : parseFlags flags o = some f) :
    (Callback.discover f).InDomain ∧ f.categoryId = o ∧
      (5 ≤ flags.length → discoverFlags f = flags) := by
  obtain ⟨hwhen, hcost, hpage, hview, ⟨age, hage, hyes⟩, rfl⟩ := parseFlags_eq_some.1 h
  obtain ⟨hw, hwhenOk⟩ := oneOf_some.1 hwhen
  obtain ⟨hc, hcostOk⟩ := oneOf_some.1 hcost
  have hpageOk : f.page ≤ MAX_PAGE := by
    cases hflag : flags[2]? with
    | none =>
        rw [hflag] at hpage
        exact Option.some.inj hpage ▸ Nat.zero_le _
    | some p =>
        rw [hflag] at hpage
        exact (decodeDigit_some (show decodeDigit [p] = some f.page from hpage)).1
  have hviewOk : f.view ∈ DISCOVER_VIEWS := by
    cases hflag : flags[3]? with
    | none =>
        rw [hflag] at hview
        exact Option.some.inj hview ▸ by decide
    | some v =>
        rw [hflag] at hview
        exact (flagOr_some.1 hview).2
  refine ⟨⟨hwhenOk, hcostOk, hpageOk, hviewOk, ho⟩, rfl, fun hfive => ?_⟩
  match flags, hle, hfive with
  | [w, c, p, v, a], _, _ =>
      obtain rfl : w = f.when := Option.some.inj hw
      obtain rfl : c = f.cost := Option.some.inj hc
      have hdigit : decodeDigit [p] = some f.page := hpage
      have hp : encodePage f.page = [p] := (decodeDigit_some hdigit).2
      obtain ⟨rfl, -⟩ := flagOr_some.1 hview
      obtain ⟨rfl, hmem⟩ := flagOr_some.1 hage
      have ha : (if f.age then 'y' else 'n') = a := by
        rw [hyes]
        rcases List.mem_cons.1 hmem with rfl | hmem
        · rfl
        · obtain rfl := List.mem_singleton.1 hmem
          rfl
      rw [discoverFlags, hp, ha]
      rfl

theorem encodeDiscover_eq {f : DiscoverFilters} (h : (Callback.discover f).InDomain) :
    encodeDiscoverCallback f =
        some (joined "dc".toList (discoverFlags f) (f.categoryId.getD ANY_CATEGORY)) ∧
      byteLength (joined "dc".toList (discoverFlags f) (f.categoryId.getD ANY_CATEGORY)) ≤
        MAX_BYTES := by
  have hlen : byteLength (joined "dc".toList (discoverFlags f) (f.categoryId.getD ANY_CATEGORY)) ≤
      MAX_BYTES := by
    have hflags := (discoverFlags_plain h).2.1
    have hcategory := (category_plain h.2.2.2.2).2.1
    have hhead : byteLength "dc".toList = 2 := by decide
    rw [byteLength_joined, MAX_BYTES]
    omega
  exact ⟨guardLength_of_le hlen, hlen⟩

theorem parseDiscover_encode {f : DiscoverFilters} (h : (Callback.discover f).InDomain) :
    parseDiscoverCallback
      (joined "dc".toList (discoverFlags f) (f.categoryId.getD ANY_CATEGORY)) = some f := by
  obtain ⟨hplain, -, hfive⟩ := discoverFlags_plain h
  obtain ⟨hcategory, -, hparse⟩ := category_plain h.2.2.2.2
  unfold parseDiscoverCallback
  rw [splitOn_joined (by decide) hplain hcategory]
  show (if _ then _ else none) = _
  rw [if_pos ⟨rfl, by omega, by omega⟩, hparse]
  exact parseFlags_encode h

theorem parseDiscover_some {f : DiscoverFilters} (h : parseDiscoverCallback data = some f) :
    (Callback.discover f).InDomain ∧ ∃ flags,
      joined "dc".toList flags (f.categoryId.getD ANY_CATEGORY) = data ∧ ':' ∉ flags ∧
        (5 ≤ flags.length → discoverFlags f = flags) := by
  unfold parseDiscoverCallback at h
  split at h
  · next pfx flags category hsplit =>
      obtain ⟨hdata, -, hflags, -⟩ := splitOn_eq_three.1 hsplit
      split at h
      · next hok =>
          obtain ⟨o, ho, hparse⟩ := Option.bind_eq_some_iff.1 h
          obtain ⟨hcategory, hid⟩ := parseCategory_some ho
          obtain ⟨hdomain, hsame, hfive⟩ := parseFlags_some hid hok.2.2 hparse
          refine ⟨hdomain, flags, ?_, hflags, hfive⟩
          rw [hsame, hcategory, ← hok.1]
          exact hdata
      · cases h
  · cases h

/-! ## Going back -/

theorem targets_plain : ∀ t ∈ BACK_TARGETS, ':' ∉ t ∧ byteLength t = 1 := by decide

theorem parseBack_iff {target : Data} {o : Option Nat} : parseBackCallback data = some (target, o) ↔
    target ∈ BACK_TARGETS ∧ ∃ id, joined "bk".toList target id = data ∧ 1 ≤ id.length ∧
      id.length ≤ 12 ∧ id.all Char.isDigit = true ∧
      o = if Nat.ofDigitChars 10 id 0 = 0 then none else some (Nat.ofDigitChars 10 id 0) := by
  unfold parseBackCallback
  constructor
  · intro h
    split at h
    · next pfx t id hsplit =>
        split at h
        · next hok =>
            obtain ⟨hpfx, htarget, hone, htwelve, hdigits⟩ := hok
            obtain ⟨rfl, rfl⟩ := Prod.mk.inj (Option.some.inj h)
            exact ⟨htarget, id, hpfx ▸ (splitOn_eq_three.1 hsplit).1, hone, htwelve, hdigits, rfl⟩
        · cases h
    · cases h
  · rintro ⟨htarget, id, rfl, hone, htwelve, hdigits, rfl⟩
    rw [splitOn_joined (by decide) (targets_plain target htarget).1
      (all_plain (by decide) hdigits)]
    exact if_pos ⟨rfl, htarget, hone, htwelve, hdigits⟩

end Protocols

/-! ## All protocols -/

/-- The value is read back from its encoding, which Telegram takes. -/
def Callback.RoundTrips (v : Callback) : Prop :=
  ∃ s, encode v = some s ∧ byteLength s ≤ MAX_BYTES ∧ parse v.protocol s = some v

/-- A message id of at most twelve digits. -/
def Callback.Short : Callback → Prop
  | .back _ (some n) => n < 10 ^ 12
  | _ => True

/-- A shape of discovery that only older buttons have. -/
def Legacy (p : Protocol) (s : Data) : Prop := p = .discover ∧ (field s 1).length < 5

/-- The one spelling: a rating is its digit, the field that a page does not need is `x`, and a
    message id has no leading zero. -/
def Canonical : Protocol → Data → Prop
  | .review, s => field s 1 ∈ REVIEW_RATINGS.map ratingAction
  | .myEvents, s | .wallet, s | .trust, s => field s 2 = "x".toList
  | .back, s => Plain10 (field s 2)
  | _, _ => True

def Protocol.head : Protocol → Data
  | .chat => "chat".toList
  | .event => "ev".toList
  | .direct => "dm".toList
  | .review | .reviewEdit => "rv".toList
  | .discover => "dc".toList
  | .back => "bk".toList
  | .myEvents => "mv".toList
  | .wallet => "wl".toList
  | .trust => "ts".toList
  | .policy => "pl".toList
  | .guide => "gd".toList
  | .wizard => "wz".toList

section All

variable {p q : Protocol} {s head action id : Data} {actions : List Data} {v : Callback} {n : Nat}

theorem head_plain : ∀ p : Protocol, ':' ∉ p.head ∧ byteLength p.head ≤ 4 := by
  intro p
  cases p <;> decide

theorem action_roundTrips (hhead : ':' ∉ head)
    (hactions : ∀ a ∈ actions, ':' ∉ a ∧ byteLength head + byteLength a ≤ 26)
    (haction : action ∈ actions) (hid : isPublicId id = true) :
    ∃ s, encodeAction head action id = some s ∧ byteLength s ≤ MAX_BYTES ∧
      parseAction head actions s = some (action, id) := by
  obtain ⟨hencode, hlen⟩ := encodeAction_eq (hactions action haction).2 hid
  exact ⟨_, hencode, hlen, (parseAction_iff hhead fun a ha => (hactions a ha).1).2
    ⟨rfl, haction, hid⟩⟩

/-- What an action's parser accepts is the encoding of what it returns. -/
theorem action_exact (hhead : ':' ∉ head)
    (hactions : ∀ a ∈ actions, ':' ∉ a ∧ byteLength head + byteLength a ≤ 26)
    (h : parseAction head actions s = some (action, id)) :
    (action ∈ actions ∧ isPublicId id = true) ∧ encodeAction head action id = some s := by
  obtain ⟨rfl, haction, hid⟩ := (parseAction_iff hhead fun a ha => (hactions a ha).1).1 h
  exact ⟨⟨haction, hid⟩, (encodeAction_eq (hactions action haction).2 hid).1⟩

theorem paging_roundTrips (hhead : ':' ∉ head) (hlen : byteLength head ≤ 4) (h : n ≤ MAX_PAGE) :
    byteLength (encodePaging head n) ≤ MAX_BYTES ∧
      parsePaging head (encodePaging head n) = some n := by
  refine ⟨?_, parsePaging_encode hhead h⟩
  have hx : byteLength "x".toList = 1 := by decide
  have hpage := (encodePage_plain (n := n)).2
  rw [encodePaging, byteLength_joined, MAX_BYTES]
  omega

/-- The third field is what a second spelling of a page differs in. -/
theorem paging_exact (h : parsePaging head s = some n) :
    n ≤ MAX_PAGE ∧ (some (encodePaging head n) = some s ↔ field s 2 = "x".toList) := by
  obtain ⟨hle, x, rfl, hx, hhead⟩ := parsePaging_some h
  have hpage := (encodePage_plain (n := n)).1
  have hthird := (field_joined hhead hpage hx).2.2
  refine ⟨hle, ?_⟩
  rw [hthird]
  constructor
  · intro heq
    have hfield := congrArg (fun d => field d 2) (Option.some.inj heq)
    have hown := (field_joined hhead hpage (show ':' ∉ "x".toList by decide)).2.2
    exact hthird.symm.trans (hfield.symm.trans hown)
  · rintro rfl
    rfl

theorem review_exact {rating : Nat} (h : parseReviewCallback s = some (rating, id)) :
    (rating ∈ REVIEW_RATINGS ∧ isPublicId id = true) ∧
      (encodeReviewCallback rating id = some s ↔
        field s 1 ∈ REVIEW_RATINGS.map ratingAction) := by
  obtain ⟨hrating, hid, action, rfl, haction, -, hfind⟩ := parseReview_some h
  have hhead : ':' ∉ "rv".toList := by decide
  have hsecond := (field_joined hhead haction (publicId_plain hid)).2.1
  obtain ⟨hplain, hshort, -⟩ := ratings_plain rating hrating
  have hencode := (encodeAction_eq hshort hid).1
  refine ⟨⟨hrating, hid⟩, ?_⟩
  rw [hsecond, encodeReviewCallback, hencode]
  constructor
  · intro heq
    have hfield := congrArg (fun d => field d 1) (Option.some.inj heq)
    have hown := (field_joined hhead hplain (publicId_plain hid)).2.1
    rw [← hsecond.symm.trans (hfield.symm.trans hown) |>.symm]
    exact List.mem_map_of_mem hrating
  · intro hmem
    obtain ⟨r, hr, rfl⟩ := List.mem_map.1 hmem
    have hsame := (ratings_plain r hr).2.2.2.symm.trans hfind
    rw [Option.some.inj hsame]

theorem back_roundTrips {target : Data} {o : Option Nat} (htarget : target ∈ BACK_TARGETS)
    (ho : o ≠ some 0) : (Callback.back target o).RoundTrips ↔ (Callback.back target o).Short := by
  have hhead : ':' ∉ "bk".toList := by decide
  obtain ⟨hplain, hone⟩ := targets_plain target htarget
  have hread : ∀ m, (Nat.toDigits 10 m).length ≤ 12 →
      o = (if m = 0 then none else some m) → (Callback.back target o).RoundTrips := by
    intro m hm hom
    have hvalue : o.getD 0 = m := by
      rw [hom]
      split
      · next hzero => exact hzero.symm
      · rfl
    have hlen : byteLength (joined "bk".toList target (Nat.toDigits 10 (o.getD 0))) ≤
        MAX_BYTES := by
      have hbk : byteLength "bk".toList = 2 := by decide
      rw [byteLength_joined, byteLength_toDigits, hvalue, MAX_BYTES]
      omega
    refine ⟨_, guardLength_of_le hlen, hlen, ?_⟩
    have hparse : parseBackCallback (joined "bk".toList target (Nat.toDigits 10 (o.getD 0))) =
        some (target, o) := by
      refine parseBack_iff.2 ⟨htarget, _, rfl, Nat.length_toDigits_pos, ?_, toDigits_all, ?_⟩
      · rw [hvalue]
        exact hm
      · rw [Nat.ofDigitChars_ten_toDigits, hvalue]
        exact hom
    exact congrArg (Option.map fun x => Callback.back x.1 x.2) hparse
  cases o with
  | none => exact iff_of_true (hread 0 (by decide) rfl) trivial
  | some n =>
      have hn : n ≠ 0 := fun h => ho (congrArg some h)
      constructor
      · rintro ⟨s, hs, -, hparse⟩
        obtain ⟨x, hx, hxv⟩ := Option.map_eq_some_iff.1 hparse
        obtain ⟨rfl, -⟩ := guardLength_some hs
        obtain ⟨-, id, hid, -, htwelve, hdigits, -⟩ := parseBack_iff.1 hx
        have hsame := congrArg (fun d => field d 2) hid
        obtain ⟨htarget', -⟩ := Callback.back.inj hxv
        rw [htarget'] at hsame
        simp only [(field_joined hhead hplain toDigits_plain).2.2,
          (field_joined hhead hplain (all_plain (by decide) hdigits)).2.2] at hsame
        rw [hsame] at htwelve
        exact (Nat.length_toDigits_le_iff (by omega) (by omega)).1 htwelve
      · intro hshort
        have hlt : n < 10 ^ 12 := hshort
        exact hread n ((Nat.length_toDigits_le_iff (by omega) (by omega)).2 hlt) (if_neg hn).symm

theorem back_exact {target : Data} {o : Option Nat} (h : parseBackCallback s = some (target, o)) :
    (target ∈ BACK_TARGETS ∧ o ≠ some 0) ∧
      (encodeBackCallback target o = some s ↔ Plain10 (field s 2)) := by
  obtain ⟨htarget, id, rfl, hone, htwelve, hdigits, ho⟩ := parseBack_iff.1 h
  have hhead : ':' ∉ "bk".toList := by decide
  obtain ⟨hplain, hbyte⟩ := targets_plain target htarget
  have hthird := (field_joined hhead hplain (all_plain (by decide) hdigits)).2.2
  have hvalue : o.getD 0 = Nat.ofDigitChars 10 id 0 := by
    rw [ho]
    split
    · next hzero => exact hzero.symm
    · rfl
  have hnonzero : o ≠ some 0 := by
    rw [ho]
    split
    · nofun
    · next hne => exact fun heq => hne (Option.some.inj heq)
  refine ⟨⟨htarget, hnonzero⟩, ?_⟩
  rw [hthird, encodeBackCallback, hvalue]
  constructor
  · intro hencode
    have hsame := congrArg (fun d => field d 2) (guardLength_some hencode).1
    simp only [hthird, (field_joined hhead hplain toDigits_plain).2.2] at hsame
    by_cases hzero : Nat.ofDigitChars 10 id 0 = 0
    · rw [hzero, Nat.toDigits_zero] at hsame
      exact .inl hsame
    · refine .inr ?_
      rw [hsame]
      exact head_toDigits (Nat.pos_of_ne_zero hzero)
  · intro hcanonical
    have hsame : Nat.toDigits 10 (Nat.ofDigitChars 10 id 0) = id := by
      rcases hcanonical with rfl | hfirst
      · decide
      · refine (toDigits_ofDigitChars hdigits ?_ hfirst).1
        rintro rfl
        exact absurd hone (by decide)
    rw [hsame]
    apply guardLength_of_le
    have hbk : byteLength "bk".toList = 2 := by decide
    rw [byteLength_joined, byteLength_ascii (fun _ => le_z_of_isDigit) hdigits, MAX_BYTES]
    omega

theorem discover_exact {f : DiscoverFilters} (h : parseDiscoverCallback s = some f) :
    (Callback.discover f).InDomain ∧
      (5 ≤ (field s 1).length → encodeDiscoverCallback f = some s) := by
  obtain ⟨hdomain, flags, rfl, hflags, hfive⟩ := parseDiscover_some h
  have hsecond := (field_joined (show ':' ∉ "dc".toList by decide) hflags
    (category_plain hdomain.2.2.2.2).1).2.1
  refine ⟨hdomain, fun hlen => ?_⟩
  rw [hsecond] at hlen
  rw [(encodeDiscover_eq hdomain).1, hfive hlen]

/-- Every value of the domain is read back, but for a message id that is too long. -/
theorem roundTrips_iff (h : v.InDomain) : v.RoundTrips ↔ v.Short := by
  obtain ⟨hchat, hevent, hdirect⟩ := actions_plain
  have hmap : ∀ {α : Type} {o : Option α} {x : α} {f : α → Callback}, o = some x →
      o.map f = some (f x) := fun ho => by rw [ho, Option.map_some]
  cases v with
  | chat action id =>
      obtain ⟨s, hs, hlen, hparse⟩ := action_roundTrips (by decide) hchat h.1 h.2
      exact iff_of_true ⟨s, hs, hlen, hmap hparse⟩ trivial
  | event action id =>
      obtain ⟨s, hs, hlen, hparse⟩ := action_roundTrips (by decide) hevent h.1 h.2
      exact iff_of_true ⟨s, hs, hlen, hmap hparse⟩ trivial
  | direct action id =>
      obtain ⟨s, hs, hlen, hparse⟩ := action_roundTrips (by decide) hdirect h.1 h.2
      exact iff_of_true ⟨s, hs, hlen, hmap hparse⟩ trivial
  | review rating id =>
      obtain ⟨hencode, hlen⟩ := encodeAction_eq (ratings_plain rating h.1).2.1 h.2
      exact iff_of_true ⟨_, hencode, hlen, hmap (parseReview_encode h.1 h.2)⟩ trivial
  | reviewEdit id =>
      obtain ⟨s, hs, hlen, hparse⟩ := action_roundTrips edit_plain.1 edit_plain.2
        List.mem_cons_self h
      have hedit : parseReviewEditCallback s = some id := by
        rw [parseReviewEditCallback, hparse, Option.map_some]
      exact iff_of_true ⟨s, hs, hlen, hmap hedit⟩ trivial
  | discover f =>
      obtain ⟨hencode, hlen⟩ := encodeDiscover_eq h
      exact iff_of_true ⟨_, hencode, hlen, hmap (parseDiscover_encode h)⟩ trivial
  | back target o => exact back_roundTrips h.1 h.2
  | myEvents n =>
      obtain ⟨hlen, hparse⟩ := paging_roundTrips (head_plain .myEvents).1 (head_plain .myEvents).2 h
      exact iff_of_true ⟨_, rfl, hlen, hmap hparse⟩ trivial
  | wallet n =>
      obtain ⟨hlen, hparse⟩ := paging_roundTrips (head_plain .wallet).1 (head_plain .wallet).2 h
      exact iff_of_true ⟨_, rfl, hlen, hmap hparse⟩ trivial
  | trust n =>
      obtain ⟨hlen, hparse⟩ := paging_roundTrips (head_plain .trust).1 (head_plain .trust).2 h
      exact iff_of_true ⟨_, rfl, hlen, hmap hparse⟩ trivial
  | policy doc n =>
      refine iff_of_true ⟨_, rfl, ?_, hmap (parsePolicy_iff.2 ⟨rfl, h⟩)⟩ trivial
      have hhead : byteLength "pl".toList = 2 := by decide
      have hdoc := (docs_plain doc h.1).2
      have hpage := (encodePage_plain (n := n)).2
      rw [encodePolicyCallback, byteLength_joined, MAX_BYTES]
      omega
  | guide callback =>
      refine iff_of_true ⟨_, rfl, ?_, hmap (parseGuide_iff.2 ⟨rfl, h⟩)⟩ trivial
      cases callback with
      | index => decide
      | commands => decide
      | guide slug =>
          have hhead : byteLength "gd".toList = 2 := by decide
          have hkind : byteLength "g".toList = 1 := by decide
          have hslug := (slug_plain h).2
          rw [encodeGuideCallback, byteLength_joined, MAX_BYTES]
          omega
  | wizard action value =>
      obtain ⟨hencode, hlen⟩ := encodeWizard_eq h.1 h.2
      exact iff_of_true ⟨_, hencode, hlen, hmap (parseWizard_iff.2 ⟨rfl, h⟩)⟩ trivial

/-- What a parser accepts is a value of its domain, and its encoding exactly where it is spelled
    in the one way. -/
theorem parse_exact (h : parse p s = some v) :
    v.protocol = p ∧ v.InDomain ∧ (¬ Legacy p s → (encode v = some s ↔ Canonical p s)) := by
  obtain ⟨hchat, hevent, hdirect⟩ := actions_plain
  cases p with
  | chat =>
      obtain ⟨x, hx, rfl⟩ := Option.map_eq_some_iff.1 h
      obtain ⟨hdomain, hencode⟩ := action_exact (by decide) hchat hx
      exact ⟨rfl, hdomain, fun _ => iff_of_true hencode trivial⟩
  | event =>
      obtain ⟨x, hx, rfl⟩ := Option.map_eq_some_iff.1 h
      obtain ⟨hdomain, hencode⟩ := action_exact (by decide) hevent hx
      exact ⟨rfl, hdomain, fun _ => iff_of_true hencode trivial⟩
  | direct =>
      obtain ⟨x, hx, rfl⟩ := Option.map_eq_some_iff.1 h
      obtain ⟨hdomain, hencode⟩ := action_exact (by decide) hdirect hx
      exact ⟨rfl, hdomain, fun _ => iff_of_true hencode trivial⟩
  | review =>
      obtain ⟨x, hx, rfl⟩ := Option.map_eq_some_iff.1 h
      obtain ⟨hdomain, hexact⟩ := review_exact hx
      exact ⟨rfl, hdomain, fun _ => hexact⟩
  | reviewEdit =>
      obtain ⟨id, hid, rfl⟩ := Option.map_eq_some_iff.1 h
      obtain ⟨x, hx, rfl⟩ := Option.map_eq_some_iff.1 hid
      obtain ⟨⟨haction, hdomain⟩, hencode⟩ := action_exact edit_plain.1 edit_plain.2 hx
      rw [List.mem_singleton.1 haction] at hencode
      exact ⟨rfl, hdomain, fun _ => iff_of_true hencode trivial⟩
  | discover =>
      obtain ⟨f, hf, rfl⟩ := Option.map_eq_some_iff.1 h
      obtain ⟨hdomain, hencode⟩ := discover_exact hf
      refine ⟨rfl, hdomain, fun hshape => iff_of_true (hencode ?_) trivial⟩
      exact Nat.not_lt.1 fun hlt => hshape ⟨rfl, hlt⟩
  | back =>
      obtain ⟨x, hx, rfl⟩ := Option.map_eq_some_iff.1 h
      obtain ⟨hdomain, hexact⟩ := back_exact hx
      exact ⟨rfl, hdomain, fun _ => hexact⟩
  | myEvents =>
      obtain ⟨n, hn, rfl⟩ := Option.map_eq_some_iff.1 h
      exact ⟨rfl, (paging_exact hn).1, fun _ => (paging_exact hn).2⟩
  | wallet =>
      obtain ⟨n, hn, rfl⟩ := Option.map_eq_some_iff.1 h
      exact ⟨rfl, (paging_exact hn).1, fun _ => (paging_exact hn).2⟩
  | trust =>
      obtain ⟨n, hn, rfl⟩ := Option.map_eq_some_iff.1 h
      exact ⟨rfl, (paging_exact hn).1, fun _ => (paging_exact hn).2⟩
  | policy =>
      obtain ⟨x, hx, rfl⟩ := Option.map_eq_some_iff.1 h
      obtain ⟨hencode, hdomain⟩ := parsePolicy_iff.1 hx
      exact ⟨rfl, hdomain, fun _ => iff_of_true (congrArg some hencode) trivial⟩
  | guide =>
      obtain ⟨callback, hc, rfl⟩ := Option.map_eq_some_iff.1 h
      obtain ⟨hencode, hdomain⟩ := parseGuide_iff.1 hc
      exact ⟨rfl, hdomain, fun _ => iff_of_true (congrArg some hencode) trivial⟩
  | wizard =>
      obtain ⟨x, hx, rfl⟩ := Option.map_eq_some_iff.1 h
      obtain ⟨hencode, hdomain⟩ := parseWizard_iff.1 hx
      refine ⟨rfl, hdomain, fun _ => iff_of_true ?_ trivial⟩
      exact (encodeWizard_eq hdomain.1 hdomain.2).1.trans (congrArg some hencode)

/-- What tells the protocols apart: the first field, and for the two of a review the second. -/
structure Marked (p : Protocol) (s : Data) : Prop where
  head : field s 0 = p.head
  review : p = .review → "rate".toList.isPrefixOf (field s 1) = true
  reviewEdit : p = .reviewEdit → field s 1 = "edit".toList

theorem joined_marked (hhead : p.head = head) (hplain : ':' ∉ head) (haction : ':' ∉ action)
    (hid : ':' ∉ id) (hreview : p = .review → "rate".toList.isPrefixOf action = true)
    (hedit : p = .reviewEdit → action = "edit".toList) : Marked p (joined head action id) := by
  obtain ⟨hfirst, hsecond, -⟩ := field_joined hplain haction hid
  exact ⟨hfirst.trans hhead.symm, fun h => by rw [hsecond]; exact hreview h,
    fun h => hsecond.trans (hedit h)⟩

theorem action_marked (hhead : p.head = head)
    (hactions : ∀ a ∈ actions, ':' ∉ a ∧ byteLength head + byteLength a ≤ 26)
    (hreview : p ≠ .review) (hedit : p = .reviewEdit → actions = ["edit".toList])
    (h : parseAction head actions s = some (action, id)) : Marked p s := by
  have hplain : ':' ∉ head := hhead ▸ (head_plain p).1
  obtain ⟨rfl, haction, hid⟩ := (parseAction_iff hplain fun a ha => (hactions a ha).1).1 h
  refine joined_marked hhead hplain (hactions action haction).1 (publicId_plain hid)
    (fun h => absurd h hreview) fun h => ?_
  rw [hedit h] at haction
  exact List.mem_singleton.1 haction

theorem paging_marked (hhead : p.head = head) (hreview : p ≠ .review) (hedit : p ≠ .reviewEdit)
    (h : parsePaging head s = some n) : Marked p s := by
  obtain ⟨-, x, rfl, hx, hplain⟩ := parsePaging_some h
  exact joined_marked hhead hplain encodePage_plain.1 hx (fun h => absurd h hreview)
    fun h => absurd h hedit

theorem parse_marked (h : parse p s = some v) : Marked p s := by
  obtain ⟨hchat, hevent, hdirect⟩ := actions_plain
  cases p with
  | chat =>
      obtain ⟨x, hx, -⟩ := Option.map_eq_some_iff.1 h
      exact action_marked rfl hchat nofun nofun hx
  | event =>
      obtain ⟨x, hx, -⟩ := Option.map_eq_some_iff.1 h
      exact action_marked rfl hevent nofun nofun hx
  | direct =>
      obtain ⟨x, hx, -⟩ := Option.map_eq_some_iff.1 h
      exact action_marked rfl hdirect nofun nofun hx
  | review =>
      obtain ⟨x, hx, -⟩ := Option.map_eq_some_iff.1 h
      obtain ⟨-, hid, action, rfl, haction, hrate, -⟩ := parseReview_some hx
      exact joined_marked rfl (head_plain .review).1 haction (publicId_plain hid) (fun _ => hrate)
        nofun
  | reviewEdit =>
      obtain ⟨id, hid, -⟩ := Option.map_eq_some_iff.1 h
      obtain ⟨x, hx, -⟩ := Option.map_eq_some_iff.1 hid
      exact action_marked rfl edit_plain.2 nofun (fun _ => rfl) hx
  | discover =>
      obtain ⟨f, hf, -⟩ := Option.map_eq_some_iff.1 h
      obtain ⟨hdomain, flags, rfl, hflags, -⟩ := parseDiscover_some hf
      exact joined_marked rfl (head_plain .discover).1 hflags
        (category_plain hdomain.2.2.2.2).1 nofun nofun
  | back =>
      obtain ⟨x, hx, -⟩ := Option.map_eq_some_iff.1 h
      obtain ⟨htarget, id, rfl, -, -, hdigits, -⟩ := parseBack_iff.1 hx
      exact joined_marked rfl (head_plain .back).1 (targets_plain _ htarget).1
        (all_plain (by decide) hdigits) nofun nofun
  | myEvents =>
      obtain ⟨n, hn, -⟩ := Option.map_eq_some_iff.1 h
      exact paging_marked rfl nofun nofun hn
  | wallet =>
      obtain ⟨n, hn, -⟩ := Option.map_eq_some_iff.1 h
      exact paging_marked rfl nofun nofun hn
  | trust =>
      obtain ⟨n, hn, -⟩ := Option.map_eq_some_iff.1 h
      exact paging_marked rfl nofun nofun hn
  | policy =>
      obtain ⟨x, hx, -⟩ := Option.map_eq_some_iff.1 h
      obtain ⟨rfl, hdoc, -⟩ := parsePolicy_iff.1 hx
      exact joined_marked rfl (head_plain .policy).1 (docs_plain _ hdoc).1 encodePage_plain.1
        nofun nofun
  | guide =>
      obtain ⟨callback, hc, -⟩ := Option.map_eq_some_iff.1 h
      obtain ⟨rfl, hdomain⟩ := parseGuide_iff.1 hc
      cases callback with
      | index => exact ⟨by decide, nofun, nofun⟩
      | commands => exact ⟨by decide, nofun, nofun⟩
      | guide slug =>
          exact joined_marked rfl (head_plain .guide).1 (by decide) (slug_plain hdomain).1 nofun
            nofun
  | wizard =>
      obtain ⟨x, hx, -⟩ := Option.map_eq_some_iff.1 h
      obtain ⟨rfl, haction, hvalue⟩ := parseWizard_iff.1 hx
      exact joined_marked rfl (head_plain .wizard).1 (token_plain haction).1
        (encodable_plain hvalue).1 nofun nofun

theorem head_inj (h : p.head = q.head) : p = q ∨ (p = .review ∧ q = .reviewEdit) ∨
    (p = .reviewEdit ∧ q = .review) := by
  revert h
  cases p <;> cases q <;> decide

theorem Marked.unique (hp : Marked p s) (hq : Marked q s) : p = q := by
  have hrate : "rate".toList.isPrefixOf "edit".toList = false := by decide
  rcases head_inj (hp.head.symm.trans hq.head) with h | ⟨hreview, hedit⟩ | ⟨hedit, hreview⟩
  · exact h
  · have hprefix := hp.review hreview
    rw [hq.reviewEdit hedit, hrate] at hprefix
    cases hprefix
  · have hprefix := hq.review hreview
    rw [hp.reviewEdit hedit, hrate] at hprefix
    cases hprefix

/-- Telegram takes every encoding of a value of the domain. -/
theorem byteLength_encode (h : v.InDomain) (hs : encode v = some s) :
    byteLength s ≤ MAX_BYTES := by
  by_cases hshort : v.Short
  · obtain ⟨s', hs', hlen, -⟩ := (roundTrips_iff h).2 hshort
    exact Option.some.inj (hs'.symm.trans hs) ▸ hlen
  · cases v with
    | back target o =>
        obtain ⟨rfl, hlen⟩ := guardLength_some hs
        exact hlen
    | chat | event | direct | review | reviewEdit | discover | myEvents | wallet | trust | policy
      | guide | wizard => exact absurd trivial hshort

/-- Over all protocols and all strings: a value is read back, but for a message id that is too
    long; what is accepted is the encoding of its value exactly where it has the one spelling;
    Telegram takes every encoding; and no string is of two protocols. -/
theorem callbacks_exact (v : Callback) (p : Protocol) (s : Data) :
    (v.InDomain → (v.RoundTrips ↔ v.Short)) ∧
      (parse p s = some v → v.protocol = p ∧ v.InDomain ∧
        (¬ Legacy p s → (encode v = some s ↔ Canonical p s))) ∧
      (v.InDomain → encode v = some s → byteLength s ≤ MAX_BYTES) ∧
      ∀ q v', parse p s = some v → parse q s = some v' → p = q :=
  ⟨roundTrips_iff, parse_exact, byteLength_encode,
    fun _ _ hp hq => (parse_marked hp).unique (parse_marked hq)⟩

end All

def demoId : Data := "00000000-0000-4000-8000-000000000000".toList

theorem callbacks_exact_rating : (Callback.review 5 demoId).RoundTrips :=
  ((callbacks_exact (.review 5 demoId) .review []).1 ⟨by decide, by decide⟩).2 trivial

/-- A rating, a page and a message id in other spellings, and an id that is not read back. -/
theorem second_spellings :
    (parse .review (joined "rv".toList "rate05".toList demoId) = some (.review 5 demoId) ∧
      encode (.review 5 demoId) ≠ some (joined "rv".toList "rate05".toList demoId)) ∧
    (parse .myEvents "mv:0:anything".toList = some (.myEvents 0) ∧
      encode (.myEvents 0) ≠ some "mv:0:anything".toList) ∧
    (parse .back "bk:d:007".toList = some (.back "d".toList (some 7)) ∧
      encode (.back "d".toList (some 7)) ≠ some "bk:d:007".toList) ∧
    (encode (.back "d".toList (some (10 ^ 12))) = some "bk:d:1000000000000".toList ∧
      parse .back "bk:d:1000000000000".toList = none) := by
  decide +kernel

end Callbacks

end Paayatam
