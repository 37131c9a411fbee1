/-
  Paayatam.Messaging.BroadcastFormat

  `validateTelegramMessage`: the judgement of a broadcast's body before anybody
  receives it.

  Tags and attributes are found by two patterns, and what they match is judged
  with a stack of open tags.  What they do not match is accepted unseen.
-/

import Paayatam.Conversation.Wizards
import Paayatam.Lib.Nesting
import Paayatam.Lib.Scan

namespace Paayatam

open Lib

namespace Broadcast

/-! ## The two patterns -/

/-- Counted in UTF-16 units, as Telegram does. -/
def TELEGRAM_MESSAGE_LIMIT : Nat := 4096

def ALLOWED_TAGS : List String :=
  ["b", "strong", "i", "em", "u", "ins", "s", "strike", "del", "code", "pre", "blockquote",
    "tg-spoiler", "a"]

/-- `[a-zA-Z-]`. -/
def isNameChar (c : Char) : Bool :=
  (97 ≤ c.toNat && c.toNat ≤ 122) || (65 ≤ c.toNat && c.toNat ≤ 90) || c.toNat = 45

def doubleQuote : Char := Char.ofNat 34

def singleQuote : Char := Char.ofNat 39

structure TagMatch where
  closing : Bool
  name : List Char
  attributes : List Char
  deriving DecidableEq

/-- `/<\s*(\/?)\s*([a-zA-Z-]+)([^>]*)>/g`. -/
def TAG_PATTERN : Pattern Char TagMatch := fun _ c rest =>
  if c = '<' then
    let front := rest.dropWhile isTrimmed
    let closing := decide (front.head? = some '/')
    let named := (if closing then front.tail else front).dropWhile isTrimmed
    let behind := named.dropWhile isNameChar
    match behind.dropWhile fun c => c ≠ '>' with
    | [] => none
    | _ :: after =>
      if named.takeWhile isNameChar = [] then none
      else some (⟨closing, named.takeWhile isNameChar, behind.takeWhile fun c => c ≠ '>'⟩,
        rest.length - after.length)
  else none

/-- `/([a-zA-Z-]+)\s*=\s*"([^"]*)"/g`. -/
def ATTRIBUTE_PATTERN : Pattern Char (List Char × List Char) := fun _ c rest =>
  if isNameChar c then
    match (rest.dropWhile isNameChar).dropWhile isTrimmed with
    | '=' :: s =>
      match s.dropWhile isTrimmed with
      | q :: v =>
        match v.dropWhile fun c => c ≠ doubleQuote with
        | _ :: after =>
          if q = doubleQuote then some ((c :: rest.takeWhile isNameChar,
            v.takeWhile fun c => c ≠ doubleQuote), rest.length - after.length)
          else none
        | [] => none
      | [] => none
    | _ => none
  else none

/-! ## The judgement -/

inductive MessageFormatProblem where
  | TOO_LONG (length limit : Nat)
  | EMPTY
  | UNKNOWN_TAG (tag : String)
  | UNCLOSED_TAG (tag : String)
  | UNEXPECTED_CLOSING_TAG (tag : String)
  | UNSAFE_LINK (href : String)
  | UNSUPPORTED_ATTRIBUTE (tag attr : String)

structure MessageFormatVerdict where
  ok : Bool
  problems : List MessageFormatProblem

/-- `parse_mode`; without one the text is plain. -/
inductive ParseMode where
  | HTML

def toLowerCase (name : List Char) : String := String.ofList (name.map Char.toLower)

def HTTPS : List Char := "https://".toList

/-- `/^https:\/\/[^\s"']+$/`. -/
def isSafeHref (value : List Char) : Bool :=
  HTTPS.isPrefixOf value && decide (HTTPS.length < value.length) &&
    (value.drop HTTPS.length).all fun c => !isTrimmed c && c ≠ doubleQuote && c ≠ singleQuote

/-- What one reported attribute is found to be. -/
def judgeAttribute (tag : String) (attr : List Char × List Char) :
    List MessageFormatProblem :=
  let name := toLowerCase attr.1
  if tag = "a" ∧ name = "href" then
    if isSafeHref attr.2 then []
    else [.UNSAFE_LINK (String.ofList (Conversation.takeUnits 120 attr.2))]
  else if tag = "pre" ∧ name = "class" then []
  else [.UNSUPPORTED_ATTRIBUTE tag name]

/-- The open tags, innermost first, and what was found so far. -/
structure TagState where
  openTags : List String
  problems : List MessageFormatProblem

def judgeAttributes (m : TagMatch) : List MessageFormatProblem :=
  (matchAll ATTRIBUTE_PATTERN m.attributes).flatMap (judgeAttribute (toLowerCase m.name))

def judgeTag (state : TagState) (m : TagMatch) : TagState :=
  let tag := toLowerCase m.name
  if tag ∉ ALLOWED_TAGS then { state with problems := state.problems ++ [.UNKNOWN_TAG tag] }
  else if m.closing then
    -- a stray closing tag is put back, so that what follows is not unbalanced too
    if state.openTags.head? = some tag then { state with openTags := state.openTags.tail }
    else { state with problems := state.problems ++ [.UNEXPECTED_CLOSING_TAG tag] }
  else { openTags := tag :: state.openTags, problems := state.problems ++ judgeAttributes m }

/-- What is wrong with a text whatever its mode. -/
def plainProblems (text : String) : List MessageFormatProblem :=
  (if (trim text).isEmpty then [.EMPTY] else []) ++
    if TELEGRAM_MESSAGE_LIMIT < utf16Length text then
      [.TOO_LONG (utf16Length text) TELEGRAM_MESSAGE_LIMIT] else []

def validateTelegramMessage (text : String) (parseMode : Option ParseMode) :
    MessageFormatVerdict :=
  let problems := match parseMode with
    | none => plainProblems text
    | some .HTML =>
      let state := (matchAll TAG_PATTERN text.toList).foldl judgeTag ⟨[], plainProblems text⟩
      state.problems ++ state.openTags.reverse.map .UNCLOSED_TAG
  ⟨problems.isEmpty, problems⟩

/-! ## What the judgement finds -/

/-- The tag as a bracket. -/
def TagMatch.bracket (m : TagMatch) : Bracket String :=
  if m.closing then .shuts (toLowerCase m.name) else .opens (toLowerCase m.name)

/-- Nothing is wrong with the tag by itself. -/
def TagMatch.Clean (m : TagMatch) : Prop :=
  toLowerCase m.name ∈ ALLOWED_TAGS ∧ (m.closing = false → judgeAttributes m = [])

section Judgement

variable {state : TagState} {m : TagMatch} {ms : List TagMatch}

/-- A tag adds no problem exactly when it is clean and closes what is open. -/
theorem judgeTag_clean : (judgeTag state m).problems = [] ↔
    state.problems = [] ∧ m.Clean ∧
      closes state.openTags [m.bracket] = some (judgeTag state m).openTags := by
  unfold judgeTag TagMatch.Clean TagMatch.bracket
  by_cases hallowed : toLowerCase m.name ∈ ALLOWED_TAGS
  · cases hclosing : m.closing with
    | false => simp [hallowed]
    | true =>
        cases hopen : state.openTags with
        | nil => simp [hallowed, closes]
        | cons expected rest =>
            by_cases htag : expected = toLowerCase m.name
            · simp [hallowed, htag]
            · simp [hallowed, htag, closes]
  · simp [hallowed]

/-- A clean tag that closes what is open leaves the stack the validator keeps. -/
theorem judgeTag_openTags {stack : List String} (hm : m.Clean)
    (h : closes state.openTags [m.bracket] = some stack) : (judgeTag state m).openTags = stack := by
  unfold judgeTag
  unfold TagMatch.bracket at h
  have hallowed := hm.1
  cases hclosing : m.closing with
  | false => simpa [hallowed, hclosing] using h
  | true =>
      cases hopen : state.openTags with
      | nil => simp [hclosing, hopen, closes] at h
      | cons expected rest =>
          by_cases htag : expected = toLowerCase m.name
          · simpa [hallowed, hclosing, hopen, htag] using h
          · simp [hclosing, hopen, htag, closes] at h

theorem judgeTags_openTags {stack : List String} (hms : ∀ m ∈ ms, m.Clean)
    (h : closes state.openTags (ms.map TagMatch.bracket) = some stack) :
    (ms.foldl judgeTag state).openTags = stack := by
  induction ms generalizing state with
  | nil => simpa using h
  | cons m ms ih =>
      obtain ⟨hm, hrest⟩ := List.forall_mem_cons.1 hms
      have hsplit : closes state.openTags ([m.bracket] ++ ms.map TagMatch.bracket) = some stack := h
      rw [closes_append] at hsplit
      obtain ⟨mid, hstep, hread⟩ := Option.bind_eq_some_iff.1 hsplit
      rw [List.foldl_cons]
      exact ih hrest ((judgeTag_openTags hm hstep).symm ▸ hread)

theorem judgeTags_clean (ms : List TagMatch) (state : TagState) :
    (ms.foldl judgeTag state).problems = [] ↔ state.problems = [] ∧ (∀ m ∈ ms, m.Clean) ∧
      closes state.openTags (ms.map TagMatch.bracket) =
        some (ms.foldl judgeTag state).openTags := by
  induction ms generalizing state with
  | nil => simp
  | cons m ms ih =>
      have hread : closes state.openTags ((m :: ms).map TagMatch.bracket) =
          (closes state.openTags [m.bracket]).bind fun s => closes s (ms.map TagMatch.bracket) := by
        rw [List.map_cons, ← closes_append]
        rfl
      rw [List.foldl_cons, ih, judgeTag_clean, hread]
      constructor
      · rintro ⟨⟨hstate, hm, hstep⟩, hms, hrest⟩
        refine ⟨hstate, List.forall_mem_cons.2 ⟨hm, hms⟩, ?_⟩
        rw [hstep]
        exact hrest
      · rintro ⟨hstate, hclean, hrest⟩
        obtain ⟨hm, hms⟩ := List.forall_mem_cons.1 hclean
        obtain ⟨stack, hstep, hread⟩ := Option.bind_eq_some_iff.1 hrest
        have hopen := judgeTag_openTags hm hstep
        refine ⟨⟨hstate, hm, hopen ▸ hstep⟩, hms, ?_⟩
        rw [hopen]
        exact hread

end Judgement

theorem html_ok_iff {text : String} : (validateTelegramMessage text (some .HTML)).ok = true ↔
    plainProblems text = [] ∧ (∀ m ∈ matchAll TAG_PATTERN text.toList, m.Clean) ∧
      Nested ((matchAll TAG_PATTERN text.toList).map TagMatch.bracket) := by
  have hclean := judgeTags_clean (matchAll TAG_PATTERN text.toList) ⟨[], plainProblems text⟩
  rw [nested_iff]
  show List.isEmpty (_ ++ _) = true ↔ _
  rw [List.isEmpty_iff, List.append_eq_nil_iff, hclean, List.map_eq_nil_iff,
    List.reverse_eq_nil_iff]
  constructor
  · rintro ⟨⟨hplain, hms, hread⟩, hopen⟩
    refine ⟨hplain, hms, ?_⟩
    rw [hread, hopen]
  · rintro ⟨hplain, hms, hread⟩
    have hopen : ((matchAll TAG_PATTERN text.toList).foldl judgeTag
        ⟨[], plainProblems text⟩).openTags = [] := judgeTags_openTags hms hread
    exact ⟨⟨hplain, hms, hread.trans (congrArg some hopen.symm)⟩, hopen⟩

end Broadcast

end Paayatam
