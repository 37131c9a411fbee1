/-
  Paayatam.Privacy.Sanitizer

  `sanitizeInbound`: what is left of a message before anybody else sees it.

  Four expressions run one after another, each over what the one before has
  left; a placeholder holds no symbol that any of them could begin with, so what
  has been masked is never put together again.
-/

import Paayatam.Env
import Paayatam.Lib.Masking
import Paayatam.Lib.Regex

namespace Paayatam

open Lib

namespace Sanitizer

/-- What replaces a masked fragment. -/
def REDACTION_PLACEHOLDER : List Char := "«حذف شد»".toList

inductive RedactionKind where
  | PHONE
  | USERNAME
  | TELEGRAM_LINK
  | EMAIL
  | ENTITY

structure Redaction where
  kind : RedactionKind
  original : List Char

structure MessageEntity where
  type : String
  url : Option String
  /-- The id of the `user` object. -/
  user : Option Nat

structure InboundTextMessage where
  text : List Char
  entities : List MessageEntity

structure SanitizedMessage where
  text : List Char
  redactions : List Redaction
  isEmpty : Bool

/-! ## The expressions -/

/-- The symbols of a text, one after another. -/
def exactly (text : String) : Regex Char := .literal (text.toList.map fun a c => c == a)

/-- The same under the flag `i`. -/
def ignoringCase (text : String) : Regex Char :=
  .literal (text.toList.map fun a c => c.toLower == a.toLower)

/-- `\S`. -/
def isVisible (c : Char) : Bool := !isTrimmed c

/-- `[A-Za-z0-9_]`, which is also what a word boundary counts as a word. -/
def isWord (c : Char) : Bool := c.isAlphanum || c == '_'

/-- `[A-Za-z0-9._%+-]`. -/
def isLocal (c : Char) : Bool :=
  isWord c || c == '.' || c == '%' || c == '+' || c == '-'

/-- `[A-Za-z0-9.-]`. -/
def isDomain (c : Char) : Bool := c.isAlphanum || c == '.' || c == '-'

/-- `[\s.-]`. -/
def isSeparator (c : Char) : Bool := isTrimmed c || c == '.' || c == '-'

/-- `[\d\s.-]`. -/
def isDialled (c : Char) : Bool := c.isDigit || isSeparator c

def TELEGRAM_LINK : Regex Char :=
  .alt
    (.seq (.opt (.seq (ignoringCase "http") (.seq (.opt (ignoringCase "s")) (ignoringCase "://"))))
      (.seq (.opt (ignoringCase "www."))
        (.seq (.alt (ignoringCase "t") (ignoringCase "telegram"))
          (.seq (ignoringCase ".me/") (.many isVisible 1 none)))))
    (.seq (ignoringCase "tg://resolve?domain=") (.many isVisible 1 none))

def EMAIL : Regex Char :=
  .seq (.many isLocal 1 none) (.seq (exactly "@")
    (.seq (.many isDomain 1 none) (.seq (exactly ".") (.many Char.isAlpha 2 none))))

/-- The groups of a mobile number behind its first zero or its country code. -/
def MOBILE_GROUPS : Regex Char :=
  .seq (.many isSeparator 0 (some 1)) (.seq (exactly "9") (.seq (.many Char.isDigit 2 (some 2))
    (.seq (.many isSeparator 0 (some 1)) (.seq (.many Char.isDigit 3 (some 3))
      (.seq (.many isSeparator 0 (some 1)) (.many Char.isDigit 4 (some 4)))))))

/-- An Iranian mobile number. -/
def MOBILE : Regex Char :=
  .seq (.alt (.seq (.opt (exactly "+")) (exactly "98")) (exactly "0")) MOBILE_GROUPS

/-- A long run of digits. -/
def DIGIT_RUN : Regex Char :=
  .seq (.one Char.isDigit) (.seq (.many isDialled 9 none) (.one Char.isDigit))

def PHONE : Regex Char := .alt MOBILE DIGIT_RUN

def USERNAME : Regex Char :=
  .seq (exactly "@") (.seq (.many isWord 5 (some 32)) (.boundary isWord))

def TEXT_RULES : List (RedactionKind × Regex Char) :=
  [(.TELEGRAM_LINK, TELEGRAM_LINK), (.EMAIL, EMAIL), (.PHONE, PHONE), (.USERNAME, USERNAME)]

/-! ## Masking -/

/-- Arabic-Indic and extended Arabic-Indic digits to Latin. -/
def normalizeDigit (c : Char) : Char :=
  if 0x6f0 ≤ c.toNat ∧ c.toNat ≤ 0x6f9 then Char.ofNat (c.toNat - 0x6f0 + 48)
  else if 0x660 ≤ c.toNat ∧ c.toNat ≤ 0x669 then Char.ofNat (c.toNat - 0x660 + 48)
  else c

def normalizeDigits (input : List Char) : List Char := input.map normalizeDigit

/-- `text.replace(rule.pattern, …)`. -/
def mask (r : Regex Char) (text : List Char) : List Char :=
  replaceAll r.pattern (fun _ => REDACTION_PLACEHOLDER) text

/-- The matches the callback is given. -/
def masked (rule : RedactionKind × Regex Char) (text : List Char) : List Redaction :=
  (matchAll rule.2.pattern text).map fun original => ⟨rule.1, original⟩

/-- The loop over `TEXT_RULES`. -/
def maskAll : List (RedactionKind × Regex Char) → List Char → List Char × List Redaction
  | [], text => (text, [])
  | rule :: rules, text =>
    let (out, redactions) := maskAll rules (mask rule.2 text)
    (out, masked rule text ++ redactions)

/-! ## Collapsing -/

/-- `(?:«حذف شد»[\s]*)*`, greedily: how many, and how many symbols they take.
    Giving back white space would not let another placeholder begin. -/
def placeholders : Nat → List Char → Nat × Nat
  | 0, _ => (0, 0)
  | fuel + 1, s =>
    if REDACTION_PLACEHOLDER.isPrefixOf s then
      let rest := s.drop REDACTION_PLACEHOLDER.length
      let blanks := (rest.takeWhile isTrimmed).length
      let (count, length) := placeholders fuel (rest.drop blanks)
      (count + 1, REDACTION_PLACEHOLDER.length + blanks + length)
    else (0, 0)

/-- `(?:«حذف شد»[\s]*){2,}`. -/
def repeated : Pattern Char Unit := fun _ c rest =>
  let (count, length) := placeholders (rest.length + 1) (c :: rest)
  if 2 ≤ count then some ((), length - 1) else none

/-- `[ \t]`. -/
def isBlank (c : Char) : Bool := c == ' ' || c == '\t'

/-- `[ \t]{2,}`. -/
def BLANKS : Regex Char := .many isBlank 2 none

/-- `String.prototype.trim`. -/
def trimmed (s : List Char) : List Char :=
  ((s.dropWhile isTrimmed).reverse.dropWhile isTrimmed).reverse

def joinPlaceholders (input : List Char) : List Char :=
  replaceAll repeated (fun _ => REDACTION_PLACEHOLDER ++ [' ']) input

def squeeze (input : List Char) : List Char := replaceAll BLANKS.pattern (fun _ => [' ']) input

/-- Repeated placeholders and runaway white space collapse to one. -/
def collapse (input : List Char) : List Char := trimmed (squeeze (joinPlaceholders input))

/-! ## The whole of it -/

/-- What of an entity is recorded. -/
def entityRedaction (entity : MessageEntity) : Option Redaction :=
  match entity.type, entity.user, entity.url with
  | "text_mention", some id, _ => some ⟨.ENTITY, s!"text_mention:{id}".toList⟩
  | "text_link", _, some url => some ⟨.ENTITY, s!"text_link:{url}".toList⟩
  | _, _, _ => none

/-- Every placeholder of a text deleted. -/
def withoutPlaceholders : Nat → List Char → List Char
  | 0, s => s
  | _ + 1, [] => []
  | fuel + 1, c :: rest =>
    if REDACTION_PLACEHOLDER.isPrefixOf (c :: rest) then
      withoutPlaceholders fuel ((c :: rest).drop REDACTION_PLACEHOLDER.length)
    else c :: withoutPlaceholders fuel rest

/-- `options.maskContactDetails ?? true`. -/
def sanitizeInbound (message : InboundTextMessage) (maskContactDetails : Option Bool) :
    SanitizedMessage :=
  let entities := message.entities.filterMap entityRedaction
  let text := normalizeDigits message.text
  let (text, redactions) :=
    if maskContactDetails.getD true then maskAll TEXT_RULES text else (text, [])
  let text := collapse text
  { text
    redactions := entities ++ redactions
    isEmpty := (trimmed (withoutPlaceholders text.length text)).isEmpty }

end Sanitizer

end Paayatam
