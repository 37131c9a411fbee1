/-
  Paayatam.Telegram.LightMarkdown

  `renderLightMarkdown`: the Markdown of policies and of the guide as Telegram's
  HTML, one line at a time.

  A line is a heading, a bullet or plain text.  Bold and italic are put in by
  two patterns over the escaped line, the second over what the first one wrote.
-/

import Paayatam.Env
import Paayatam.Lib.Scan

namespace Paayatam

open Lib

namespace Markdown

/-! ## Escaping -/

def escapeChar : Char → List Char
  | '&' => "&amp;".toList
  | '<' => "&lt;".toList
  | '>' => "&gt;".toList
  | c => [c]

/-- `escapeHtml`. -/
def escapeHtml (value : List Char) : List Char := value.flatMap escapeChar

/-! ## Bold and italic -/

/-- What `.` does not match. -/
def isLineEnd (c : Char) : Bool := [0xA, 0xD, 0x2028, 0x2029].contains c.toNat

/-- `[*\w]`. -/
def isStarOrWord (c : Char) : Bool :=
  c = '*' || c = '_' || (48 ≤ c.toNat && c.toNat ≤ 57) || (65 ≤ c.toNat && c.toNat ≤ 90) ||
    (97 ≤ c.toNat && c.toNat ≤ 122)

/-- The shortest `.+?` in front of something `closed` sees behind its last character. -/
def shortest (closed : Char → List Char → Bool) : List Char → Option (List Char)
  | [] => none
  | c :: rest =>
    if isLineEnd c then none
    else if closed c rest then some [c]
    else (shortest closed rest).map (c :: ·)

/-- `\*\*` behind the group of a bold. -/
def closesBold (_ : Char) (rest : List Char) : Bool := ['*', '*'].isPrefixOf rest

/-- `(?<!\s)\*(?![*\w])` behind the group of an italic. -/
def closesItalic (last : Char) : List Char → Bool
  | '*' :: after => !isTrimmed last && !after.head?.any isStarOrWord
  | _ => false

/-- `/\*\*(.+?)\*\*/g`. -/
def BOLD : Pattern Char (List Char) := fun _ c rest =>
  match c, rest with
  | '*', '*' :: behind => (shortest closesBold behind).map fun group => (group, group.length + 3)
  | _, _ => none

/-- `/(?<![*\w])\*(?!\s)(.+?)(?<!\s)\*(?![*\w])/g`. -/
def ITALIC : Pattern Char (List Char) := fun prev c rest =>
  if c = '*' ∧ prev.any isStarOrWord = false ∧ rest.head?.any isTrimmed = false then
    (shortest closesItalic rest).map fun group => (group, group.length + 1)
  else none

/-! ## Lines -/

/-- `String.prototype.trim`, on the characters. -/
def trimChars (s : List Char) : List Char :=
  ((s.dropWhile isTrimmed).reverse.dropWhile isTrimmed).reverse

/-- `/^\s*(\*{3,}|-{3,}|_{3,})\s*$/`, a horizontal rule. -/
def isRule (line : List Char) : Bool :=
  let rule := trimChars line
  decide (3 ≤ rule.length) && (rule.all (· = '*') || rule.all (· = '-') || rule.all (· = '_'))

/-- `\s+(.*)$` behind the marker of a line. -/
def behindMarker (rest : List Char) : Option (List Char) :=
  let text := rest.dropWhile isTrimmed
  if rest.head?.any isTrimmed && !text.any isLineEnd then some text else none

/-- `/^#{1,6}\s+(.*)$/` of the trimmed line. -/
def headingText (line : List Char) : Option (List Char) :=
  let hashes := (trimChars line).takeWhile (· = '#')
  if 1 ≤ hashes.length ∧ hashes.length ≤ 6 then
    behindMarker ((trimChars line).dropWhile (· = '#'))
  else none

/-- `/^[-*]\s+(.*)$/` of the trimmed line. -/
def bulletText (line : List Char) : Option (List Char) :=
  match trimChars line with
  | c :: rest => if c = '-' ∨ c = '*' then behindMarker rest else none
  | [] => none

/-- A line that is no heading, with a bullet for its marker. -/
def bodyOf (line : List Char) : List Char :=
  match bulletText line with
  | some text => '•' :: ' ' :: text
  | none => line

/-- A heading is bold already; `**` inside one would print as asterisks. -/
def stripEmphasis (text : List Char) : List Char := replaceAll BOLD (fun group => group) text

/-- `escapeHtml(body).replace(BOLD, '<b>$1</b>')`. -/
def bolded (body : List Char) : List Char :=
  replaceAll BOLD (fun group => "<b>".toList ++ group ++ "</b>".toList) (escapeHtml body)

def renderBody (body : List Char) : List Char :=
  replaceAll ITALIC (fun group => "<i>".toList ++ group ++ "</i>".toList) (bolded body)

def renderLine (line : List Char) : List Char :=
  match headingText line with
  | some heading => "<b>".toList ++ escapeHtml (stripEmphasis heading) ++ "</b>".toList
  | none => renderBody (bodyOf line)

/-! ## The document -/

/-- `replace(/\n{3,}/g, '\n\n')`, behind so many newlines that were kept. -/
def collapseBlank : Nat → List Char → List Char
  | _, [] => []
  | kept, c :: rest =>
    if c = '\n' then
      if 2 ≤ kept then collapseBlank kept rest else c :: collapseBlank (kept + 1) rest
    else c :: collapseBlank 0 rest

/-- The lines that are rendered; a rule is dropped. -/
def keptLines (markdown : List Char) : List (List Char) :=
  (markdown.splitOn '\n').filter fun line => !isRule line

def flatten (markdown : List Char) : List Char :=
  trimChars (collapseBlank 0 (['\n'].intercalate ((keptLines markdown).map renderLine)))

/-- `renderLightMarkdown`. -/
def renderLightMarkdown (markdown : String) : String := String.ofList (flatten markdown.toList)

end Markdown

end Paayatam
