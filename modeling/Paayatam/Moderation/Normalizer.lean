/-
  Paayatam.Moderation.Normalizer

  `persian-normalizer.ts`: the rules a text goes through before it is searched
  or judged, and their composition in a fixed order.

  Unicode normalization, lower case and the letter classes are the platform's
  and come as a parameter.
-/

import Paayatam.Env
import Paayatam.Lib.Scan

namespace Paayatam

open Lib

namespace Normalizer

/-- What the platform knows of Unicode. -/
structure Unicode where
  /-- `String.prototype.normalize('NFC')`. -/
  nfc : List Char → List Char
  /-- `String.prototype.toLowerCase`. -/
  toLowerCase : List Char → List Char
  /-- `[\p{L}\p{N}]`. -/
  isLetterOrNumber : Char → Bool

/-! ## The rules -/

/-- Looks a character up in a folding table of code points. -/
def foldBy (table : List (Nat × Nat)) (c : Char) : Char :=
  match table.lookup c.toNat with
  | some folded => Char.ofNat folded
  | none => c

def toNfc (u : Unicode) (input : List Char) : List Char := u.nfc input

def ARABIC_LETTER_FOLDING : List (Nat × Nat) :=
  [(0x64A, 0x6CC), (0x649, 0x6CC), (0x643, 0x6A9), (0x629, 0x647), (0x623, 0x627),
    (0x625, 0x627), (0x622, 0x627), (0x624, 0x648), (0x626, 0x6CC)]

def foldArabicLetters (input : List Char) : List Char := input.map (foldBy ARABIC_LETTER_FOLDING)

/-- The harakat, the superscript alef and the tatweel. -/
def isDiacritic (c : Char) : Bool :=
  (0x64B ≤ c.toNat && c.toNat ≤ 0x652) || c.toNat = 0x670 || c.toNat = 0x640

def removeDiacritics (input : List Char) : List Char := input.filter fun c => !isDiacritic c

def ZWNJ : Char := Char.ofNat 0x200C

/-- ZWSP, ZWJ, LRM, RLM, ALM and BOM. -/
def isZeroWidth (c : Char) : Bool :=
  [0x200B, 0x200D, 0x200E, 0x200F, 0x61C, 0xFEFF].contains c.toNat

def foldZeroWidth (input : List Char) : List Char :=
  (input.map fun c => if c = ZWNJ then ' ' else c).filter fun c => !isZeroWidth c

/-- `String(code - base)`. -/
def unifyDigit (c : Char) : Char :=
  if 0x6F0 ≤ c.toNat ∧ c.toNat ≤ 0x6F9 then Char.ofNat (c.toNat - 0x6F0 + 48)
  else if 0x660 ≤ c.toNat ∧ c.toNat ≤ 0x669 then Char.ofNat (c.toNat - 0x660 + 48)
  else c

def unifyDigits (input : List Char) : List Char := input.map unifyDigit

def PUNCTUATION_FOLDING : List (Nat × Nat) :=
  [(0x61F, 0x3F), (0x60C, 0x2C), (0x61B, 0x3B), (0xAB, 0x22), (0xBB, 0x22), (0x2018, 0x27),
    (0x2019, 0x27), (0x201C, 0x22), (0x201D, 0x22), (0x2013, 0x2D), (0x2014, 0x2D),
    (0x66B, 0x2E), (0x66C, 0x2C)]

def unifyPunctuation (input : List Char) : List Char := input.map (foldBy PUNCTUATION_FOLDING)

/-- `replace(/\s+/g, ' ')`, inside a run of white space or not. -/
def squeeze : Bool → List Char → List Char
  | _, [] => []
  | inside, c :: rest =>
    if isTrimmed c then if inside then squeeze true rest else ' ' :: squeeze true rest
    else c :: squeeze false rest

def collapseWhitespace (input : List Char) : List Char :=
  (((squeeze false input).dropWhile isTrimmed).reverse.dropWhile isTrimmed).reverse

/-- What `.` does not match. -/
def isLineTerminator (c : Char) : Bool := [0xA, 0xD, 0x2028, 0x2029].contains c.toNat

/-- `/(.)\1{2,}/gu`. -/
def REPEATED : Pattern Char Char := fun _ c rest =>
  let run := rest.takeWhile fun x => x = c
  if isLineTerminator c = false ∧ 2 ≤ run.length then some (c, run.length) else none

def collapseRepetition (input : List Char) : List Char := replaceAll REPEATED (fun c => [c]) input

def HOMOGLYPH_FOLDING : List (Nat × Nat) :=
  [(0x6BE, 0x647), (0x6C0, 0x647), (0x6D5, 0x647), (0x67F, 0x62A), (0x679, 0x62A),
    (0x68A, 0x62F), (0x68D, 0x62F), (0x695, 0x631), (0x696, 0x631), (0x69B, 0x633),
    (0x6AA, 0x6A9), (0x6AB, 0x6A9), (0x6AC, 0x6A9), (0x6CD, 0x6CC), (0x6D0, 0x6CC),
    (0x671, 0x627)]

def mapHomoglyphs (input : List Char) : List Char := input.map (foldBy HOMOGLYPH_FOLDING)

/-- `[؀-ۿ]`, the Arabic block. -/
def isPersoArabic (c : Char) : Bool := 0x600 ≤ c.toNat && c.toNat ≤ 0x6FF

/-- `[A-Za-zЀ-ӿ]`. -/
def isIntruder (c : Char) : Bool :=
  (65 ≤ c.toNat && c.toNat ≤ 90) || (97 ≤ c.toNat && c.toNat ≤ 122) ||
    (0x400 ≤ c.toNat && c.toNat ≤ 0x4FF)

/-- `/(?<=[؀-ۿ])[A-Za-zЀ-ӿ]+(?=[؀-ۿ])/gu`. -/
def INTRUSIVE : Pattern Char Unit := fun prev c rest =>
  if prev.any isPersoArabic ∧ isIntruder c ∧
      (rest.dropWhile isIntruder).head?.any isPersoArabic then
    some ((), (rest.takeWhile isIntruder).length)
  else none

def stripIntrusiveLatin (input : List Char) : List Char := replaceAll INTRUSIVE (fun _ => []) input

def foldCase (u : Unicode) (input : List Char) : List Char := u.toLowerCase input

/-! ## The pipeline -/

def rules (u : Unicode) : List (List Char → List Char) :=
  [toNfc u, foldArabicLetters, removeDiacritics, foldZeroWidth, unifyDigits, unifyPunctuation,
    collapseWhitespace, collapseRepetition, mapHomoglyphs, stripIntrusiveLatin, foldCase u]

def normalize (u : Unicode) (input : List Char) : List Char :=
  (rules u).foldl (fun text rule => rule text) input

def tokenize (u : Unicode) (normalized : List Char) : List (List Char) :=
  (normalized.splitOnP fun c => !u.isLetterOrNumber c).filter fun token => 0 < token.length

end Normalizer

end Paayatam
