/-
  Paayatam.Moderation.NormalWords

  The normalizer word by word.

  Up to the white space the rules read one character at a time (`readChar`); the
  rules behind it never look across a space.  So a normalized text is the words
  of the text that was read, each finished by itself, with one space between
  them (`normalize_eq`).
-/

import Paayatam.Lib.Words
import Paayatam.Moderation.Normalizer

namespace Paayatam

open Lib

namespace Normalizer

/-! ## One character at a time -/

/-- What the rules from the letters to the punctuation make of a character. -/
def readChar (c : Char) : Option Char :=
  let letter := foldBy ARABIC_LETTER_FOLDING c
  if isDiacritic letter then none
  else
    let spaced := if letter = ZWNJ then ' ' else letter
    if isZeroWidth spaced then none
    else some (foldBy PUNCTUATION_FOLDING (unifyDigit spaced))

/-- The text in front of the white space rule. -/
def read (u : Unicode) (s : List Char) : List Char := (u.nfc s).filterMap readChar

theorem read_eq (u : Unicode) (s : List Char) : read u s =
    unifyPunctuation (unifyDigits (foldZeroWidth (removeDiacritics (foldArabicLetters
      (toNfc u s))))) := by
  unfold read unifyPunctuation unifyDigits foldZeroWidth removeDiacritics foldArabicLetters toNfc
  generalize u.nfc s = text
  induction text with
  | nil => rfl
  | cons c text ih =>
      rw [List.filterMap_cons, ih, readChar]
      by_cases hmark : isDiacritic (foldBy ARABIC_LETTER_FOLDING c) = true
      · simp [hmark]
      · simp only [hmark]
        by_cases hwidth : isZeroWidth (if foldBy ARABIC_LETTER_FOLDING c = ZWNJ then ' '
            else foldBy ARABIC_LETTER_FOLDING c) = true
        · simp [hmark, hwidth]
        · simp [hmark, hwidth]

/-! ## White space -/

def joined (ws : List (List Char)) : List Char := [' '].intercalate ws

theorem joined_split (w next : List Char) (ws : List (List Char)) :
    joined (w :: next :: ws) = w ++ ' ' :: joined (next :: ws) := by
  simp [joined, List.intercalate_cons_cons]

def trimEnd (s : List Char) : List Char := (s.reverse.dropWhile isTrimmed).reverse

theorem trimEnd_cons {c : Char} (hc : isTrimmed c = false) (s : List Char) :
    trimEnd (c :: s) = c :: trimEnd s := by
  unfold trimEnd
  rw [List.reverse_cons, List.dropWhile_append]
  split
  · next hempty =>
      rw [List.isEmpty_iff.1 hempty, List.dropWhile_cons_of_neg (by simp [hc])]
      rfl
  · rw [List.reverse_append]
    rfl

theorem trimEnd_blank {c : Char} (hc : isTrimmed c = true) (s : List Char) :
    trimEnd (c :: s) = if trimEnd s = [] then [] else c :: trimEnd s := by
  unfold trimEnd
  rw [List.reverse_cons, List.dropWhile_append]
  by_cases hempty : s.reverse.dropWhile isTrimmed = []
  · rw [hempty, if_pos (by rfl), if_pos (by rfl), List.dropWhile_cons_of_pos hc]
    rfl
  · have hrev : (s.reverse.dropWhile isTrimmed).reverse ≠ [] := by simpa using hempty
    rw [if_neg (by simpa using hempty), if_neg hrev, List.reverse_append]
    rfl

theorem squeeze_true_first (s : List Char) :
    (squeeze true s).dropWhile isTrimmed = squeeze true s := by
  induction s with
  | nil => rfl
  | cons c s ih =>
      rw [squeeze]
      split
      · rw [if_pos rfl]
        exact ih
      · next hc => rw [List.dropWhile_cons_of_neg hc]

theorem squeeze_first (s : List Char) :
    (squeeze false s).dropWhile isTrimmed = squeeze true s := by
  cases s with
  | nil => rfl
  | cons c s =>
      rw [squeeze, squeeze]
      split
      · rw [if_neg (by simp), if_pos rfl, List.dropWhile_cons_of_pos (by decide)]
        exact squeeze_true_first s
      · next hc => rw [List.dropWhile_cons_of_neg hc]

theorem joined_cons {c : Char} {w : List Char} {ws : List (List Char)} :
    joined ((c :: w) :: ws) = c :: joined (w :: ws) := by
  cases ws with
  | nil => simp [joined]
  | cons next ws => rw [joined_split, joined_split, List.cons_append]

theorem joined_ne_nil {w : List Char} {ws : List (List Char)} (hw : w ≠ []) :
    joined (w :: ws) ≠ [] := by
  cases w with
  | nil => exact absurd rfl hw
  | cons c w =>
      rw [joined_cons]
      simp

theorem joined_modifyHead {c : Char} {ws : List (List Char)} (h : ws ≠ []) :
    joined (ws.modifyHead (c :: ·)) = c :: joined ws := by
  cases ws with
  | nil => exact absurd rfl h
  | cons w ws => exact joined_cons

theorem words_ne_nil {c : Char} (hc : isTrimmed c = false) (s : List Char) :
    words isTrimmed (c :: s) ≠ [] := by
  induction s generalizing c with
  | nil =>
      have hone : words isTrimmed [c] = [[c]] := words_self (by simp [hc]) (by simp)
      simp [hone]
  | cons d s ih =>
      cases hd : isTrimmed d with
      | true =>
          have hfirst : words isTrimmed ([c] ++ d :: s) = [c] :: words isTrimmed s :=
            words_first (by simp [hc]) (by simp) hd
          rw [List.singleton_append] at hfirst
          simp [hfirst]
      | false =>
          rw [words_cons_cons hc hd]
          have hrest := ih hd
          cases hws : words isTrimmed (d :: s) with
          | nil => exact absurd hws hrest
          | cons w ws => simp

/-- A squeezed text is its words, with one space between them. -/
theorem trimEnd_squeeze (s : List Char) :
    trimEnd (squeeze true s) = joined (words isTrimmed s) ∧
      ∀ c, isTrimmed c = false →
        trimEnd (c :: squeeze false s) = joined (words isTrimmed (c :: s)) := by
  induction s with
  | nil =>
      refine ⟨by rw [words_nil]; rfl, fun c hc => ?_⟩
      rw [words_self (by simp [hc]) (by simp), squeeze, trimEnd_cons hc]
      rfl
  | cons d s ih =>
      obtain ⟨hinside, hbehind⟩ := ih
      cases hd : isTrimmed d with
      | true =>
          refine ⟨?_, fun c hc => ?_⟩
          · rw [squeeze, if_pos hd, if_pos rfl, words_sep hd]
            exact hinside
          · have hfirst : words isTrimmed ([c] ++ d :: s) = [c] :: words isTrimmed s :=
              words_first (by simp [hc]) (by simp) hd
            rw [List.singleton_append] at hfirst
            rw [squeeze, if_pos hd, if_neg (by simp), hfirst, trimEnd_cons hc,
              trimEnd_blank (by decide), hinside]
            cases hws : words isTrimmed s with
            | nil => simp [joined]
            | cons w ws =>
                have hw : w ≠ [] := (mem_words (hws ▸ List.mem_cons_self)).1
                rw [if_neg (joined_ne_nil hw), joined_split, List.singleton_append]
      | false =>
          refine ⟨?_, fun c hc => ?_⟩
          · rw [squeeze, if_neg (by simp [hd])]
            exact hbehind d hd
          · rw [squeeze, if_neg (by simp [hd]), trimEnd_cons hc, hbehind d hd,
              words_cons_cons hc hd, joined_modifyHead (words_ne_nil hd s)]

theorem collapseWhitespace_eq (s : List Char) :
    collapseWhitespace s = joined (words isTrimmed s) := by
  unfold collapseWhitespace
  rw [squeeze_first]
  exact (trimEnd_squeeze s).1

/-! ## The rules that stay within a word -/

/-- A word: not empty, and without a space. -/
def IsWord (w : List Char) : Prop := w ≠ [] ∧ ' ' ∉ w

/-- A character of joined words is one of a word, or a space between two. -/
theorem mem_joined_cases {ws : List (List Char)} {c : Char} (h : c ∈ joined ws) :
    c = ' ' ∨ ∃ w ∈ ws, c ∈ w := by
  induction ws with
  | nil => cases h
  | cons w ws ih =>
      cases ws with
      | nil => exact .inr ⟨w, List.mem_cons_self, by simpa [joined] using h⟩
      | cons next ws =>
          rw [joined_split, List.mem_append, List.mem_cons] at h
          rcases h with hw | hspace | hrest
          · exact .inr ⟨w, List.mem_cons_self, hw⟩
          · exact .inl hspace
          · rcases ih hrest with hspace | ⟨v, hv, hc⟩
            · exact .inl hspace
            · exact .inr ⟨v, List.mem_cons_of_mem w hv, hc⟩

/-- A rule that never looks across a space works word by word. -/
theorem joined_map {f : List Char → List Char} (hnil : f [] = [])
    (hcut : ∀ x y, ' ' ∉ x → y.head? ≠ some ' ' → f (x ++ ' ' :: y) = f x ++ ' ' :: f y)
    {ws : List (List Char)} (hws : ∀ w ∈ ws, IsWord w) : f (joined ws) = joined (ws.map f) := by
  induction ws with
  | nil => exact hnil
  | cons w ws ih =>
      obtain ⟨hw, hrest⟩ := List.forall_mem_cons.1 hws
      cases ws with
      | nil => simp [joined]
      | cons next ws =>
          have hnext : (joined (next :: ws)).head? ≠ some ' ' := by
            obtain ⟨hne, hspace⟩ := hrest next List.mem_cons_self
            cases next with
            | nil => exact absurd rfl hne
            | cons c next =>
                rw [joined_cons, List.head?_cons]
                intro hc
                exact hspace (Option.some.inj hc ▸ List.mem_cons_self)
          rw [joined_split, hcut _ _ hw.2 hnext, ih hrest, List.map_cons, List.map_cons,
            List.map_cons, joined_split]

theorem REPEATED_within : REPEATED.Within := by
  intro prev c rest b n h
  unfold REPEATED at h
  simp only at h
  split at h
  · obtain ⟨-, rfl⟩ := Prod.mk.inj (Option.some.inj h)
    exact (List.takeWhile_sublist _).length_le
  · cases h

theorem INTRUSIVE_within : INTRUSIVE.Within := by
  intro prev c rest b n h
  unfold INTRUSIVE at h
  split at h
  · obtain ⟨-, rfl⟩ := Prod.mk.inj (Option.some.inj h)
    exact (List.takeWhile_sublist _).length_le
  · cases h

theorem takeWhile_stop {p : Char → Bool} {c : Char} (hc : p c = false) (xs ys : List Char) :
    (xs ++ c :: ys).takeWhile p = xs.takeWhile p := by
  induction xs with
  | nil => simp [hc]
  | cons x xs ih => simp [List.takeWhile_cons, ih]

theorem dropWhile_stop {p : Char → Bool} {c : Char} (hc : p c = false) (xs ys : List Char) :
    (xs ++ c :: ys).dropWhile p = xs.dropWhile p ++ c :: ys := by
  induction xs with
  | nil => simp [hc]
  | cons x xs ih =>
      rw [List.cons_append, List.dropWhile_cons, List.dropWhile_cons, ih]
      split <;> rfl

theorem collapseRepetition_cut (x y : List Char) (hx : ' ' ∉ x) (hy : y.head? ≠ some ' ') :
    collapseRepetition (x ++ ' ' :: y) = collapseRepetition x ++ ' ' :: collapseRepetition y := by
  have hat : ∀ prev, REPEATED prev ' ' y = none := by
    intro prev
    have hnone : y.takeWhile (fun c => c = ' ') = [] := by
      cases y with
      | nil => rfl
      | cons c y =>
          have hc : c ≠ ' ' := fun heq => hy (heq ▸ rfl)
          simp [hc]
    simp [REPEATED, hnone]
  have hbefore : ∀ prev c xs, c ≠ ' ' → REPEATED prev c (xs ++ ' ' :: y) = REPEATED prev c xs := by
    intro prev c xs hc
    have hc' : ¬ ' ' = c := fun heq => hc heq.symm
    simp only [REPEATED, takeWhile_stop (p := fun x => decide (x = c)) (c := ' ') (by simp [hc'])]
  have hafter : pieces REPEATED (some ' ') 0 y = pieces REPEATED none 0 y := by
    cases y <;> rfl
  unfold collapseRepetition replaceAll
  rw [pieces_apart REPEATED_within hat hbefore none x hx, hafter, List.flatMap_append]
  rfl

theorem stripIntrusiveLatin_cut (x y : List Char) (hx : ' ' ∉ x) :
    stripIntrusiveLatin (x ++ ' ' :: y) =
      stripIntrusiveLatin x ++ ' ' :: stripIntrusiveLatin y := by
  have hat : ∀ prev, INTRUSIVE prev ' ' y = none := by
    intro prev
    simp [INTRUSIVE, isIntruder]
  have hbefore : ∀ prev c xs, c ≠ ' ' →
      INTRUSIVE prev c (xs ++ ' ' :: y) = INTRUSIVE prev c xs := by
    intro prev c xs hc
    have hhead : ((xs.dropWhile isIntruder) ++ ' ' :: y).head?.any isPersoArabic =
        (xs.dropWhile isIntruder).head?.any isPersoArabic := by
      cases xs.dropWhile isIntruder with
      | nil => rfl
      | cons x xs => rfl
    unfold INTRUSIVE
    rw [takeWhile_stop (by decide), dropWhile_stop (by decide), hhead]
  have hafter : pieces INTRUSIVE (some ' ') 0 y = pieces INTRUSIVE none 0 y := by
    cases y with
    | nil => rfl
    | cons c y =>
        have hsame : INTRUSIVE (some ' ') c y = INTRUSIVE none c y := by
          simp [INTRUSIVE, isPersoArabic]
        rw [pieces_cons, pieces_cons, hsame]
  unfold stripIntrusiveLatin replaceAll
  rw [pieces_apart INTRUSIVE_within hat hbefore none x hx, hafter, List.flatMap_append]
  rfl

/-! ## What a folding can give -/

/-- A folded character is the one it was, or one of the table's. -/
theorem foldBy_cases (table : List (Nat × Nat)) (c : Char) : foldBy table c = c ∨
    ∃ p ∈ table, c.toNat = p.1 ∧ foldBy table c = Char.ofNat p.2 := by
  unfold foldBy
  cases h : table.lookup c.toNat with
  | none => exact .inl rfl
  | some folded =>
      right
      induction table with
      | nil => cases h
      | cons p table ih =>
          obtain ⟨key, value⟩ := p
          rw [List.lookup_cons] at h
          cases hkey : c.toNat == key with
          | true =>
              rw [hkey] at h
              obtain rfl := Option.some.inj h
              exact ⟨(key, value), List.mem_cons_self, by simpa using hkey, rfl⟩
          | false =>
              rw [hkey] at h
              obtain ⟨p, hp, hpkey, hvalue⟩ := ih h
              exact ⟨p, List.mem_cons_of_mem _ hp, hpkey, hvalue⟩

theorem foldBy_self {table : List (Nat × Nat)} {c : Char} (h : ∀ p ∈ table, c.toNat ≠ p.1) :
    foldBy table c = c := by
  rcases foldBy_cases table c with hsame | ⟨p, hp, hkey, -⟩
  · exact hsame
  · exact absurd hkey (h p hp)

/-- A table without blanks folds nothing to one. -/
theorem foldBy_blank {table : List (Nat × Nat)} {c : Char}
    (htable : ∀ p ∈ table, isTrimmed (Char.ofNat p.2) = false) (h : isTrimmed c = false) :
    isTrimmed (foldBy table c) = false := by
  rcases foldBy_cases table c with hsame | ⟨p, hp, -, hvalue⟩
  · rw [hsame]
    exact h
  · rw [hvalue]
    exact htable p hp

theorem unifyDigit_cases (c : Char) : unifyDigit c = c ∨
    ∃ n, n < 10 ∧ unifyDigit c = Char.ofNat (n + 48) := by
  unfold unifyDigit
  split
  · next h => exact .inr ⟨c.toNat - 0x6F0, by omega, rfl⟩
  · split
    · next h => exact .inr ⟨c.toNat - 0x660, by omega, rfl⟩
    · exact .inl rfl

theorem unifyDigit_blank {c : Char} (h : isTrimmed c = false) :
    isTrimmed (unifyDigit c) = false := by
  rcases unifyDigit_cases c with hsame | ⟨n, hn, hdigit⟩
  · rw [hsame]
    exact h
  · rw [hdigit]
    exact (by decide : ∀ n, n < 10 → isTrimmed (Char.ofNat (n + 48)) = false) n hn

/-! ## Separators -/

/-- A character of a raw text that ends a word: a space of any kind, or the half-space. -/
def separates (c : Char) : Bool := (isTrimmed c && !isZeroWidth c) || c = ZWNJ

/-- The code points of the separators. -/
def SEPARATORS : List Nat :=
  [0x9, 0xA, 0xB, 0xC, 0xD, 0x20, 0xA0, 0x1680, 0x2000, 0x2001, 0x2002, 0x2003, 0x2004, 0x2005,
    0x2006, 0x2007, 0x2008, 0x2009, 0x200A, 0x200C, 0x2028, 0x2029, 0x202F, 0x205F, 0x3000]

theorem separates_mem {c : Char} (h : separates c = true) : c.toNat ∈ SEPARATORS := by
  unfold separates at h
  rw [Bool.or_eq_true, Bool.and_eq_true, decide_eq_true_eq] at h
  rcases h with ⟨hblank, hwidth⟩ | rfl
  · simp [isTrimmed] at hblank
    simp [isZeroWidth] at hwidth
    simp [SEPARATORS]
    omega
  · decide

/-- Every separator is read as a blank. -/
theorem readChar_separates {c : Char} (h : separates c = true) :
    ∃ d, readChar c = some d ∧ isTrimmed d = true := by
  have hall : ∀ n ∈ SEPARATORS, ∃ d, readChar (Char.ofNat n) = some d ∧ isTrimmed d = true := by
    have hread : ∀ n ∈ SEPARATORS, (readChar (Char.ofNat n)).any isTrimmed = true := by decide
    intro n hn
    obtain ⟨d, hd, hblank⟩ := (Option.any_eq_true _ _).1 (hread n hn)
    exact ⟨d, hd, hblank⟩
  have hc := hall c.toNat (separates_mem h)
  rwa [Char.ofNat_toNat] at hc

/-- No other character is. -/
theorem readChar_blank {c d : Char} (h : separates c = false) (hd : readChar c = some d) :
    isTrimmed d = false := by
  have hletter : foldBy ARABIC_LETTER_FOLDING c ≠ ZWNJ := by
    rcases foldBy_cases ARABIC_LETTER_FOLDING c with hsame | ⟨p, hp, -, hvalue⟩
    · rw [hsame]
      rintro rfl
      exact absurd h (by decide)
    · rw [hvalue]
      exact (by decide : ∀ p ∈ ARABIC_LETTER_FOLDING, Char.ofNat p.2 ≠ ZWNJ) p hp
  unfold readChar at hd
  simp only [if_neg hletter] at hd
  split at hd
  · cases hd
  · split at hd
    · cases hd
    · next hmark hwidth =>
        obtain rfl := Option.some.inj hd
        refine foldBy_blank (by decide) (unifyDigit_blank ?_)
        rcases foldBy_cases ARABIC_LETTER_FOLDING c with hsame | ⟨p, hp, -, hvalue⟩
        · rw [hsame] at hwidth ⊢
          unfold separates at h
          cases hblank : isTrimmed c with
          | false => rfl
          | true => simp [hblank, hwidth] at h
        · rw [hvalue]
          exact (by decide : ∀ p ∈ ARABIC_LETTER_FOLDING, isTrimmed (Char.ofNat p.2) = false) p hp

/-! ## The platform's functions -/

/-- What the rules rely on: composition and lower case stop at separators, and neither of them
    makes or takes one. -/
structure Unicode.Lawful (u : Unicode) : Prop where
  nfc_cut : ∀ x c y, separates c = true →
    ∃ c', separates c' = true ∧ u.nfc (x ++ c :: y) = u.nfc x ++ c' :: u.nfc y
  nfc_word : ∀ x, (∀ c ∈ x, separates c = false) → ∀ c ∈ u.nfc x, separates c = false
  lower_nil : u.toLowerCase [] = []
  lower_cut : ∀ x y, u.toLowerCase (x ++ ' ' :: y) = u.toLowerCase x ++ ' ' :: u.toLowerCase y
  lower_word : ∀ x, IsWord x → IsWord (u.toLowerCase x)
  space_apart : u.isLetterOrNumber ' ' = false

/-- The words of a text as they are read. -/
def readWords (u : Unicode) (s : List Char) : List (List Char) := words isTrimmed (read u s)

/-- The rules behind the white space, on one word. -/
def finish (u : Unicode) (w : List Char) : List Char :=
  u.toLowerCase (stripIntrusiveLatin (mapHomoglyphs (collapseRepetition w)))

section Platform

variable {u : Unicode}

theorem readWords_word {s w : List Char} (h : w ∈ readWords u s) : IsWord w := by
  obtain ⟨hne, hfree⟩ := mem_words h
  exact ⟨hne, fun hspace => absurd (hfree ' ' hspace) (by decide)⟩

/-- A run is collapsed to one of its characters. -/
theorem mem_collapseRepetition {c : Char} {s : List Char} (h : c ∈ collapseRepetition s) :
    c ∈ s := by
  obtain ⟨piece, hpiece, hc⟩ := List.mem_flatMap.1 h
  rcases mem_pieces hpiece with ⟨x, hx, rfl⟩ | ⟨x, hx, prev, rest, b, n, hmatch, rfl⟩
  · obtain rfl := List.mem_singleton.1 hc
    exact hx
  · obtain rfl := List.mem_singleton.1 hc
    unfold REPEATED at hmatch
    simp only at hmatch
    split at hmatch
    · obtain ⟨rfl, -⟩ := Prod.mk.inj (Option.some.inj hmatch)
      exact hx
    · cases hmatch

theorem mem_stripIntrusiveLatin {c : Char} {s : List Char} (h : c ∈ stripIntrusiveLatin s) :
    c ∈ s := by
  obtain ⟨piece, hpiece, hc⟩ := List.mem_flatMap.1 h
  rcases mem_pieces hpiece with ⟨x, hx, rfl⟩ | ⟨x, hx, prev, rest, b, n, hmatch, rfl⟩
  · obtain rfl := List.mem_singleton.1 hc
    exact hx
  · cases hc

theorem collapseRepetition_word {w : List Char} (h : IsWord w) :
    IsWord (collapseRepetition w) := by
  refine ⟨?_, fun hspace => h.2 (mem_collapseRepetition hspace)⟩
  cases w with
  | nil => exact absurd rfl h.1
  | cons c rest =>
      unfold collapseRepetition replaceAll pieces
      split
      · simp [replacement]
      · simp [replacement]

theorem mapHomoglyphs_word {w : List Char} (h : IsWord w) : IsWord (mapHomoglyphs w) := by
  refine ⟨by simpa [mapHomoglyphs] using h.1, fun hspace => ?_⟩
  obtain ⟨c, hc, hfold⟩ := List.mem_map.1 hspace
  rcases foldBy_cases HOMOGLYPH_FOLDING c with hsame | ⟨p, hp, -, hvalue⟩
  · rw [hsame] at hfold
    exact h.2 (hfold ▸ hc)
  · rw [hvalue] at hfold
    exact (by decide : ∀ p ∈ HOMOGLYPH_FOLDING, Char.ofNat p.2 ≠ ' ') p hp hfold

/-- The first character of a word is never an intruder. -/
theorem stripIntrusiveLatin_word {w : List Char} (h : IsWord w) :
    IsWord (stripIntrusiveLatin w) := by
  refine ⟨?_, fun hspace => h.2 (mem_stripIntrusiveLatin hspace)⟩
  cases w with
  | nil => exact absurd rfl h.1
  | cons c rest =>
      have hfirst : INTRUSIVE none c rest = none := by simp [INTRUSIVE]
      unfold stripIntrusiveLatin replaceAll
      rw [pieces_unmatched hfirst]
      simp [replacement]

theorem finish_word (hu : u.Lawful) {w : List Char} (h : IsWord w) : IsWord (finish u w) :=
  hu.lower_word _ (stripIntrusiveLatin_word (mapHomoglyphs_word (collapseRepetition_word h)))

theorem mapHomoglyphs_cut (x y : List Char) :
    mapHomoglyphs (x ++ ' ' :: y) = mapHomoglyphs x ++ ' ' :: mapHomoglyphs y := by
  unfold mapHomoglyphs
  rw [List.map_append, List.map_cons]
  rfl

/-- A normalized text is its words, each finished by itself. -/
theorem normalize_eq (hu : u.Lawful) (s : List Char) :
    normalize u s = joined ((readWords u s).map (finish u)) := by
  have hread : ∀ w ∈ readWords u s, IsWord w := fun w hw => readWords_word hw
  have hcollapsed : ∀ w ∈ (readWords u s).map collapseRepetition, IsWord w := by
    rw [List.forall_mem_map]
    exact fun w hw => collapseRepetition_word (hread w hw)
  have hmapped : ∀ w ∈ ((readWords u s).map collapseRepetition).map mapHomoglyphs, IsWord w := by
    rw [List.forall_mem_map]
    exact fun w hw => mapHomoglyphs_word (hcollapsed w hw)
  have hstripped : ∀ w ∈ (((readWords u s).map collapseRepetition).map mapHomoglyphs).map
      stripIntrusiveLatin, IsWord w := by
    rw [List.forall_mem_map]
    exact fun w hw => stripIntrusiveLatin_word (hmapped w hw)
  show u.toLowerCase (stripIntrusiveLatin (mapHomoglyphs (collapseRepetition
    (collapseWhitespace (unifyPunctuation (unifyDigits (foldZeroWidth (removeDiacritics
      (foldArabicLetters (toNfc u s)))))))))) = _
  rw [← read_eq, collapseWhitespace_eq]
  show u.toLowerCase (stripIntrusiveLatin (mapHomoglyphs (collapseRepetition
    (joined (readWords u s))))) = _
  rw [joined_map rfl collapseRepetition_cut hread,
    joined_map rfl (fun x y _ _ => mapHomoglyphs_cut x y) hcollapsed,
    joined_map rfl (fun x y hx _ => stripIntrusiveLatin_cut x y hx) hmapped,
    joined_map hu.lower_nil (fun x y _ _ => hu.lower_cut x y) hstripped]
  simp only [List.map_map]
  rfl

/-- A separator of a raw text cuts what is read of it in two. -/
theorem readWords_cut (hu : u.Lawful) {c : Char} (hc : separates c = true) (x y : List Char) :
    readWords u (x ++ c :: y) = readWords u x ++ readWords u y := by
  obtain ⟨c', hc', hcut⟩ := hu.nfc_cut x c y hc
  obtain ⟨d, hread, hblank⟩ := readChar_separates hc'
  unfold readWords read
  rw [hcut, List.filterMap_append, List.filterMap_cons, hread]
  exact words_cut hblank

/-- A raw text without separators is read as one word at most. -/
theorem readWords_free (hu : u.Lawful) {x : List Char} (hx : ∀ c ∈ x, separates c = false) :
    (readWords u x).length ≤ 1 := by
  have hfree : ∀ d ∈ read u x, isTrimmed d = false := by
    intro d hd
    obtain ⟨c, hc, hread⟩ := List.mem_filterMap.1 hd
    exact readChar_blank (hu.nfc_word x hx c hc) hread
  unfold readWords
  by_cases hne : read u x = []
  · rw [hne, words_nil]
    exact Nat.zero_le 1
  · rw [words_self hfree hne]
    exact Nat.le_refl 1

theorem readWords_joined (hu : u.Lawful) {xs : List (List Char)} (hxs : xs ≠ []) :
    readWords u (joined xs) = xs.flatMap (readWords u) := by
  induction xs with
  | nil => exact absurd rfl hxs
  | cons x xs ih =>
      cases xs with
      | nil => simp [joined]
      | cons next xs =>
          rw [joined_split, readWords_cut hu (by decide), ih (by simp)]
          rfl

/-- A stretch without separators stands for the word it is read as, if it is read as any. -/
theorem readWords_stretch (hu : u.Lawful) {x : List Char} (hx : ∀ c ∈ x, separates c = false) :
    ∃ qs : List (List Char), qs.map (readWords u) = (readWords u x).map fun w => [w] := by
  have hone := readWords_free hu hx
  cases hwords : readWords u x with
  | nil => exact ⟨[], rfl⟩
  | cons w ws =>
      rw [hwords, List.length_cons] at hone
      obtain rfl : ws = [] := List.length_eq_zero_iff.1 (by omega)
      exact ⟨[x], by rw [List.map_cons, hwords]; rfl⟩

/-- A raw text has, for each of its words, a stretch that is read as that word. -/
theorem readWords_pieces (hu : u.Lawful) (x s : List Char)
    (hx : ∀ c ∈ x, separates c = false) :
    ∃ qs : List (List Char), qs.map (readWords u) = (readWords u (x ++ s)).map fun w => [w] := by
  induction s generalizing x with
  | nil =>
      rw [List.append_nil]
      exact readWords_stretch hu hx
  | cons c s ih =>
      cases hc : separates c with
      | true =>
          obtain ⟨front, hfront⟩ := readWords_stretch hu hx
          obtain ⟨back, hback⟩ := ih [] (by simp)
          refine ⟨front ++ back, ?_⟩
          rw [readWords_cut hu hc, List.map_append, List.map_append, hfront, hback,
            List.nil_append]
      | false =>
          have hmore : ∀ d ∈ x ++ [c], separates d = false := by
            intro d hd
            rcases List.mem_append.1 hd with hin | hin
            · exact hx d hin
            · rw [List.mem_singleton.1 hin]
              exact hc
          have hsplit : x ++ c :: s = (x ++ [c]) ++ s := by simp
          rw [hsplit]
          exact ih (x ++ [c]) hmore

end Platform

/-! ## Plain text -/

def asciiLower (c : Char) : Char :=
  if 65 ≤ c.toNat ∧ c.toNat ≤ 90 then Char.ofNat (c.toNat + 32) else c

/-- The sign that is written with the letter K in composed text. -/
def KELVIN : Char := Char.ofNat 0x212A

def isPersianLetter (c : Char) : Bool :=
  (0x620 ≤ c.toNat && c.toNat ≤ 0x64A) || (0x671 ≤ c.toNat && c.toNat ≤ 0x6D3)

/-- Unicode as it is for a text of ASCII characters and Persian letters. -/
def plainUnicode : Unicode where
  nfc s := s.map fun c => if c = KELVIN then 'K' else c
  toLowerCase s := s.map asciiLower
  isLetterOrNumber c := c.isAlphanum || isPersianLetter c

/-- A character is lowered to one of the 26 letters, or is left alone. -/
theorem asciiLower_cases (c : Char) : asciiLower c = c ∨
    ∃ n, n < 26 ∧ c = Char.ofNat (n + 65) ∧ asciiLower c = Char.ofNat (n + 97) := by
  unfold asciiLower
  split
  · next hupper =>
      right
      refine ⟨c.toNat - 65, by omega, ?_, ?_⟩
      · rw [show c.toNat - 65 + 65 = c.toNat by omega, Char.ofNat_toNat]
      · rw [show c.toNat - 65 + 97 = c.toNat + 32 by omega]
  · exact .inl rfl

theorem asciiLower_space {c : Char} (h : asciiLower c = ' ') : c = ' ' := by
  rcases asciiLower_cases c with hsame | ⟨n, hn, -, hlower⟩
  · rwa [hsame] at h
  · exact absurd (hlower.symm.trans h) ((by decide : ∀ n, n < 26 → Char.ofNat (n + 97) ≠ ' ') n hn)

theorem plainUnicode_lawful : plainUnicode.Lawful where
  nfc_cut x c y hc := by
    refine ⟨c, hc, ?_⟩
    have hkelvin : c ≠ KELVIN := by
      rintro rfl
      exact absurd hc (by decide)
    simp [plainUnicode, hkelvin]
  nfc_word x hx := by
    intro c hc
    obtain ⟨d, hd, rfl⟩ := List.mem_map.1 hc
    split
    · decide
    · exact hx d hd
  lower_nil := rfl
  lower_cut x y := by
    show (x ++ ' ' :: y).map asciiLower = _
    rw [List.map_append, List.map_cons]
    rfl
  lower_word x hx := by
    refine ⟨by simpa [plainUnicode] using hx.1, fun hspace => ?_⟩
    obtain ⟨c, hc, hlower⟩ := List.mem_map.1 hspace
    exact hx.2 (asciiLower_space hlower ▸ hc)
  space_apart := by decide

end Normalizer

end Paayatam
