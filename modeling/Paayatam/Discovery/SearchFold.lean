/-
  Paayatam.Discovery.SearchFold

  `search-fold.ts`: a name and a query in the form in which they are compared.

  The text is composed once, at the start; the letters are folded, the zero-width
  characters removed and the capitals lowered behind it.  A fold is folded to
  itself exactly when its words are still composed (`foldForSearch_again_iff`), and
  a part of a name is found in it when composition and lower case take the name
  part by part (`foldedIncludes_part`).
-/

import Paayatam.Moderation.Evasions
import Mathlib.Data.List.Infix
import Mathlib.Data.List.TakeWhile

namespace Paayatam.SearchFold

open Lib Normalizer

/-! ## The source -/

/-- Arabic-script letters that render as their Persian counterparts. -/
def LETTER_FOLDING : List (Nat × Nat) :=
  [(0x64A, 0x6CC), (0x649, 0x6CC), (0x626, 0x6CC), (0x643, 0x6A9), (0x629, 0x647),
    (0x6C0, 0x647), (0x6BE, 0x647), (0x6D5, 0x647), (0x623, 0x627), (0x625, 0x627),
    (0x622, 0x627), (0x671, 0x627), (0x624, 0x648)]

/-- Fold a name or a query into the form the other one is compared against. -/
def foldForSearch (u : Unicode) (input : List Char) : List Char :=
  u.toLowerCase (collapseWhitespace (foldZeroWidth ((u.nfc input).map (foldBy LETTER_FOLDING))))

/-- Whether `haystack` contains `needle`, both folded. An empty needle matches. -/
def foldedIncludes (u : Unicode) (haystack needle : List Char) : Bool :=
  let folded := foldForSearch u needle
  folded.isEmpty || decide (folded <:+: foldForSearch u haystack)

/-! ## One character at a time -/

/-- What is made of a character behind the composition. -/
def searchChar (c : Char) : Option Char :=
  let letter := foldBy LETTER_FOLDING c
  let spaced := if letter = ZWNJ then ' ' else letter
  if isZeroWidth spaced then none else some spaced

/-- The text in front of the white space rule. -/
def readSearch (u : Unicode) (s : List Char) : List Char := (u.nfc s).filterMap searchChar

variable {u : Unicode} {s : List Char} {c d : Char}

theorem foldForSearch_eq (u : Unicode) (s : List Char) :
    foldForSearch u s = u.toLowerCase (Normalizer.joined (words isTrimmed (readSearch u s))) := by
  have hread : foldZeroWidth ((u.nfc s).map (foldBy LETTER_FOLDING)) = readSearch u s := by
    unfold foldZeroWidth readSearch
    generalize u.nfc s = text
    induction text with
    | nil => rfl
    | cons c text ih =>
        rw [List.filterMap_cons, ← ih, searchChar]
        by_cases hwidth : isZeroWidth (if foldBy LETTER_FOLDING c = ZWNJ then ' '
            else foldBy LETTER_FOLDING c) = true
        · simp [hwidth]
        · simp [hwidth]
  unfold foldForSearch
  rw [hread, collapseWhitespace_eq]

/-- A character that is left as it is. -/
def Kept (c : Char) : Prop := searchChar c = some c

theorem searchChar_zwnj (h : foldBy LETTER_FOLDING c = ZWNJ) : searchChar c = some ' ' := by
  unfold searchChar
  dsimp only
  rw [if_pos h, if_neg (by decide)]

theorem searchChar_letter (h : foldBy LETTER_FOLDING c ≠ ZWNJ) : searchChar c =
    if isZeroWidth (foldBy LETTER_FOLDING c) then none else some (foldBy LETTER_FOLDING c) := by
  unfold searchChar
  dsimp only
  rw [if_neg h]

theorem kept_iff : Kept c ↔
    foldBy LETTER_FOLDING c = c ∧ c ≠ ZWNJ ∧ isZeroWidth c = false := by
  unfold Kept
  by_cases hletter : foldBy LETTER_FOLDING c = ZWNJ
  · rw [searchChar_zwnj hletter]
    constructor
    · intro h
      obtain rfl := Option.some.inj h
      exact absurd hletter (by decide)
    · rintro ⟨hsame, hne, -⟩
      exact absurd (hsame.symm.trans hletter) hne
  · rw [searchChar_letter hletter]
    constructor
    · intro h
      split at h
      · cases h
      · next hwidth =>
          have hsame := Option.some.inj h
          rw [hsame] at hletter hwidth
          exact ⟨hsame, hletter, by simpa using hwidth⟩
    · rintro ⟨hsame, -, hwidth⟩
      rw [hsame, if_neg (by simp [hwidth])]

theorem searchChar_kept (h : searchChar c = some d) : Kept d := by
  by_cases hletter : foldBy LETTER_FOLDING c = ZWNJ
  · rw [searchChar_zwnj hletter] at h
    obtain rfl := Option.some.inj h
    unfold Kept
    decide
  · rw [searchChar_letter hletter] at h
    split at h
    · cases h
    · next hwidth =>
        obtain rfl := Option.some.inj h
        rcases foldBy_cases LETTER_FOLDING c with hsame | ⟨p, hp, -, hvalue⟩
        · exact kept_iff.2 ⟨by rw [hsame, hsame], hletter, by simpa using hwidth⟩
        · rw [hvalue]
          exact (by decide : ∀ p ∈ LETTER_FOLDING,
            searchChar (Char.ofNat p.2) = some (Char.ofNat p.2)) p hp

/-- A character that is no separator, has no width of zero and is read as a letter. -/
theorem searchChar_plain (hsep : separates c = false) (hwidth : isZeroWidth c = false) :
    searchChar c = some (foldBy LETTER_FOLDING c) := by
  have hne : c ≠ ZWNJ := by
    rintro rfl
    exact absurd hsep (by decide)
  have hfolded :
      foldBy LETTER_FOLDING c ≠ ZWNJ ∧ isZeroWidth (foldBy LETTER_FOLDING c) = false := by
    rcases foldBy_cases LETTER_FOLDING c with hsame | ⟨p, hp, -, hvalue⟩
    · rw [hsame]
      exact ⟨hne, hwidth⟩
    · rw [hvalue]
      exact (by decide : ∀ p ∈ LETTER_FOLDING, Char.ofNat p.2 ≠ ZWNJ ∧
        isZeroWidth (Char.ofNat p.2) = false) p hp
  rw [searchChar_letter hfolded.1, if_neg (by simp [hfolded.2])]

/-- A kept character that is no blank separates nothing. -/
theorem separates_kept (h : Kept c) (hblank : isTrimmed c = false) :
    separates c = false ∧ isZeroWidth c = false := by
  obtain ⟨-, hne, hwidth⟩ := kept_iff.1 h
  unfold separates
  simp [hblank, hne, hwidth]

theorem blank_of_separates (h : separates c = false ∧ isZeroWidth c = false) :
    isTrimmed c = false := by
  obtain ⟨hsep, hwidth⟩ := h
  unfold separates at hsep
  cases hblank : isTrimmed c with
  | false => rfl
  | true => simp [hblank, hwidth] at hsep

theorem words_joined {ws : List (List Char)}
    (hws : ∀ w ∈ ws, w ≠ [] ∧ ∀ c ∈ w, isTrimmed c = false) :
    words isTrimmed (Normalizer.joined ws) = ws := words_join (by decide) hws

/-! ## What composition and lower case do -/

/-- The Arabic letters that are folded and the marks of hamza and madda, with the letters that are
composed of them; a number says how many. -/
def WEIGHTS : List (Nat × Nat) :=
  [(0x622, 1), (0x623, 1), (0x624, 1), (0x625, 1), (0x626, 2), (0x629, 1), (0x643, 1), (0x649, 1),
    (0x64A, 1), (0x653, 1), (0x654, 1), (0x655, 1), (0x671, 1), (0x6BE, 1), (0x6C0, 2), (0x6C2, 1),
    (0x6D3, 1), (0x6D5, 1)]

def weightAt (n : Nat) : Nat := (WEIGHTS.lookup n).getD 0

/-- How many of them a text is composed of. -/
def weigh : List Char → Nat
  | [] => 0
  | c :: s => weightAt c.toNat + weigh s

/-- What the fold relies on.  Composition keeps what a text is composed of, stops at a space, makes
nothing invisible and no capitals; lower case stops at blanks, changes nothing twice, and touches
and makes none of the characters that the fold is about. -/
structure Searchable (u : Unicode) : Prop where
  nfc_nil : u.nfc [] = []
  nfc_space : ∀ x y, u.nfc (x ++ ' ' :: y) = u.nfc x ++ ' ' :: u.nfc y
  nfc_ne_nil : ∀ x, x ≠ [] → u.nfc x ≠ []
  nfc_width : ∀ x, (∀ c ∈ x, isZeroWidth c = false) → ∀ c ∈ u.nfc x, isZeroWidth c = false
  nfc_weight : ∀ x, weigh (u.nfc x) = weigh x
  nfc_lower : ∀ x, u.toLowerCase x = x → u.toLowerCase (u.nfc x) = u.nfc x
  lower_blank : ∀ x c y, isTrimmed c = true →
    u.toLowerCase (x ++ c :: y) = u.toLowerCase x ++ c :: u.toLowerCase y
  lower_lower : ∀ x, u.toLowerCase (u.toLowerCase x) = u.toLowerCase x
  lower_kept : ∀ x, (∀ c ∈ x, Kept c ∧ isTrimmed c = false) →
    ∀ c ∈ u.toLowerCase x, Kept c ∧ isTrimmed c = false
  lower_weight : ∀ x, weigh (u.toLowerCase x) = weigh x

/-- A folded letter weighs nothing. -/
theorem weight_fold (c : Char) :
    weightAt (foldBy LETTER_FOLDING c).toNat ≤ weightAt c.toNat ∧
      (weightAt (foldBy LETTER_FOLDING c).toNat = weightAt c.toNat →
        foldBy LETTER_FOLDING c = c) := by
  rcases foldBy_cases LETTER_FOLDING c with hsame | ⟨p, hp, hkey, hvalue⟩
  · rw [hsame]
    exact ⟨le_refl _, fun _ => rfl⟩
  · have htable : ∀ p ∈ LETTER_FOLDING, weightAt (Char.ofNat p.2).toNat = 0 ∧ 0 < weightAt p.1 := by
      decide
    obtain ⟨hzero, hpos⟩ := htable p hp
    rw [hvalue, hkey, hzero]
    exact ⟨Nat.zero_le _, fun h => by omega⟩

/-- A text that weighs as much when its letters are folded has none of them. -/
theorem fold_eq_of_weigh (h : weigh (s.map (foldBy LETTER_FOLDING)) = weigh s) :
    s.map (foldBy LETTER_FOLDING) = s := by
  have hle : ∀ s : List Char, weigh (s.map (foldBy LETTER_FOLDING)) ≤ weigh s := by
    intro s
    induction s with
    | nil => exact le_refl _
    | cons c s ih =>
        have hc := (weight_fold c).1
        rw [List.map_cons, weigh, weigh]
        omega
  induction s with
  | nil => rfl
  | cons c s ih =>
      obtain ⟨hc, hsame⟩ := weight_fold c
      have hs := hle s
      rw [List.map_cons, weigh, weigh] at h
      rw [List.map_cons, hsame (by omega), ih (by omega)]

/-! ## A fold, folded again -/

section Again

variable {w v : List Char}

theorem read_kept (u : Unicode) (s : List Char) : ∀ c ∈ readSearch u s, Kept c := by
  intro c hc
  obtain ⟨d, _, hread⟩ := List.mem_filterMap.1 hc
  exact searchChar_kept hread

theorem isWord_of_free (hne : w ≠ []) (hfree : ∀ c ∈ w, isTrimmed c = false) : IsWord w :=
  ⟨hne, fun hspace => absurd (hfree ' ' hspace) (by decide)⟩

/-- Lower case finds the words where they were. -/
theorem words_lower (hu : u.Lawful) (hs : Searchable u) {r : List Char} (hr : ∀ c ∈ r, Kept c) :
    words isTrimmed (u.toLowerCase r) = (words isTrimmed r).map u.toLowerCase := by
  refine words_map hu.lower_nil (fun x c y hc => ⟨c, hc, hs.lower_blank x c y hc⟩)
    (fun x hne hx => ?_) hr
  exact ⟨(hu.lower_word x (isWord_of_free hne fun c hc => (hx c hc).2)).1,
    fun c hc => (hs.lower_kept x hx c hc).2⟩

theorem words_read (hw : w ∈ words isTrimmed (readSearch u s)) :
    IsWord w ∧ ∀ c ∈ w, Kept c ∧ isTrimmed c = false := by
  obtain ⟨hne, hfree⟩ := mem_words hw
  exact ⟨isWord_of_free hne hfree,
    fun c hc => ⟨read_kept u s c (mem_of_mem_words hw hc), hfree c hc⟩⟩

/-- A fold is the lowered words, joined by spaces. -/
theorem foldForSearch_words (hu : u.Lawful) (hs : Searchable u) (s : List Char) :
    foldForSearch u s = Normalizer.joined (words isTrimmed (u.toLowerCase (readSearch u s))) := by
  rw [foldForSearch_eq, words_lower hu hs (read_kept u s),
    joined_map hu.lower_nil (fun x y _ _ => hu.lower_cut x y) fun w hw => (words_read hw).1]

/-- The words of a fold, and their characters. -/
theorem word_of_fold (hu : u.Lawful) (hs : Searchable u)
    (hv : v ∈ words isTrimmed (u.toLowerCase (readSearch u s))) :
    IsWord v ∧ (∀ c ∈ v, Kept c ∧ isTrimmed c = false) ∧ u.toLowerCase v = v := by
  rw [words_lower hu hs (read_kept u s)] at hv
  obtain ⟨w, hw, rfl⟩ := List.mem_map.1 hv
  obtain ⟨hword, hkept⟩ := words_read hw
  exact ⟨hu.lower_word w hword, hs.lower_kept w hkept, hs.lower_lower w⟩

/-- What is read of a word of a fold. -/
theorem read_again (hu : u.Lawful) (hs : Searchable u)
    (hkept : ∀ c ∈ v, Kept c ∧ isTrimmed c = false) :
    (∀ c ∈ u.nfc v, separates c = false ∧ isZeroWidth c = false) ∧
      (u.nfc v).filterMap searchChar = (u.nfc v).map (foldBy LETTER_FOLDING) := by
  have hplain : ∀ c ∈ u.nfc v, separates c = false ∧ isZeroWidth c = false := fun c hc =>
    ⟨hu.nfc_word v (fun d hd => (separates_kept (hkept d hd).1 (hkept d hd).2).1) c hc,
      hs.nfc_width v (fun d hd => (separates_kept (hkept d hd).1 (hkept d hd).2).2) c hc⟩
  refine ⟨hplain, ?_⟩
  rw [List.filterMap_congr fun c hc => searchChar_plain (hplain c hc).1 (hplain c hc).2]
  exact congrFun (List.filterMap_eq_map (f := foldBy LETTER_FOLDING)) (u.nfc v)

/-- The letters of a composed word, folded, and lowered. -/
def again (u : Unicode) (v : List Char) : List Char :=
  u.toLowerCase ((u.nfc v).map (foldBy LETTER_FOLDING))

/-- A word is folded to itself exactly when it is composed: composition that did not leave it alone
would have made a letter that is folded, and the fold would weigh less. -/
theorem again_eq_iff (hs : Searchable u) (hkept : ∀ c ∈ v, Kept c ∧ isTrimmed c = false)
    (hlower : u.toLowerCase v = v) : again u v = v ↔ u.nfc v = v := by
  constructor
  · intro h
    have hweight : weigh ((u.nfc v).map (foldBy LETTER_FOLDING)) = weigh (u.nfc v) := by
      calc weigh ((u.nfc v).map (foldBy LETTER_FOLDING))
          = weigh (again u v) := (hs.lower_weight _).symm
        _ = weigh v := by rw [h]
        _ = weigh (u.nfc v) := (hs.nfc_weight v).symm
    unfold again at h
    rw [fold_eq_of_weigh hweight, hs.nfc_lower v hlower] at h
    exact h
  · intro h
    have hsame : v.map (foldBy LETTER_FOLDING) = v := by
      rw [List.map_congr_left fun c hc => (kept_iff.1 (hkept c hc).1).1]
      exact List.map_id' v
    unfold again
    rw [h, hsame, hlower]

/-- The words of a fold are composed. -/
def Stable (u : Unicode) (s : List Char) : Prop :=
  ∀ w ∈ words isTrimmed (u.toLowerCase (readSearch u s)), u.nfc w = w

theorem foldForSearch_again (hu : u.Lawful) (hs : Searchable u) (s : List Char) :
    foldForSearch u (foldForSearch u s) =
      Normalizer.joined ((words isTrimmed (u.toLowerCase (readSearch u s))).map (again u)) := by
  have hvs := fun v hv => word_of_fold hu hs (s := s) (v := v) hv
  rw [foldForSearch_words hu hs s]
  generalize words isTrimmed (u.toLowerCase (readSearch u s)) = vs at hvs
  have hread : readSearch u (Normalizer.joined vs) =
      Normalizer.joined (vs.map fun v => (u.nfc v).map (foldBy LETTER_FOLDING)) := by
    have hcomposed : ∀ w ∈ vs.map u.nfc, IsWord w := by
      rw [List.forall_mem_map]
      intro v hv
      obtain ⟨hword, hkept, _⟩ := hvs v hv
      refine isWord_of_free (hs.nfc_ne_nil v hword.1) fun c hc => ?_
      exact blank_of_separates ((read_again hu hs hkept).1 c hc)
    unfold readSearch
    rw [joined_map hs.nfc_nil (fun x y _ _ => hs.nfc_space x y) fun v hv => (hvs v hv).1,
      joined_map List.filterMap_nil (fun x y _ _ => ?_) hcomposed, List.map_map]
    · refine congrArg Normalizer.joined (List.map_congr_left fun v hv => ?_)
      exact (read_again hu hs (hvs v hv).2.1).2
    · rw [List.filterMap_append, List.filterMap_cons]
      rfl
  have hfree : ∀ w ∈ vs.map fun v => (u.nfc v).map (foldBy LETTER_FOLDING),
      w ≠ [] ∧ ∀ c ∈ w, isTrimmed c = false := by
    rw [List.forall_mem_map]
    intro v hv
    obtain ⟨hword, hkept, _⟩ := hvs v hv
    refine ⟨by simpa using hs.nfc_ne_nil v hword.1, fun c hc => ?_⟩
    obtain ⟨d, hd, rfl⟩ := List.mem_map.1 hc
    exact foldBy_blank (by decide) (blank_of_separates ((read_again hu hs hkept).1 d hd))
  rw [foldForSearch_eq, hread, words_joined hfree,
    joined_map hu.lower_nil (fun x y _ _ => hu.lower_cut x y) fun w hw =>
      isWord_of_free (hfree w hw).1 (hfree w hw).2, List.map_map]
  rfl

theorem foldForSearch_again_iff (hu : u.Lawful) (hs : Searchable u) (s : List Char) :
    foldForSearch u (foldForSearch u s) = foldForSearch u s ↔ Stable u s := by
  have hvs := fun v hv => word_of_fold hu hs (s := s) (v := v) hv
  have hfree : ∀ v ∈ words isTrimmed (u.toLowerCase (readSearch u s)),
      v ≠ [] ∧ ∀ c ∈ v, isTrimmed c = false := fun v hv => mem_words hv
  have hagain : ∀ w ∈ (words isTrimmed (u.toLowerCase (readSearch u s))).map (again u),
      w ≠ [] ∧ ∀ c ∈ w, isTrimmed c = false := by
    rw [List.forall_mem_map]
    intro v hv
    obtain ⟨hword, hkept, _⟩ := hvs v hv
    have hread := (read_again hu hs hkept).1
    have hfolded : ∀ c ∈ (u.nfc v).map (foldBy LETTER_FOLDING), Kept c ∧ isTrimmed c = false := by
      intro c hc
      obtain ⟨d, hd, rfl⟩ := List.mem_map.1 hc
      exact ⟨searchChar_kept (searchChar_plain (hread d hd).1 (hread d hd).2),
        foldBy_blank (by decide) (blank_of_separates (hread d hd))⟩
    have hne : (u.nfc v).map (foldBy LETTER_FOLDING) ≠ [] := by
      simpa using hs.nfc_ne_nil v hword.1
    exact ⟨(hu.lower_word _ (isWord_of_free hne fun c hc => (hfolded c hc).2)).1,
      fun c hc => (hs.lower_kept _ hfolded c hc).2⟩
  rw [foldForSearch_again hu hs s, foldForSearch_words hu hs s]
  constructor
  · intro h v hv
    have hsplit := congrArg (words isTrimmed) h
    rw [words_joined hagain, words_joined hfree] at hsplit
    have hsame : again u v = id v := by
      refine List.map_inj_left.1 ?_ v hv
      rw [hsplit, List.map_id]
    exact (again_eq_iff hs (hvs v hv).2.1 (hvs v hv).2.2).1 hsame
  · intro h
    have hsame : ∀ v ∈ words isTrimmed (u.toLowerCase (readSearch u s)), again u v = v :=
      fun v hv => (again_eq_iff hs (hvs v hv).2.1 (hvs v hv).2.2).2 (h v hv)
    rw [List.map_congr_left hsame, List.map_id']

end Again

/-! ## A part of a name -/

section Part

variable {x y z : List Char}

/-- Squeezed in two parts. -/
theorem squeeze_append (inside : Bool) (x y : List Char) :
    ∃ inside', squeeze inside (x ++ y) = squeeze inside x ++ squeeze inside' y := by
  induction x generalizing inside with
  | nil => exact ⟨inside, rfl⟩
  | cons c x ih =>
      rw [List.cons_append, squeeze, squeeze]
      cases hc : isTrimmed c with
      | true =>
          obtain ⟨inside', hrest⟩ := ih true
          refine ⟨inside', ?_⟩
          cases inside with
          | true => simpa using hrest
          | false => simpa using hrest
      | false =>
          obtain ⟨inside', hrest⟩ := ih false
          exact ⟨inside', by simpa using hrest⟩

/-- Squeezed behind a letter, a text has one more space at most. -/
theorem squeeze_suffix (inside : Bool) (y : List Char) : squeeze true y <:+ squeeze inside y := by
  cases inside with
  | true => exact List.suffix_refl _
  | false =>
      cases y with
      | nil => exact List.suffix_refl _
      | cons c y =>
          rw [squeeze, squeeze]
          cases hc : isTrimmed c with
          | true => simp
          | false => simp

/-- Trimming the end takes nothing that is in front of a letter. -/
theorem trimEnd_kept (hc : isTrimmed c = false) (x y : List Char) :
    x ++ [c] <+: trimEnd (x ++ c :: y) := by
  unfold trimEnd
  rw [List.reverse_append, List.reverse_cons, List.append_assoc, List.singleton_append,
    dropWhile_stop hc]
  refine ⟨(y.reverse.dropWhile isTrimmed).reverse, ?_⟩
  simp

/-- The end of a trimmed text is a letter. -/
theorem trimEnd_cases (y : List Char) : trimEnd y = [] ∨
    ∃ front c back, trimEnd y = front ++ [c] ∧ y = front ++ c :: back ∧ isTrimmed c = false := by
  obtain ⟨x, back, rfl, hback, hx⟩ := last_stretch (fun c => !isTrimmed c) y
  have hdropped : back.reverse.dropWhile isTrimmed = [] := by
    refine List.dropWhile_eq_nil_iff.2 fun c hc => ?_
    simpa using hback c (List.mem_reverse.1 hc)
  rcases hx with rfl | ⟨front, c, rfl, hc⟩
  · left
    unfold trimEnd
    rw [List.nil_append, hdropped]
    rfl
  · right
    have hc' : isTrimmed c = false := by simpa using hc
    refine ⟨front, c, back, ?_, by simp, hc'⟩
    unfold trimEnd
    rw [List.append_assoc, List.singleton_append, List.reverse_append, List.reverse_cons,
      List.append_assoc, List.singleton_append, dropWhile_stop hc', hdropped]
    simp

/-- The collapsed middle of a text is in the collapsed text. -/
theorem collapseWhitespace_infix (x y z : List Char) :
    collapseWhitespace y <:+: collapseWhitespace (x ++ y ++ z) := by
  have htrim : ∀ t, collapseWhitespace t = trimEnd (squeeze true t) := by
    intro t
    rw [collapseWhitespace_eq, (trimEnd_squeeze t).1]
  rw [htrim, htrim]
  obtain ⟨inside, hfront⟩ := squeeze_append true x (y ++ z)
  obtain ⟨inside', hback⟩ := squeeze_append inside y z
  obtain ⟨space, hspace⟩ := squeeze_suffix inside y
  rw [List.append_assoc, hfront, hback, ← hspace]
  rcases trimEnd_cases (squeeze true y) with hnil | ⟨front, c, back, hend, hy, hc⟩
  · rw [hnil]
    exact List.nil_infix
  · rw [hend, hy]
    have hkept := trimEnd_kept hc (squeeze true x ++ space ++ front) (back ++ squeeze inside' z)
    obtain ⟨rest, hrest⟩ := hkept
    refine ⟨squeeze true x ++ space, rest, ?_⟩
    simp only [List.append_assoc, List.cons_append] at hrest ⊢
    exact hrest

/-- Composition and lower case take the parts of a name one by one. -/
def TakenApart (u : Unicode) (x y z : List Char) : Prop :=
  u.nfc (x ++ y ++ z) = u.nfc x ++ u.nfc y ++ u.nfc z ∧
    u.toLowerCase (readSearch u x ++ readSearch u y ++ readSearch u z) =
      u.toLowerCase (readSearch u x) ++ u.toLowerCase (readSearch u y) ++
        u.toLowerCase (readSearch u z)

theorem foldedIncludes_part (hu : u.Lawful) (hs : Searchable u) (h : TakenApart u x y z) :
    foldedIncludes u (x ++ y ++ z) y = true := by
  obtain ⟨hnfc, hlower⟩ := h
  have hread : readSearch u (x ++ y ++ z) =
      readSearch u x ++ readSearch u y ++ readSearch u z := by
    unfold readSearch
    rw [hnfc, List.filterMap_append, List.filterMap_append]
  have hfold : ∀ s, foldForSearch u s = collapseWhitespace (u.toLowerCase (readSearch u s)) := by
    intro s
    rw [foldForSearch_words hu hs, collapseWhitespace_eq]
  unfold foldedIncludes
  rw [Bool.or_eq_true, decide_eq_true_eq]
  right
  rw [hfold, hfold, hread, hlower]
  exact collapseWhitespace_infix _ _ _

end Part

section Madda

variable {x : List Char}

theorem composeMadda_ne_nil (h : x ≠ []) : composeMadda x ≠ [] := by
  match x with
  | [] => exact absurd rfl h
  | [c] => exact List.cons_ne_nil c []
  | c :: d :: rest =>
      rw [composeMadda_two]
      split
      · exact List.cons_ne_nil _ _
      · exact List.cons_ne_nil _ _

theorem weigh_composeMadda (x : List Char) : weigh (composeMadda x) = weigh x := by
  induction x using composeMadda.induct with
  | case1 => rfl
  | case2 c => rfl
  | case3 c d rest hpair ih =>
      have halef : weightAt ALEF.toNat = 0 := by decide
      have hmadda : weightAt MADDA.toNat = 1 := by decide
      have hboth : weightAt (Char.ofNat 0x622).toNat = 1 := by decide
      rw [composeMadda_two, if_pos hpair, weigh, weigh, weigh, ih, hpair.1, hpair.2]
      omega
  | case4 c d rest hpair ih => rw [composeMadda_two, if_neg hpair, weigh, weigh, ih]

/-- No capital is a blank, weighs anything or is folded, nor is what it is lowered to. -/
theorem asciiLower_spec (c : Char) : (isTrimmed c = true → asciiLower c = c) ∧
    weightAt (asciiLower c).toNat = weightAt c.toNat ∧
    (Kept c ∧ isTrimmed c = false → Kept (asciiLower c) ∧ isTrimmed (asciiLower c) = false) := by
  rcases asciiLower_cases c with hsame | ⟨n, hn, hupper, hlower⟩
  · rw [hsame]
    exact ⟨fun _ => rfl, rfl, id⟩
  · have hall : ∀ n, n < 26 → isTrimmed (Char.ofNat (n + 65)) = false ∧
        weightAt (Char.ofNat (n + 97)).toNat = weightAt (Char.ofNat (n + 65)).toNat ∧
        searchChar (Char.ofNat (n + 97)) = some (Char.ofNat (n + 97)) ∧
        isTrimmed (Char.ofNat (n + 97)) = false := by decide
    obtain ⟨hblank, hweight, hkept, hblank'⟩ := hall n hn
    rw [hlower, hupper]
    exact ⟨fun h => absurd h (by simp [hblank]), hweight, fun _ => ⟨hkept, hblank'⟩⟩

theorem maddaUnicode_searchable : Searchable maddaUnicode where
  nfc_nil := rfl
  nfc_space x y := composeMadda_cut (by decide) (by decide) x y
  nfc_ne_nil _ h := composeMadda_ne_nil h
  nfc_width x hx := by
    intro c hc
    rcases mem_composeMadda hc with hin | rfl
    · exact hx c hin
    · decide
  nfc_weight := weigh_composeMadda
  nfc_lower x hx := by
    have hfixed : ∀ c ∈ x, asciiLower c = id c := by
      refine List.map_inj_left.1 ?_
      rw [List.map_id]
      exact hx
    show (composeMadda x).map asciiLower = composeMadda x
    have hcomposed : ∀ c ∈ composeMadda x, asciiLower c = c := by
      intro c hc
      rcases mem_composeMadda hc with hin | rfl
      · exact hfixed c hin
      · decide
    rw [List.map_congr_left hcomposed, List.map_id']
  lower_blank x c y hc := by
    show (x ++ c :: y).map asciiLower = _
    rw [List.map_append, List.map_cons, (asciiLower_spec c).1 hc]
    rfl
  lower_lower x := by
    show (x.map asciiLower).map asciiLower = x.map asciiLower
    rw [List.map_map]
    exact List.map_congr_left fun c _ => asciiLower_idem c
  lower_kept x hx := by
    intro c hc
    obtain ⟨d, hd, rfl⟩ := List.mem_map.1 hc
    exact (asciiLower_spec d).2.2 (hx d hd)
  lower_weight x := by
    induction x with
    | nil => rfl
    | cons c x ih =>
        have hc := (asciiLower_spec c).2.1
        show weightAt (asciiLower c).toNat + weigh (maddaUnicode.toLowerCase x) = _
        rw [hc, ih, weigh]

end Madda

end Paayatam.SearchFold
