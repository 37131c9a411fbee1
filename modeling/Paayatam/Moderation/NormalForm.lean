/-
  Paayatam.Moderation.NormalForm

  When a normalized text is its own normal form.

  Every rule but two leaves a normalized text alone.  Composition can find new
  pairs where a rule took out what stood between them, and the collapse can find
  new runs where homoglyphs, case and intruders kept equal letters apart until it
  had gone by.
-/

import Paayatam.Moderation.NormalRuns

namespace Paayatam

open Lib

namespace Normalizer

/-! ## Characters without case -/

/-- White space, the Arabic block, and the signs the rules fold or drop. -/
def isCaseless (c : Char) : Bool :=
  isTrimmed c || isPersoArabic c || isZeroWidth c || c = ZWNJ ||
    [0xAB, 0xBB, 0x2013, 0x2014, 0x2018, 0x2019, 0x201C, 0x201D].contains c.toNat

/-- What lower case may write for a character. -/
structure LowersTo (c : Char) (image : List Char) : Prop where
  nonempty : image ≠ []
  caseless : isCaseless c = true → image = [c]
  cased : isCaseless c = false → ∀ d ∈ image, isCaseless d = false
  outside : c ≠ KELVIN → isIntruder c = false → ∃ d ∈ image, isIntruder d = false

/-- Lower case goes character by character, has nothing to do on what it wrote, and never
    meets a Kelvin sign in a composed text. -/
structure Unicode.Cased (u : Unicode) : Prop where
  lower_images : ∀ s, ∃ images, List.Forall₂ LowersTo s images ∧ u.toLowerCase s = images.flatten
  lower_fixed : ∀ s t, (∀ c ∈ t, c ∈ u.toLowerCase s) → u.toLowerCase t = t
  nfc_kelvin : ∀ s, KELVIN ∉ u.nfc s

/-! ## Characters that are read as they are -/

/-- No rule on single characters changes it. -/
def Settled (c : Char) : Prop := readChar c = some c ∧ foldBy HOMOGLYPH_FOLDING c = c

theorem notMem_block {c : Char} {table : List (Nat × Nat)} (hc : isPersoArabic c = false)
    (htable : ∀ p ∈ table, 0x600 ≤ p.1 ∧ p.1 ≤ 0x6FF) : ∀ p ∈ table, c.toNat ≠ p.1 := by
  intro p hp heq
  have hrange := htable p hp
  simp [isPersoArabic] at hc
  omega

theorem settled_cased {c : Char} (h : isCaseless c = false) : Settled c := by
  simp only [isCaseless, Bool.or_eq_false_iff, decide_eq_false_iff_not] at h
  obtain ⟨⟨⟨⟨-, hblock⟩, hwidth⟩, hjoiner⟩, hsigns⟩ := h
  have hletter : foldBy ARABIC_LETTER_FOLDING c = c :=
    foldBy_self (notMem_block hblock (by decide))
  have hpunctuation : foldBy PUNCTUATION_FOLDING c = c := by
    refine foldBy_self fun p hp heq => ?_
    have hkeys : ∀ p ∈ PUNCTUATION_FOLDING, (0x600 ≤ p.1 ∧ p.1 ≤ 0x6FF) ∨
        p.1 ∈ [0xAB, 0xBB, 0x2013, 0x2014, 0x2018, 0x2019, 0x201C, 0x201D] := by decide
    rcases hkeys p hp with hrange | hsign
    · simp [isPersoArabic] at hblock
      omega
    · rw [← heq] at hsign
      rw [List.contains_iff_mem.2 hsign] at hsigns
      cases hsigns
  have hmark : isDiacritic c = false := by
    simp [isPersoArabic] at hblock
    simp [isDiacritic]
    omega
  have hdigit : unifyDigit c = c := by
    simp [isPersoArabic] at hblock
    unfold unifyDigit
    rw [if_neg (by omega), if_neg (by omega)]
  refine ⟨?_, foldBy_self (notMem_block hblock (by decide))⟩
  unfold readChar
  simp only [hletter, hmark, hdigit, hpunctuation, if_neg hjoiner, hwidth]
  simp

/-- The code points the rules write. -/
def READ_IMAGES : List Nat :=
  [0x20, 0x22, 0x27, 0x2C, 0x2D, 0x2E, 0x3B, 0x3F, 0x30, 0x31, 0x32, 0x33, 0x34, 0x35, 0x36, 0x37,
    0x38, 0x39, 0x6CC, 0x6A9, 0x647, 0x627, 0x648]

theorem readChar_some {c d : Char} (h : readChar c = some d) :
    d = foldBy PUNCTUATION_FOLDING (unifyDigit (if foldBy ARABIC_LETTER_FOLDING c = ZWNJ then ' '
      else foldBy ARABIC_LETTER_FOLDING c)) := by
  unfold readChar at h
  simp only at h
  generalize (if foldBy ARABIC_LETTER_FOLDING c = ZWNJ then ' '
    else foldBy ARABIC_LETTER_FOLDING c) = spaced at h ⊢
  split at h
  · cases h
  · split at h
    · cases h
    · exact (Option.some.inj h).symm

theorem readChar_image {c d : Char} (h : readChar c = some d) :
    d = c ∨ ∃ n ∈ READ_IMAGES, d = Char.ofNat n := by
  rw [readChar_some h]
  rcases foldBy_cases ARABIC_LETTER_FOLDING c with hsame | ⟨p, hp, -, hvalue⟩
  · rw [hsame]
    by_cases hjoiner : c = ZWNJ
    · refine .inr ⟨0x20, by decide, ?_⟩
      rw [if_pos hjoiner]
      decide
    · rw [if_neg hjoiner]
      rcases unifyDigit_cases c with hplain | ⟨n, hn, hdigit⟩
      · rw [hplain]
        rcases foldBy_cases PUNCTUATION_FOLDING c with hkept | ⟨q, hq, -, hsign⟩
        · exact .inl hkept
        · refine .inr ⟨q.2, ?_, hsign⟩
          exact (by decide : ∀ q ∈ PUNCTUATION_FOLDING, q.2 ∈ READ_IMAGES) q hq
      · refine .inr ⟨n + 48, ?_, ?_⟩
        · exact (by decide : ∀ n, n < 10 → n + 48 ∈ READ_IMAGES) n hn
        · rw [hdigit]
          exact (by decide : ∀ n, n < 10 →
            foldBy PUNCTUATION_FOLDING (Char.ofNat (n + 48)) = Char.ofNat (n + 48)) n hn
  · right
    rw [hvalue]
    have hall : ∀ p ∈ ARABIC_LETTER_FOLDING, p.2 ∈ READ_IMAGES ∧
        foldBy PUNCTUATION_FOLDING (unifyDigit (if Char.ofNat p.2 = ZWNJ then ' '
          else Char.ofNat p.2)) = Char.ofNat p.2 := by decide
    exact ⟨p.2, (hall p hp).1, (hall p hp).2⟩

/-- What was read is read again as it is, and its homoglyph's letter too. -/
theorem settled_fold {c d : Char} (h : readChar c = some d) :
    Settled (foldBy HOMOGLYPH_FOLDING d) := by
  have hread : readChar d = some d := by
    rcases readChar_image h with rfl | ⟨n, hn, rfl⟩
    · exact h
    · exact (by decide : ∀ n ∈ READ_IMAGES, readChar (Char.ofNat n) = some (Char.ofNat n)) n hn
  rcases foldBy_cases HOMOGLYPH_FOLDING d with hsame | ⟨p, hp, -, hvalue⟩
  · rw [hsame]
    exact ⟨hread, hsame⟩
  · rw [hvalue]
    have hall : ∀ p ∈ HOMOGLYPH_FOLDING, readChar (Char.ofNat p.2) = some (Char.ofNat p.2) ∧
        foldBy HOMOGLYPH_FOLDING (Char.ofNat p.2) = Char.ofNat p.2 := by decide
    exact hall p hp

/-! ## Lower case and intruders -/

section Lowering

variable {s : List Char} {images : List (List Char)} {behind : Bool}

theorem caseless_of_perso {c : Char} (h : isPersoArabic c = true) : isCaseless c = true := by
  simp [isCaseless, h]

theorem not_intruder_of_caseless {c : Char} (h : isCaseless c = true) : isIntruder c = false := by
  by_cases hjoiner : c = ZWNJ
  · rw [hjoiner]
    decide
  · by_contra hintruder
    simp [isIntruder] at hintruder
    simp [isCaseless, isTrimmed, isPersoArabic, isZeroWidth, hjoiner] at h
    omega

/-- Where not all of a front are intruders, one of the front is what follows them. -/
theorem next_in_front {front : List Char} (rest : List Char) (h : ∃ d ∈ front, isIntruder d = false) :
    ∃ e ∈ front, ((front ++ rest).dropWhile isIntruder).head? = some e := by
  induction front with
  | nil =>
      obtain ⟨d, hd, -⟩ := h
      cases hd
  | cons c front ih =>
      cases hc : isIntruder c with
      | false =>
          refine ⟨c, List.mem_cons_self, ?_⟩
          rw [List.cons_append, List.dropWhile_cons_of_neg (by simp [hc])]
          rfl
      | true =>
          obtain ⟨d, hd, hdout⟩ := h
          have hlater : d ∈ front := by
            rcases List.mem_cons.1 hd with rfl | hlater
            · rw [hc] at hdout
              cases hdout
            · exact hlater
          obtain ⟨e, he, hnext⟩ := ih ⟨d, hlater, hdout⟩
          refine ⟨e, List.mem_cons_of_mem c he, ?_⟩
          rw [List.cons_append, List.dropWhile_cons_of_pos hc]
          exact hnext

/-- A letter of the Arabic block behind the intruders of an image was the character itself. -/
theorem LowersTo.next {c : Char} {image rest : List Char} (hc : LowersTo c image)
    (hout : ∃ d ∈ image, isIntruder d = false)
    (hnext : ((image ++ rest).dropWhile isIntruder).head?.any isPersoArabic = true) :
    isPersoArabic c = true := by
  obtain ⟨e, he, hfirst⟩ := next_in_front rest hout
  rw [hfirst] at hnext
  have hperso : isPersoArabic e = true := hnext
  cases hcase : isCaseless c with
  | true =>
      rw [hc.caseless hcase] at he
      rwa [← List.mem_singleton.1 he]
  | false =>
      have hcased := hc.cased hcase e he
      rw [caseless_of_perso hperso] at hcased
      cases hcased

/-- The letter behind the intruders at the front was there before lower case. -/
theorem next_of_lowered (h : List.Forall₂ LowersTo s images) (hkelvin : KELVIN ∉ s)
    (hnext : (images.flatten.dropWhile isIntruder).head?.any isPersoArabic = true) :
    (s.dropWhile isIntruder).head?.any isPersoArabic = true := by
  induction h with
  | nil => exact hnext
  | @cons c image s images hc _ ih =>
      rw [List.mem_cons, not_or] at hkelvin
      rw [List.flatten_cons] at hnext
      cases hintruder : isIntruder c with
      | false =>
          have hout := hc.outside (fun heq => hkelvin.1 heq.symm) hintruder
          rw [List.dropWhile_cons_of_neg (by simp [hintruder])]
          exact hc.next hout hnext
      | true =>
          rw [List.dropWhile_cons_of_pos hintruder]
          by_cases hout : ∃ d ∈ image, isIntruder d = false
          · have hperso := hc.next hout hnext
            rw [isIntruder_not_perso hintruder] at hperso
            cases hperso
          · have hall : ∀ d ∈ image, isIntruder d = true := by
              intro d hd
              by_contra hdout
              exact hout ⟨d, hd, by simpa using hdout⟩
            rw [List.dropWhile_append_of_pos hall] at hnext
            exact ih hkelvin.2 hnext

/-- In front of a clean text, characters that are no letters. -/
theorem clean_front {front rest : List Char} (hfront : ∀ d ∈ front, isPersoArabic d = false)
    (hne : front ≠ []) (henter : (behind && entering (front ++ rest)) = false)
    (hrest : Clean false rest) : Clean behind (front ++ rest) := by
  induction front generalizing behind with
  | nil => exact absurd rfl hne
  | cons d front ih =>
      obtain ⟨hd, htail⟩ := List.forall_mem_cons.1 hfront
      refine ⟨henter, ?_⟩
      rw [hd]
      cases front with
      | nil => exact hrest
      | cons e front => exact ih htail (by simp) (Bool.false_and _)

theorem clean_lowered (h : List.Forall₂ LowersTo s images) (hkelvin : KELVIN ∉ s)
    (hclean : Clean behind s) : Clean behind images.flatten := by
  induction h generalizing behind with
  | nil => trivial
  | @cons c image s images hc hrest ih =>
      rw [List.mem_cons, not_or] at hkelvin
      obtain ⟨henter, hlater⟩ := hclean
      rw [List.flatten_cons]
      cases hcase : isCaseless c with
      | true =>
          rw [hc.caseless hcase, List.singleton_append]
          refine ⟨?_, ih hkelvin.2 hlater⟩
          rw [entering_other (not_intruder_of_caseless hcase), Bool.and_false]
      | false =>
          have hletter : ∀ d, isCaseless d = false → isPersoArabic d = false := by
            intro d hd
            cases hperso : isPersoArabic d with
            | false => rfl
            | true =>
                rw [caseless_of_perso hperso] at hd
                cases hd
          rw [hletter c hcase] at hlater
          refine clean_front (fun d hd => hletter d (hc.cased hcase d hd)) hc.nonempty ?_
            (ih hkelvin.2 hlater)
          by_contra hstays
          rw [Bool.not_eq_false, Bool.and_eq_true] at hstays
          obtain ⟨hbehind, hin⟩ := hstays
          rw [entering, Bool.and_eq_true] at hin
          have hnone : ¬ ∃ d ∈ image, isIntruder d = false := by
            intro hout
            have hperso := hc.next hout hin.2
            rw [hletter c hcase] at hperso
            cases hperso
          have hall : ∀ d ∈ image, isIntruder d = true := by
            intro d hd
            by_contra hdout
            exact hnone ⟨d, hd, by simpa using hdout⟩
          have hintruder : isIntruder c = true := by
            by_contra hout
            exact hnone (hc.outside (fun heq => hkelvin.1 heq.symm) (by simpa using hout))
          have hnext := hin.2
          rw [List.dropWhile_append_of_pos hall] at hnext
          rw [hbehind, entering_cons hintruder, next_of_lowered hrest hkelvin.2 hnext] at henter
          cases henter

end Lowering

/-! ## The second time -/

/-- The letters a word is left with: no intruders among them, homoglyphs and case folded. -/
def letters (u : Unicode) (w : List Char) : List Char :=
  u.toLowerCase (mapHomoglyphs (stripIntrusiveLatin w))

section Again

variable {u : Unicode} {s w : List Char}

theorem foldBy_block {table : List (Nat × Nat)} {c : Char}
    (htable : ∀ p ∈ table, (0x600 ≤ p.1 ∧ p.1 ≤ 0x6FF) ∧ isPersoArabic (Char.ofNat p.2) = true) :
    isPersoArabic (foldBy table c) = isPersoArabic c ∧
      isIntruder (foldBy table c) = isIntruder c := by
  rcases foldBy_cases table c with hsame | ⟨p, hp, hkey, hvalue⟩
  · rw [hsame]
    exact ⟨rfl, rfl⟩
  · obtain ⟨hrange, hblock⟩ := htable p hp
    have hperso : isPersoArabic c = true := by
      simp [isPersoArabic]
      omega
    rw [hvalue, hblock, hperso, not_intruder_of_caseless (caseless_of_perso hblock),
      not_intruder_of_caseless (caseless_of_perso hperso)]
    exact ⟨rfl, rfl⟩

theorem homoglyph_block (c : Char) :
    isPersoArabic (foldBy HOMOGLYPH_FOLDING c) = isPersoArabic c ∧
      isIntruder (foldBy HOMOGLYPH_FOLDING c) = isIntruder c :=
  foldBy_block (by decide)

theorem entering_mapped (s : List Char) : entering (mapHomoglyphs s) = entering s := by
  have hdrop : (mapHomoglyphs s).dropWhile isIntruder = mapHomoglyphs (s.dropWhile isIntruder) := by
    unfold mapHomoglyphs
    rw [List.dropWhile_map]
    congr 2
    funext c
    exact (homoglyph_block c).2
  unfold entering
  rw [hdrop]
  unfold mapHomoglyphs
  rw [List.head?_map, List.head?_map, Option.any_map, Option.any_map]
  congr 2
  · funext c
    exact (homoglyph_block c).2
  · funext c
    exact (homoglyph_block c).1

theorem stripFrom_mapped (behind : Bool) (s : List Char) :
    stripFrom behind (mapHomoglyphs s) = mapHomoglyphs (stripFrom behind s) := by
  induction s generalizing behind with
  | nil => rfl
  | cons c s ih =>
      have hcons : mapHomoglyphs (c :: s) = foldBy HOMOGLYPH_FOLDING c :: mapHomoglyphs s := rfl
      rw [stripFrom, hcons, stripFrom, ← hcons, entering_mapped, (homoglyph_block c).1, ih, ih]
      split <;> rfl

/-- The intruders can be told before the homoglyphs are folded as well as after. -/
theorem finish_eq (u : Unicode) (w : List Char) :
    finish u w = letters u (collapseRepetition w) := by
  unfold finish letters
  rw [stripIntrusiveLatin_eq, stripIntrusiveLatin_eq, stripFrom_mapped]

theorem mem_forall₂ {R : Char → List Char → Prop} {s : List Char} {images : List (List Char)}
    (h : List.Forall₂ R s images) {image : List Char} (himage : image ∈ images) :
    ∃ c ∈ s, R c image := by
  induction h with
  | nil => cases himage
  | @cons c first s images hc _ ih =>
      rcases List.mem_cons.1 himage with rfl | hlater
      · exact ⟨c, List.mem_cons_self, hc⟩
      · obtain ⟨d, hd, hR⟩ := ih hlater
        exact ⟨d, List.mem_cons_of_mem c hd, hR⟩

/-- A character in front of lower case is one that no rule changes, and no blank. -/
theorem mem_stripped (hc : u.Cased) (hw : w ∈ readWords u s) {c : Char}
    (h : c ∈ stripIntrusiveLatin (mapHomoglyphs (collapseRepetition w))) :
    Settled c ∧ isTrimmed c = false ∧ c ≠ KELVIN := by
  obtain ⟨d, hd, rfl⟩ := List.mem_map.1 (mem_stripIntrusiveLatin h)
  have hword := mem_collapseRepetition hd
  obtain ⟨e, he, hread⟩ := List.mem_filterMap.1 (mem_of_mem_words hw hword)
  refine ⟨settled_fold hread, ?_, ?_⟩
  · exact foldBy_blank (by decide) ((mem_words hw).2 d hword)
  · have hd : d ≠ KELVIN := by
      rcases readChar_image hread with rfl | ⟨n, hn, rfl⟩
      · exact fun heq => hc.nfc_kelvin s (heq ▸ he)
      · exact (by decide : ∀ n ∈ READ_IMAGES, Char.ofNat n ≠ KELVIN) n hn
    rcases foldBy_cases HOMOGLYPH_FOLDING d with hsame | ⟨p, hp, -, hvalue⟩
    · rwa [hsame]
    · rw [hvalue]
      exact (by decide : ∀ p ∈ HOMOGLYPH_FOLDING, Char.ofNat p.2 ≠ KELVIN) p hp

/-- A character of a finished word is one that no rule changes, and no blank. -/
theorem finish_settled (hc : u.Cased) (hw : w ∈ readWords u s) {c : Char} (h : c ∈ finish u w) :
    Settled c ∧ isTrimmed c = false := by
  obtain ⟨images, himages, hlower⟩ :=
    hc.lower_images (stripIntrusiveLatin (mapHomoglyphs (collapseRepetition w)))
  have hin : c ∈ images.flatten := hlower ▸ h
  obtain ⟨image, himage, hcimage⟩ := List.mem_flatten.1 hin
  obtain ⟨d, hd, hlowers⟩ := mem_forall₂ himages himage
  cases hcase : isCaseless d with
  | true =>
      rw [hlowers.caseless hcase] at hcimage
      obtain rfl := List.mem_singleton.1 hcimage
      have hd' := mem_stripped hc hw hd
      exact ⟨hd'.1, hd'.2.1⟩
  | false =>
      have hcased := hlowers.cased hcase c hcimage
      refine ⟨settled_cased hcased, ?_⟩
      simp only [isCaseless, Bool.or_eq_false_iff] at hcased
      exact hcased.1.1.1.1

theorem not_terminator {c : Char} (h : isTrimmed c = false) : isLineTerminator c = false := by
  by_contra hend
  simp [isLineTerminator] at hend
  simp [isTrimmed] at h
  omega

/-- A finished word is finished again as it is, unless a run of three is found in it. -/
theorem finish_again (hc : u.Cased) (hw : w ∈ readWords u s) :
    finish u (finish u w) = finish u w ↔ ¬ Tripled (finish u w) := by
  have hsettled : ∀ c ∈ finish u w, Settled c ∧ isTrimmed c = false :=
    fun c hin => finish_settled hc hw hin
  have hkeeps : ∀ t : List Char, (∀ c ∈ t, c ∈ finish u w) → mapHomoglyphs t = t := by
    intro t ht
    unfold mapHomoglyphs
    rw [List.map_congr_left fun c hin => (hsettled c (ht c hin)).1.2, List.map_id']
  have hlowered : ∀ t : List Char, (∀ c ∈ t, c ∈ finish u w) → u.toLowerCase t = t :=
    fun t ht => hc.lower_fixed _ t ht
  have hagain : finish u (finish u w) =
      stripIntrusiveLatin (collapseRepetition (finish u w)) := by
    show u.toLowerCase (stripIntrusiveLatin (mapHomoglyphs (collapseRepetition (finish u w)))) = _
    rw [hkeeps _ fun c hin => mem_collapseRepetition hin]
    exact hlowered _ fun c hin => mem_collapseRepetition (mem_stripIntrusiveLatin hin)
  rw [hagain]
  constructor
  · intro h
    refine not_tripled_of_collapse ?_ ?_
    · intro c hin
      exact not_terminator (hsettled c hin).2
    · -- nothing is deleted, so nothing was collapsed
      have hsub := collapseRepetition_sublist (finish u w)
      refine hsub.eq_of_length (Nat.le_antisymm hsub.length_le ?_)
      have hshort : (stripIntrusiveLatin (collapseRepetition (finish u w))).length ≤
          (collapseRepetition (finish u w)).length := by
        rw [stripIntrusiveLatin_eq]
        exact (stripFrom_sublist false _).length_le
      rw [h] at hshort
      exact hshort
  · intro h
    rw [collapseRepetition_self h, stripIntrusiveLatin_eq]
    refine stripFrom_clean ?_
    obtain ⟨images, himages, hlower⟩ :=
      hc.lower_images (stripIntrusiveLatin (mapHomoglyphs (collapseRepetition w)))
    have hform : finish u w = images.flatten := hlower
    rw [hform]
    refine clean_lowered himages (fun hin => (mem_stripped hc hw hin).2.2 rfl) ?_
    rw [stripIntrusiveLatin_eq]
    exact clean_stripFrom false _

/-- No letter of a word is left three times in a row. -/
def Unrepeated (u : Unicode) (s : List Char) : Prop :=
  ∀ w ∈ readWords u s, ¬ Tripled (letters u (collapseRepetition w))

/-- The letters of the words are composed as they are. -/
def Composed (u : Unicode) (s : List Char) : Prop :=
  u.nfc (joined ((readWords u s).map fun w => letters u (collapseRepetition w))) =
    joined ((readWords u s).map fun w => letters u (collapseRepetition w))

theorem letters_eq (u : Unicode) (s : List Char) :
    ((readWords u s).map fun w => letters u (collapseRepetition w)) =
      (readWords u s).map (finish u) :=
  List.map_congr_left fun w _ => (finish_eq u w).symm

/-- A composed normal form is read as its own words. -/
theorem readWords_normalize (hu : u.Lawful) (hc : u.Cased) (hcomposed : Composed u s) :
    readWords u (normalize u s) = (readWords u s).map (finish u) := by
  unfold Composed at hcomposed
  rw [letters_eq] at hcomposed
  have hwords : ∀ f ∈ (readWords u s).map (finish u), f ≠ [] ∧ ∀ c ∈ f, isTrimmed c = false := by
    rw [List.forall_mem_map]
    exact fun w hw => ⟨(finish_word hu (readWords_word hw)).1,
      fun c hin => (finish_settled hc hw hin).2⟩
  have hread : read u (normalize u s) = joined ((readWords u s).map (finish u)) := by
    unfold read
    rw [normalize_eq hu, hcomposed]
    have hsome : ∀ c ∈ joined ((readWords u s).map (finish u)), readChar c = some c := by
      intro c hin
      rcases mem_joined_cases hin with rfl | ⟨f, hf, hcf⟩
      · decide
      · obtain ⟨w, hw, rfl⟩ := List.mem_map.1 hf
        exact (finish_settled hc hw hcf).1.1
    rw [List.filterMap_congr hsome]
    exact List.filterMap_some
  unfold readWords
  rw [hread]
  exact words_join (by decide) hwords

end Again

/-! ## Plain text -/

theorem asciiLower_lowersTo (c : Char) : LowersTo c [asciiLower c] := by
  rcases asciiLower_cases c with hsame | ⟨n, hn, hupper, hlower⟩
  · rw [hsame]
    exact ⟨by simp, fun _ => rfl, fun h d hd => List.mem_singleton.1 hd ▸ h,
      fun _ h => ⟨c, List.mem_singleton.2 rfl, h⟩⟩
  · have hall : ∀ n, n < 26 → isCaseless (Char.ofNat (n + 65)) = false ∧
        isIntruder (Char.ofNat (n + 65)) = true ∧ isCaseless (Char.ofNat (n + 97)) = false := by
      decide
    obtain ⟨hcased, hintruder, himage⟩ := hall n hn
    rw [hlower]
    refine ⟨by simp, fun h => ?_, fun _ d hd => List.mem_singleton.1 hd ▸ himage, fun _ h => ?_⟩
    · rw [hupper, hcased] at h
      cases h
    · rw [hupper, hintruder] at h
      cases h

theorem asciiLower_idem (c : Char) : asciiLower (asciiLower c) = asciiLower c := by
  rcases asciiLower_cases c with hsame | ⟨n, hn, -, hlower⟩
  · rw [hsame, hsame]
  · rw [hlower]
    exact (by decide : ∀ n, n < 26 →
      asciiLower (Char.ofNat (n + 97)) = Char.ofNat (n + 97)) n hn

theorem plainUnicode_cased : plainUnicode.Cased where
  lower_images s := by
    refine ⟨s.map fun c => [asciiLower c], ?_, ?_⟩
    · rw [List.forall₂_map_right_iff]
      exact List.forall₂_same.2 fun c _ => asciiLower_lowersTo c
    · show s.map asciiLower = _
      induction s with
      | nil => rfl
      | cons c s ih => rw [List.map_cons, ih, List.map_cons, List.flatten_cons]; rfl
  lower_fixed s t ht := by
    show t.map asciiLower = t
    have hsame : ∀ c ∈ t, asciiLower c = c := by
      intro c hc
      obtain ⟨d, -, rfl⟩ := List.mem_map.1 (ht c hc)
      exact asciiLower_idem d
    rw [List.map_congr_left hsame, List.map_id']
  nfc_kelvin s := by
    intro h
    obtain ⟨c, -, hc⟩ := List.mem_map.1 h
    split at hc
    · exact absurd hc (by decide)
    · next hne => exact hne hc

end Normalizer

end Paayatam
