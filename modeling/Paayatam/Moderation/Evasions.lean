/-
  Paayatam.Moderation.Evasions

  The disguises the normalizer is there to undo, put on a text any number of
  times.

  A disguise changes a text in one place.  What is read of the text is the same
  again, or differs in one word, and there the collapse has to meet the runs it
  met before: it has gone by when homoglyphs and intruders are dealt with, and a
  pair it leaves alone is no longer one when a third letter is put to it.
-/

import Paayatam.Lib.System
import Paayatam.Moderation.Blacklist
import Paayatam.Moderation.NormalForm

namespace Paayatam

open Lib

namespace Normalizer

/-! ## Disguises -/

/-- What is done to a text in one place. -/
inductive Disguise where
  /-- A haraka, a tatweel, a joiner or a bidi mark is put in. -/
  | mark (m : Char)
  /-- A letter is written as its Arabic variant. -/
  | variant (c c' : Char)
  /-- A digit is written in another script. -/
  | digit (c c' : Char)
  | homoglyph (c c' : Char)
  /-- A letter is written three times or more. -/
  | repetition (c : Char) (n : Nat)
  /-- Latin or Cyrillic letters are put in. -/
  | intruders (run : List Char)

def Disguise.taken : Disguise → List Char
  | .mark _ | .intruders _ => []
  | .variant c _ | .digit c _ | .homoglyph c _ | .repetition c _ => [c]

def Disguise.put : Disguise → List Char
  | .mark m => [m]
  | .variant _ c' | .digit _ c' | .homoglyph _ c' => [c']
  | .repetition c n => List.replicate n c
  | .intruders run => run

/-- A disguise and the text around it. -/
structure Evasion where
  before : List Char
  disguise : Disguise
  after : List Char

def Evasion.source (e : Evasion) : List Char := e.before ++ e.disguise.taken ++ e.after

def Evasion.target (e : Evasion) : List Char := e.before ++ e.disguise.put ++ e.after

/-- What the rules on single characters read of a composed text. -/
def shown (s : List Char) : List Char := s.filterMap readChar

/-- A place between two letters of the Arabic block. -/
def Between (p q : List Char) : Prop :=
  p.getLast?.any isPersoArabic = true ∧ q.head?.any isPersoArabic = true

/-- The evasions the rules are written against. -/
def Evasion.Documented (e : Evasion) : Prop :=
  match e.disguise with
  | .mark m => isDiacritic m = true ∨ isZeroWidth m = true
  | .variant c c' => foldBy ARABIC_LETTER_FOLDING c = foldBy ARABIC_LETTER_FOLDING c'
  | .digit c c' => unifyDigit c = unifyDigit c'
  | .homoglyph c c' => foldBy HOMOGLYPH_FOLDING c = foldBy HOMOGLYPH_FOLDING c'
  | .repetition c n => separates c = false ∧ 3 ≤ n
  | .intruders run =>
      run ≠ [] ∧ (∀ c ∈ run, isIntruder c = true) ∧ Between (shown e.before) (shown e.after)

/-- A text is disguised in one place. -/
def disguises (s : List Char) (e : Evasion) (t : List Char) : Prop :=
  e.Documented ∧ s = e.source ∧ t = e.target

/-- A disguise stays out of the repetitions around it: a homoglyph stands in no run of three,
    what is repeated is not one of a pair, and intruders do not cut a run. -/
def Disguise.Apart (p q : List Char) : Disguise → Prop
  | .mark _ | .variant _ _ | .digit _ _ => True
  | .homoglyph c c' => ∀ d, readChar c = some d ∨ readChar c' = some d → near d p q ≤ 1
  | .repetition c _ => ∀ d, readChar c = some d → near d p q ≠ 1
  | .intruders _ => ¬ Crosses p q ∧ Between p q

/-- The text is composed around the disguise as it was, and the disguise stands apart there. -/
def Evasion.Apart (u : Unicode) (e : Evasion) : Prop :=
  ∃ x y, u.nfc e.source = x ++ e.disguise.taken ++ y ∧ u.nfc e.target = x ++ e.disguise.put ++ y ∧
    e.disguise.Apart (shown x) (shown y)

/-! ## Characters that are read alike -/

section Characters

variable {c c' d : Char}

theorem readChar_mark (h : isDiacritic c = true ∨ isZeroWidth c = true) : readChar c = none := by
  have hletter : foldBy ARABIC_LETTER_FOLDING c = c := by
    refine foldBy_self fun p hp heq => ?_
    have hkeys : ∀ p ∈ ARABIC_LETTER_FOLDING,
        0x622 ≤ p.1 ∧ p.1 ≤ 0x64A ∧ p.1 ≠ 0x640 := by decide
    have hkey := hkeys p hp
    rcases h with hmark | hwidth
    · simp [isDiacritic] at hmark
      omega
    · simp [isZeroWidth] at hwidth
      omega
  unfold readChar
  simp only [hletter]
  rcases h with hmark | hwidth
  · rw [if_pos hmark]
  · have hjoiner : c ≠ ZWNJ := by
      rintro rfl
      exact absurd hwidth (by decide)
    rw [if_neg hjoiner, hwidth]
    split <;> rfl

theorem readChar_variant (h : foldBy ARABIC_LETTER_FOLDING c = foldBy ARABIC_LETTER_FOLDING c') :
    readChar c = readChar c' := by
  unfold readChar
  rw [h]

theorem readChar_unified (c : Char) : readChar (unifyDigit c) = readChar c := by
  have hdigits : ∀ base ∈ [0x6F0, 0x660], ∀ n, n < 10 →
      readChar (Char.ofNat (n + 48)) = readChar (Char.ofNat (base + n)) := by decide
  unfold unifyDigit
  split
  · next hpersian =>
      rw [hdigits 0x6F0 (by simp) _ (by omega),
        show 0x6F0 + (c.toNat - 0x6F0) = c.toNat by omega, Char.ofNat_toNat]
  · split
    · next harabic =>
        rw [hdigits 0x660 (by simp) _ (by omega),
          show 0x660 + (c.toNat - 0x660) = c.toNat by omega, Char.ofNat_toNat]
    · rfl

theorem readChar_digit (h : unifyDigit c = unifyDigit c') : readChar c = readChar c' := by
  rw [← readChar_unified c, h, readChar_unified c']

/-- A homoglyph is folded to what its letter is read as. -/
theorem readChar_folded (c : Char) :
    (readChar (foldBy HOMOGLYPH_FOLDING c)).map (foldBy HOMOGLYPH_FOLDING) =
      (readChar c).map (foldBy HOMOGLYPH_FOLDING) := by
  rcases foldBy_cases HOMOGLYPH_FOLDING c with hsame | ⟨p, hp, hkey, hvalue⟩
  · rw [hsame]
  · have htable : ∀ p ∈ HOMOGLYPH_FOLDING,
        (readChar (Char.ofNat p.2)).map (foldBy HOMOGLYPH_FOLDING) =
          (readChar (Char.ofNat p.1)).map (foldBy HOMOGLYPH_FOLDING) := by decide
    rw [hvalue, htable p hp, ← hkey, Char.ofNat_toNat]

theorem readChar_homoglyph (h : foldBy HOMOGLYPH_FOLDING c = foldBy HOMOGLYPH_FOLDING c') :
    (readChar c).map (foldBy HOMOGLYPH_FOLDING) = (readChar c').map (foldBy HOMOGLYPH_FOLDING) := by
  rw [← readChar_folded c, h, readChar_folded c']

/-- A blank is no homoglyph, and none is folded to one. -/
theorem eq_of_blank (hd : isTrimmed d = true)
    (h : foldBy HOMOGLYPH_FOLDING d = foldBy HOMOGLYPH_FOLDING c) : d = c := by
  have hself : ∀ x, isTrimmed x = true → foldBy HOMOGLYPH_FOLDING x = x := by
    intro x hx
    refine foldBy_self fun p hp heq => ?_
    have hkeys : ∀ p ∈ HOMOGLYPH_FOLDING, 0x671 ≤ p.1 ∧ p.1 ≤ 0x6D5 := by decide
    have hkey := hkeys p hp
    simp [isTrimmed] at hx
    omega
  cases hc : isTrimmed c with
  | true => rw [← hself d hd, h, hself c hc]
  | false =>
      have hfolded : isTrimmed (foldBy HOMOGLYPH_FOLDING c) = false := foldBy_blank (by decide) hc
      rw [← h, hself d hd, hd] at hfolded
      cases hfolded

theorem readChar_intruder (hc : isIntruder c = true) : readChar c = some c := by
  have hcased : isCaseless c = false := by
    cases hcase : isCaseless c with
    | false => rfl
    | true =>
        rw [not_intruder_of_caseless hcase] at hc
        cases hc
  exact (settled_cased hcased).1

theorem shown_intruders {run : List Char} (hrun : ∀ c ∈ run, isIntruder c = true) :
    shown run = run := by
  unfold shown
  rw [List.filterMap_congr fun c hc => readChar_intruder (hrun c hc)]
  exact List.filterMap_some

theorem perso_not_blank (hc : isPersoArabic c = true) : isTrimmed c = false := by
  by_contra hblank
  simp [isTrimmed] at hblank
  simp [isPersoArabic] at hc
  omega

theorem intruder_not_blank (hc : isIntruder c = true) : isTrimmed c = false := by
  by_contra hblank
  simp [isTrimmed] at hblank
  simp [isIntruder] at hc
  omega

end Characters

/-! ## The word of a place -/

/-- The text in front of a place and the text behind it, each cut where the word of the place
    begins and ends. -/
structure Around (s t x p q y : List Char) : Prop where
  front : s = x ++ p
  back : t = q ++ y
  before : ∀ c ∈ p, isTrimmed c = false
  behind : ∀ c ∈ q, isTrimmed c = false
  opened : x = [] ∨ ∃ front b, x = front ++ [b] ∧ isTrimmed b = true
  closed : y = [] ∨ ∃ b back, y = b :: back ∧ isTrimmed b = true

section Places

variable {u : Unicode} {s t x p q y new old : List Char} {c d : Char}

theorem exists_around (s t : List Char) : ∃ x p q y, Around s t x p q y := by
  obtain ⟨x, p, hs, hp, hx⟩ := last_stretch isTrimmed s
  obtain ⟨q, y, ht, hq, hy⟩ := first_stretch isTrimmed t
  exact ⟨x, p, q, y, hs, ht, hp, hq, hx, hy⟩

theorem Around.trailing_eq (h : Around s t x p q y) (hd : isTrimmed d = false) :
    trailing d s = trailing d p := by
  rw [h.front]
  unfold trailing
  rcases h.opened with rfl | ⟨front, b, rfl, hb⟩
  · rw [List.nil_append]
  · have hne : ¬ b = d := by
      rintro rfl
      rw [hb] at hd
      cases hd
    have hrev : (front ++ [b] ++ p).reverse = p.reverse ++ b :: front.reverse := by simp
    rw [hrev, takeWhile_stop (decide_eq_false hne)]

theorem Around.leading_eq (h : Around s t x p q y) (hd : isTrimmed d = false) :
    leading d t = leading d q := by
  rw [h.back]
  unfold leading
  rcases h.closed with rfl | ⟨b, back, rfl, hb⟩
  · rw [List.append_nil]
  · have hne : ¬ b = d := by
      rintro rfl
      rw [hb] at hd
      cases hd
    rw [takeWhile_stop (decide_eq_false hne)]

/-- Only the word of a place says what stands next to it. -/
theorem Around.near_eq (h : Around s t x p q y) (hd : isTrimmed d = false) :
    near d s t = near d p q := by
  unfold near
  rw [h.trailing_eq hd, h.leading_eq hd]

theorem Around.apart (h : Around s t x p q y) (hst : ¬ Crosses s t) : ¬ Crosses p q := by
  have hsuffix : p <:+ s := h.front ▸ List.suffix_append x p
  have hprefix : q <+: t := h.back ▸ List.prefix_append q y
  rintro ⟨c, hc⟩
  exact hst ⟨c, hc.imp (fun h => ⟨h.1.trans hsuffix, h.2.trans hprefix⟩)
    fun h => ⟨h.1.trans hsuffix, h.2.trans hprefix⟩⟩

/-- Between two letters is within a word. -/
theorem Around.between (h : Around s t x p q y) (hst : Between s t) : Between p q := by
  obtain ⟨hlast, hfirst⟩ := hst
  rw [h.front] at hlast
  rw [h.back] at hfirst
  constructor
  · by_cases hp : p = []
    · rw [hp, List.append_nil] at hlast
      rcases h.opened with rfl | ⟨front, b, rfl, hb⟩
      · cases hlast
      · rw [List.getLast?_concat] at hlast
        rw [perso_not_blank hlast] at hb
        cases hb
    · rwa [List.getLast?_append_of_ne_nil x hp] at hlast
  · by_cases hq : q = []
    · rw [hq, List.nil_append] at hfirst
      rcases h.closed with rfl | ⟨b, back, rfl, hb⟩
      · cases hfirst
      · rw [List.head?_cons] at hfirst
        rw [perso_not_blank hfirst] at hb
        cases hb
    · rwa [List.head?_append_of_ne_nil q hq] at hfirst

theorem Around.words_eq (h : Around s t x p q y) :
    words isTrimmed (s ++ old ++ t) =
      words isTrimmed x ++ words isTrimmed (p ++ old ++ q) ++ words isTrimmed y := by
  have hsplit : s ++ old ++ t = x ++ (p ++ old ++ q) ++ y := by
    rw [h.front, h.back]
    simp only [List.append_assoc]
  rw [hsplit]
  exact words_stretch h.opened h.closed

/-- What is put in a place changes its word at most. -/
theorem Around.normalize_eq (h : Around s t x p q y) (hu : u.Lawful) {a b : List Char}
    (hsource : read u a = s ++ old ++ t) (htarget : read u b = s ++ new ++ t)
    (hold : ∀ c ∈ old, isTrimmed c = false) (hnew : ∀ c ∈ new, isTrimmed c = false)
    (hold_ne : p ++ old ++ q ≠ []) (hnew_ne : p ++ new ++ q ≠ [])
    (hfinish : finish u (p ++ new ++ q) = finish u (p ++ old ++ q)) :
    normalize u b = normalize u a := by
  have hfree : ∀ mid : List Char, (∀ c ∈ mid, isTrimmed c = false) →
      ∀ c ∈ p ++ mid ++ q, isTrimmed c = false := by
    intro mid hmid c hc
    rw [List.mem_append, List.mem_append] at hc
    rcases hc with (hp | hin) | hq
    · exact h.before c hp
    · exact hmid c hin
    · exact h.behind c hq
  rw [Normalizer.normalize_eq hu, Normalizer.normalize_eq hu, readWords, readWords, hsource,
    htarget, h.words_eq, h.words_eq, words_self (hfree old hold) hold_ne,
    words_self (hfree new hnew) hnew_ne]
  simp only [List.map_append, List.map_cons, List.map_nil, hfinish]

theorem normalize_read (hu : u.Lawful) (h : read u s = read u t) :
    normalize u s = normalize u t := by
  rw [normalize_eq hu, normalize_eq hu, readWords, readWords, h]

end Places

/-! ## Finished alike -/

section Alike

variable {u : Unicode} {p q run : List Char} {c d : Char}

theorem finish_repeated {n : Nat} (hc : isTrimmed c = false) (hn : 3 ≤ n) (hnear : near c p q ≠ 1) :
    finish u (p ++ List.replicate n c ++ q) = finish u (p ++ [c] ++ q) := by
  unfold finish
  rw [collapseRepetition_repeated (not_terminator hc) hn hnear]

theorem finish_homoglyph (h : foldBy HOMOGLYPH_FOLDING c = foldBy HOMOGLYPH_FOLDING d)
    (hc : near c p q ≤ 1) (hd : near d p q ≤ 1) :
    finish u (p ++ [d] ++ q) = finish u (p ++ [c] ++ q) := by
  unfold finish
  rw [collapseRepetition_lone hc, collapseRepetition_lone hd]
  unfold mapHomoglyphs
  simp only [List.map_append, List.map_cons, List.map_nil, h]

/-- No run goes from the letters around into a run of intruders. -/
theorem intruders_apart (hne : run ≠ []) (hrun : ∀ c ∈ run, isIntruder c = true)
    (hpq : Between p q) : ¬ Crosses p (run ++ q) ∧ ¬ Crosses run q := by
  obtain ⟨hlast, hfirst⟩ := hpq
  have hclash : ∀ x, isPersoArabic x = true → isIntruder x = true → False := by
    intro x hperso hintruder
    rw [isIntruder_not_perso hintruder] at hperso
    cases hperso
  constructor
  · intro hcross
    obtain ⟨x, hx, hxhead⟩ := hcross.meet
    rw [List.head?_append_of_ne_nil run hne] at hxhead
    rw [hx] at hlast
    exact hclash x hlast (hrun x (List.mem_of_head? hxhead))
  · intro hcross
    obtain ⟨x, hx, hxhead⟩ := hcross.meet
    rw [hxhead] at hfirst
    exact hclash x hfirst (hrun x (List.mem_of_getLast? hx))

theorem finish_intruders (hne : run ≠ []) (hrun : ∀ c ∈ run, isIntruder c = true)
    (hpq : Between p q) (hcross : ¬ Crosses p q) :
    finish u (p ++ run ++ q) = finish u (p ++ [] ++ q) := by
  obtain ⟨hfront, hback⟩ := intruders_apart hne hrun hpq
  obtain ⟨hlast, hfirst⟩ := hpq
  obtain ⟨d, hd, hperso⟩ := (Option.any_eq_true _ _).1 hlast
  rw [← collapseRepetition_last] at hd
  obtain ⟨letters, hletters⟩ := List.getLast?_eq_some_iff.1 hd
  have hmapped : isPersoArabic (foldBy HOMOGLYPH_FOLDING d) = true := by
    rw [(homoglyph_block d).1]
    exact hperso
  have hintruders : ∀ c ∈ mapHomoglyphs (collapseRepetition run), isIntruder c = true := by
    unfold mapHomoglyphs
    rw [List.forall_mem_map]
    intro c hc
    rw [(homoglyph_block c).2]
    exact hrun c (mem_collapseRepetition hc)
  have hnext : (mapHomoglyphs (collapseRepetition q)).head?.any isPersoArabic = true := by
    unfold mapHomoglyphs
    rw [List.head?_map, collapseRepetition_head]
    obtain ⟨e, he, hletter⟩ := (Option.any_eq_true _ _).1 hfirst
    rw [he, Option.map_some, Option.any_some, (homoglyph_block e).1]
    exact hletter
  have hdeleted : stripIntrusiveLatin (mapHomoglyphs (collapseRepetition (p ++ run ++ q))) =
      stripIntrusiveLatin (mapHomoglyphs (collapseRepetition (p ++ [] ++ q))) := by
    have hsplit : ∀ mid : List Char, mapHomoglyphs (letters ++ [d] ++ mid) =
        mapHomoglyphs letters ++ foldBy HOMOGLYPH_FOLDING d :: mapHomoglyphs mid := by
      intro mid
      simp [mapHomoglyphs]
    have hjoin : mapHomoglyphs (collapseRepetition run ++ collapseRepetition q) =
        mapHomoglyphs (collapseRepetition run) ++ mapHomoglyphs (collapseRepetition q) :=
      List.map_append
    rw [List.append_assoc, collapseRepetition_append hfront, collapseRepetition_append hback,
      List.append_nil, collapseRepetition_append hcross, hletters, hsplit, hsplit, hjoin,
      stripIntrusiveLatin_eq, stripIntrusiveLatin_eq]
    exact stripFrom_between hmapped hintruders hnext
  unfold finish
  rw [hdeleted]

end Alike

/-! ## Plain text that is composed -/

def ALEF : Char := Char.ofNat 0x627

/-- The madda as a combining mark. -/
def MADDA : Char := Char.ofNat 0x653

/-- Composition of an alef and a madda behind it. -/
def composeMadda : List Char → List Char
  | [] => []
  | [c] => [c]
  | c :: d :: rest =>
    if c = ALEF ∧ d = MADDA then Char.ofNat 0x622 :: composeMadda rest
    else c :: composeMadda (d :: rest)

/-- Plain text in which an alef may carry a madda. -/
def maddaUnicode : Unicode := { plainUnicode with nfc := composeMadda }

section Madda

variable {c d : Char} {x y : List Char}

theorem composeMadda_two : composeMadda (c :: d :: x) =
    if c = ALEF ∧ d = MADDA then Char.ofNat 0x622 :: composeMadda x
    else c :: composeMadda (d :: x) := rfl

theorem composeMadda_cons (h : c ≠ ALEF) (y : List Char) :
    composeMadda (c :: y) = c :: composeMadda y := by
  cases y with
  | nil => rfl
  | cons d y =>
      rw [composeMadda_two, if_neg]
      exact fun hpair => h hpair.1

/-- What is no alef and no madda is composed with nothing. -/
theorem composeMadda_cut (hc : c ≠ ALEF) (hc' : c ≠ MADDA) (x y : List Char) :
    composeMadda (x ++ c :: y) = composeMadda x ++ c :: composeMadda y := by
  induction x using composeMadda.induct with
  | case1 => exact composeMadda_cons hc y
  | case2 a =>
      have hfirst : composeMadda (a :: c :: y) = a :: composeMadda (c :: y) := by
        rw [composeMadda_two, if_neg]
        exact fun hpair => hc' hpair.2
      rw [List.singleton_append, hfirst, composeMadda_cons hc]
      rfl
  | case3 a b rest hpair ih =>
      rw [List.cons_append, List.cons_append, composeMadda_two, composeMadda_two, if_pos hpair,
        if_pos hpair, ih]
      rfl
  | case4 a b rest hpair ih =>
      rw [List.cons_append, List.cons_append, composeMadda_two, composeMadda_two, if_neg hpair,
        if_neg hpair, ← List.cons_append, ih]
      rfl

theorem mem_composeMadda (h : d ∈ composeMadda x) : d ∈ x ∨ d = Char.ofNat 0x622 := by
  induction x using composeMadda.induct with
  | case1 => cases h
  | case2 a => exact .inl h
  | case3 a b rest hpair ih =>
      rw [composeMadda_two, if_pos hpair] at h
      rcases List.mem_cons.1 h with rfl | hrest
      · exact .inr rfl
      · exact (ih hrest).imp (fun hin => by simp [hin]) id
  | case4 a b rest hpair ih =>
      rw [composeMadda_two, if_neg hpair] at h
      rcases List.mem_cons.1 h with rfl | hrest
      · exact .inl List.mem_cons_self
      · exact (ih hrest).imp (List.mem_cons_of_mem a) id

end Madda

theorem maddaUnicode_lawful : maddaUnicode.Lawful where
  nfc_cut x c y hc := by
    refine ⟨c, hc, composeMadda_cut ?_ ?_ x y⟩
    · rintro rfl
      exact absurd hc (by decide)
    · rintro rfl
      exact absurd hc (by decide)
  nfc_word x hx := by
    intro c hc
    rcases mem_composeMadda hc with hin | rfl
    · exact hx c hin
    · decide
  lower_nil := plainUnicode_lawful.lower_nil
  lower_cut := plainUnicode_lawful.lower_cut
  lower_word := plainUnicode_lawful.lower_word
  space_apart := plainUnicode_lawful.space_apart

/-! ## Disguised again and again -/

section Runs

variable {u : Unicode} {e : Evasion} {s t : List Char}

/-- What is read of a text that is composed of three parts. -/
theorem read_parts {x mid y : List Char} (h : u.nfc s = x ++ mid ++ y) :
    read u s = shown x ++ shown mid ++ shown y := by
  unfold read shown
  rw [h, List.filterMap_append, List.filterMap_append]

theorem shown_single {c d : Char} (h : readChar c = some d) : shown [c] = [d] := by
  unfold shown
  rw [List.filterMap_cons, h, List.filterMap_nil]

/-- A disguise that is read as what it took changes nothing. -/
theorem undo_shown (hu : u.Lawful) (hshown : shown e.disguise.put = shown e.disguise.taken)
    (hapart : e.Apart u) : normalize u e.target = normalize u e.source := by
  obtain ⟨x, y, hsource, htarget, -⟩ := hapart
  refine normalize_read hu ?_
  rw [read_parts hsource, read_parts htarget, hshown]

theorem undo_repetition (hu : u.Lawful) {c : Char} {n : Nat}
    (hkind : e.disguise = .repetition c n) (hc : separates c = false) (hn : 3 ≤ n)
    (hapart : e.Apart u) : normalize u e.target = normalize u e.source := by
  cases hread : readChar c with
  | none =>
      refine undo_shown hu ?_ hapart
      rw [hkind]
      simp [shown, Disguise.taken, Disguise.put, hread]
  | some d =>
      obtain ⟨x, y, hsource, htarget, hplace⟩ := hapart
      rw [hkind] at hsource htarget hplace
      have hd := readChar_blank hc hread
      obtain ⟨x', p, q, y', haround⟩ := exists_around (shown x) (shown y)
      have hnear : near d p q ≠ 1 := by
        rw [← haround.near_eq hd]
        exact hplace d hread
      have hput : shown (List.replicate n c) = List.replicate n d :=
        List.filterMap_replicate_of_some hread
      have hold : read u e.source = shown x ++ [d] ++ shown y := by
        rw [read_parts hsource, ← shown_single hread]
        rfl
      have hnew : read u e.target = shown x ++ List.replicate n d ++ shown y := by
        rw [read_parts htarget, ← hput]
        rfl
      have hpos : n ≠ 0 := by omega
      refine haround.normalize_eq hu hold hnew ?_ ?_ ?_ ?_ (finish_repeated hd hn hnear)
      · intro c hc
        rwa [List.mem_singleton.1 hc]
      · intro c hc
        rwa [List.eq_of_mem_replicate hc]
      · simp
      · simp [hpos]

theorem undo_homoglyph (hu : u.Lawful) {c c' : Char} (hkind : e.disguise = .homoglyph c c')
    (hc : foldBy HOMOGLYPH_FOLDING c = foldBy HOMOGLYPH_FOLDING c') (hapart : e.Apart u) :
    normalize u e.target = normalize u e.source := by
  have hfolded := readChar_homoglyph hc
  by_cases hsame : readChar c = readChar c'
  · refine undo_shown hu ?_ hapart
    rw [hkind]
    show shown [c'] = shown [c]
    unfold shown
    rw [List.filterMap_cons, List.filterMap_cons, hsame]
  · -- both are read, and as two letters
    obtain ⟨d, hread⟩ : ∃ d, readChar c = some d := by
      by_contra hnone
      rw [← Option.isSome_iff_exists, Option.not_isSome_iff_eq_none] at hnone
      rw [hnone, Option.map_none] at hfolded
      exact hsame (hnone.trans (Option.map_eq_none_iff.1 hfolded.symm).symm)
    rw [hread, Option.map_some] at hfolded
    obtain ⟨d', hread', hletter⟩ := Option.map_eq_some_iff.1 hfolded.symm
    have hne : d ≠ d' := by
      rintro rfl
      exact hsame (hread.trans hread'.symm)
    have hd : isTrimmed d = false := by
      by_contra hblank
      exact hne (eq_of_blank (by simpa using hblank) hletter.symm)
    have hd' : isTrimmed d' = false := by
      by_contra hblank
      exact hne (eq_of_blank (by simpa using hblank) hletter).symm
    obtain ⟨x, y, hsource, htarget, hplace⟩ := hapart
    rw [hkind] at hsource htarget hplace
    obtain ⟨x', p, q, y', haround⟩ := exists_around (shown x) (shown y)
    have hnear : near d p q ≤ 1 := by
      rw [← haround.near_eq hd]
      exact hplace d (.inl hread)
    have hnear' : near d' p q ≤ 1 := by
      rw [← haround.near_eq hd']
      exact hplace d' (.inr hread')
    have hold : read u e.source = shown x ++ [d] ++ shown y := by
      rw [read_parts hsource, ← shown_single hread]
      rfl
    have hnew : read u e.target = shown x ++ [d'] ++ shown y := by
      rw [read_parts htarget, ← shown_single hread']
      rfl
    refine haround.normalize_eq hu hold hnew ?_ ?_ (by simp) (by simp)
      (finish_homoglyph hletter.symm hnear hnear')
    · intro c hc
      rwa [List.mem_singleton.1 hc]
    · intro c hc
      rwa [List.mem_singleton.1 hc]

theorem undo_intruders (hu : u.Lawful) {run : List Char} (hkind : e.disguise = .intruders run)
    (hne : run ≠ []) (hrun : ∀ c ∈ run, isIntruder c = true) (hapart : e.Apart u) :
    normalize u e.target = normalize u e.source := by
  obtain ⟨x, y, hsource, htarget, hplace⟩ := hapart
  rw [hkind] at hsource htarget hplace
  obtain ⟨hcross, hbetween⟩ := hplace
  obtain ⟨x', p, q, y', haround⟩ := exists_around (shown x) (shown y)
  have hpq := haround.between hbetween
  have hold : read u e.source = shown x ++ [] ++ shown y := read_parts hsource
  have hnew : read u e.target = shown x ++ run ++ shown y := by
    conv => rhs; rw [← shown_intruders hrun]
    exact read_parts htarget
  refine haround.normalize_eq hu hold hnew (by simp) ?_ ?_ ?_
    (finish_intruders hne hrun hpq (haround.apart hcross))
  · exact fun c hc => intruder_not_blank (hrun c hc)
  · intro hnil
    have hlast := hpq.1
    rw [List.append_nil] at hnil
    rw [(List.append_eq_nil_iff.1 hnil).1] at hlast
    cases hlast
  · simp [hne]

/-- A documented evasion that stands apart is undone. -/
theorem disguise_undone (hu : u.Lawful) (hs : disguises s e t) (hapart : e.Apart u) :
    normalize u t = normalize u s := by
  obtain ⟨hdoc, rfl, rfl⟩ := hs
  unfold Evasion.Documented at hdoc
  have hread : ∀ c c', readChar c = readChar c' → shown [c'] = shown [c] := by
    intro c c' h
    unfold shown
    rw [List.filterMap_cons, List.filterMap_cons, h]
  cases hkind : e.disguise with
  | mark m =>
      rw [hkind] at hdoc
      refine undo_shown hu ?_ hapart
      rw [hkind]
      show shown [m] = shown []
      unfold shown
      rw [List.filterMap_cons, readChar_mark hdoc]
  | variant c c' =>
      rw [hkind] at hdoc
      refine undo_shown hu ?_ hapart
      rw [hkind]
      exact hread c c' (readChar_variant hdoc)
  | digit c c' =>
      rw [hkind] at hdoc
      refine undo_shown hu ?_ hapart
      rw [hkind]
      exact hread c c' (readChar_digit hdoc)
  | homoglyph c c' =>
      rw [hkind] at hdoc
      exact undo_homoglyph hu hkind hdoc hapart
  | repetition c n =>
      rw [hkind] at hdoc
      exact undo_repetition hu hkind hdoc.1 hdoc.2 hapart
  | intruders run =>
      rw [hkind] at hdoc
      exact undo_intruders hu hkind hdoc.1 hdoc.2.1 hapart

theorem evasions_undone (hu : u.Lawful)
    (h : Reach (· = s) disguises (fun _ e => e.Apart u) t) :
    normalize u t = normalize u s ∧
      ∀ regex rules, matchRules u regex t rules = matchRules u regex s rules := by
  have hsame : normalize u t = normalize u s := by
    refine h.invariant (I := fun t => normalize u t = normalize u s) ?_ ?_
    · rintro t rfl
      rfl
    · intro t e t' ih hapart hstep
      rw [disguise_undone hu hstep hapart, ih]
  refine ⟨hsame, fun regex rules => ?_⟩
  unfold matchRules
  rw [hsame]

end Runs

theorem not_tripled_of_all {s : List Char} (hs : (s.all fun c => !isLineTerminator c) = true)
    (h : collapseRepetition s = s) : ¬ Tripled s := by
  refine not_tripled_of_collapse (fun c hc => ?_) h
  simpa using List.all_eq_true.1 hs c hc

/-- A text without a tripled letter whose disguise is not undone. -/
def Evades (u : Unicode) (s t : List Char) : Prop :=
  ¬ Tripled s ∧ Reach (· = s) disguises (fun _ _ => True) t ∧ normalize u t ≠ normalize u s

/-- One of a pair repeated; a homoglyph and an intruder in a repetition; and a joiner between an
    alef and its madda. -/
theorem evasions_remain : maddaUnicode.Lawful ∧
    Evades maddaUnicode "الله".toList "الللله".toList ∧
    Evades maddaUnicode "سا".toList "سڛسا".toList ∧
    Evades maddaUnicode "سا".toList "سسaسا".toList ∧
    Evades maddaUnicode [ALEF, MADDA] [ALEF, Char.ofNat 0x200D, MADDA] := by
  have hrepeated : Reach (· = "سا".toList) disguises (fun _ _ => True) "سسسا".toList := by
    refine .next (i := ⟨[], .repetition 'س' 3, "ا".toList⟩) (.start rfl) trivial ⟨?_, rfl, rfl⟩
    exact ⟨by decide, by decide⟩
  refine ⟨maddaUnicode_lawful, ⟨?_, ?_, by decide⟩, ⟨?_, ?_, by decide +kernel⟩,
    ⟨?_, ?_, by decide⟩, ⟨?_, ?_, by decide +kernel⟩⟩
  · exact not_tripled_of_all (by decide) (by decide)
  · refine .next (i := ⟨"ا".toList, .repetition 'ل' 3, "له".toList⟩) (.start rfl) trivial
      ⟨?_, rfl, rfl⟩
    exact ⟨by decide, by decide⟩
  · exact not_tripled_of_all (by decide) (by decide)
  · refine .next (i := ⟨"س".toList, .homoglyph 'س' 'ڛ', "سا".toList⟩) hrepeated trivial
      ⟨?_, rfl, rfl⟩
    show foldBy HOMOGLYPH_FOLDING 'س' = foldBy HOMOGLYPH_FOLDING 'ڛ'
    decide
  · exact not_tripled_of_all (by decide) (by decide)
  · refine .next (i := ⟨"سس".toList, .intruders ['a'], "سا".toList⟩) hrepeated trivial
      ⟨?_, rfl, rfl⟩
    exact ⟨by decide, List.forall_mem_singleton.2 (by decide), by decide, by decide⟩
  · exact not_tripled_of_all (by decide) (by decide)
  · refine .next (i := ⟨[ALEF], .mark (Char.ofNat 0x200D), [MADDA]⟩) (.start rfl) trivial
      ⟨?_, rfl, rfl⟩
    exact .inr (by decide)

/-- A greeting under a haraka, a repetition, an intruder and a homoglyph. -/
theorem greeting_undone :
    normalize maddaUnicode "سسس\u064Eلaٱم".toList = normalize maddaUnicode "سلام".toList ∧
      ∀ regex rules, matchRules maddaUnicode regex "سسس\u064Eلaٱم".toList rules =
        matchRules maddaUnicode regex "سلام".toList rules := by
  have hmarked : Reach (· = "سلام".toList) disguises (fun _ e => e.Apart maddaUnicode)
      "س\u064Eلام".toList := by
    refine .next (i := ⟨"س".toList, .mark (Char.ofNat 0x64E), "لام".toList⟩) (.start rfl) ?_
      ⟨?_, rfl, rfl⟩
    · exact ⟨"س".toList, "لام".toList, rfl, rfl, trivial⟩
    · exact .inl (by decide)
  have hrepeated : Reach (· = "سلام".toList) disguises (fun _ e => e.Apart maddaUnicode)
      "سسس\u064Eلام".toList := by
    refine .next (i := ⟨[], .repetition 'س' 3, "\u064Eلام".toList⟩) hmarked ?_ ⟨?_, rfl, rfl⟩
    · refine ⟨[], "\u064Eلام".toList, rfl, rfl, fun d hd => ?_⟩
      obtain rfl : 'س' = d := Option.some.inj hd
      decide
    · exact ⟨by decide, by decide⟩
  have hintruded : Reach (· = "سلام".toList) disguises (fun _ e => e.Apart maddaUnicode)
      "سسس\u064Eلaام".toList := by
    refine .next (i := ⟨"سسس\u064Eل".toList, .intruders ['a'], "ام".toList⟩) hrepeated ?_
      ⟨?_, rfl, rfl⟩
    · refine ⟨"سسس\u064Eل".toList, "ام".toList, rfl, rfl, fun hcross => ?_, by decide, by decide⟩
      obtain ⟨x, hlast, hfirst⟩ := hcross.meet
      have hsame := hlast.trans hfirst.symm
      exact absurd hsame (by decide)
    · exact ⟨by decide, List.forall_mem_singleton.2 (by decide), by decide, by decide⟩
  refine evasions_undone maddaUnicode_lawful (.next (i := ⟨"سسس\u064Eلa".toList,
    .homoglyph 'ا' 'ٱ', "م".toList⟩) hintruded ?_ ⟨?_, rfl, rfl⟩)
  · refine ⟨"سسس\u064Eلa".toList, "م".toList, rfl, rfl, fun d hd => ?_⟩
    rcases hd with hd | hd
    · obtain rfl : 'ا' = d := Option.some.inj hd
      decide
    · obtain rfl : 'ٱ' = d := Option.some.inj hd
      decide
  · show foldBy HOMOGLYPH_FOLDING 'ا' = foldBy HOMOGLYPH_FOLDING 'ٱ'
    decide

end Normalizer

end Paayatam
