/-
  Paayatam.Messaging.BroadcastMarkup

  The markup a broadcast may carry, and when an accepted body is of it.

  Here a tag is what it is in HTML: a name, attributes set off by blanks and
  quoted in any of the three ways, and a `>`.  The validator sees every such tag
  by its name, so what it accepts is nested, closed and allowed; of its attributes
  it sees those its pattern reports, and a text that has more is accepted on the
  strength of what was seen (`accepted_sound_iff`).
-/

import Paayatam.Messaging.BroadcastFormat

namespace Paayatam

open Lib

namespace Broadcast

/-! ## Well-formed tags -/

/-- White space inside a tag. -/
def isBlank (c : Char) : Bool := [9, 10, 12, 13, 32].contains c.toNat

/-- A name as the source spells it. -/
abbrev TagName := { name : List Char // name ≠ [] ∧ ∀ c ∈ name, isNameChar c = true }

abbrev Blanks := { blanks : List Char // ∀ c ∈ blanks, isBlank c = true }

inductive Quoting where
  | double | single | bare

/-- The quote around a value. -/
def Quoting.mark : Quoting → List Char
  | .double => [doubleQuote]
  | .single => [singleQuote]
  | .bare => []

/-- The characters a value so quoted may have.  No tag has another `<` in it. -/
def Quoting.allows : Quoting → Char → Bool
  | .double, c => c ≠ '<' && c ≠ doubleQuote
  | .single, c => c ≠ '<' && c ≠ singleQuote
  | .bare, c => !isBlank c && !([34, 39, 60, 61, 62, 96].contains c.toNat)

/-- ` name = "value"`. -/
structure Attribute where
  lead : Blanks
  lead_ne : lead.1 ≠ []
  name : TagName
  beforeEq : Blanks
  afterEq : Blanks
  quoting : Quoting
  value : List Char
  value_ok : ∀ c ∈ value, quoting.allows c = true
  bare_ne : quoting = .bare → value ≠ []

def Attribute.chars (a : Attribute) : List Char :=
  a.lead.1 ++ a.name.1 ++ a.beforeEq.1 ++ '=' :: a.afterEq.1 ++ a.quoting.mark ++ a.value ++
    a.quoting.mark

/-- A character of the text, or a tag. -/
inductive Markup where
  | text (c : Char) (h : c ≠ '<')
  | opening (name : TagName) (attributes : List Attribute) (trail : Blanks)
  | closing (name : TagName) (trail : Blanks)

/-- What stands behind the name of an opening tag. -/
def attributeChars (attributes : List Attribute) (trail : Blanks) : List Char :=
  attributes.flatMap Attribute.chars ++ trail.1

def Markup.chars : Markup → List Char
  | .text c _ => [c]
  | .opening name attributes trail => '<' :: name.1 ++ attributeChars attributes trail ++ ['>']
  | .closing name trail => '<' :: '/' :: name.1 ++ trail.1 ++ ['>']

/-- What the validator's pattern makes of a tag. -/
def Markup.seen : Markup → Option TagMatch
  | .text _ _ => none
  | .opening name attributes trail =>
    some ⟨false, name.1, (attributeChars attributes trail).takeWhile fun c => c ≠ '>'⟩
  | .closing name trail => some ⟨true, name.1, trail.1⟩

def Markup.bracket (m : Markup) : Option (Bracket String) := m.seen.map TagMatch.bracket

def Attribute.isHref (a : Attribute) : Bool := toLowerCase a.name.1 = "href"

/-- An https link of an `a`, or the class of a `pre`. -/
def Attribute.Fine (tag : String) (a : Attribute) : Prop :=
  (tag = "a" ∧ a.isHref = true ∧ HTTPS.isPrefixOf a.value = true) ∨
    (tag = "pre" ∧ toLowerCase a.name.1 = "class")

/-- The tag is allowed, its attributes are, and a link has one address. -/
def Markup.Sound : Markup → Prop
  | .text _ _ => True
  | .opening name attributes _ => toLowerCase name.1 ∈ ALLOWED_TAGS ∧
      (∀ a ∈ attributes, a.Fine (toLowerCase name.1)) ∧
      (toLowerCase name.1 = "a" → attributes.countP Attribute.isHref = 1)
  | .closing name _ => toLowerCase name.1 ∈ ALLOWED_TAGS

/-- Every `<` of the text opens one well-formed allowed tag, the tags are nested and closed,
    and they carry nothing but links over https and classes. -/
def SoundText (text : String) : Prop :=
  ∃ ms : List Markup, text.toList = ms.flatMap Markup.chars ∧ (∀ m ∈ ms, m.Sound) ∧
    Nested (ms.filterMap Markup.bracket)

/-- The validator's pattern reports the attribute. -/
def Attribute.Reported (seen : List Char) (a : Attribute) : Prop :=
  (a.name.1, a.value) ∈ matchAll ATTRIBUTE_PATTERN seen

/-- What the patterns pass over is in order: attributes that are not reported, and the number
    of addresses. -/
def Markup.NothingMissed : Markup → Prop
  | .opening name attributes trail =>
    (∀ a ∈ attributes,
      a.Reported ((attributeChars attributes trail).takeWhile fun c => c ≠ '>') ∨
        a.Fine (toLowerCase name.1)) ∧
      (toLowerCase name.1 = "a" → attributes.countP Attribute.isHref = 1)
  | _ => True

/-- Every `<` opens a well-formed tag, and the patterns pass over nothing that is out of
    order. -/
def NothingMissed (text : String) : Prop :=
  ∃ ms : List Markup, text.toList = ms.flatMap Markup.chars ∧ ∀ m ∈ ms, m.NothingMissed

/-! ## What the tag pattern sees -/

theorem isNameChar_spec {c : Char} (h : isNameChar c = true) :
    isTrimmed c = false ∧ c ≠ '/' ∧ c ≠ '<' := by
  have hrange : (97 ≤ c.toNat ∧ c.toNat ≤ 122) ∨ (65 ≤ c.toNat ∧ c.toNat ≤ 90) ∨ c.toNat = 45 := by
    simpa [isNameChar, or_assoc] using h
  refine ⟨?_, ?_, ?_⟩
  · simp only [isTrimmed, Bool.or_eq_false_iff, Bool.and_eq_false_iff, decide_eq_false_iff_not]
    refine ⟨?_, by omega⟩
    rw [List.contains_eq_mem, decide_eq_false_iff_not]
    simp only [List.mem_cons, List.not_mem_nil, or_false]
    omega
  · rintro rfl
    cases h
  · rintro rfl
    cases h

theorem isBlank_spec {c : Char} (h : isBlank c = true) :
    isNameChar c = false ∧ c ≠ '<' ∧ c ≠ '>' := by
  have hcases : c.toNat = 9 ∨ c.toNat = 10 ∨ c.toNat = 12 ∨ c.toNat = 13 ∨ c.toNat = 32 := by
    simpa [isBlank, List.contains_eq_mem] using h
  refine ⟨?_, ?_, ?_⟩
  · simp [isNameChar]
    omega
  · rintro rfl
    cases h
  · rintro rfl
    cases h

section Patterns

variable {prev : Option Char} {name : TagName} {seen rest : List Char}

theorem TagName.head_spec (name : TagName) (tail : List Char) :
    ∃ c cs, name.1 ++ tail = c :: cs ∧ isNameChar c = true := by
  obtain ⟨name, hne, hchars⟩ := name
  cases name with
  | nil => exact absurd rfl hne
  | cons c cs => exact ⟨c, cs ++ tail, rfl, hchars c List.mem_cons_self⟩

/-- What stands behind a name, once it is found. -/
theorem TAG_PATTERN_behind (name : TagName) (rest : List Char)
    (hstop : ∀ c ∈ seen.head?, isNameChar c = false) (hseen : '>' ∉ seen) :
    (name.1 ++ (seen ++ '>' :: rest)).takeWhile isNameChar = name.1 ∧
      (name.1 ++ (seen ++ '>' :: rest)).dropWhile isNameChar = seen ++ '>' :: rest ∧
      (seen ++ '>' :: rest).takeWhile (fun c => c ≠ '>') = seen ∧
      (seen ++ '>' :: rest).dropWhile (fun c => c ≠ '>') = '>' :: rest := by
  obtain ⟨d, ds, hbehind, hd⟩ : ∃ d ds, seen ++ '>' :: rest = d :: ds ∧ isNameChar d = false := by
    cases seen with
    | nil => exact ⟨'>', rest, rfl, rfl⟩
    | cons d ds => exact ⟨d, ds ++ '>' :: rest, rfl, hstop d rfl⟩
  have hplain : ∀ c ∈ seen, decide (c ≠ '>') = true := by
    intro c hc
    rw [decide_eq_true_eq]
    rintro rfl
    exact hseen hc
  refine ⟨?_, ?_, ?_, ?_⟩
  · rw [List.takeWhile_append_of_pos name.2.2, hbehind]
    simp [hd]
  · rw [List.dropWhile_append_of_pos name.2.2, hbehind]
    simp [hd]
  · rw [List.takeWhile_append_of_pos hplain]
    simp
  · rw [List.dropWhile_append_of_pos hplain]
    simp

/-- A name is not blank, and is no slash. -/
theorem TagName.front (name : TagName) (tail : List Char) :
    (name.1 ++ tail).dropWhile isTrimmed = name.1 ++ tail ∧
      (name.1 ++ tail).head? ≠ some '/' := by
  obtain ⟨c, cs, heq, hc⟩ := name.head_spec tail
  obtain ⟨hspace, hslash, -⟩ := isNameChar_spec hc
  rw [heq]
  exact ⟨by simp [hspace], by simpa using hslash⟩

/-- The pattern at a tag that is spelt without blanks in front. -/
theorem TAG_PATTERN_tag (prev : Option Char) (closing : Bool) (name : TagName)
    (rest : List Char) (hseen : '>' ∉ seen)
    (hstop : ∀ c ∈ seen.head?, isNameChar c = false) :
    TAG_PATTERN prev '<' (((if closing then ['/'] else []) ++ name.1 ++ seen ++ ['>']) ++ rest) =
      some (⟨closing, name.1, seen⟩,
        ((if closing then ['/'] else []) ++ name.1 ++ seen ++ ['>']).length) := by
  obtain ⟨hname, hdrop, hattrs, hend⟩ := TAG_PATTERN_behind name rest hstop hseen
  obtain ⟨hfront, hslash⟩ := name.front (seen ++ '>' :: rest)
  have hne : name.1 ≠ [] := name.2.1
  cases closing with
  | false =>
      have hwhole : (((if false = true then ['/'] else []) ++ name.1 ++ seen ++ ['>']) ++ rest) =
          name.1 ++ (seen ++ '>' :: rest) := by simp
      rw [hwhole]
      simp only [TAG_PATTERN, if_true, hfront, hslash, decide_false, hname, hdrop, hattrs, hend,
        hne, if_false, Bool.false_eq_true]
      simp only [List.length_append, List.length_cons, List.length_nil, List.nil_append]
      congr 2
      omega
  | true =>
      have hwhole : (((if true = true then ['/'] else []) ++ name.1 ++ seen ++ ['>']) ++ rest) =
          '/' :: (name.1 ++ (seen ++ '>' :: rest)) := by simp
      have hopened : ('/' :: (name.1 ++ (seen ++ '>' :: rest))).dropWhile isTrimmed =
          '/' :: (name.1 ++ (seen ++ '>' :: rest)) := by simp [isTrimmed]
      rw [hwhole]
      simp only [TAG_PATTERN, if_true, hopened, List.head?_cons, List.tail_cons, decide_true,
        hfront, hname, hdrop, hattrs, hend, hne, if_false]
      simp only [List.length_append, List.length_cons, List.length_nil]
      congr 2
      omega

-- A tag holds no other `<`, and a blank ends its name.

theorem Attribute.no_lt (a : Attribute) : '<' ∉ a.chars := by
  have hblanks : ∀ b : Blanks, '<' ∉ b.1 := fun b hb => absurd (b.2 _ hb) (by decide)
  have hname : '<' ∉ a.name.1 := fun hb => absurd (a.name.2.2 _ hb) (by decide)
  have hmark : '<' ∉ a.quoting.mark := by cases a.quoting <;> decide
  have hvalue : '<' ∉ a.value := by
    intro hb
    have hallowed := a.value_ok _ hb
    revert hallowed
    cases a.quoting <;> decide
  simp [Attribute.chars, hblanks, hname, hmark, hvalue]

theorem attributeChars_no_lt (attributes : List Attribute) (trail : Blanks) :
    '<' ∉ attributeChars attributes trail := by
  intro h
  rcases List.mem_append.1 h with h | h
  · obtain ⟨a, -, ha⟩ := List.mem_flatMap.1 h
    exact a.no_lt ha
  · exact absurd (trail.2 _ h) (by decide)

theorem attributeChars_head (attributes : List Attribute) (trail : Blanks) :
    ∀ c ∈ (attributeChars attributes trail).head?, isBlank c = true := by
  cases attributes with
  | nil =>
      intro c hc
      exact trail.2 c (List.mem_of_mem_head? hc)
  | cons a rest =>
      cases hlead : a.lead.1 with
      | nil => exact absurd hlead a.lead_ne
      | cons b bs =>
          intro c hc
          have hcb : b = c := by simpa [attributeChars, Attribute.chars, hlead] using hc
          exact hcb ▸ a.lead.2 b (by simp [hlead])

/-- The first `>` at or behind a text. -/
theorem first_gt (xs : List Char) : ∃ left,
    xs ++ ['>'] = (xs.takeWhile fun c => c ≠ '>') ++ '>' :: left ∧ ∀ c ∈ left, c ∈ xs ++ ['>'] := by
  induction xs with
  | nil => exact ⟨[], rfl, by simp⟩
  | cons x xs ih =>
      by_cases hx : x = '>'
      · subst hx
        exact ⟨xs ++ ['>'], by simp, fun c hc => List.mem_cons_of_mem _ hc⟩
      · obtain ⟨left, hsplit, hmem⟩ := ih
        refine ⟨left, ?_, fun c hc => List.mem_cons_of_mem _ (hmem c hc)⟩
        rw [List.takeWhile_cons_of_pos (by simpa using hx), List.cons_append, hsplit]
        rfl

theorem TAG_PATTERN_plain {c : Char} (h : c ≠ '<') : TAG_PATTERN prev c rest = none := if_neg h

/-- One step of the scan over markup: what it sees there, and the rest. -/
theorem pieces_markup (prev : Option Char) (m : Markup) (rest : List Char) : ∃ prev',
    (pieces TAG_PATTERN prev 0 (m.chars ++ rest)).filterMap Sum.getRight? =
      m.seen.toList ++ (pieces TAG_PATTERN prev' 0 rest).filterMap Sum.getRight? := by
  cases m with
  | text c h =>
      refine ⟨some c, ?_⟩
      show (pieces TAG_PATTERN prev 0 (c :: rest)).filterMap Sum.getRight? = _
      rw [pieces_unmatched (TAG_PATTERN_plain h)]
      rfl
  | closing name trail =>
      have hseen : '>' ∉ trail.1 := fun h => absurd (trail.2 _ h) (by decide)
      have hstop : ∀ c ∈ trail.1.head?, isNameChar c = false := fun c hc =>
        (isBlank_spec (trail.2 c (List.mem_of_mem_head? hc))).1
      have hmatch := pieces_matched (TAG_PATTERN_tag prev true name rest hseen hstop)
      have hsplit : (Markup.closing name trail).chars ++ rest =
          '<' :: ((if true = true then ['/'] else []) ++ name.1 ++ trail.1 ++ ['>']) ++ rest := by
        simp [Markup.chars]
      rw [hsplit, hmatch]
      exact ⟨_, rfl⟩
  | opening name attributes trail =>
      obtain ⟨left, hleft, hmem⟩ := first_gt (attributeChars attributes trail)
      generalize hseen : (attributeChars attributes trail).takeWhile (fun c => c ≠ '>') = seen
        at hleft
      have hnone : '>' ∉ seen := by
        rw [← hseen]
        intro h
        have hpass := List.all_eq_true.1 List.all_takeWhile _ h
        simp at hpass
      have hstop : ∀ c ∈ seen.head?, isNameChar c = false := by
        intro c hc
        have hhead : c ∈ (attributeChars attributes trail).head? := by
          have hprefix : seen <+: attributeChars attributes trail := by
            rw [← hseen]
            exact List.takeWhile_prefix _
          obtain ⟨more, hmore⟩ := hprefix
          rw [← hmore, List.head?_append, Option.mem_def.1 hc]
          rfl
        exact (isBlank_spec (attributeChars_head attributes trail c hhead)).1
      have hplain : ∀ prev c rest, c ∈ left → TAG_PATTERN prev c rest = none := by
        intro prev c rest hc
        refine TAG_PATTERN_plain fun hlt => ?_
        subst hlt
        rcases List.mem_append.1 (hmem _ hc) with h | h
        · exact attributeChars_no_lt attributes trail h
        · exact absurd h (by decide)
      have hmatch := pieces_matched (TAG_PATTERN_tag prev false name (left ++ rest) hnone hstop)
      have hsplit : (Markup.opening name attributes trail).chars ++ rest =
          '<' :: ((if false = true then ['/'] else []) ++ name.1 ++ seen ++ ['>']) ++
            (left ++ rest) := by
        simp only [Markup.chars, List.cons_append, List.append_assoc, hleft]
        simp
      have hskipped : (left.map Sum.inl : List (Char ⊕ TagMatch)).filterMap Sum.getRight? = [] := by
        rw [List.filterMap_map]
        exact List.filterMap_eq_nil_iff.2 fun _ _ => rfl
      refine ⟨lastRead (lastRead (some '<') ((if false = true then ['/'] else []) ++ name.1 ++
        seen ++ ['>'])) left, ?_⟩
      rw [hsplit, hmatch, pieces_plain hplain, List.filterMap_cons, List.filterMap_append, hskipped]
      show _ :: _ = (Option.some _).toList ++ _
      rw [hseen]
      rfl

/-- The matches in a text of markup are its tags. -/
theorem matchAll_markup (ms : List Markup) :
    matchAll TAG_PATTERN (ms.flatMap Markup.chars) = ms.filterMap Markup.seen := by
  have hall : ∀ prev, (pieces TAG_PATTERN prev 0 (ms.flatMap Markup.chars)).filterMap
      Sum.getRight? = ms.filterMap Markup.seen := by
    induction ms with
    | nil => simp
    | cons m ms ih =>
        intro prev
        obtain ⟨prev', hstep⟩ := pieces_markup prev m (ms.flatMap Markup.chars)
        rw [List.flatMap_cons, hstep, ih]
        cases h : m.seen <;> simp [h]
  exact hall none

end Patterns

/-! ## Accepted bodies -/

/-- What the attribute pattern reports of a clean tag is in order. -/
theorem fine_of_reported {m : TagMatch} (h : judgeAttributes m = []) {a : Attribute}
    (ha : a.Reported m.attributes) : a.Fine (toLowerCase m.name) := by
  have hjudged : judgeAttribute (toLowerCase m.name) (a.name.1, a.value) = [] := by
    rw [judgeAttributes, List.flatMap_eq_nil_iff] at h
    exact h _ ha
  unfold judgeAttribute at hjudged
  by_cases hlink : toLowerCase m.name = "a" ∧ toLowerCase a.name.1 = "href"
  · rw [if_pos hlink] at hjudged
    have hsafe : isSafeHref a.value = true := by
      by_contra hstays
      simp [hstays] at hjudged
    simp only [isSafeHref, Bool.and_eq_true] at hsafe
    exact .inl ⟨hlink.1, by simp [Attribute.isHref, hlink.2], hsafe.1.1⟩
  · rw [if_neg hlink] at hjudged
    by_cases hclass : toLowerCase m.name = "pre" ∧ toLowerCase a.name.1 = "class"
    · exact .inr hclass
    · simp [hclass] at hjudged

theorem Markup.sound_nothingMissed {m : Markup} (h : m.Sound) : m.NothingMissed := by
  cases m with
  | text c hc => trivial
  | closing name trail => trivial
  | opening name attributes trail => exact ⟨fun a ha => .inr (h.2.1 a ha), h.2.2⟩

/-- A tag that was found clean is sound when nothing of it was missed. -/
theorem Markup.sound_of_clean {m : Markup} (hclean : ∀ t ∈ m.seen, t.Clean)
    (h : m.NothingMissed) : m.Sound := by
  cases m with
  | text c hc => trivial
  | closing name trail => exact (hclean _ rfl).1
  | opening name attributes trail =>
      obtain ⟨hallowed, hjudged⟩ := hclean _ rfl
      refine ⟨hallowed, fun a ha => ?_, h.2⟩
      rcases h.1 a ha with hreported | hfine
      · exact fine_of_reported (hjudged rfl) hreported
      · exact hfine

/-- An accepted body is sound exactly when the patterns missed nothing in it. -/
theorem accepted_sound_iff (text : String)
    (hok : (validateTelegramMessage text (some .HTML)).ok = true) :
    SoundText text ↔ NothingMissed text := by
  obtain ⟨-, hclean, hnested⟩ := html_ok_iff.1 hok
  constructor
  · rintro ⟨ms, htext, hsound, -⟩
    exact ⟨ms, htext, fun m hm => Markup.sound_nothingMissed (hsound m hm)⟩
  · rintro ⟨ms, htext, hmissed⟩
    have hseen : matchAll TAG_PATTERN text.toList = ms.filterMap Markup.seen := by
      rw [htext]
      exact matchAll_markup ms
    rw [hseen] at hclean hnested
    refine ⟨ms, htext, fun m hm => ?_, ?_⟩
    · exact Markup.sound_of_clean (fun t ht => hclean t (List.mem_filterMap.2 ⟨m, hm, ht⟩))
        (hmissed m hm)
    · have hbrackets : ms.filterMap Markup.bracket =
          (ms.filterMap Markup.seen).map TagMatch.bracket := by
        rw [List.map_filterMap]
        rfl
      rw [hbrackets]
      exact hnested

theorem infix_flatMap {α β : Type} {f : α → List β} {l : List α} {a : α} (h : a ∈ l) :
    f a <:+: l.flatMap f := by
  obtain ⟨s, t, rfl⟩ := List.append_of_mem h
  exact ⟨s.flatMap f, t.flatMap f, by simp⟩

/-- The value of an attribute stands in the text. -/
theorem value_within {ms : List Markup} {name : TagName} {attributes : List Attribute}
    {trail : Blanks} {a : Attribute} (hm : .opening name attributes trail ∈ ms)
    (ha : a ∈ attributes) : a.value <:+: ms.flatMap Markup.chars := by
  have hvalue : a.value <:+: a.chars :=
    ⟨a.lead.1 ++ a.name.1 ++ a.beforeEq.1 ++ '=' :: a.afterEq.1 ++ a.quoting.mark, a.quoting.mark,
      rfl⟩
  have hattrs : attributes.flatMap Attribute.chars <:+:
      (Markup.opening name attributes trail).chars :=
    ⟨'<' :: name.1, trail.1 ++ ['>'], by simp [Markup.chars, attributeChars]⟩
  exact (hvalue.trans (infix_flatMap ha)).trans (hattrs.trans (infix_flatMap hm))

/-- A link to a script in single quotes. -/
def quotedScript : String := "<a href='javascript:alert(1)'>x</a>"

/-- It is accepted, and carries no https link. -/
theorem script_link_accepted :
    ¬ ∀ text, (validateTelegramMessage text (some .HTML)).ok = true → SoundText text := by
  intro h
  obtain ⟨ms, htext, hsound, -⟩ := h quotedScript (by decide)
  have hseen : matchAll TAG_PATTERN quotedScript.toList = ms.filterMap Markup.seen := by
    rw [htext]
    exact matchAll_markup ms
  have hlink : (⟨false, ['a'], " href='javascript:alert(1)'".toList⟩ : TagMatch) ∈
      ms.filterMap Markup.seen := by
    rw [← hseen]
    decide
  obtain ⟨m, hm, hmseen⟩ := List.mem_filterMap.1 hlink
  cases m with
  | text c hc => cases hmseen
  | closing name trail =>
      have hclosing : true = false := congrArg TagMatch.closing (Option.some.inj hmseen)
      cases hclosing
  | opening name attributes trail =>
      have hname : name.1 = ['a'] := congrArg TagMatch.name (Option.some.inj hmseen)
      have htag : toLowerCase name.1 = "a" := by
        rw [hname]
        decide
      obtain ⟨-, hfine, hcount⟩ := hsound _ hm
      have hpos : 0 < attributes.countP Attribute.isHref := by
        rw [hcount htag]
        omega
      obtain ⟨a, ha, -⟩ := List.countP_pos_iff.1 hpos
      rcases hfine a ha with ⟨-, -, hhttps⟩ | ⟨hpre, -⟩
      · have hinfix : HTTPS <:+: quotedScript.toList := by
          rw [htext]
          exact (List.isPrefixOf_iff_prefix.1 hhttps).isInfix.trans (value_within hm ha)
        exact absurd hinfix (by decide)
      · rw [htag] at hpre
        exact absurd hpre (by decide)

/-- A body with one link over https. -/
theorem accepted_sound_link :
    (validateTelegramMessage "<a href=\"https://x\">x</a>" (some .HTML)).ok = true ∧
      (SoundText "<a href=\"https://x\">x</a>" ↔ NothingMissed "<a href=\"https://x\">x</a>") :=
  ⟨by decide, accepted_sound_iff _ (by decide +kernel)⟩

end Broadcast

end Paayatam
