/-
  Paayatam.Privacy.SanitizerMarks

  No step of the sanitizer puts a contact detail together.

  Each expression has a mark: the least a match of it needs, a word and a look at
  what stands behind it.  A text has a match of the expression just when it shows
  the mark, and a mark that a step leaves was in the text before it.
-/

import Paayatam.Privacy.Sanitizer

namespace Paayatam

open Lib

namespace Sanitizer

structure Mark where
  core : Regex Char
  stop : Option Char → Bool

/-- Words of the core that what stands behind them does not keep from being a match. -/
def Mark.At (m : Mark) (w : List Char) (next : Option Char) : Prop :=
  m.core.Takes none w none ∧ m.stop next = true

def Mark.Shows (m : Mark) (text : List Char) : Prop :=
  ∃ a w b, text = a ++ w ++ b ∧ m.At w b.head?

/-- A text has a match of the expression just when it shows the mark. -/
structure Marks (r : Regex Char) (m : Mark) : Prop where
  long : 0 < r.shortest
  extend : ∀ prev w b, m.At w b.head? →
    ∃ w' b', b = w' ++ b' ∧ r.Takes prev (w ++ w') b'.head?
  shrink : ∀ prev w next, r.Takes prev w next →
    ∃ x u y, w = x ++ u ++ y ∧ m.At u (y.head?.or next)

theorem Marks.occurs_iff {r : Regex Char} {m : Mark} (h : Marks r m) (text : List Char) :
    r.Occurs text ↔ m.Shows text := by
  constructor
  · rintro ⟨a, w, b, rfl, takes⟩
    obtain ⟨x, u, y, rfl, shown⟩ := h.shrink _ w _ takes
    refine ⟨a ++ x, u, y ++ b, by simp, ?_⟩
    rw [List.head?_append]
    exact shown
  · rintro ⟨a, w, b, rfl, shown⟩
    obtain ⟨w', b', rfl, takes⟩ := h.extend a.getLast? w b shown
    exact ⟨a, w ++ w', b', by simp, takes⟩

/-- Where a scan sees no match, the mark does not begin. -/
theorem Marks.not_at {r : Regex Char} {m : Mark} (h : Marks r m) {prev : Option Char} {c : Char}
    {w b : List Char} (none : r.pattern prev c (w ++ b) = none) : ¬m.At (c :: w) b.head? := by
  intro shown
  obtain ⟨w', b', rfl, takes⟩ := h.extend prev (c :: w) b shown
  rw [← List.append_assoc] at none
  exact Regex.not_takes_of_pattern h.long none takes

/-! ## The four marks -/

/-- How a link begins. -/
def LINK_START : Regex Char :=
  .alt (.seq (.alt (ignoringCase "t") (ignoringCase "telegram")) (ignoringCase ".me/"))
    (ignoringCase "tg://resolve?domain=")

def LINK_MARK : Mark := ⟨LINK_START, fun next => next.any isVisible⟩

def EMAIL_MARK : Mark := ⟨EMAIL, fun _ => true⟩

def PHONE_MARK : Mark := ⟨DIGIT_RUN, fun _ => true⟩

def USERNAME_MARK : Mark :=
  ⟨.seq (exactly "@") (.many isWord 5 (some 32)), fun next => !next.any isWord⟩

theorem email_marks : Marks EMAIL EMAIL_MARK where
  long := by decide
  extend prev w b shown := by
    refine ⟨[], b, rfl, ?_⟩
    rw [List.append_nil]
    exact shown.1.anywhere rfl prev b.head?
  shrink prev w next takes :=
    ⟨[], w, [], by simp, takes.anywhere rfl _ _, rfl⟩

theorem handle_end {name : List Char} (long : 5 ≤ name.length)
    (all : ∀ c ∈ name, isWord c = true) (prev : Option Char) :
    (lastRead prev name).any isWord = true := by
  have some : name ≠ [] := List.ne_nil_of_length_pos (by omega)
  have ⟨c, mem, last⟩ := lastRead_mem some prev
  rw [last]
  exact all c mem

theorem username_marks : Marks USERNAME USERNAME_MARK where
  long := by decide
  extend prev w b shown := by
    obtain ⟨⟨sign, name, rfl, at_, handle⟩, stop⟩ := shown
    refine ⟨[], b, rfl, sign, name, by simp, at_, name, [], by simp, handle, rfl, ?_⟩
    rw [handle_end handle.1 handle.2.2]
    exact fun same => by simp [USERNAME_MARK, ← same] at stop
  shrink prev w next takes := by
    obtain ⟨sign, _, rfl, at_, name, _, rfl, handle, rfl, apart⟩ := takes
    refine ⟨[], sign ++ name, [], by simp, ⟨sign, name, rfl, at_, handle⟩, ?_⟩
    rw [handle_end handle.1 handle.2.2] at apart
    show (!next.any isWord) = true
    cases word : next.any isWord with
    | true => exact absurd word.symm apart
    | false => rfl

theorem link_marks : Marks TELEGRAM_LINK LINK_MARK where
  long := by decide
  extend prev w b shown := by
    obtain ⟨start, stop⟩ := shown
    cases b with
    | nil => exact absurd stop Bool.false_ne_true
    | cons v b =>
      have name : (Regex.many isVisible 1 none).Takes none [v] none :=
        ⟨Nat.le_refl 1, by simp, by simpa [LINK_MARK] using stop⟩
      refine ⟨[v], b, rfl, ?_⟩
      rcases start with ⟨host, me, rfl, atHost, atMe⟩ | tg
      · rw [List.append_assoc]
        refine .inl ⟨[], _, rfl, .inr rfl, [], _, rfl, .inr rfl, host, _, rfl, ?_, me, [v], rfl,
          ?_, ?_⟩
        · exact atHost.anywhere rfl _ _
        · exact atMe.anywhere rfl _ _
        · exact name.anywhere rfl _ _
      · refine .inr ⟨w, [v], rfl, ?_, ?_⟩
        · exact tg.anywhere rfl _ _
        · exact name.anywhere rfl _ _
  shrink prev w next takes := by
    have visible : ∀ {prev next : Option Char} {name : List Char},
        (Regex.many isVisible 1 none).Takes prev name next →
          (name.head?.or next).any isVisible = true := by
      intro prev next name at_
      cases name with
      | nil => exact absurd at_.1 (Nat.not_succ_le_zero 0)
      | cons v rest => exact at_.2.2 v List.mem_cons_self
    rcases takes with ⟨scheme, _, rfl, _, www, _, rfl, _, host, _, rfl, atHost, me, name, rfl,
      atMe, atName⟩ | ⟨tg, name, rfl, atTg, atName⟩
    · refine ⟨scheme ++ www, host ++ me, name, by simp, .inl ⟨host, me, rfl, ?_, ?_⟩, ?_⟩
      · exact atHost.anywhere rfl _ _
      · exact atMe.anywhere rfl _ _
      · exact visible atName
    · refine ⟨[], tg, name, by simp, .inr ?_, visible atName⟩
      exact atTg.anywhere rfl _ _

theorem takes_exactly {text : String} {prev next : Option Char} {w : List Char} :
    (exactly text).Takes prev w next ↔ w = text.toList := by
  rw [exactly, Regex.takes_literal]
  generalize text.toList = chars
  induction chars generalizing w with
  | nil => exact List.forall₂_nil_left_iff
  | cons a chars ih =>
    rw [List.map_cons, List.forall₂_cons_left_iff]
    constructor
    · rintro ⟨c, v, same, each, rfl⟩
      rw [eq_of_beq same, ih.1 each]
    · rintro rfl
      exact ⟨a, chars, beq_self_eq_true a, ih.2 rfl, rfl⟩

theorem groups_dialled : MOBILE_GROUPS.classes fun p => ∀ c, p c = true → isDialled c = true := by
  have digit : ∀ c, Char.isDigit c = true → isDialled c = true := fun c h => by
    rw [isDialled, h, Bool.true_or]
  have separator : ∀ c, isSeparator c = true → isDialled c = true := fun c h => by
    rw [isDialled, h, Bool.or_true]
  have nine : (exactly "9").classes fun p => ∀ c, p c = true → isDialled c = true := by
    refine ⟨fun c same => ?_, trivial⟩
    rw [eq_of_beq same]
    rfl
  exact ⟨separator, nine, digit, separator, digit, separator, digit⟩

/-- The groups are ten symbols a long run of digits may hold, or more, and the
    last of them is a digit. -/
theorem groups_end {prev next : Option Char} {g : List Char}
    (h : MOBILE_GROUPS.Takes prev g next) :
    ∃ f e, g = f ++ [e] ∧ e.isDigit = true ∧ 9 ≤ f.length ∧ ∀ c ∈ f, isDialled c = true := by
  have dialled := h.all groups_dialled
  have long : 10 ≤ g.length := h.shortest_le
  obtain ⟨s₁, _, rfl, _, nine, _, rfl, _, two, _, rfl, _, s₂, _, rfl, _, three, _, rfl, _, s₃, four,
    rfl, _, enough, _, digits⟩ := h
  rcases List.eq_nil_or_concat four with rfl | ⟨front, e, rfl⟩
  · exact absurd enough (Nat.not_succ_le_zero 3)
  · refine ⟨s₁ ++ (nine ++ (two ++ (s₂ ++ (three ++ (s₃ ++ front))))), e, by simp, ?_, ?_, ?_⟩
    · exact digits e (by simp)
    · simp only [List.length_append, List.concat_eq_append, List.length_singleton] at long ⊢
      omega
    · intro c mem
      refine dialled c ?_
      simp only [List.mem_append, List.concat_eq_append] at mem ⊢
      tauto

/-- A mobile number, written in whatever groups, ends in a long run of digits. -/
theorem mobile_run {prev next : Option Char} {w : List Char} (h : MOBILE.Takes prev w next) :
    ∃ x u, w = x ++ u ∧ DIGIT_RUN.Takes none u none := by
  obtain ⟨country, g, rfl, code, groups⟩ := h
  obtain ⟨f, e, rfl, last, long, dialled⟩ := groups_end groups
  have run : ∀ d v, d.isDigit = true → (∀ c ∈ v, isDialled c = true) →
      DIGIT_RUN.Takes none (d :: v ++ (f ++ [e])) none := by
    intro d v first all
    refine ⟨[d], v ++ f ++ [e], by simp, ⟨d, rfl, first⟩, v ++ f, [e], rfl, ⟨?_, by simp, ?_⟩,
      e, rfl, last⟩
    · rw [List.length_append]
      omega
    · intro c mem
      rcases List.mem_append.1 mem with mem | mem
      · exact all c mem
      · exact dialled c mem
  rcases code with ⟨plus, code, rfl, _, at_⟩ | at_
  · rw [takes_exactly.1 at_, List.append_assoc]
    exact ⟨plus, _, rfl, run '9' ['8'] rfl fun c mem => by rw [List.mem_singleton.1 mem]; rfl⟩
  · rw [takes_exactly.1 at_]
    exact ⟨[], _, rfl, run '0' [] rfl fun c mem => absurd mem List.not_mem_nil⟩

theorem phone_marks : Marks PHONE PHONE_MARK where
  long := by decide
  extend prev w b shown := by
    refine ⟨[], b, rfl, .inr ?_⟩
    rw [List.append_nil]
    exact shown.1.anywhere rfl prev b.head?
  shrink prev w next takes := by
    rcases takes with mobile | run
    · have ⟨x, u, split, run⟩ := mobile_run mobile
      exact ⟨x, u, [], by rw [split, List.append_nil], run, rfl⟩
    · exact ⟨[], w, [], by simp, run.anywhere rfl _ _, rfl⟩

/-! ## What a step leaves was there before -/

/-- No word of the mark begins in a placeholder or goes on into one. -/
structure Mark.Apart (m : Mark) : Prop where
  long : 0 < m.core.shortest
  first : ∀ c w, m.core.Takes none (c :: w) none → c ∉ REDACTION_PLACEHOLDER
  inside : ∀ c w, m.core.Takes none (c :: w) none → '«' ∉ w

theorem Mark.Apart.of_avoids {m : Mark} (long : 0 < m.core.shortest)
    (h : m.core.avoids REDACTION_PLACEHOLDER = true) : m.Apart where
  long := long
  first c _ takes := takes.avoid h c List.mem_cons_self
  inside c _ takes mem :=
    takes.avoid h '«' (List.mem_cons_of_mem c mem) (List.mem_of_elem_eq_true rfl)

theorem link_apart : LINK_MARK.Apart := .of_avoids (by decide) (by decide)

theorem email_apart : EMAIL_MARK.Apart := .of_avoids (by decide) (by decide)

theorem username_apart : USERNAME_MARK.Apart := .of_avoids (by decide) (by decide)

theorem phone_apart : PHONE_MARK.Apart where
  long := by decide
  first c _ takes := by
    have digit : c.isDigit = true := takes.first ⟨fun _ digit => digit, .inl Nat.one_pos⟩
    have letters : (REDACTION_PLACEHOLDER.all fun c => !c.isDigit) = true := by decide
    intro mem
    have outside := List.all_eq_true.1 letters c mem
    rw [digit] at outside
    exact Bool.false_ne_true outside
  inside c _ takes mem := by
    have outside : DIGIT_RUN.avoids ['«'] = true := by decide
    exact takes.avoid outside '«' (List.mem_cons_of_mem c mem) List.mem_cons_self

/-- Where a mark of a masked text was in the text, and that no match begins there. -/
theorem mask_pull {m : Mark} (h : m.Apart) {r : Regex Char} {text : List Char}
    (hstop : m.stop (some '«') = true → ∀ prev x xs next, r.Takes prev (x :: xs) next →
      m.stop (some x) = true)
    (shown : m.Shows (mask r text)) :
    ∃ a c w b, text = a ++ (c :: w) ++ b ∧ m.At (c :: w) b.head? ∧
      r.pattern (lastRead none a) c (w ++ b) = none := by
  obtain ⟨a, w, b, split, core, stop⟩ := shown
  cases w with
  | nil => exact absurd core.shortest_le (Nat.not_le.2 h.long)
  | cons c w =>
    have ⟨a₀, b₀, whole, here, unseen⟩ := (masked_replaceAll r.pattern_within
      (fun _ => REDACTION_PLACEHOLDER) text).pull (fun _ => ⟨_, rfl⟩) (L := m.At) split
      ⟨core, stop⟩ (fun _ => h.first c w core) (h.inside c w core)
      fun before prev x xs piece rest found =>
        ⟨core, hstop before.2 prev x xs rest.head? (Regex.takes_of_pattern found).2⟩
    exact ⟨a₀, c, w, b₀, whole, here, unseen⟩

theorem Mark.Apart.shows_of_mask {r : Regex Char} {m : Mark} (h : m.Apart) {text : List Char}
    (hstop : m.stop (some '«') = true → ∀ prev x xs next, r.Takes prev (x :: xs) next →
      m.stop (some x) = true)
    (shown : m.Shows (mask r text)) : m.Shows text := by
  have ⟨a, c, w, b, split, here, _⟩ := mask_pull h hstop shown
  exact ⟨a, c :: w, b, split, here⟩

/-- What an expression masks does not show its mark. -/
theorem Marks.hides {r : Regex Char} {m : Mark} (hr : Marks r m) (h : m.Apart)
    {text : List Char}
    (hstop : m.stop (some '«') = true → ∀ prev x xs next, r.Takes prev (x :: xs) next →
      m.stop (some x) = true) : ¬m.Shows (mask r text) := by
  intro shown
  have ⟨_, _, _, _, _, here, unseen⟩ := mask_pull h hstop shown
  exact hr.not_at unseen here

/-! ## The four expressions, one after another -/

theorem isVisible_of_toLower {a c : Char} (same : (c.toLower == a.toLower) = true)
    (h : isVisible a.toLower = true) : isVisible c = true := by
  rw [← eq_of_beq same] at h
  by_cases upper : 65 ≤ c.toNat ∧ c.toNat ≤ 90
  · simp only [isVisible, isTrimmed, Bool.not_eq_true', Bool.or_eq_false_iff,
      Bool.and_eq_false_iff, decide_eq_false_iff_not, List.contains_eq_mem, List.mem_cons,
      List.not_mem_nil, or_false]
    omega
  · have plain : c.toLower = c := dif_neg upper
    rw [plain] at h
    exact h

theorem firsts_ignoringCase {text : String} (h : text.toList.head?.any fun a =>
    isVisible a.toLower) :
    (ignoringCase text).firsts fun p => ∀ c, p c = true → isVisible c = true := by
  have ⟨a, head, visible⟩ := (Option.any_eq_true _ _).1 h
  obtain ⟨rest, chars⟩ := List.head?_eq_some_iff.1 head
  rw [ignoringCase, chars]
  exact ⟨fun c same => isVisible_of_toLower same visible, .inl Nat.one_pos⟩

theorem isVisible_of_graphic {c : Char} (h : 0x21 ≤ c.toNat ∧ c.toNat ≤ 0x7e) :
    isVisible c = true := by
  simp only [isVisible, isTrimmed, Bool.not_eq_true', Bool.or_eq_false_iff,
    Bool.and_eq_false_iff, decide_eq_false_iff_not, List.contains_eq_mem, List.mem_cons,
    List.not_mem_nil, or_false]
  omega

theorem isVisible_of_alphanum {c : Char} (h : c.isAlphanum = true) : isVisible c = true := by
  refine isVisible_of_graphic ?_
  have bounds : (65 ≤ c.toNat ∧ c.toNat ≤ 90 ∨ 97 ≤ c.toNat ∧ c.toNat ≤ 122) ∨
      48 ≤ c.toNat ∧ c.toNat ≤ 57 := by
    rcases Bool.or_eq_true_iff.1 h with letter | digit
    · rcases Bool.or_eq_true_iff.1 letter with upper | lower
      · exact .inl (.inl (of_decide_eq_true upper))
      · have both := Bool.and_eq_true_iff.1 lower
        exact .inl (.inr ⟨of_decide_eq_true both.1, of_decide_eq_true both.2⟩)
    · have both := Bool.and_eq_true_iff.1 digit
      exact .inr ⟨of_decide_eq_true both.1, of_decide_eq_true both.2⟩
  omega

theorem isVisible_of_local {c : Char} (h : isLocal c = true) : isVisible c = true := by
  simp only [isLocal, isWord, Bool.or_eq_true, beq_iff_eq] at h
  rcases h with ((((word | rfl) | rfl) | rfl) | rfl) | rfl
  · exact isVisible_of_alphanum word
  all_goals rfl

/-- Every match begins with a symbol one can see. -/
structure BeginsVisibly (r : Regex Char) : Prop where
  first : r.firsts fun p => ∀ c, p c = true → isVisible c = true

theorem link_visible : BeginsVisibly TELEGRAM_LINK where
  first := by
    have scheme := @firsts_ignoringCase "http" (by decide)
    have www := @firsts_ignoringCase "www." (by decide)
    have t := @firsts_ignoringCase "t" (by decide)
    have telegram := @firsts_ignoringCase "telegram" (by decide)
    have tg := @firsts_ignoringCase "tg://resolve?domain=" (by decide)
    have host : (Regex.alt (ignoringCase "t") (ignoringCase "telegram")).firsts
        fun p => ∀ c, p c = true → isVisible c = true := ⟨t, telegram⟩
    exact ⟨⟨⟨⟨scheme, .inl (by decide)⟩, trivial⟩, .inr ⟨⟨www, trivial⟩, .inr ⟨host,
      .inl (by decide)⟩⟩⟩, tg, .inl (by decide)⟩

theorem email_visible : BeginsVisibly EMAIL where
  first := ⟨fun _ word => isVisible_of_local word, .inl Nat.one_pos⟩

theorem isVisible_of_same {a c : Char} (same : (c == a) = true) (h : isVisible a = true) :
    isVisible c = true := by
  rw [eq_of_beq same]
  exact h

theorem isVisible_of_digit {c : Char} (h : c.isDigit = true) : isVisible c = true :=
  isVisible_of_alphanum (by rw [Char.isAlphanum, h, Bool.or_true])

theorem phone_visible : BeginsVisibly PHONE where
  first := by
    refine ⟨⟨⟨⟨⟨⟨fun _ same => isVisible_of_same same rfl, .inl Nat.one_pos⟩, trivial⟩,
      .inr ⟨fun _ same => isVisible_of_same same rfl, .inl Nat.one_pos⟩⟩,
      fun _ same => isVisible_of_same same rfl, .inl Nat.one_pos⟩, .inl (by decide)⟩,
      fun _ digit => isVisible_of_digit digit, .inl Nat.one_pos⟩

theorem username_visible : BeginsVisibly USERNAME where
  first := ⟨⟨fun _ same => isVisible_of_same same rfl, .inl Nat.one_pos⟩, .inl Nat.one_pos⟩

theorem BeginsVisibly.link {r : Regex Char} (h : BeginsVisibly r)
    (_ : LINK_MARK.stop (some '«') = true) (prev : Option Char) (x : Char) (xs : List Char)
    (next : Option Char) (takes : r.Takes prev (x :: xs) next) :
    LINK_MARK.stop (some x) = true :=
  takes.first h.first

/-- A handle is masked with its sign in front, which is no part of a word. -/
theorem username_stop (_ : USERNAME_MARK.stop (some '«') = true) (prev : Option Char) (x : Char)
    (xs : List Char) (next : Option Char) (takes : USERNAME.Takes prev (x :: xs) next) :
    USERNAME_MARK.stop (some x) = true := by
  have sign : x = '@' := takes.first
    ⟨⟨fun _ same => eq_of_beq same, .inl Nat.one_pos⟩, .inl Nat.one_pos⟩
  rw [sign]
  rfl

/-- A text shows none of the four marks. -/
structure Hidden (text : List Char) : Prop where
  link : ¬LINK_MARK.Shows text
  email : ¬EMAIL_MARK.Shows text
  phone : ¬PHONE_MARK.Shows text
  username : ¬USERNAME_MARK.Shows text

theorem Hidden.not_occurs {text : List Char} (h : Hidden text) :
    ∀ rule ∈ TEXT_RULES, ¬rule.2.Occurs text := by
  intro rule mem
  simp only [TEXT_RULES, List.mem_cons, List.not_mem_nil, or_false] at mem
  rcases mem with rfl | rfl | rfl | rfl
  · exact (link_marks.occurs_iff text).not.2 h.link
  · exact (email_marks.occurs_iff text).not.2 h.email
  · exact (phone_marks.occurs_iff text).not.2 h.phone
  · exact (username_marks.occurs_iff text).not.2 h.username

theorem hidden_maskAll (text : List Char) : Hidden (maskAll TEXT_RULES text).1 := by
  show Hidden (mask USERNAME (mask PHONE (mask EMAIL (mask TELEGRAM_LINK text))))
  have noLink : ¬LINK_MARK.Shows (mask TELEGRAM_LINK text) :=
    link_marks.hides link_apart link_visible.link
  have noEmail : ¬EMAIL_MARK.Shows (mask EMAIL (mask TELEGRAM_LINK text)) :=
    email_marks.hides email_apart fun _ _ _ _ _ _ => rfl
  have noPhone : ¬PHONE_MARK.Shows (mask PHONE (mask EMAIL (mask TELEGRAM_LINK text))) :=
    phone_marks.hides phone_apart fun _ _ _ _ _ _ => rfl
  constructor
  · intro shown
    have before := link_apart.shows_of_mask username_visible.link shown
    have before := link_apart.shows_of_mask phone_visible.link before
    exact noLink (link_apart.shows_of_mask email_visible.link before)
  · intro shown
    have before := email_apart.shows_of_mask (fun _ _ _ _ _ _ => rfl) shown
    exact noEmail (email_apart.shows_of_mask (fun _ _ _ _ _ _ => rfl) before)
  · exact fun shown => noPhone (phone_apart.shows_of_mask (fun _ _ _ _ _ _ => rfl) shown)
  · exact username_marks.hides username_apart username_stop

end Sanitizer

end Paayatam
