/-
  Paayatam.Privacy.SanitizerCollapse

  Collapsing a masked text: placeholders side by side are joined, runs of blanks
  are squeezed, and both ends are trimmed.  None of it shows a contact detail.
-/

import Paayatam.Privacy.SanitizerMarks

namespace Paayatam

open Lib

namespace Sanitizer

variable {s rest : List Char} {n : Nat}

/-! ## Joining placeholders -/

/-- So many placeholders, with white space behind each. -/
inductive PlaceholderRun : Nat → List Char → Prop where
  | nil : PlaceholderRun 0 []
  | cons {n : Nat} {gap w : List Char} (blank : ∀ c ∈ gap, isTrimmed c = true)
      (run : PlaceholderRun n w) :
      PlaceholderRun (n + 1) (REDACTION_PLACEHOLDER ++ (gap ++ w))

theorem takeWhile_run {p : Char → Bool} {gap u : List Char} (all : ∀ c ∈ gap, p c = true)
    (stop : ∀ c ∈ u.head?, p c = false) : (gap ++ u).takeWhile p = gap := by
  rw [List.takeWhile_append_of_pos all]
  cases u with
  | nil => rw [List.takeWhile_nil, List.append_nil]
  | cons c u => rw [List.takeWhile_cons_of_neg (by simp [stop c rfl]), List.append_nil]

theorem placeholders_cons {gap u : List Char} (blank : ∀ c ∈ gap, isTrimmed c = true)
    (visible : ∀ c ∈ u.head?, isTrimmed c = false) (fuel : Nat) :
    placeholders (fuel + 1) (REDACTION_PLACEHOLDER ++ (gap ++ u)) =
      ((placeholders fuel u).1 + 1,
        REDACTION_PLACEHOLDER.length + gap.length + (placeholders fuel u).2) := by
  have starts : REDACTION_PLACEHOLDER.isPrefixOf (REDACTION_PLACEHOLDER ++ (gap ++ u)) = true :=
    List.isPrefixOf_iff_prefix.2 (List.prefix_append _ _)
  rw [placeholders, if_pos starts, List.drop_left]
  simp only [takeWhile_run blank visible, List.drop_left]

theorem placeholders_spec (fuel : Nat) (s : List Char) (enough : s.length ≤ fuel) :
    ∃ n w rest, s = w ++ rest ∧ placeholders fuel s = (n, w.length) ∧ PlaceholderRun n w ∧
      ¬REDACTION_PLACEHOLDER <+: rest ∧
      (0 < n → ∀ c ∈ rest.head?, isTrimmed c = false) := by
  induction fuel generalizing s with
  | zero =>
    obtain rfl := List.length_eq_zero_iff.1 (Nat.le_zero.1 enough)
    refine ⟨0, [], [], rfl, rfl, .nil, fun starts => ?_, fun impossible => by omega⟩
    exact absurd starts.length_le (by decide)
  | succ fuel ih =>
    by_cases starts : REDACTION_PLACEHOLDER <+: s
    · obtain ⟨tail, rfl⟩ := starts
      have gap := List.takeWhile_append_dropWhile (p := isTrimmed) (l := tail)
      have blank : ∀ c ∈ tail.takeWhile isTrimmed, isTrimmed c = true := fun c mem =>
        List.mem_takeWhile_imp mem
      have visible : ∀ c ∈ (tail.dropWhile isTrimmed).head?, isTrimmed c = false := by
        intro c mem
        have stop := List.head?_dropWhile_not isTrimmed tail
        rw [Option.mem_def.1 mem] at stop
        exact stop
      have size : REDACTION_PLACEHOLDER.length = 8 := rfl
      have short : (tail.dropWhile isTrimmed).length ≤ fuel := by
        have fewer := (List.dropWhile_suffix isTrimmed (l := tail)).length_le
        rw [List.length_append, size] at enough
        omega
      have ⟨n, w, rest, split, found, run, maximal, behind⟩ := ih _ short
      refine ⟨n + 1, REDACTION_PLACEHOLDER ++ (tail.takeWhile isTrimmed ++ w), rest, ?_, ?_,
        .cons blank run, maximal, fun _ => ?_⟩
      · rw [List.append_assoc, List.append_assoc, ← split, gap]
      · conv_lhs => rw [← gap]
        rw [placeholders_cons blank visible, found]
        simp only [List.length_append]
        rw [Nat.add_assoc]
      · cases run with
        | nil =>
          rw [List.nil_append] at split
          exact split ▸ visible
        | cons => exact behind (Nat.succ_pos _)
    · refine ⟨0, [], s, rfl, ?_, .nil, starts, fun impossible => by omega⟩
      rw [placeholders, if_neg]
      · rfl
      · exact fun prefixed => starts (List.isPrefixOf_iff_prefix.1 prefixed)

theorem PlaceholderRun.starts {w : List Char} (run : PlaceholderRun n w) (some : 0 < n) :
    REDACTION_PLACEHOLDER <+: w := by
  cases run with
  | nil => exact absurd some (Nat.lt_irrefl 0)
  | cons => exact List.prefix_append _ _

/-- What is joined: two placeholders or more, as far as they go. -/
theorem repeated_some {prev : Option Char} {c : Char} {xs rest : List Char} {u : Unit}
    (h : repeated prev c (xs ++ rest) = some (u, xs.length)) :
    ∃ n, 2 ≤ n ∧ PlaceholderRun n (c :: xs) ∧ ¬REDACTION_PLACEHOLDER <+: rest ∧
      ∀ d ∈ rest.head?, isTrimmed d = false := by
  have ⟨n, w, rest', split, found, run, maximal, behind⟩ :=
    placeholders_spec ((xs ++ rest).length + 1) (c :: (xs ++ rest)) (Nat.le_refl _)
  rw [repeated, found] at h
  by_cases two : 2 ≤ n
  · simp only [two, if_true, Option.some.injEq, Prod.mk.injEq, true_and] at h
    cases w with
    | nil =>
      cases run
      omega
    | cons d w =>
      have ⟨same, tail⟩ := List.cons.inj split
      have size : w.length = xs.length := h
      have ⟨front, back⟩ := List.append_inj tail size.symm
      subst same front back
      exact ⟨n, two, run, maximal, behind (by omega)⟩
  · simp [two] at h

theorem one_le_placeholders (fuel : Nat) (t : List Char) :
    1 ≤ (placeholders (fuel + 1) (REDACTION_PLACEHOLDER ++ t)).1 := by
  rw [placeholders, if_pos (List.isPrefixOf_iff_prefix.2 (List.prefix_append _ _))]
  exact Nat.le_add_left 1 _

theorem repeated_none {prev : Option Char} {c : Char} {rest gap t : List Char}
    (h : repeated prev c rest = none) (blank : ∀ d ∈ gap, isTrimmed d = true) :
    c :: rest ≠ REDACTION_PLACEHOLDER ++ (gap ++ (REDACTION_PLACEHOLDER ++ t)) := by
  intro whole
  have visible : ∀ d ∈ (REDACTION_PLACEHOLDER ++ t).head?, isTrimmed d = false := by
    intro d mem
    cases mem
    rfl
  have long : 2 ≤ rest.length := by
    have size := congrArg List.length whole
    have eight : REDACTION_PLACEHOLDER.length = 8 := rfl
    simp only [List.length_cons, List.length_append, eight] at size
    omega
  obtain ⟨fuel, same⟩ : ∃ fuel, rest.length + 1 = fuel + 2 := ⟨rest.length - 1, by omega⟩
  have twice : 2 ≤ (placeholders (rest.length + 1) (c :: rest)).1 := by
    rw [whole, same, placeholders_cons blank visible]
    exact Nat.succ_le_succ (one_le_placeholders fuel t)
  simp [repeated, twice] at h

theorem repeated_within : repeated.Within := by
  intro prev c rest u k h
  have ⟨n, w, rest', split, found, _⟩ :=
    placeholders_spec (rest.length + 1) (c :: rest) (Nat.le_refl _)
  rw [repeated, found] at h
  have size := congrArg List.length split
  rw [List.length_append, List.length_cons] at size
  by_cases two : 2 ≤ n
  · simp only [two, if_true, Option.some.injEq, Prod.mk.injEq, true_and] at h
    omega
  · simp [two] at h

/-- The joined text, and what it was before. -/
abbrev Joined : Option Char → List Char → List Char → Prop :=
  Masked repeated fun _ => REDACTION_PLACEHOLDER ++ [' ']

theorem joined (s : List Char) : Joined none s (joinPlaceholders s) :=
  masked_replaceAll repeated_within _ s

/-! ## The marks again -/

theorem Mark.Apart.shows_of_join {m : Mark} (h : m.Apart) {text : List Char}
    (shown : m.Shows (joinPlaceholders text)) : m.Shows text := by
  obtain ⟨a, w, b, split, core, stop⟩ := shown
  cases w with
  | nil => exact absurd core.shortest_le (Nat.not_le.2 h.long)
  | cons c w =>
    have apart : c ∉ REDACTION_PLACEHOLDER ++ [' '] := by
      intro mem
      rcases List.mem_append.1 mem with mem | mem
      · exact h.first c w core mem
      · refine h.first c w core ?_
        rw [List.mem_singleton.1 mem]
        exact List.mem_of_elem_eq_true rfl
    have ⟨a₀, b₀, whole, here, _⟩ := (joined text).pull (fun _ => ⟨_, rfl⟩) (L := m.At) split
      ⟨core, stop⟩ (fun _ => apart) (h.inside c w core) fun before prev x xs piece rest found => by
        have ⟨n, two, run, _⟩ := repeated_some found
        have ⟨tail, start⟩ := run.starts (by omega)
        have first : '«' = x := (List.cons.inj start).1
        exact first ▸ before
    exact ⟨a₀, c :: w, b₀, whole, here⟩

theorem squeezed (s : List Char) : Masked BLANKS.pattern (fun _ => [' ']) none s (squeeze s) :=
  masked_replaceAll BLANKS.pattern_within _ s

/-- What is squeezed is blanks. -/
theorem blanks_of_match {prev : Option Char} {c : Char} {xs rest b : List Char}
    (h : BLANKS.pattern prev c (xs ++ rest) = some (b, xs.length)) :
    ∀ d ∈ c :: xs, isBlank d = true :=
  (Regex.takes_of_pattern h).2.2.2

/-- A mark without a blank in it was there before squeezing. -/
theorem Mark.shows_of_squeeze {m : Mark} (long : 0 < m.core.shortest)
    (avoids : m.core.avoids [' '] = true)
    (hstop : m.stop (some ' ') = true → ∀ x, isBlank x = true → m.stop (some x) = true)
    {text : List Char} (shown : m.Shows (squeeze text)) : m.Shows text := by
  obtain ⟨a, w, b, split, core, stop⟩ := shown
  cases w with
  | nil => exact absurd core.shortest_le (Nat.not_le.2 long)
  | cons c w =>
    have apart : ∀ d ∈ c :: w, d ∉ [' '] := core.avoid avoids
    have ⟨a₀, b₀, whole, here, _⟩ := (squeezed text).pull (fun _ => ⟨_, rfl⟩) (L := m.At) split
      ⟨core, stop⟩ (fun _ => apart c List.mem_cons_self)
      (fun mem => apart ' ' (List.mem_cons_of_mem c mem) List.mem_cons_self)
      fun before prev x xs piece rest found =>
        ⟨core, hstop before.2 x (blanks_of_match found x List.mem_cons_self)⟩
    exact ⟨a₀, c :: w, b₀, whole, here⟩

theorem isTrimmed_of_isBlank {c : Char} (h : isBlank c = true) : isTrimmed c = true := by
  rcases Bool.or_eq_true_iff.1 h with same | same
  · rw [eq_of_beq same]
    rfl
  · rw [eq_of_beq same]
    rfl

/-- Squeezing shortens a run of digits by blanks only. -/
theorem run_of_squeeze {prev : Option Char} {s x o : List Char} {e : Char}
    (h : Masked BLANKS.pattern (fun _ => [' ']) prev s (x ++ e :: o))
    (dialled : ∀ c ∈ x, isDialled c = true) (digit : e.isDigit = true) :
    ∃ x' s', s = x' ++ e :: s' ∧ (∀ c ∈ x', isDialled c = true) ∧ x.length ≤ x'.length := by
  induction x generalizing prev s with
  | nil =>
    generalize whole : [] ++ e :: o = out at h
    cases h with
    | nil => cases whole
    | keep hnone rest =>
      obtain ⟨rfl, rfl⟩ := List.cons.inj whole
      exact ⟨[], _, rfl, fun c mem => absurd mem List.not_mem_nil, Nat.le_refl 0⟩
    | mask hmatch rest =>
      have blank : e = ' ' := (List.cons.inj whole).1
      rw [blank] at digit
      exact absurd digit (by decide)
  | cons c x ih =>
    have ⟨first, others⟩ := List.forall_mem_cons.1 dialled
    generalize whole : c :: x ++ e :: o = out at h
    cases h with
    | nil => cases whole
    | keep hnone rest =>
      obtain ⟨rfl, rfl⟩ := List.cons.inj whole
      obtain ⟨x', s', rfl, all, longer⟩ := ih rest others
      exact ⟨c :: x', s', rfl, List.forall_mem_cons.2 ⟨first, all⟩, Nat.succ_le_succ longer⟩
    | @mask _ d xs s₁ out' piece hmatch rest =>
      have after : out' = x ++ e :: o := (List.cons.inj whole).2.symm
      obtain ⟨x', s', rfl, all, longer⟩ := ih (after ▸ rest) others
      refine ⟨d :: (xs ++ x'), s', by simp, ?_, ?_⟩
      · intro y mem
        rw [← List.cons_append, List.mem_append] at mem
        rcases mem with mem | mem
        · have blank := isTrimmed_of_isBlank (blanks_of_match hmatch y mem)
          rw [isDialled, isSeparator, blank, Bool.true_or, Bool.true_or, Bool.or_true]
        · exact all y mem
      · simp only [List.length_cons, List.length_append]
        omega

theorem phone_of_squeeze {text : List Char} (shown : PHONE_MARK.Shows (squeeze text)) :
    PHONE_MARK.Shows text := by
  obtain ⟨a, _, b, split, ⟨_, _, rfl, ⟨d, rfl, first⟩, x, _, rfl, ⟨long, _, dialled⟩, e, rfl,
    last⟩, _⟩ := shown
  have plain : d ≠ ' ' := by
    rintro rfl
    exact absurd first (by decide)
  have whole : squeeze text = a ++ d :: (x ++ e :: b) := by
    rw [split]
    simp
  have ⟨a₀, s', same, tail, _⟩ := (squeezed text).suffix whole fun _ y z piece => by
    cases y with
    | nil => rfl
    | cons c y => simp at piece
  generalize rest : d :: (x ++ e :: b) = out at tail
  cases tail with
  | nil => cases rest
  | mask hmatch tail => exact absurd (List.cons.inj rest).1 plain
  | keep hnone tail =>
    obtain ⟨rfl, rfl⟩ := List.cons.inj rest
    obtain ⟨x', b', rfl, all, longer⟩ := run_of_squeeze tail dialled last
    refine ⟨a₀, d :: (x' ++ [e]), b', by simp [same], ⟨[d], x' ++ [e], rfl, ⟨d, rfl, first⟩, x',
      [e], rfl, ⟨long.trans longer, by simp, all⟩, e, rfl, last⟩, rfl⟩

/-- What is trimmed off is white space at both ends. -/
theorem trimmed_split (s : List Char) : ∃ p q, s = p ++ trimmed s ++ q ∧
    (∀ c ∈ p, isTrimmed c = true) ∧ ∀ c ∈ q, isTrimmed c = true := by
  have front := List.takeWhile_append_dropWhile (p := isTrimmed) (l := s)
  have back := congrArg List.reverse (List.takeWhile_append_dropWhile (p := isTrimmed)
    (l := (s.dropWhile isTrimmed).reverse))
  rw [List.reverse_append, List.reverse_reverse] at back
  refine ⟨s.takeWhile isTrimmed, ((s.dropWhile isTrimmed).reverse.takeWhile isTrimmed).reverse,
    ?_, fun c mem => List.mem_takeWhile_imp mem, fun c mem => ?_⟩
  · rw [List.append_assoc, trimmed, back, front]
  · exact List.mem_takeWhile_imp (List.mem_reverse.1 mem)

theorem Mark.shows_of_trim {m : Mark}
    (hstop : m.stop none = true → ∀ x, isTrimmed x = true → m.stop (some x) = true)
    {text : List Char} (shown : m.Shows (trimmed text)) : m.Shows text := by
  obtain ⟨a, w, b, split, core, stop⟩ := shown
  have ⟨p, q, whole, _, blank⟩ := trimmed_split text
  refine ⟨p ++ a, w, b ++ q, by rw [whole, split]; simp, core, ?_⟩
  cases b with
  | cons c b => exact stop
  | nil =>
    cases q with
    | nil => exact stop
    | cons c q => exact hstop stop c (blank c List.mem_cons_self)

theorem not_isWord_of_isTrimmed {c : Char} (h : isTrimmed c = true) : isWord c = false := by
  rw [Bool.eq_false_iff]
  intro word
  have visible : isVisible c = true := by
    rcases Bool.or_eq_true_iff.1 word with word | same
    · exact isVisible_of_alphanum word
    · exact isVisible_of_same same rfl
  rw [isVisible, h] at visible
  exact Bool.false_ne_true visible

/-- Collapsing shows no mark that was not there. -/
theorem Hidden.collapse {text : List Char} (h : Hidden text) : Hidden (collapse text) := by
  have word : ∀ x, isTrimmed x = true → USERNAME_MARK.stop (some x) = true := by
    intro x blank
    show (!isWord x) = true
    rw [not_isWord_of_isTrimmed blank]
    rfl
  constructor
  · intro shown
    have before := Mark.shows_of_trim (fun stop => absurd stop Bool.false_ne_true) shown
    have before := Mark.shows_of_squeeze (by decide) (by decide)
      (fun stop => absurd stop (by decide)) before
    exact h.link (link_apart.shows_of_join before)
  · intro shown
    have before := Mark.shows_of_trim (fun _ _ _ => rfl) shown
    have before := Mark.shows_of_squeeze (by decide) (by decide) (fun _ _ _ => rfl) before
    exact h.email (email_apart.shows_of_join before)
  · intro shown
    have before := Mark.shows_of_trim (fun _ _ _ => rfl) shown
    exact h.phone (phone_apart.shows_of_join (phone_of_squeeze before))
  · intro shown
    have before := Mark.shows_of_trim (fun _ => word) shown
    have before := Mark.shows_of_squeeze (by decide) (by decide)
      (fun _ x blank => word x (isTrimmed_of_isBlank blank)) before
    exact h.username (username_apart.shows_of_join before)

end Sanitizer

end Paayatam
