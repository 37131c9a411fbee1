/-
  Paayatam.Privacy.SanitizerAgain

  Sanitizing what was sanitized once more.

  Nothing is masked the second time.  But placeholders are joined before blanks
  are squeezed, so a placeholder that is written with more than one blank inside
  becomes one too late, and stays beside another until the next time.
-/

import Paayatam.Privacy.SanitizerCollapse

namespace Paayatam

open Lib

namespace Sanitizer

/-! ## Placeholders side by side -/

/-- Only white space is between two placeholders. -/
def Adjacent (text : List Char) : Prop :=
  ∃ a gap b, text = a ++ (REDACTION_PLACEHOLDER ++ (gap ++ (REDACTION_PLACEHOLDER ++ b))) ∧
    ∀ c ∈ gap, isTrimmed c = true

/-- The two halves of a placeholder. -/
def FRONT : List Char := "«حذف".toList

def BACK : List Char := "شد»".toList

/-- The blanks that squeezing makes into one. -/
def Squeezable (g : List Char) : Prop := g = [' '] ∨ 2 ≤ g.length ∧ ∀ c ∈ g, isBlank c = true

/-- A placeholder, perhaps with more blanks inside. -/
def Lookalike (q : List Char) : Prop := ∃ g, q = FRONT ++ (g ++ BACK) ∧ Squeezable g

/-- Two of them with only white space between, and at least one that is spread. -/
def SpreadBeside (text : List Char) : Prop :=
  ∃ a q gap q' b, text = a ++ (q ++ (gap ++ (q' ++ b))) ∧ Lookalike q ∧ Lookalike q' ∧
    (∀ c ∈ gap, isTrimmed c = true) ∧ ¬(q = REDACTION_PLACEHOLDER ∧ q' = REDACTION_PLACEHOLDER)

/-- Two of them, spread or not. -/
def LookalikesBeside (text : List Char) : Prop :=
  ∃ a q gap q' b, text = a ++ (q ++ (gap ++ (q' ++ b))) ∧ Lookalike q ∧ Lookalike q' ∧
    ∀ c ∈ gap, isTrimmed c = true

theorem placeholder_eq : REDACTION_PLACEHOLDER = FRONT ++ ([' '] ++ BACK) := by decide

theorem lookalike_placeholder : Lookalike REDACTION_PLACEHOLDER :=
  ⟨[' '], placeholder_eq, .inl rfl⟩

theorem Squeezable.blank {g : List Char} (h : Squeezable g) : ∀ c ∈ g, isBlank c = true := by
  rcases h with rfl | ⟨_, blank⟩
  · intro c mem
    rw [List.mem_singleton.1 mem]
    rfl
  · exact blank

theorem Squeezable.blank_one : ∀ c ∈ [' '], isBlank c = true :=
  Squeezable.blank (.inl rfl)

/-! ## Trimming -/

theorem adjacent_of_trim {text : List Char} (h : Adjacent (trimmed text)) : Adjacent text := by
  obtain ⟨a, gap, b, split, blank⟩ := h
  have ⟨p, q, whole, _, _⟩ := trimmed_split text
  refine ⟨p ++ a, gap, b ++ q, ?_, blank⟩
  rw [whole, split]
  simp

theorem dropWhile_keeps {p : Char → Bool} {c : Char} {t : List Char} (h : p c = false)
    (a : List Char) : ∃ a', (a ++ c :: t).dropWhile p = a' ++ c :: t := by
  induction a with
  | nil => exact ⟨[], List.dropWhile_cons_of_neg (by simp [h])⟩
  | cons d a ih =>
    rw [List.cons_append, List.dropWhile_cons]
    split
    · exact ih
    · exact ⟨d :: a, rfl⟩

/-- What one can see at both ends is not trimmed off. -/
theorem trim_keeps {c e : Char} {w : List Char} (first : isTrimmed c = false)
    (last : isTrimmed e = false) (a b : List Char) :
    ∃ a' b', trimmed (a ++ (c :: w ++ (e :: b))) = a' ++ (c :: w ++ (e :: b')) := by
  have ⟨a', front⟩ := dropWhile_keeps (t := w ++ (e :: b)) first a
  have turned : (a' ++ c :: (w ++ e :: b)).reverse =
      b.reverse ++ e :: (w.reverse ++ c :: a'.reverse) := by simp
  have ⟨b', back⟩ := dropWhile_keeps (t := w.reverse ++ c :: a'.reverse) last b.reverse
  refine ⟨a', b'.reverse, ?_⟩
  rw [trimmed, List.cons_append, front, turned, back]
  simp

theorem adjacent_trim_iff (text : List Char) : Adjacent (trimmed text) ↔ Adjacent text := by
  refine ⟨adjacent_of_trim, ?_⟩
  rintro ⟨a, gap, b, rfl, blank⟩
  have ends : REDACTION_PLACEHOLDER = '«' :: "حذف شد".toList ++ ['»'] := by decide
  have ⟨a', b', kept⟩ := @trim_keeps '«' '»'
    ("حذف شد".toList ++ ('»' :: (gap ++ '«' :: "حذف شد".toList))) rfl rfl a b
  refine ⟨a', gap, b', ?_, blank⟩
  rw [ends]
  simpa using kept

/-! ## Squeezing -/

/-- A symbol that is no blank is in no match. -/
theorem outside_blanks {c : Char} (h : isBlank c = false) (prev : Option Char) (d : Char)
    (xs rest b : List Char)
    (found : BLANKS.pattern prev d (xs ++ rest) = some (b, xs.length)) : c ∉ d :: xs := by
  intro mem
  rw [blanks_of_match found c mem] at h
  exact Bool.false_ne_true h.symm

theorem no_blanks_at {c : Char} (h : isBlank c = false) (prev : Option Char)
    (xs rest b : List Char) : BLANKS.pattern prev c (xs ++ rest) ≠ some (b, xs.length) :=
  fun found => outside_blanks h prev c xs rest b found List.mem_cons_self

/-- The halves of a placeholder have no blank in them. -/
theorem halves_plain : ∀ c ∈ FRONT ++ BACK, isBlank c = false := by
  have all : ((FRONT ++ BACK).all fun c => !isBlank c) = true := by decide
  intro c mem
  simpa using List.all_eq_true.1 all c mem

abbrev Squeezed : Option Char → List Char → List Char → Prop :=
  Masked BLANKS.pattern fun _ => [' ']

/-- The blanks inside of a lookalike become one. -/
theorem squeezed_gap {prev : Option Char} {g t out : List Char} {c : Char} (hg : Squeezable g)
    (hc : isBlank c = false) (h : Squeezed prev (g ++ c :: t) out) :
    ∃ o, out = ' ' :: c :: o ∧ Squeezed (some c) t o := by
  generalize whole : g ++ c :: t = s at h
  cases h with
  | nil => simp at whole
  | @keep _ x s out unseen rest =>
    rcases hg with rfl | ⟨two, blank⟩
    · obtain ⟨rfl, rfl⟩ := List.cons.inj whole
      obtain ⟨o, rfl, tail⟩ := rest.stays (no_blanks_at hc)
      exact ⟨o, rfl, tail⟩
    · rcases g with _ | ⟨y, _ | ⟨z, g⟩⟩
      · exact absurd two (Nat.not_succ_le_zero 1)
      · exact absurd two (Nat.not_succ_le_self 1)
      · obtain ⟨rfl, rfl⟩ := List.cons.inj whole
        have pair : BLANKS.Takes prev [y, z] (g ++ c :: t).head? := by
          refine ⟨Nat.le_refl 2, by simp, fun d mem => blank d ?_⟩
          rcases List.mem_cons.1 mem with rfl | mem
          · exact List.mem_cons_self
          · rw [List.mem_singleton.1 mem]
            exact List.mem_cons_of_mem _ List.mem_cons_self
        exact absurd pair (Regex.not_takes_of_pattern (w := [z]) (by decide) unseen)
  | @mask _ x xs s out piece found rest =>
    have ⟨all, stop⟩ := Regex.many_greedy found
    have front := takeWhile_run hg.blank (u := c :: t) fun d mem => by
      cases mem
      exact hc
    rw [whole, ← List.cons_append, takeWhile_run all stop] at front
    rw [← front, List.cons_append] at whole
    obtain rfl := List.append_cancel_left (List.cons.inj whole).2
    obtain ⟨o, rfl, tail⟩ := rest.stays (no_blanks_at hc)
    exact ⟨o, rfl, tail⟩

/-- And nothing else becomes one. -/
theorem squeezable_of_squeezed {prev : Option Char} {s o : List Char} {c : Char}
    (hc : isBlank c = false) (h : Squeezed prev s (' ' :: c :: o)) :
    ∃ g s', s = g ++ c :: s' ∧ Squeezable g ∧ Squeezed (some c) s' o := by
  have plain : c ≠ ' ' := by
    rintro rfl
    cases hc
  have next : ∀ {prev : Option Char} {s : List Char}, Squeezed prev s (c :: o) →
      ∃ s', s = c :: s' ∧ Squeezed (some c) s' o := by
    intro prev s h
    generalize whole : c :: o = out at h
    cases h with
    | nil => cases whole
    | keep _ rest =>
      obtain ⟨rfl, rfl⟩ := List.cons.inj whole
      exact ⟨_, rfl, rest⟩
    | mask _ rest => exact absurd (List.cons.inj whole).1 plain
  generalize whole : ' ' :: c :: o = out at h
  cases h with
  | nil => cases whole
  | keep _ rest =>
    obtain ⟨rfl, rfl⟩ := List.cons.inj whole
    obtain ⟨s', rfl, tail⟩ := next rest
    exact ⟨[' '], s', rfl, .inl rfl, tail⟩
  | @mask _ x xs s out piece found rest =>
    have after : out = c :: o := (List.cons.inj whole).2.symm
    subst after
    obtain ⟨s', rfl, tail⟩ := next rest
    have takes := (Regex.takes_of_pattern found).2
    exact ⟨x :: xs, s', rfl, .inr ⟨takes.1, takes.2.2⟩, tail⟩

/-- A lookalike is squeezed to a placeholder. -/
theorem squeezed_lookalike {prev : Option Char} {q t out : List Char} (hq : Lookalike q)
    (h : Squeezed prev (q ++ t) out) :
    ∃ o p, out = REDACTION_PLACEHOLDER ++ o ∧ Squeezed p t o := by
  obtain ⟨g, rfl, hg⟩ := hq
  rw [List.append_assoc, List.append_assoc] at h
  have outside : ∀ c ∈ FRONT ++ BACK, isBlank c = false := halves_plain
  obtain ⟨o₁, rfl, h₁⟩ := h.stays_word fun c mem =>
    no_blanks_at (outside c (List.mem_append_left BACK mem))
  have back : BACK = 'ش' :: ['د', '»'] := by decide
  rw [back, List.cons_append] at h₁
  obtain ⟨o₂, rfl, h₂⟩ := squeezed_gap hg (by decide) h₁
  obtain ⟨o₃, rfl, h₃⟩ := h₂.stays_word fun c mem =>
    no_blanks_at (outside c (List.mem_append_right FRONT (by
      rw [back]
      exact List.mem_cons_of_mem _ mem)))
  refine ⟨o₃, _, ?_, h₃⟩
  rw [placeholder_eq, back]
  simp

/-- A placeholder of the squeezed text was a lookalike. -/
theorem lookalike_of_squeezed {prev : Option Char} {s o : List Char}
    (h : Squeezed prev s (REDACTION_PLACEHOLDER ++ o)) :
    ∃ q s' p, s = q ++ s' ∧ Lookalike q ∧ Squeezed p s' o := by
  have back : BACK = 'ش' :: ['د', '»'] := by decide
  rw [placeholder_eq, back, List.append_assoc] at h
  have none : ' ' ∉ FRONT := by decide
  have none' : ' ' ∉ ['د', '»'] := by decide
  obtain ⟨s₁, rfl, h₁⟩ := h.kept (fun _ => ⟨[], rfl⟩) none
  obtain ⟨g, s₂, rfl, hg, h₂⟩ := squeezable_of_squeezed (by decide) h₁
  obtain ⟨s₃, rfl, h₃⟩ := h₂.kept (fun _ => ⟨[], rfl⟩) none'
  refine ⟨FRONT ++ (g ++ BACK), s₃, _, ?_, ⟨g, rfl, hg⟩, h₃⟩
  rw [back]
  simp

theorem lookalike_cons {q : List Char} (h : Lookalike q) :
    ∃ t, q = '«' :: t ∧ '«' ∉ t := by
  obtain ⟨g, rfl, hg⟩ := h
  refine ⟨['ح', 'ذ', 'ف'] ++ (g ++ BACK), rfl, fun mem => ?_⟩
  rcases List.mem_append.1 mem with mem | mem
  · exact absurd mem (by decide)
  · rcases List.mem_append.1 mem with mem | mem
    · exact absurd (hg.blank _ mem) (by decide)
    · exact absurd mem (by decide)

/-- Of all lookalikes only a placeholder begins like one. -/
theorem eq_of_lookalike {q t : List Char} (h : Lookalike q)
    (starts : REDACTION_PLACEHOLDER <+: q ++ t) : q = REDACTION_PLACEHOLDER := by
  obtain ⟨g, rfl, hg⟩ := h
  obtain ⟨u, same⟩ := starts
  have back : BACK = 'ش' :: ['د', '»'] := by decide
  have stop : ∀ u : List Char, ∀ c ∈ ('ش' :: u).head?, isBlank c = false := by
    intro u c mem
    cases mem
    rfl
  rw [placeholder_eq] at same ⊢
  rw [List.append_assoc, List.append_assoc, List.append_assoc, List.append_assoc] at same
  have tails : [' '] ++ ('ش' :: (['د', '»'] ++ u)) = g ++ ('ش' :: (['د', '»'] ++ t)) := by
    rw [back] at same
    exact List.append_cancel_left same
  have one := takeWhile_run Squeezable.blank_one (stop (['د', '»'] ++ u))
  rw [tails, takeWhile_run hg.blank (stop _)] at one
  rw [one]

/-- Lookalikes side by side are what squeezing puts side by side. -/
theorem adjacent_squeeze_iff (text : List Char) :
    Adjacent (squeeze text) ↔ LookalikesBeside text := by
  have ⟨tail, start, _⟩ := lookalike_cons lookalike_placeholder
  have single : ∀ (_ : List Char) (x y : List Char), [' '] = x ++ '«' :: y → x = [] := by
    intro _ x y split
    have mem : '«' ∈ [' '] := split ▸ List.mem_append_right x List.mem_cons_self
    exact absurd mem (by decide)
  constructor
  · rintro ⟨a, gap, b, split, blank⟩
    rw [start, List.cons_append] at split
    obtain ⟨a₀, s₁, rfl, h₁, _⟩ := (squeezed text).suffix split single
    rw [← List.cons_append, ← start] at h₁
    obtain ⟨q, s₂, p, rfl, hq, h₂⟩ := lookalike_of_squeezed h₁
    have behind : gap ++ (REDACTION_PLACEHOLDER ++ b) = gap ++ '«' :: (tail ++ b) := by
      rw [start, List.cons_append]
    obtain ⟨gap₀, s₃, rfl, h₃, chars⟩ := h₂.suffix behind single
    rw [← List.cons_append, ← start] at h₃
    obtain ⟨q', s₄, p', rfl, hq', _⟩ := lookalike_of_squeezed h₃
    refine ⟨a₀, q, gap₀, q', s₄, rfl, hq, hq', fun c mem => ?_⟩
    rcases chars c mem with mem | ⟨_, _, _, _, _, found, mem⟩
    · exact blank c mem
    · exact isTrimmed_of_isBlank (blanks_of_match found c mem)
  · rintro ⟨a, q, gap, q', b, rfl, hq, hq', blank⟩
    obtain ⟨t, rfl, _⟩ := lookalike_cons hq
    obtain ⟨t', rfl, _⟩ := lookalike_cons hq'
    have outside := @outside_blanks '«' rfl
    have whole := squeezed (a ++ '«' :: (t ++ (gap ++ '«' :: (t' ++ b))))
    obtain ⟨a', o₁, p, split, h₁, _⟩ := whole.push outside
    rw [← List.cons_append] at h₁
    obtain ⟨o₂, p₂, same, h₂⟩ := squeezed_lookalike hq h₁
    obtain ⟨gap', o₃, p₃, rfl, h₃, chars⟩ := h₂.push outside
    rw [← List.cons_append] at h₃
    obtain ⟨o₄, p₄, same', _⟩ := squeezed_lookalike hq' h₃
    refine ⟨a', gap', o₄, ?_, fun c mem => ?_⟩
    · show squeeze (a ++ '«' :: (t ++ (gap ++ '«' :: (t' ++ b)))) = _
      rw [split, same, same']
    · rcases chars c mem with mem | ⟨_, mem⟩
      · exact blank c mem
      · rw [List.mem_singleton.1 mem]
        rfl

end Sanitizer

end Paayatam
