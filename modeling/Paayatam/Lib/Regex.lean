/-
  Paayatam.Lib.Regex

  Regular expressions as a backtracking matcher runs them.

  `ends` lists where a match can end, the way the matcher would try them, so the
  first of the list is the match it finds; `Takes` says which words the expression
  matches, whatever the order.  A word boundary looks at what is before and behind
  a word, so both carry the symbol before it, and `Takes` the one behind.
-/

import Paayatam.Lib.Masking
import Mathlib.Data.List.Forall2
import Mathlib.Data.List.TakeWhile

namespace Paayatam.Lib

inductive Regex (α : Type) where
  | empty
  /-- One symbol of a class. -/
  | one (p : α → Bool)
  /-- At least so many symbols of a class, and at most so many; as many as can be. -/
  | many (p : α → Bool) (least : Nat) (most : Option Nat)
  | seq (r₁ r₂ : Regex α)
  /-- The first, or else the second. -/
  | alt (r₁ r₂ : Regex α)
  /-- Between a symbol of the class and one that is not, or the end of the text. -/
  | boundary (word : α → Bool)

namespace Regex

variable {α : Type} {r r₁ r₂ : Regex α} {p : α → Bool} {prev next : Option α} {w s : List α}
  {n : Nat}

/-- Greedily once or not at all. -/
def opt (r : Regex α) : Regex α := .alt r .empty

/-- One symbol after another. -/
def literal : List (α → Bool) → Regex α
  | [] => .empty
  | p :: ps => .seq (.one p) (literal ps)

/-- How many symbols of a class a greedy repetition can take. -/
def reach (p : α → Bool) (most : Option Nat) (s : List α) : Nat :=
  let run := (s.takeWhile p).length
  most.elim run (min run)

/-- Where a match can end, in the order in which the matcher tries. -/
def ends : Regex α → Option α → List α → List Nat
  | .empty, _, _ => [0]
  | .one p, _, s => if (s.head?).any p then [1] else []
  | .many p least most, _, s =>
    ((List.range (reach p most s + 1)).filter (least ≤ ·)).reverse
  | .seq r₁ r₂, prev, s =>
    (r₁.ends prev s).flatMap fun i =>
      (r₂.ends (lastRead prev (s.take i)) (s.drop i)).map (i + ·)
  | .alt r₁ r₂, prev, s => r₁.ends prev s ++ r₂.ends prev s
  | .boundary word, prev, s => if prev.any word != (s.head?).any word then [0] else []

/-- The words of an expression, behind `prev` and in front of `next`. -/
def Takes : Regex α → Option α → List α → Option α → Prop
  | .empty, _, w, _ => w = []
  | .one p, _, w, _ => ∃ c, w = [c] ∧ p c = true
  | .many p least most, _, w, _ =>
    least ≤ w.length ∧ (∀ m ∈ most, w.length ≤ m) ∧ ∀ c ∈ w, p c = true
  | .seq r₁ r₂, prev, w, next =>
    ∃ u v, w = u ++ v ∧ r₁.Takes prev u (v.head?.or next) ∧ r₂.Takes (lastRead prev u) v next
  | .alt r₁ r₂, prev, w, next => r₁.Takes prev w next ∨ r₂.Takes prev w next
  | .boundary word, prev, w, next => w = [] ∧ prev.any word ≠ next.any word

theorem le_reach {most : Option Nat} :
    n ≤ reach p most s ↔
      n ≤ s.length ∧ (∀ m ∈ most, n ≤ m) ∧ ∀ c ∈ s.take n, p c = true := by
  have run : n ≤ (s.takeWhile p).length ↔ n ≤ s.length ∧ ∀ c ∈ s.take n, p c = true := by
    constructor
    · intro h
      have within := (List.takeWhile_prefix (l := s) p).length_le
      refine ⟨h.trans within, fun c mem => ?_⟩
      have start : s.take n = (s.takeWhile p).take n := by
        conv_lhs => rw [← List.takeWhile_append_dropWhile (p := p) (l := s)]
        rw [List.take_append_of_le_length h]
      rw [start] at mem
      exact List.mem_takeWhile_imp (List.mem_of_mem_take mem)
    · rintro ⟨length, all⟩
      have whole : s.takeWhile p = s.take n ++ (s.drop n).takeWhile p := by
        rw [← List.takeWhile_append_of_pos all, List.take_append_drop]
      rw [whole, List.length_append, List.length_take]
      omega
  cases most with
  | none => simp [reach, run]
  | some m =>
    rw [reach, Option.elim_some, Nat.le_min, run]
    simp only [Option.mem_some_iff, forall_eq']
    exact ⟨fun h => ⟨h.1.1, h.2, h.1.2⟩, fun h => ⟨⟨h.1, h.2.2⟩, h.2.1⟩⟩

theorem head?_take_or (s : List α) (n : Nat) : (s.take n).head?.or (s.drop n).head? = s.head? := by
  cases s with
  | nil => simp
  | cons c rest =>
    cases n with
    | zero => rfl
    | succ n => rfl

/-- What the matcher tries are the words of the expression, and all of them. -/
theorem mem_ends : n ∈ r.ends prev s ↔
    n ≤ s.length ∧ r.Takes prev (s.take n) (s.drop n).head? := by
  induction r generalizing prev s n with
  | empty =>
    rw [ends, Takes, List.mem_singleton, List.take_eq_nil_iff]
    constructor
    · rintro rfl
      exact ⟨Nat.zero_le _, .inl rfl⟩
    · rintro ⟨length, rfl | rfl⟩
      · rfl
      · exact Nat.le_zero.1 length
  | one p =>
    rw [ends, Takes]
    constructor
    · intro h
      split at h
      · rename_i start
        have ⟨c, head, class_⟩ := (Option.any_eq_true _ _).1 start
        obtain ⟨rest, rfl⟩ := List.head?_eq_some_iff.1 head
        obtain rfl := List.mem_singleton.1 h
        exact ⟨by simp, c, rfl, class_⟩
      · cases h
    · rintro ⟨length, c, taken, class_⟩
      have one : n = 1 := by
        have size := congrArg List.length taken
        rw [List.length_take, List.length_singleton] at size
        omega
      subst one
      cases s with
      | nil => cases length
      | cons d rest =>
        obtain rfl : d = c := by simpa using taken
        simp [class_]
  | many p least most =>
    rw [ends, Takes, List.mem_reverse, List.mem_filter, List.mem_range, Nat.lt_succ_iff, le_reach,
      decide_eq_true_eq]
    constructor
    · rintro ⟨⟨length, bound, all⟩, enough⟩
      rw [List.length_take, Nat.min_eq_left length]
      exact ⟨length, enough, bound, all⟩
    · rintro ⟨length, enough, bound, all⟩
      rw [List.length_take, Nat.min_eq_left length] at enough bound
      exact ⟨⟨length, bound, all⟩, enough⟩
  | seq r₁ r₂ ih₁ ih₂ =>
    simp only [ends, Takes, List.mem_flatMap, List.mem_map]
    constructor
    · rintro ⟨i, first, j, second, rfl⟩
      have ⟨lengthI, takesI⟩ := ih₁.1 first
      have ⟨lengthJ, takesJ⟩ := ih₂.1 second
      rw [List.length_drop] at lengthJ
      refine ⟨by omega, s.take i, (s.drop i).take j, ?_, ?_, ?_⟩
      · exact List.take_add
      · rw [← List.drop_drop, head?_take_or]
        exact takesI
      · rw [List.drop_drop] at takesJ
        exact takesJ
    · rintro ⟨length, u, v, split, takesU, takesV⟩
      have whole : s = u ++ (v ++ s.drop n) := by
        rw [← List.append_assoc, ← split, List.take_append_drop]
      have size : n = u.length + v.length := by
        rw [← List.length_append, ← split, List.length_take, Nat.min_eq_left length]
      generalize s.drop n = t at whole takesU takesV
      subst whole
      refine ⟨u.length, ih₁.2 ⟨by simp, ?_⟩, v.length, ih₂.2 ⟨by simp, ?_⟩, size.symm⟩
      · rw [List.take_left, List.drop_left, List.head?_append]
        exact takesU
      · rw [List.take_left, List.drop_left, List.take_left, List.drop_left]
        exact takesV
  | alt r₁ r₂ ih₁ ih₂ =>
    rw [ends, Takes, List.mem_append, ih₁, ih₂, ← and_or_left]
  | boundary word =>
    rw [ends, Takes]
    constructor
    · intro h
      split at h
      · rename_i apart
        obtain rfl := List.mem_singleton.1 h
        exact ⟨Nat.zero_le _, rfl, bne_iff_ne.1 apart⟩
      · cases h
    · rintro ⟨length, taken, apart⟩
      have none : n = 0 := by
        rcases List.take_eq_nil_iff.1 taken with rfl | rfl
        · rfl
        · exact Nat.le_zero.1 length
      subst none
      rw [List.drop_zero] at apart
      rw [if_pos (bne_iff_ne.2 apart)]
      exact List.mem_singleton_self 0

/-- The expression as a scan uses it: what it matches, and how far that goes on. -/
def pattern (r : Regex α) : Pattern α (List α) := fun prev c rest =>
  match (r.ends prev (c :: rest)).head? with
  | some (n + 1) => some (c :: rest.take n, n)
  | _ => none

/-- Somewhere in the text a match begins. -/
def Occurs (r : Regex α) (text : List α) : Prop :=
  ∃ a w b, text = a ++ w ++ b ∧ r.Takes a.getLast? w b.head?

/-! ## What all words of an expression have in common -/

/-- Every class of the expression satisfies a property of classes. -/
def classes (P : (α → Bool) → Prop) : Regex α → Prop
  | .empty => True
  | .one p => P p
  | .many p _ _ => P p
  | .seq r₁ r₂ => r₁.classes P ∧ r₂.classes P
  | .alt r₁ r₂ => r₁.classes P ∧ r₂.classes P
  | .boundary _ => True

/-- The symbols of a word are of the classes. -/
theorem Takes.all {Q : α → Prop} (h : r.Takes prev w next)
    (hr : r.classes fun p => ∀ c, p c = true → Q c) : ∀ c ∈ w, Q c := by
  induction r generalizing prev w next with
  | empty =>
    obtain rfl : w = [] := h
    exact fun c mem => absurd mem List.not_mem_nil
  | one p =>
    obtain ⟨d, rfl, class_⟩ := h
    intro c mem
    rw [List.mem_singleton.1 mem]
    exact hr d class_
  | many p least most => exact fun c mem => hr c (h.2.2 c mem)
  | seq r₁ r₂ ih₁ ih₂ =>
    obtain ⟨u, v, rfl, takesU, takesV⟩ := h
    intro c mem
    rcases List.mem_append.1 mem with mem | mem
    · exact ih₁ takesU hr.1 c mem
    · exact ih₂ takesV hr.2 c mem
  | alt r₁ r₂ ih₁ ih₂ =>
    rcases h with h | h
    · exact ih₁ h hr.1
    · exact ih₂ h hr.2
  | boundary word =>
    rw [h.1]
    exact fun c mem => absurd mem List.not_mem_nil

/-- None of the symbols is of a class of the expression. -/
def avoids (xs : List α) : Regex α → Bool
  | .empty => true
  | .one p => xs.all fun c => !p c
  | .many p _ _ => xs.all fun c => !p c
  | .seq r₁ r₂ => r₁.avoids xs && r₂.avoids xs
  | .alt r₁ r₂ => r₁.avoids xs && r₂.avoids xs
  | .boundary _ => true

theorem classes_of_avoids {xs : List α} (h : r.avoids xs = true) :
    r.classes fun p => ∀ c, p c = true → c ∉ xs := by
  have apart : ∀ p : α → Bool, (xs.all fun c => !p c) = true → ∀ c, p c = true → c ∉ xs := by
    intro p none c class_ mem
    have outside := List.all_eq_true.1 none c mem
    rw [class_] at outside
    exact Bool.false_ne_true outside
  induction r with
  | empty => trivial
  | one p => exact apart p h
  | many p least most => exact apart p h
  | seq r₁ r₂ ih₁ ih₂ => exact (Bool.and_eq_true_iff.1 h).imp ih₁ ih₂
  | alt r₁ r₂ ih₁ ih₂ => exact (Bool.and_eq_true_iff.1 h).imp ih₁ ih₂
  | boundary word => trivial

theorem Takes.avoid {xs : List α} (h : r.Takes prev w next) (hr : r.avoids xs = true) :
    ∀ c ∈ w, c ∉ xs :=
  h.all (classes_of_avoids hr)

/-- How long a word is at the least. -/
def shortest : Regex α → Nat
  | .empty => 0
  | .one _ => 1
  | .many _ least _ => least
  | .seq r₁ r₂ => r₁.shortest + r₂.shortest
  | .alt r₁ r₂ => min r₁.shortest r₂.shortest
  | .boundary _ => 0

theorem Takes.shortest_le (h : r.Takes prev w next) : r.shortest ≤ w.length := by
  induction r generalizing prev w next with
  | empty => exact Nat.zero_le _
  | one p =>
    obtain ⟨d, rfl, _⟩ := h
    exact Nat.le_refl 1
  | many p least most => exact h.1
  | seq r₁ r₂ ih₁ ih₂ =>
    obtain ⟨u, v, rfl, takesU, takesV⟩ := h
    rw [List.length_append]
    exact Nat.add_le_add (ih₁ takesU) (ih₂ takesV)
  | alt r₁ r₂ ih₁ ih₂ =>
    rcases h with h | h
    · exact (Nat.min_le_left _ _).trans (ih₁ h)
    · exact (Nat.min_le_right _ _).trans (ih₂ h)
  | boundary word => exact Nat.zero_le _

/-- Every class a word can begin with satisfies a property of classes. -/
def firsts (P : (α → Bool) → Prop) : Regex α → Prop
  | .empty => True
  | .one p => P p
  | .many p _ _ => P p
  | .seq r₁ r₂ => r₁.firsts P ∧ (0 < r₁.shortest ∨ r₂.firsts P)
  | .alt r₁ r₂ => r₁.firsts P ∧ r₂.firsts P
  | .boundary _ => True

theorem Takes.first {Q : α → Prop} {c : α} (h : r.Takes prev (c :: w) next)
    (hr : r.firsts fun p => ∀ c, p c = true → Q c) : Q c := by
  induction r generalizing prev w next with
  | empty => cases h
  | one p =>
    obtain ⟨d, same, class_⟩ := h
    rw [(List.cons.inj same).1]
    exact hr d class_
  | many p least most => exact hr c (h.2.2 c List.mem_cons_self)
  | seq r₁ r₂ ih₁ ih₂ =>
    obtain ⟨u, v, whole, takesU, takesV⟩ := h
    cases u with
    | cons d u =>
      obtain ⟨rfl, rfl⟩ := List.cons.inj whole
      exact ih₁ takesU hr.1
    | nil =>
      rcases hr.2 with long | second
      · exact absurd takesU.shortest_le (Nat.not_le.2 long)
      · rw [List.nil_append] at whole
        rw [← whole] at takesV
        exact ih₂ takesV second
  | alt r₁ r₂ ih₁ ih₂ =>
    rcases h with h | h
    · exact ih₁ h hr.1
    · exact ih₂ h hr.2
  | boundary word => cases h.1

/-- The expression does not look at what is around a word. -/
def plain : Regex α → Bool
  | .seq r₁ r₂ => r₁.plain && r₂.plain
  | .alt r₁ r₂ => r₁.plain && r₂.plain
  | .boundary _ => false
  | _ => true

theorem Takes.anywhere (h : r.Takes prev w next) (hr : r.plain = true) (prev' next' : Option α) :
    r.Takes prev' w next' := by
  induction r generalizing prev w next prev' next' with
  | empty => exact h
  | one p => exact h
  | many p least most => exact h
  | seq r₁ r₂ ih₁ ih₂ =>
    obtain ⟨u, v, rfl, takesU, takesV⟩ := h
    have ⟨plain₁, plain₂⟩ := Bool.and_eq_true_iff.1 hr
    exact ⟨u, v, rfl, ih₁ takesU plain₁ _ _, ih₂ takesV plain₂ _ _⟩
  | alt r₁ r₂ ih₁ ih₂ =>
    have ⟨plain₁, plain₂⟩ := Bool.and_eq_true_iff.1 hr
    exact h.imp (ih₁ · plain₁ _ _) (ih₂ · plain₂ _ _)
  | boundary word => exact absurd hr Bool.false_ne_true

theorem takes_literal {ps : List (α → Bool)} :
    (literal ps).Takes prev w next ↔ List.Forall₂ (fun p c => p c = true) ps w := by
  induction ps generalizing prev w with
  | nil =>
    rw [List.forall₂_nil_left_iff]
    exact Iff.rfl
  | cons p ps ih =>
    rw [List.forall₂_cons_left_iff]
    constructor
    · rintro ⟨_, v, rfl, ⟨c, rfl, class_⟩, rest⟩
      exact ⟨c, v, class_, ih.1 rest, rfl⟩
    · rintro ⟨c, v, class_, rest, rfl⟩
      exact ⟨[c], v, rfl, ⟨c, rfl, class_⟩, ih.2 rest⟩

/-! ## What a scan finds -/

theorem pattern_within (r : Regex α) : r.pattern.Within := by
  intro prev c rest b n h
  rw [pattern] at h
  split at h
  · rename_i m found
    cases h
    have ⟨length, _⟩ := mem_ends.1 (List.mem_of_head? found)
    simpa using length
  · cases h

/-- What a match is: the words of the expression, behind what was read. -/
theorem takes_of_pattern {c : α} {xs rest b : List α}
    (h : r.pattern prev c (xs ++ rest) = some (b, xs.length)) :
    b = c :: xs ∧ r.Takes prev (c :: xs) rest.head? := by
  rw [pattern] at h
  split at h
  · rename_i n found
    obtain ⟨rfl, rfl⟩ : c :: (xs ++ rest).take n = b ∧ n = xs.length := by simpa using h
    have ⟨_, takes⟩ := mem_ends.1 (List.mem_of_head? found)
    rw [List.take_left]
    refine ⟨rfl, ?_⟩
    have size : xs.length.succ = (c :: xs).length := rfl
    rw [← List.cons_append, size, List.take_left, List.drop_left] at takes
    exact takes
  · cases h

/-- Where the scan sees no match, no word of the expression begins. -/
theorem not_takes_of_pattern {c : α} {w rest : List α} (hr : 0 < r.shortest)
    (h : r.pattern prev c (w ++ rest) = none) : ¬r.Takes prev (c :: w) rest.head? := by
  intro takes
  have found : (c :: w).length ∈ r.ends prev (c :: (w ++ rest)) := by
    refine mem_ends.2 ⟨by simp, ?_⟩
    rw [← List.cons_append, List.take_left, List.drop_left]
    exact takes
  rw [pattern] at h
  cases first : (r.ends prev (c :: (w ++ rest))).head? with
  | none =>
    rw [List.head?_eq_none_iff.1 first] at found
    exact List.not_mem_nil found
  | some n =>
    cases n with
    | zero =>
      have ⟨_, nothing⟩ := mem_ends.1 (List.mem_of_head? first)
      exact absurd nothing.shortest_le (by simp; omega)
    | succ n => simp [first] at h

/-- A text without a match stays as it is, and a scan finds nothing in it. -/
theorem pieces_of_not_occurs (h : ¬r.Occurs s) : pieces r.pattern none 0 s = s.map .inl := by
  refine pieces_of_none fun a c b split => ?_
  cases found : r.pattern (lastRead none a) c b with
  | none => rfl
  | some piece =>
    obtain ⟨x, n⟩ := piece
    obtain ⟨xs, rest, rfl, rfl⟩ := (pattern_within r).split found
    have before : lastRead none a = a.getLast? := Option.or_none
    refine absurd ⟨a, c :: xs, rest, ?_, ?_⟩ h
    · rw [List.append_assoc]
      exact split
    · rw [← before]
      exact (takes_of_pattern found).2

/-! ## Greedy runs -/

theorem head?_ends_many (p : α → Bool) (least : Nat) (prev : Option α) (s : List α) :
    ((many p least none).ends prev s).head? =
      if least ≤ (s.takeWhile p).length then some (s.takeWhile p).length else none := by
  rw [ends, List.head?_reverse, reach, Option.elim_none, List.range_succ, List.filter_append]
  split
  · rename_i enough
    simp [enough]
  · rename_i short
    have none : (List.range (s.takeWhile p).length).filter (least ≤ ·) = [] := by
      refine List.filter_eq_nil_iff.2 fun n mem => ?_
      have less := List.mem_range.1 mem
      simp only [decide_eq_true_eq]
      omega
    simp [none, short]

/-- A greedy run goes on as far as its class. -/
theorem many_greedy {least : Nat} {c : α} {xs rest b : List α}
    (h : (many p least none).pattern prev c (xs ++ rest) = some (b, xs.length)) :
    (∀ d ∈ c :: xs, p d = true) ∧ ∀ d ∈ rest.head?, p d = false := by
  have all : ∀ d ∈ c :: xs, p d = true := (takes_of_pattern h).2.2.2
  refine ⟨all, fun d mem => ?_⟩
  rw [pattern, head?_ends_many, ← List.cons_append, List.takeWhile_append_of_pos all] at h
  split at h
  · rename_i n found
    split at found
    · have size : n = xs.length := by simpa using (Prod.ext_iff.1 (Option.some.inj h)).2
      rw [size, List.length_append, List.length_cons, Option.some_inj] at found
      have none : rest.takeWhile p = [] := List.length_eq_zero_iff.1 (by omega)
      obtain ⟨tail, rfl⟩ := List.head?_eq_some_iff.1 mem
      rw [Bool.eq_false_iff]
      intro more
      rw [List.takeWhile_cons_of_pos more] at none
      cases none
    · cases found
  · cases h

/-- Behind the first match comes no symbol of the class. -/
def Greedy (p : α → Bool) (r : Regex α) : Prop :=
  ∀ prev s n, (r.ends prev s).head? = some n → ∀ c ∈ (s.drop n).head?, p c = false

theorem greedy_many (p : α → Bool) (least : Nat) : Greedy p (many p least none) := by
  intro prev s n first c mem
  rw [head?_ends_many] at first
  split at first
  · cases first
    have rest : s.drop (s.takeWhile p).length = s.dropWhile p := by
      conv_lhs => rw [← List.takeWhile_append_dropWhile (p := p) (l := s)]
      rw [List.drop_append_of_le_length (by simp), List.drop_eq_nil_of_le (by simp)]
      rfl
    rw [rest] at mem
    have stop := List.head?_dropWhile_not p s
    rw [Option.mem_def.1 mem] at stop
    exact stop
  · cases first

theorem Greedy.seq (h : Greedy p r₂) (r₁ : Regex α) : Greedy p (.seq r₁ r₂) := by
  intro prev s n first c mem
  rw [ends, List.head?_flatMap] at first
  obtain ⟨i, _, here⟩ := List.exists_of_findSome?_eq_some first
  rw [List.head?_map, Option.map_eq_some_iff] at here
  obtain ⟨k, inner, rfl⟩ := here
  rw [← List.drop_drop] at mem
  exact h _ _ k inner c mem

theorem Greedy.behind {c : α} {xs rest b : List α} (h : Greedy p r)
    (found : r.pattern prev c (xs ++ rest) = some (b, xs.length)) :
    ∀ d ∈ rest.head?, p d = false := by
  intro d mem
  rw [pattern] at found
  split at found
  · rename_i n first
    have size : n = xs.length := by simpa using (Prod.ext_iff.1 (Option.some.inj found)).2
    refine h prev (c :: (xs ++ rest)) (n + 1) first d ?_
    rw [size, List.drop_succ_cons, List.drop_left]
    exact mem
  · cases found

/-- The first match is the longest. -/
def Longest (r : Regex α) : Prop :=
  ∀ prev s n m, (r.ends prev s).head? = some n → m ∈ r.ends prev s → m ≤ n

/-- Where only one end of the front lets the rest go on, the rest decides. -/
theorem Longest.seq (h : Longest r₂)
    (one : ∀ prev s i j, i ∈ r₁.ends prev s → j ∈ r₁.ends prev s →
      r₂.ends (lastRead prev (s.take i)) (s.drop i) ≠ [] →
      r₂.ends (lastRead prev (s.take j)) (s.drop j) ≠ [] → i = j) : Longest (.seq r₁ r₂) := by
  intro prev s n m first mem
  rw [ends, List.head?_flatMap] at first
  obtain ⟨i, hi, here⟩ := List.exists_of_findSome?_eq_some first
  rw [List.head?_map, Option.map_eq_some_iff] at here
  obtain ⟨k, inner, rfl⟩ := here
  rw [ends, List.mem_flatMap] at mem
  obtain ⟨j, hj, there⟩ := mem
  obtain ⟨l, hl, rfl⟩ := List.mem_map.1 there
  have same := one prev s i j hi hj (List.ne_nil_of_mem (List.mem_of_head? inner))
    (List.ne_nil_of_mem hl)
  subst same
  exact Nat.add_le_add_left (h _ _ k l inner hl) i

/-- A repetition in front of a look at what follows takes as many as it can. -/
theorem longest_many_boundary (p q : α → Bool) (least : Nat) (most : Option Nat) :
    Longest (.seq (.many p least most) (.boundary q)) := by
  intro prev s n m first mem
  have falls : ((many p least most).ends prev s).Pairwise (· > ·) := by
    rw [ends, List.pairwise_reverse]
    exact List.pairwise_lt_range.filter _
  have still : ∀ l : List Nat, (l.flatMap fun i =>
      ((boundary q).ends (lastRead prev (s.take i)) (s.drop i)).map (i + ·)) =
        l.filter fun i => (lastRead prev (s.take i)).any q != (s.drop i).head?.any q := by
    intro l
    induction l with
    | nil => rfl
    | cons i rest ih =>
      rw [List.flatMap_cons, ih, ends, List.filter_cons]
      split
      · rfl
      · rfl
  rw [ends, still] at first mem
  obtain ⟨rest, whole⟩ := List.head?_eq_some_iff.1 first
  have order := falls.filter fun i =>
    (lastRead prev (s.take i)).any q != (s.drop i).head?.any q
  rw [whole] at order mem
  rcases List.mem_cons.1 mem with rfl | mem
  · exact Nat.le_refl m
  · exact Nat.le_of_lt ((List.pairwise_cons.1 order).1 m mem)

theorem Longest.reaches {c : α} {xs rest b u v : List α} (h : Longest r)
    (found : r.pattern prev c (xs ++ rest) = some (b, xs.length))
    (whole : c :: (xs ++ rest) = u ++ v) (takes : r.Takes prev u v.head?) :
    u.length ≤ xs.length + 1 := by
  have mem : u.length ∈ r.ends prev (c :: (xs ++ rest)) := by
    rw [whole]
    refine mem_ends.2 ⟨by simp, ?_⟩
    rw [List.take_left, List.drop_left]
    exact takes
  rw [pattern] at found
  split at found
  · rename_i n first
    have size : n = xs.length := by simpa using (Prod.ext_iff.1 (Option.some.inj found)).2
    rw [← size]
    exact h prev _ (n + 1) u.length first mem
  · cases found

end Regex

end Paayatam.Lib
