/-
  Paayatam.Lib.Provenance

  Where what a replacement leaves comes from.

  A scan can be run on symbols that carry more than the pattern looks at, a mark
  for instance.  It takes the same pieces, and what it leaves keeps its marks.
-/

import Paayatam.Lib.Masking

namespace Paayatam.Lib

section Under

variable {α β γ : Type} {g : α → γ} {m : Pattern γ β} {prev : Option α} {c : α}
  {xs rest : List α} {b : List α}

/-- A pattern that sees of each symbol what `g` shows, and captures the symbols. -/
def Pattern.under (m : Pattern γ β) (g : α → γ) : Pattern α (List α) := fun prev c rest =>
  (m (prev.map g) (g c) (rest.map g)).map fun found => (c :: rest.take found.2, found.2)

theorem under_eq_none : m.under g prev c rest = none ↔ m (prev.map g) (g c) (rest.map g) = none :=
  Option.map_eq_none_iff

theorem under_eq_some {n : Nat} : m.under g prev c rest = some (b, n) ↔
    (∃ piece, m (prev.map g) (g c) (rest.map g) = some (piece, n)) ∧ b = c :: rest.take n := by
  constructor
  · intro h
    obtain ⟨⟨piece, k⟩, found, same⟩ := Option.map_eq_some_iff.1 h
    obtain ⟨rfl, rfl⟩ := Prod.mk.injEq .. ▸ same
    exact ⟨⟨piece, found⟩, rfl⟩
  · rintro ⟨⟨piece, found⟩, rfl⟩
    exact Option.map_eq_some_iff.2 ⟨(piece, n), found, rfl⟩

theorem under_within (hm : m.Within) : (m.under g).Within := by
  intro prev c rest b n h
  obtain ⟨⟨piece, found⟩, _⟩ := under_eq_some.1 h
  have short := hm _ _ _ piece n found
  rw [List.length_map] at short
  exact short

/-- What is captured is what is taken. -/
theorem under_source (h : m.under g prev c (xs ++ rest) = some (b, xs.length)) : b = c :: xs := by
  obtain ⟨_, rfl⟩ := under_eq_some.1 h
  rw [List.take_left]

/-- The scan takes the same pieces. -/
theorem pieces_under (prev : Option α) (k : Nat) (t : List α) :
    (pieces (m.under g) prev k t).map (Sum.map g fun _ => ()) =
      (pieces m (prev.map g) k (t.map g)).map (Sum.map id fun _ => ()) := by
  induction t generalizing prev k with
  | nil => rw [pieces_nil, List.map_nil, List.map_nil, pieces_nil, List.map_nil]
  | cons c t ih =>
    cases k with
    | succ k => exact ih (some c) k
    | zero =>
      cases found : m (prev.map g) (g c) (t.map g) with
      | none =>
        rw [List.map_cons, pieces_unmatched found, pieces_unmatched (under_eq_none.2 found),
          List.map_cons, List.map_cons, ih]
        rfl
      | some taken =>
        obtain ⟨piece, n⟩ := taken
        have here : m.under g prev c t = some (c :: t.take n, n) :=
          under_eq_some.2 ⟨⟨piece, found⟩, rfl⟩
        rw [List.map_cons, pieces, pieces, here, found]
        show Sum.inr () :: _ = Sum.inr () :: _
        rw [ih]
        rfl

theorem replaceAll_under (r : List α) (t : List α) :
    (replaceAll (m.under g) (fun _ => r) t).map g =
      replaceAll m (fun _ => r.map g) (t.map g) := by
  have same := pieces_under (m := m) (g := g) none 0 t
  have read : ∀ ps : List (α ⊕ List α), (ps.flatMap (replacement (fun _ => r) fun c => [c])).map g =
      (ps.map (Sum.map g fun _ => ())).flatMap (replacement (fun _ => r.map g) fun c => [c]) := by
    intro ps
    induction ps with
    | nil => rfl
    | cons p ps ih =>
      rw [List.flatMap_cons, List.map_append, ih]
      cases p <;> rfl
  have read' : ∀ ps : List (γ ⊕ β), ps.flatMap (replacement (fun _ => r.map g) fun c => [c]) =
      (ps.map (Sum.map id fun _ => ())).flatMap (replacement (fun _ => r.map g) fun c => [c]) := by
    intro ps
    induction ps with
    | nil => rfl
    | cons p ps ih =>
      rw [List.flatMap_cons, ih]
      cases p <;> rfl
  rw [replaceAll, read, same, replaceAll, read']
  rfl

end Under

section Places

variable {α : Type} {ps : List (α ⊕ List α)} {x w y : List α} {c : α}

theorem sourceOf_append (p q : List (α ⊕ List α)) : sourceOf (p ++ q) = sourceOf p ++ sourceOf q :=
  List.flatMap_append

theorem sourceOf_inl (p : List (α ⊕ List α)) : sourceOf (.inl c :: p) = c :: sourceOf p := rfl

theorem sourceOf_inr (b : List α) (p : List (α ⊕ List α)) :
    sourceOf (.inr b :: p) = b ++ sourceOf p := rfl

/-- Where in the pieces a symbol of the text is: passed, or in one that is taken. -/
inductive At (x : List α) (c : α) (y : List α) : List (α ⊕ List α) → Prop where
  | passed {p q : List (α ⊕ List α)} (before : x = sourceOf p) (after : y = sourceOf q) :
      At x c y (p ++ .inl c :: q)
  | taken {p q : List (α ⊕ List α)} {u v : List α} (before : x = sourceOf p ++ u)
      (after : y = v ++ sourceOf q) : At x c y (p ++ .inr (u ++ c :: v) :: q)

theorem At.behind (h : At x c y ps) (p : α ⊕ List α) : At (sourceOf [p] ++ x) c y (p :: ps) := by
  cases h with
  | @passed p₁ p₂ before after =>
    refine .passed (p := p :: p₁) ?_ after
    rw [before, ← sourceOf_append]
    rfl
  | @taken p₁ p₂ u v before after =>
    refine .taken (p := p :: p₁) ?_ after
    rw [before, ← List.append_assoc, ← sourceOf_append]
    rfl

theorem pieces_at (whole : sourceOf ps = x ++ c :: y) : At x c y ps := by
  induction ps generalizing x with
  | nil => simp [sourceOf] at whole
  | cons p ps ih =>
    cases p with
    | inl d =>
      rw [sourceOf_inl] at whole
      cases x with
      | nil =>
        obtain ⟨rfl, after⟩ := List.cons.inj whole
        exact .passed (p := []) rfl after.symm
      | cons e x =>
        obtain ⟨rfl, after⟩ := List.cons.inj whole
        exact (ih after).behind (.inl d)
    | inr b =>
      rw [sourceOf_inr] at whole
      have one : sourceOf [.inr b] = b := List.append_nil b
      rcases List.append_eq_append_iff.1 whole with ⟨x', rfl, after⟩ | ⟨z, rfl, after⟩
      · have here := (ih after).behind (.inr b)
        rw [one] at here
        exact here
      · cases z with
        | nil =>
          have here := (ih (x := []) after.symm).behind (.inr (x ++ []))
          rw [List.append_nil] at here ⊢
          rw [sourceOf_inr, sourceOf, List.flatMap_nil, List.append_nil, List.append_nil] at here
          exact here
        | cons d z =>
          obtain ⟨rfl, rest⟩ := List.cons.inj after
          exact .taken (p := []) rfl rest

/-- A stretch that no piece reaches into is passed symbol by symbol. -/
theorem pieces_clear (filled : ∀ b, .inr b ∈ ps → b ≠ []) (whole : sourceOf ps = x ++ (w ++ y))
    (apart : ∀ p₁ b p₂, ps = p₁ ++ .inr b :: p₂ →
      (sourceOf p₁).length + b.length ≤ x.length ∨ x.length + w.length ≤ (sourceOf p₁).length) :
    ∃ p₁ p₂, ps = p₁ ++ (w.map .inl ++ p₂) ∧ sourceOf p₁ = x ∧ sourceOf p₂ = y := by
  induction ps generalizing x w with
  | nil =>
    obtain ⟨rfl, rest⟩ := List.append_eq_nil_iff.1 whole.symm
    obtain ⟨rfl, rfl⟩ := List.append_eq_nil_iff.1 rest
    exact ⟨[], [], rfl, rfl, rfl⟩
  | cons p ps ih =>
    have filled' : ∀ b, .inr b ∈ ps → b ≠ [] := fun b mem => filled b (List.mem_cons_of_mem p mem)
    cases p with
    | inl d =>
      rw [sourceOf_inl] at whole
      cases x with
      | cons e x =>
        obtain ⟨rfl, after⟩ := List.cons.inj whole
        obtain ⟨p₁, p₂, rfl, rfl, rest⟩ := ih filled' after fun p₁ b p₂ split => by
          have here := apart (.inl d :: p₁) b p₂ (by rw [split]; rfl)
          simp only [sourceOf_inl, List.length_cons] at here
          omega
        exact ⟨.inl d :: p₁, p₂, rfl, rfl, rest⟩
      | nil =>
        cases w with
        | nil => exact ⟨[], .inl d :: ps, rfl, rfl, whole⟩
        | cons e w =>
          obtain ⟨rfl, after⟩ := List.cons.inj whole
          obtain ⟨p₁, p₂, rfl, none_, rest⟩ := ih (x := []) (w := w) filled' after
            fun p₁ b p₂ split => by
              have here := apart (.inl d :: p₁) b p₂ (by rw [split]; rfl)
              simp only [sourceOf_inl, List.length_cons, List.length_nil] at here ⊢
              omega
          cases p₁ with
          | nil => exact ⟨[], p₂, rfl, rfl, rest⟩
          | cons p p₁ =>
            cases p with
            | inl e => cases none_
            | inr b =>
              rw [sourceOf_inr, List.append_eq_nil_iff] at none_
              exact absurd none_.1 (filled' b (by simp))
    | inr b =>
      rw [sourceOf_inr] at whole
      rcases apart [] b ps rfl with inside | outside
      · rw [sourceOf, List.flatMap_nil, List.length_nil, Nat.zero_add] at inside
        have front : x = b ++ x.drop b.length := by
          have prefixes := congrArg (List.take b.length) whole
          rw [List.take_left, List.take_append_of_le_length inside] at prefixes
          conv_lhs => rw [← List.take_append_drop b.length x, ← prefixes]
        generalize x.drop b.length = x' at front
        subst front
        rw [List.append_assoc] at whole
        obtain ⟨p₁, p₂, rfl, rfl, rest⟩ := ih filled' (List.append_cancel_left whole)
          fun p₁ b' p₂ split => by
            have here := apart (.inr b :: p₁) b' p₂ (by rw [split]; rfl)
            simp only [sourceOf_inr, List.length_append] at here
            omega
        exact ⟨.inr b :: p₁, p₂, rfl, rfl, rest⟩
      · rw [sourceOf, List.flatMap_nil, List.length_nil] at outside
        obtain rfl := List.length_eq_zero_iff.1 (show x.length = 0 by omega)
        obtain rfl := List.length_eq_zero_iff.1 (show w.length = 0 by omega)
        exact ⟨[], .inr b :: ps, rfl, rfl, whole⟩

end Places

end Paayatam.Lib
