/-
  Paayatam.Lib.Scan

  A scan for the matches of a pattern, from left to right.

  A pattern answers at a position, given the symbol before it, with what it
  captures and how far it reaches.  The scan takes the first match, goes on
  behind it, and leaves what no match covers as it is: what a regular expression
  with the global flag does.
-/

import Mathlib.Data.List.Basic

namespace Paayatam.Lib

/-- The answer at a symbol, after the one before it and in front of the rest: a capture, and
    how many symbols of the rest the match takes. -/
abbrev Pattern (α β : Type) := Option α → α → List α → Option (β × Nat)

section Scan

variable {α β γ : Type} {m : Pattern α β} {prev : Option α} {c : α} {k : Nat}
  {xs rest s : List α} {b : β}

/-- The symbols no match covers, and the matches, in order.  The number counts the symbols a
    match has still to cover. -/
def pieces (m : Pattern α β) : Option α → Nat → List α → List (α ⊕ β)
  | _, _, [] => []
  | _, k + 1, c :: rest => pieces m (some c) k rest
  | prev, 0, c :: rest =>
    match m prev c rest with
    | some (b, n) => .inr b :: pieces m (some c) n rest
    | none => .inl c :: pieces m (some c) 0 rest

/-- The matches. -/
def matchAll (m : Pattern α β) (s : List α) : List β :=
  (pieces m none 0 s).filterMap Sum.getRight?

/-- What a replacement puts for a piece. -/
def replacement (f : β → List γ) (g : α → List γ) : α ⊕ β → List γ
  | .inl c => g c
  | .inr b => f b

/-- The text with each match replaced. -/
def replaceAll (m : Pattern α β) (f : β → List α) (s : List α) : List α :=
  (pieces m none 0 s).flatMap (replacement f fun c => [c])

/-- The last symbol read. -/
def lastRead (prev : Option α) (xs : List α) : Option α := (xs.getLast?).or prev

@[simp] theorem lastRead_nil : lastRead prev [] = prev := rfl

@[simp] theorem lastRead_cons : lastRead prev (c :: xs) = lastRead (some c) xs := by
  cases xs with
  | nil => rfl
  | cons x xs =>
      unfold lastRead
      rw [List.getLast?_cons_cons]
      cases h : (x :: xs).getLast? with
      | none => simp at h
      | some y => rfl

theorem lastRead_append {ys : List α} :
    lastRead prev (xs ++ ys) = lastRead (lastRead prev xs) ys := by
  induction xs generalizing prev with
  | nil => rfl
  | cons x xs ih =>
      rw [List.cons_append, lastRead_cons, lastRead_cons]
      exact ih

/-- The last symbol of a stretch that is read is one of it. -/
theorem lastRead_mem (h : xs ≠ []) (prev : Option α) : ∃ c ∈ xs, lastRead prev xs = some c := by
  refine ⟨xs.getLast h, List.getLast_mem h, ?_⟩
  rw [lastRead, List.getLast?_eq_some_getLast h]
  rfl

@[simp] theorem pieces_nil : pieces m prev k [] = [] := by
  cases k <;> rfl

theorem pieces_cons : pieces m prev 0 (c :: rest) =
    match m prev c rest with
    | some (b, n) => .inr b :: pieces m (some c) n rest
    | none => .inl c :: pieces m (some c) 0 rest := rfl

/-- A match is passed over. -/
theorem pieces_covered :
    pieces m prev xs.length (xs ++ rest) = pieces m (lastRead prev xs) 0 rest := by
  induction xs generalizing prev with
  | nil => rfl
  | cons x xs ih =>
      rw [lastRead_cons]
      exact ih

/-- A piece is a symbol of the text, or a match at one. -/
theorem mem_pieces {piece : α ⊕ β} (h : piece ∈ pieces m prev k s) :
    (∃ c ∈ s, piece = .inl c) ∨
      ∃ c ∈ s, ∃ prev rest b n, m prev c rest = some (b, n) ∧ piece = .inr b := by
  induction s generalizing prev k with
  | nil =>
      rw [pieces_nil] at h
      cases h
  | cons c s ih =>
      have hstep : ∀ {prev : Option α} {k : Nat}, piece ∈ pieces m prev k s →
          (∃ x ∈ c :: s, piece = .inl x) ∨
            ∃ x ∈ c :: s, ∃ prev rest b n, m prev x rest = some (b, n) ∧ piece = .inr b := by
        intro prev k hin
        rcases ih hin with ⟨x, hx, hpiece⟩ | ⟨x, hx, hpiece⟩
        · exact .inl ⟨x, List.mem_cons_of_mem c hx, hpiece⟩
        · exact .inr ⟨x, List.mem_cons_of_mem c hx, hpiece⟩
      cases k with
      | succ k => exact hstep h
      | zero =>
          rw [pieces_cons] at h
          split at h
          · next b n hmatch =>
              rcases List.mem_cons.1 h with rfl | hin
              · exact .inr ⟨c, List.mem_cons_self, prev, s, b, n, hmatch, rfl⟩
              · exact hstep hin
          · rcases List.mem_cons.1 h with rfl | hin
            · exact .inl ⟨c, List.mem_cons_self, rfl⟩
            · exact hstep hin

theorem pieces_unmatched (h : m prev c rest = none) :
    pieces m prev 0 (c :: rest) = .inl c :: pieces m (some c) 0 rest := by
  rw [pieces_cons, h]

theorem pieces_matched (h : m prev c (xs ++ rest) = some (b, xs.length)) :
    pieces m prev 0 (c :: xs ++ rest) = .inr b :: pieces m (lastRead (some c) xs) 0 rest := by
  have hcovered : pieces m (some c) xs.length (xs ++ rest) = _ := pieces_covered
  rw [List.cons_append, pieces_cons, h, ← hcovered]

/-- No match starts where the pattern sees none. -/
theorem pieces_plain (h : ∀ prev c rest, c ∈ xs → m prev c rest = none) :
    pieces m prev 0 (xs ++ rest) = xs.map .inl ++ pieces m (lastRead prev xs) 0 rest := by
  induction xs generalizing prev with
  | nil => rfl
  | cons x xs ih =>
      rw [List.cons_append, pieces_unmatched (h prev x _ (by simp)), lastRead_cons,
        ih fun p c r hc => h p c r (by simp [hc])]
      rfl

/-- Every match lies within the text. -/
def Pattern.Within (m : Pattern α β) : Prop :=
  ∀ prev c rest b n, m prev c rest = some (b, n) → n ≤ rest.length

/-- Induction along a scan: over what is left behind each symbol and each match. -/
theorem scan_induction {P : Option α → List α → Prop} (hm : m.Within) (hnil : ∀ prev, P prev [])
    (hplain : ∀ prev c rest, m prev c rest = none → P (some c) rest → P prev (c :: rest))
    (hmatch : ∀ prev c xs rest b, m prev c (xs ++ rest) = some (b, xs.length) →
      P (lastRead (some c) xs) rest → P prev (c :: xs ++ rest)) :
    ∀ prev s, P prev s := by
  have hbound : ∀ n prev s, s.length ≤ n → P prev s := by
    intro n
    induction n with
    | zero =>
        intro prev s hs
        obtain rfl := List.length_eq_zero_iff.1 (Nat.le_zero.1 hs)
        exact hnil prev
    | succ n ih =>
        intro prev s hs
        cases s with
        | nil => exact hnil prev
        | cons c rest =>
            rw [List.length_cons] at hs
            cases h : m prev c rest with
            | none => exact hplain prev c rest h (ih _ rest (by omega))
            | some x =>
                obtain ⟨b, k⟩ := x
                have hk : k ≤ rest.length := hm prev c rest b k h
                have hlen : (rest.take k).length = k := by simp [hk]
                have hsplit : rest.take k ++ rest.drop k = rest := List.take_append_drop k rest
                have hnext : P (lastRead (some c) (rest.take k)) (rest.drop k) := by
                  refine ih _ _ ?_
                  rw [List.length_drop]
                  omega
                have hstep := hmatch prev c (rest.take k) (rest.drop k) b
                  (by rw [hsplit, hlen]; exact h) hnext
                rwa [List.cons_append, hsplit] at hstep
  exact fun prev s => hbound s.length prev s (Nat.le_refl _)

/-- A symbol that no match starts at or reaches cuts a scan in two. -/
theorem pieces_apart (hm : m.Within) {sep : α} {y : List α} (hat : ∀ prev, m prev sep y = none)
    (hbefore : ∀ prev c xs, c ≠ sep → m prev c (xs ++ sep :: y) = m prev c xs)
    (prev : Option α) (x : List α) (hx : sep ∉ x) :
    pieces m prev 0 (x ++ sep :: y) =
      pieces m prev 0 x ++ .inl sep :: pieces m (some sep) 0 y := by
  revert hx
  refine scan_induction (P := fun prev x => sep ∉ x → pieces m prev 0 (x ++ sep :: y) =
    pieces m prev 0 x ++ .inl sep :: pieces m (some sep) 0 y) hm ?_ ?_ ?_ prev x
  · intro prev _
    rw [List.nil_append, pieces_unmatched (hat prev), pieces_nil]
    rfl
  · intro prev c rest h ih hx
    rw [List.mem_cons, not_or] at hx
    have hc : c ≠ sep := fun heq => hx.1 heq.symm
    rw [List.cons_append, pieces_unmatched ((hbefore prev c rest hc).trans h),
      pieces_unmatched h, ih hx.2]
    rfl
  · intro prev c xs rest b h ih hx
    rw [List.cons_append, List.mem_cons, not_or, List.mem_append, not_or] at hx
    have hc : c ≠ sep := fun heq => hx.1 heq.symm
    have hmatch : m prev c (xs ++ (rest ++ sep :: y)) = some (b, xs.length) := by
      rw [← List.append_assoc, hbefore prev c (xs ++ rest) hc]
      exact h
    rw [List.append_assoc, pieces_matched hmatch, pieces_matched h, ih hx.2.2]
    rfl

/-- The pieces make up the text again. -/
theorem pieces_source (hm : m.Within) {source : β → List α}
    (hsource : ∀ prev c xs rest b, m prev c (xs ++ rest) = some (b, xs.length) →
      source b = c :: xs) (prev : Option α) (s : List α) :
    (pieces m prev 0 s).flatMap (replacement source fun c => [c]) = s := by
  refine scan_induction (P := fun prev s =>
    (pieces m prev 0 s).flatMap (replacement source fun c => [c]) = s) hm ?_ ?_ ?_ prev s
  · intro prev
    simp
  · intro prev c rest h ih
    rw [pieces_unmatched h, List.flatMap_cons, ih]
    rfl
  · intro prev c xs rest b h ih
    rw [pieces_matched h, List.flatMap_cons, ih]
    show source b ++ rest = _
    rw [hsource prev c xs rest b h]

/-- A last symbol that no match starts at, reaches or looks at stands behind the pieces. -/
theorem pieces_behind (hm : m.Within) {x : α} (hat : ∀ prev, m prev x [] = none)
    (hsame : ∀ prev c rest, m prev c (rest ++ [x]) = m prev c rest) (prev : Option α)
    (s : List α) : pieces m prev 0 (s ++ [x]) = pieces m prev 0 s ++ [.inl x] := by
  refine scan_induction (P := fun prev s =>
    pieces m prev 0 (s ++ [x]) = pieces m prev 0 s ++ [.inl x]) hm ?_ ?_ ?_ prev s
  · intro prev
    rw [List.nil_append, pieces_unmatched (hat prev), pieces_nil, pieces_nil]
    rfl
  · intro prev c rest h ih
    rw [List.cons_append, pieces_unmatched ((hsame prev c rest).trans h), pieces_unmatched h, ih]
    rfl
  · intro prev c xs rest b h ih
    have hmatch : m prev c (xs ++ (rest ++ [x])) = some (b, xs.length) := by
      rw [← List.append_assoc, hsame]
      exact h
    rw [List.append_assoc, pieces_matched hmatch, pieces_matched h, ih]
    rfl

end Scan

end Paayatam.Lib
