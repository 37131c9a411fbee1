/-
  Paayatam.Lib.Nesting

  Words of named brackets, and when they are well nested.

  `Nested` is the grammar.  `closes` reads a word with a stack, as a validator
  does; `nested_iff` says the two agree, and `closes_under` that a factor which
  names none of the open brackets is read as if they were not there.
-/

import Mathlib.Data.List.Basic

namespace Paayatam.Lib

/-- An opening or a closing bracket, by name. -/
inductive Bracket (α : Type) where
  | opens (a : α)
  | shuts (a : α)
  deriving DecidableEq

/-- Every bracket is closed, by its own name, and pairs do not cross. -/
inductive Nested {α : Type} : List (Bracket α) → Prop where
  | nil : Nested []
  | pair (a : α) {inner rest : List (Bracket α)} (hinner : Nested inner) (hrest : Nested rest) :
      Nested (.opens a :: inner ++ .shuts a :: rest)

section Stack

variable {α : Type} [DecidableEq α]

/-- Reads a word with the stack of open brackets, the innermost first. -/
def closes : List α → List (Bracket α) → Option (List α)
  | stack, [] => some stack
  | stack, .opens a :: w => closes (a :: stack) w
  | [], .shuts _ :: _ => none
  | b :: stack, .shuts a :: w => if b = a then closes stack w else none

variable {a : α} {stack stack' open' : List α} {w v u : List (Bracket α)}

@[simp] theorem closes_nil : closes stack [] = some stack := by
  cases stack <;> rfl

@[simp] theorem closes_opens : closes stack (.opens a :: w) = closes (a :: stack) w := by
  cases stack <;> rfl

theorem closes_shuts {b : α} :
    closes (b :: stack) (.shuts a :: w) = if b = a then closes stack w else none := rfl

@[simp] theorem closes_shuts_self : closes (a :: stack) (.shuts a :: w) = closes stack w :=
  if_pos rfl

theorem closes_append : closes stack (w ++ v) = (closes stack w).bind fun s => closes s v := by
  induction w generalizing stack with
  | nil => simp
  | cons x w ih =>
      cases x with
      | opens a =>
          rw [List.cons_append, closes_opens, closes_opens]
          exact ih
      | shuts a =>
          cases stack with
          | nil => rfl
          | cons b stack =>
              simp only [List.cons_append, closes_shuts]
              split
              · exact ih
              · rfl

/-- A well nested word leaves the stack as it found it. -/
theorem Nested.closes (h : Nested w) (stack : List α) : closes stack w = some stack := by
  induction h generalizing stack with
  | nil => simp
  | pair a _ _ ihinner ihrest =>
      rw [List.cons_append, closes_opens, closes_append, ihinner]
      simpa using ihrest stack

/-- The words that close a stack: nested words with its closing brackets between them. -/
inductive Unwinds : List α → List (Bracket α) → Prop where
  | done {w : List (Bracket α)} (h : Nested w) : Unwinds [] w
  | next (a : α) {stack : List α} {w rest : List (Bracket α)} (h : Nested w)
      (hrest : Unwinds stack rest) : Unwinds (a :: stack) (w ++ .shuts a :: rest)

omit [DecidableEq α] in
/-- A nested pair in front. -/
theorem Unwinds.pair (hw : Nested w) (h : Unwinds stack v) :
    Unwinds stack (.opens a :: w ++ .shuts a :: v) := by
  cases h with
  | done hv => exact .done (.pair a hw hv)
  | @next b stack' u rest hu hrest =>
      have hpair : Nested (.opens a :: w ++ .shuts a :: u) := .pair a hw hu
      have hsplit : (.opens a :: w ++ .shuts a :: (u ++ .shuts b :: rest) : List (Bracket α)) =
          (.opens a :: w ++ .shuts a :: u) ++ .shuts b :: rest := by simp
      rw [hsplit]
      exact .next b hpair hrest

theorem unwinds_of_closes (h : closes stack w = some []) : Unwinds stack w := by
  induction w generalizing stack with
  | nil =>
      rw [closes_nil] at h
      obtain rfl := Option.some.inj h
      exact .done .nil
  | cons x w ih =>
      cases x with
      | opens a =>
          rw [closes_opens] at h
          cases ih h with
          | next _ hw hrest => exact hrest.pair hw
      | shuts a =>
          cases stack with
          | nil => cases h
          | cons b stack =>
              rw [closes_shuts] at h
              split at h
              · next hb =>
                  subst hb
                  exact .next b .nil (ih h)
              · cases h

/-- A word is well nested exactly when the stack is empty at its end. -/
theorem nested_iff : Nested w ↔ closes [] w = some [] := by
  constructor
  · intro h
    exact h.closes []
  · intro h
    cases unwinds_of_closes h with
    | done hw => exact hw

/-- Brackets of another name below the stack are not reached. -/
theorem closes_under (hfree : .shuts a ∉ w) :
    closes (open' ++ a :: stack) w = (closes open' w).map (· ++ a :: stack) := by
  induction w generalizing open' with
  | nil => simp
  | cons x w ih =>
      have hrest : .shuts a ∉ w := fun h => hfree (List.mem_cons_of_mem x h)
      cases x with
      | opens b =>
          rw [closes_opens, closes_opens]
          show closes ((b :: open') ++ a :: stack) w = _
          exact ih hrest
      | shuts b =>
          cases open' with
          | nil =>
              have hne : a ≠ b := by
                rintro rfl
                exact hfree List.mem_cons_self
              rw [List.nil_append, closes_shuts, if_neg hne]
              rfl
          | cons c open' =>
              simp only [List.cons_append, closes_shuts]
              split
              · exact ih hrest
              · rfl

/-- What is left open was open before, or was opened by the word. -/
theorem open_of_closes {b : α} (h : closes stack w = some stack') (hb : b ∈ stack') :
    b ∈ stack ∨ .opens b ∈ w := by
  induction w generalizing stack with
  | nil =>
      rw [closes_nil] at h
      exact .inl (Option.some.inj h ▸ hb)
  | cons x w ih =>
      cases x with
      | opens a =>
          rw [closes_opens] at h
          rcases ih h with hin | hin
          · rcases List.mem_cons.1 hin with rfl | hold
            · exact .inr List.mem_cons_self
            · exact .inl hold
          · exact .inr (List.mem_cons_of_mem _ hin)
      | shuts a =>
          cases stack with
          | nil => cases h
          | cons c stack =>
              rw [closes_shuts] at h
              split at h
              · rcases ih h with hin | hin
                · exact .inl (List.mem_cons_of_mem c hin)
                · exact .inr (List.mem_cons_of_mem _ hin)
              · cases h

/-- A factor between brackets of a name it does not use is nested when the whole is read
    past it. -/
theorem nested_of_closes (hopens : .opens a ∉ w) (hshuts : .shuts a ∉ w)
    (h : closes stack (.opens a :: w ++ .shuts a :: v) = some stack') : Nested w := by
  rw [List.cons_append, closes_opens, closes_append] at h
  have hread : closes ([] ++ a :: stack) w = (closes [] w).map (· ++ a :: stack) :=
    closes_under hshuts
  rw [List.nil_append] at hread
  rw [hread] at h
  cases hw : closes [] w with
  | none =>
      rw [hw] at h
      cases h
  | some s =>
      rw [hw] at h
      cases s with
      | nil => exact nested_iff.2 hw
      | cons b s =>
          -- what the factor left open is on top when its bracket closes
          have hb : b = a := by
            by_contra hne
            simp [closes_shuts, hne] at h
          rcases open_of_closes hw (b := b) List.mem_cons_self with hin | hin
          · cases hin
          · exact absurd (hb ▸ hin) hopens

end Stack

end Paayatam.Lib
