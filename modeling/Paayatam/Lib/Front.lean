/-
  Paayatam.Lib.Front

  A queue served from the front.

  Who stands in a queue is a set of rows, and the order is read off a key of
  each row.  Serving the row with the least key again and again serves a prefix
  of the rows in order, and whoever is served had fewer rows before him than
  were served.
-/

import Mathlib.Data.List.Sort
import Mathlib.Order.Basic

namespace Paayatam.Lib

variable {α κ : Type} [LinearOrder κ] {key : α → κ} {l rest : List α} {a b : α} {n : Nat}

/-- The rows, least key first. -/
def inOrder (key : α → κ) (l : List α) : List α := l.insertionSort fun a b => key a ≤ key b

theorem inOrder_perm (key : α → κ) (l : List α) : (inOrder key l).Perm l :=
  List.perm_insertionSort _ l

@[simp] theorem mem_inOrder : a ∈ inOrder key l ↔ a ∈ l := (inOrder_perm key l).mem_iff

@[simp] theorem length_inOrder : (inOrder key l).length = l.length := (inOrder_perm key l).length_eq

theorem inOrder_pairwise (key : α → κ) (l : List α) :
    (inOrder key l).Pairwise fun a b => key a ≤ key b := by
  have htotal : Std.Total fun a b : α => key a ≤ key b := ⟨fun a b => le_total (key a) (key b)⟩
  have htrans : IsTrans α fun a b : α => key a ≤ key b := ⟨fun _ _ _ hab hbc => hab.trans hbc⟩
  exact List.pairwise_insertionSort _ l

/-- No two rows of the list share a key. -/
def KeysDiffer (key : α → κ) (l : List α) : Prop := ∀ a ∈ l, ∀ b ∈ l, key a = key b → a = b

/-- The row with the least key stands first, and the others follow in their order. -/
theorem inOrder_eq_cons (hkeys : KeysDiffer key l) (hperm : l.Perm (a :: rest))
    (hleast : ∀ b ∈ rest, key a ≤ key b) : inOrder key l = a :: inOrder key rest := by
  have hsame : (inOrder key l).Perm (a :: inOrder key rest) :=
    ((inOrder_perm key l).trans hperm).trans ((inOrder_perm key rest).symm.cons a)
  refine hsame.eq_of_pairwise (fun b c hb hc hbc hcb => ?_) (inOrder_pairwise key l) ?_
  · have hc' : c ∈ l := mem_inOrder.1 (hsame.mem_iff.2 hc)
    exact hkeys b (mem_inOrder.1 hb) c hc' (le_antisymm hbc hcb)
  · refine List.pairwise_cons.2 ⟨fun b hb => ?_, inOrder_pairwise key rest⟩
    exact hleast b (mem_inOrder.1 hb)

/-- Everybody served stands before everybody who is not. -/
theorem le_of_served (ha : a ∈ (inOrder key l).take n) (hb : b ∈ l)
    (hnot : b ∉ (inOrder key l).take n) : key a ≤ key b := by
  have hsplit := inOrder_pairwise key l
  rw [← List.take_append_drop n (inOrder key l), List.pairwise_append] at hsplit
  have hin : b ∈ (inOrder key l).take n ++ (inOrder key l).drop n := by
    rw [List.take_append_drop]
    exact mem_inOrder.2 hb
  rcases List.mem_append.1 hin with hb | hb
  · exact absurd hb hnot
  · exact hsplit.2.2 a ha b hb

/-- Whoever is served has fewer before him than are served. -/
theorem countP_before_served (ha : a ∈ (inOrder key l).take n) :
    l.countP (fun b => decide (key b < key a)) < ((inOrder key l).take n).length := by
  have hsplit : l.countP (fun b => decide (key b < key a)) =
      ((inOrder key l).take n).countP (fun b => decide (key b < key a)) +
        ((inOrder key l).drop n).countP (fun b => decide (key b < key a)) := by
    rw [← List.countP_append, List.take_append_drop]
    exact ((inOrder_perm key l).countP_eq _).symm
  have hlater : ((inOrder key l).drop n).countP (fun b => decide (key b < key a)) = 0 := by
    have hpair := inOrder_pairwise key l
    rw [← List.take_append_drop n (inOrder key l), List.pairwise_append] at hpair
    refine List.countP_eq_zero.2 fun b hb => ?_
    have hle := hpair.2.2 a ha b hb
    simpa using hle
  have hbefore : ((inOrder key l).take n).countP (fun b => decide (key b < key a)) <
      ((inOrder key l).take n).length := by
    refine lt_of_le_of_ne List.countP_le_length fun hall => ?_
    have hself := List.countP_eq_length.1 hall a ha
    simp at hself
  omega

end Paayatam.Lib
