/-
  Paayatam.Lib.Rows

  A stream laid out in rows of one width.

  Cells are pushed one at a time into the row that is open, and a full row is
  put away.  After `n` cells of a stream the rows that are put away and the open
  one are those of the stream (`foldl_pushRow`), so a cell stands in the column
  of its number.
-/

import Mathlib.Data.List.Basic

namespace Paayatam.Lib

section Rows

variable {β : Type _} {width : Nat} {f : Nat → β} {n m k : Nat}

/-- The rows put away, and the open one. -/
abbrev Laid (β : Type _) := List (List β) × List β

def pushRow (width : Nat) (s : Laid β) (b : β) : Laid β :=
  if (s.2 ++ [b]).length = width then (s.1 ++ [s.2 ++ [b]], []) else (s.1, s.2 ++ [b])

/-- So many cells of a stream from one on. -/
def cells (f : Nat → β) (n m : Nat) : List β := (List.range m).map fun i => f (n + i)

/-- The first rows of a stream. -/
def laidRows (width : Nat) (f : Nat → β) (k : Nat) : List (List β) :=
  (List.range k).map fun row => cells f (width * row) width

def laid (width : Nat) (f : Nat → β) (n : Nat) : Laid β :=
  (laidRows width f (n / width), cells f (width * (n / width)) (n % width))

@[simp] theorem length_cells : (cells f n m).length = m := by
  rw [cells, List.length_map, List.length_range]

theorem cells_succ : cells f n (m + 1) = cells f n m ++ [f (n + m)] := by
  unfold cells
  rw [List.range_succ, List.map_append, List.map_singleton]

theorem cells_cons : cells f n (m + 1) = f n :: cells f (n + 1) m := by
  unfold cells
  rw [List.range_succ_eq_map, List.map_cons, List.map_map, Nat.add_zero]
  refine congrArg _ (List.map_congr_left fun i _ => ?_)
  show f (n + (i + 1)) = _
  rw [Nat.add_assoc, Nat.add_comm 1]

theorem cells_append : cells f n (m + k) = cells f n m ++ cells f (n + m) k := by
  induction k with
  | zero => exact (List.append_nil _).symm
  | succ k ih => rw [← Nat.add_assoc, cells_succ, cells_succ, ih, List.append_assoc, Nat.add_assoc]

theorem laidRows_succ : laidRows width f (k + 1) = laidRows width f k ++ [cells f (width * k) width] := by
  unfold laidRows
  rw [List.range_succ, List.map_append, List.map_singleton]

/-- The first row, and the rows of the rest of the stream. -/
theorem laidRows_cons : laidRows width f (k + 1) =
    cells f 0 width :: laidRows width (fun i => f (width + i)) k := by
  unfold laidRows
  rw [List.range_succ_eq_map, List.map_cons, List.map_map, Nat.mul_zero]
  refine congrArg _ (List.map_congr_left fun row _ => ?_)
  unfold cells
  refine List.map_congr_left fun i _ => congrArg f ?_
  show width * (row + 1) + i = _
  rw [Nat.mul_succ, Nat.add_comm (width * row), Nat.add_assoc]

/-- One more cell of the stream. -/
theorem pushRow_laid (hpos : 0 < width) :
    pushRow width (laid width f n) (f n) = laid width f (n + 1) := by
  have hcell : width * (n / width) + n % width = n := Nat.div_add_mod n width
  have hlt : n % width < width := Nat.mod_lt n hpos
  have hopen : cells f (width * (n / width)) (n % width) ++ [f n] =
      cells f (width * (n / width)) (n % width + 1) := by
    rw [cells_succ, hcell]
  unfold pushRow laid
  dsimp only
  rw [hopen, length_cells]
  by_cases hfull : n % width + 1 = width
  · have hnext : n + 1 = width * (n / width + 1) := by
      rw [Nat.mul_succ]
      omega
    have hdiv : (n + 1) / width = n / width + 1 := by
      rw [hnext, Nat.mul_div_cancel_left _ hpos]
    have hmod : (n + 1) % width = 0 := by rw [hnext, Nat.mul_mod_right]
    rw [if_pos hfull, hdiv, hmod, laidRows_succ, hfull]
    rfl
  · have hnext : n + 1 = n % width + 1 + width * (n / width) := by omega
    have hlt' : n % width + 1 < width := by omega
    have hdiv : (n + 1) / width = n / width := by
      rw [hnext, Nat.add_mul_div_left _ _ hpos, Nat.div_eq_of_lt hlt', Nat.zero_add]
    have hmod : (n + 1) % width = n % width + 1 := by
      rw [hnext, Nat.add_mul_mod_self_left, Nat.mod_eq_of_lt hlt']
    rw [if_neg hfull, hdiv, hmod]

theorem foldl_pushRow (hpos : 0 < width) :
    (cells f n m).foldl (pushRow width) (laid width f n) = laid width f (n + m) := by
  induction m with
  | zero => rfl
  | succ m ih =>
      rw [cells_succ, List.foldl_append, ih, List.foldl_cons, List.foldl_nil, pushRow_laid hpos,
        Nat.add_assoc]

/-- Rows dropped from the front are those of the front of the stream. -/
theorem dropWhile_laidRows (p : List β → Bool) :
    ∃ dropped, dropped ≤ k ∧
      (laidRows width f k).dropWhile p =
        laidRows width (fun i => f (width * dropped + i)) (k - dropped) ∧
      ∀ row, row < dropped → p (cells f (width * row) width) = true := by
  induction k generalizing f with
  | zero => exact ⟨0, Nat.le_refl _, rfl, fun row hrow => absurd hrow (Nat.not_lt_zero row)⟩
  | succ k ih =>
      rw [laidRows_cons]
      by_cases hfirst : p (cells f 0 width) = true
      · obtain ⟨dropped, hle, hrest, hdropped⟩ := ih (f := fun i => f (width + i))
        refine ⟨dropped + 1, by omega, ?_, fun row hrow => ?_⟩
        · rw [List.dropWhile_cons_of_pos hfirst, hrest, Nat.succ_sub_succ]
          refine congrArg (fun g => laidRows width g (k - dropped)) (funext fun i => congrArg f ?_)
          rw [Nat.mul_succ, ← Nat.add_assoc, Nat.add_comm width]
        · cases row with
          | zero => exact hfirst
          | succ row =>
              have hrow' := hdropped row (by omega)
              have hcells : cells (fun i => f (width + i)) (width * row) width =
                  cells f (width * (row + 1)) width := by
                unfold cells
                refine List.map_congr_left fun i _ => congrArg f ?_
                rw [Nat.mul_succ, ← Nat.add_assoc, Nat.add_comm width]
              rwa [hcells] at hrow'
      · refine ⟨0, Nat.zero_le _, ?_, fun row hrow => absurd hrow (Nat.not_lt_zero row)⟩
        rw [List.dropWhile_cons_of_neg hfirst, Nat.sub_zero, Nat.mul_zero, laidRows_cons]
        simp only [Nat.zero_add]

end Rows

end Paayatam.Lib
