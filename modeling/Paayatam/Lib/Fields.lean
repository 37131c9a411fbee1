/-
  Paayatam.Lib.Fields

  Fields joined by a separator.

  Cutting a list at a separator and joining the pieces again are inverse to each
  other on pieces that are free of it.  A format of a fixed number of fields is
  then read and written by one equation, stated here for two and three fields.
-/

import Mathlib.Data.List.Basic

namespace Paayatam.Lib

variable {α : Type} [BEq α] [LawfulBEq α] {sep : α} {xs a b c : List α}

/-- No piece contains the separator. -/
theorem not_mem_of_mem_splitOn {f : List α} (h : f ∈ xs.splitOn sep) : sep ∉ f := by
  induction xs generalizing f with
  | nil =>
      rw [List.splitOn_nil, List.mem_singleton] at h
      rw [h]
      exact List.not_mem_nil
  | cons x xs ih =>
      rw [List.splitOn_cons_eq_if_modifyHead] at h
      split at h
      · rcases List.mem_cons.1 h with rfl | h
        · exact List.not_mem_nil
        · exact ih h
      · next hx =>
          cases hs : xs.splitOn sep with
          | nil => exact absurd hs (List.splitOn_ne_nil sep xs)
          | cons g gs =>
              rw [hs, List.modifyHead_cons] at h
              rcases List.mem_cons.1 h with rfl | h
              · intro hmem
                rcases List.mem_cons.1 hmem with heq | hmem
                · exact hx (by simp [heq])
                · exact ih (hs ▸ List.mem_cons_self) hmem
              · exact ih (hs ▸ List.mem_cons_of_mem g h)

/-- Cutting gives these pieces exactly where joining them gives the list. -/
theorem splitOn_eq_iff {fs : List (List α)} :
    xs.splitOn sep = fs ↔ [sep].intercalate fs = xs ∧ (∀ f ∈ fs, sep ∉ f) ∧ fs ≠ [] := by
  constructor
  · rintro rfl
    exact ⟨List.intercalate_splitOn sep, fun f hf => not_mem_of_mem_splitOn hf,
      List.splitOn_ne_nil sep xs⟩
  · rintro ⟨rfl, hfree, hne⟩
    exact List.splitOn_intercalate sep hfree hne

theorem splitOn_eq_two :
    xs.splitOn sep = [a, b] ↔ a ++ sep :: b = xs ∧ sep ∉ a ∧ sep ∉ b := by
  rw [splitOn_eq_iff]
  simp [List.intercalate_cons_cons]

theorem splitOn_eq_three :
    xs.splitOn sep = [a, b, c] ↔
      a ++ sep :: (b ++ sep :: c) = xs ∧ sep ∉ a ∧ sep ∉ b ∧ sep ∉ c := by
  rw [splitOn_eq_iff]
  simp [List.intercalate_cons_cons]

omit [BEq α] [LawfulBEq α] in
/-- What stands in front of the first separator, and what behind. -/
theorem append_cons_inj {x x' y y' : List α} (hx : sep ∉ x) (hx' : sep ∉ x')
    (h : x ++ sep :: y = x' ++ sep :: y') : x = x' ∧ y = y' := by
  rcases List.append_eq_append_iff.1 h with ⟨more, rfl, hmore⟩ | ⟨more, rfl, hmore⟩
  · cases more with
    | nil => exact ⟨(List.append_nil x).symm, (List.cons.inj hmore).2⟩
    | cons c more =>
        obtain ⟨rfl, -⟩ := List.cons.inj hmore
        exact absurd (List.mem_append_right x List.mem_cons_self) hx'
  · cases more with
    | nil => exact ⟨List.append_nil x', (List.cons.inj hmore).2.symm⟩
    | cons c more =>
        obtain ⟨rfl, -⟩ := List.cons.inj hmore
        exact absurd (List.mem_append_right x' List.mem_cons_self) hx

end Paayatam.Lib
