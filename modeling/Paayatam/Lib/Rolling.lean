/-
  Paayatam.Lib.Rolling

  Amounts earned over time, under a cap on what any window of them adds up to.

  The window of a moment reaches back to `since` of it.  Earnings are `Capped`
  when no moment has more than the cap in its window.  Whoever is about to earn
  need not look at every window: the moments not after his own have windows
  without him, and the window of a later one starts no earlier than his.
-/

import Mathlib.Algebra.Order.BigOperators.Group.List
import Mathlib.Order.Monotone.Basic

namespace Paayatam.Lib.Rolling

variable {τ M : Type} [LinearOrder τ] [AddCommMonoid M] [LinearOrder M]

/-- What was earned at `a` or later. -/
def earned (es : List (τ × M)) (a : τ) : M :=
  ((es.filter fun e => decide (a ≤ e.1)).map (·.2)).sum

/-- What was earned from `a` to `b`. -/
def earnedIn (es : List (τ × M)) (a b : τ) : M :=
  ((es.filter fun e => decide (a ≤ e.1) && decide (e.1 ≤ b)).map (·.2)).sum

/-- No moment has more than the cap in its window. -/
def Capped (since : τ → τ) (cap : M) (es : List (τ × M)) : Prop :=
  ∀ t, earnedIn es (since t) t ≤ cap

variable {es : List (τ × M)} {since : τ → τ} {cap x : M} {a b c : τ}

omit [LinearOrder M] in
/-- The earnings of the rows that count, added up row by row. -/
theorem earned_map_filter {ρ : Type} {rows : List ρ} {p : ρ → Bool} {time : ρ → τ} {worth : ρ → M} :
    earned ((rows.filter p).map fun r => (time r, worth r)) a =
      ((rows.filter fun r => p r && decide (a ≤ time r)).map worth).sum := by
  simp only [earned, List.filter_map, List.filter_filter, List.map_map, Function.comp_def,
    Bool.and_comm]

omit [LinearOrder M] in
theorem earnedIn_append :
    earnedIn (es ++ [(c, x)]) a b = earnedIn es a b + if a ≤ c ∧ c ≤ b then x else 0 := by
  by_cases h : a ≤ c ∧ c ≤ b
  · simp [earnedIn, List.filter_append, h]
  · have hout : (decide (a ≤ c) && decide (c ≤ b)) = false := by simpa using h
    simp [earnedIn, List.filter_append, hout, h]

theorem Capped.nil (hcap : 0 ≤ cap) : Capped since cap ([] : List (τ × M)) := fun _ => by
  simpa [earnedIn] using hcap

variable [IsOrderedAddMonoid M]

omit [LinearOrder τ] in
theorem sum_filter_le {p q : τ × M → Bool} (hpos : ∀ e ∈ es, 0 ≤ e.2)
    (h : ∀ e, p e = true → q e = true) :
    ((es.filter p).map (·.2)).sum ≤ ((es.filter q).map (·.2)).sum := by
  have hsub : (es.filter p).Sublist (es.filter q) := List.monotone_filter_right es h
  refine (hsub.map (·.2)).sum_le_sum fun m hm => ?_
  obtain ⟨e, he, rfl⟩ := List.mem_map.1 hm
  exact hpos e (List.mem_of_mem_filter he)

/-- A window that starts later holds no more. -/
theorem earned_anti (hpos : ∀ e ∈ es, 0 ≤ e.2) (h : a ≤ b) : earned es b ≤ earned es a := by
  refine sum_filter_le hpos fun e he => ?_
  rw [decide_eq_true_eq] at he ⊢
  exact h.trans he

theorem earnedIn_le_earned (hpos : ∀ e ∈ es, 0 ≤ e.2) : earnedIn es a b ≤ earned es a := by
  refine sum_filter_le hpos fun e he => ?_
  rw [Bool.and_eq_true] at he
  exact he.1

/-- Earning what is left of the window that ends now keeps every window under the cap. -/
theorem Capped.append (hsince : Monotone since) (h : Capped since cap es)
    (hpos : ∀ e ∈ es, 0 ≤ e.2) (hroom : earned es (since a) + x ≤ cap) :
    Capped since cap (es ++ [(a, x)]) := by
  intro t
  rw [earnedIn_append]
  by_cases hin : since t ≤ a ∧ a ≤ t
  · rw [if_pos hin]
    have hlater : earned es (since t) ≤ earned es (since a) := earned_anti hpos (hsince hin.2)
    calc earnedIn es (since t) t + x ≤ earned es (since a) + x :=
          add_le_add_left ((earnedIn_le_earned hpos).trans hlater) x
      _ ≤ cap := hroom
  · rw [if_neg hin, add_zero]
    exact h t

end Paayatam.Lib.Rolling
