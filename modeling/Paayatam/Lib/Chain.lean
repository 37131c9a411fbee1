/-
  Paayatam.Lib.Chain

  Running balances.

  An entry of a journal states the figure it found and the figure it left.  A
  list of entries is a chain from `a` to `b` when the first found `a`, each
  next one found what the one before it left, and the last left `b`.  Chains
  compose, and a chain of balanced entries moves the figure by the sum of
  their amounts.
-/

import Mathlib.Algebra.BigOperators.Group.List.Basic

namespace Paayatam.Lib

variable {ρ M : Type}

/-- The entries lead from one figure to the other without a gap. -/
inductive Chain (before after : ρ → M) : M → List ρ → M → Prop
  | nil {a : M} : Chain before after a [] a
  | cons {r : ρ} {rs : List ρ} {b : M} (h : Chain before after (after r) rs b) :
      Chain before after (before r) (r :: rs) b

namespace Chain

variable {before after amount : ρ → M} {a b c : M} {rs rs' : List ρ} {r : ρ}

theorem append (h : Chain before after a rs b) (h' : Chain before after b rs' c) :
    Chain before after a (rs ++ rs') c := by
  induction h with
  | nil => exact h'
  | cons _ ih => exact .cons (ih h')

/-- An entry that found what the chain left continues it. -/
theorem concat (h : Chain before after a rs b) (hr : before r = b) :
    Chain before after a (rs ++ [r]) (after r) := by
  subst hr
  exact h.append (.cons .nil)

/-- Balanced entries move the figure by the sum of their amounts. -/
theorem sum [AddMonoid M] (h : Chain before after a rs b)
    (hbal : ∀ r ∈ rs, after r = before r + amount r) : b = a + (rs.map amount).sum := by
  induction h with
  | nil => simp
  | @cons r rs b _ ih =>
      have htail := ih fun q hq => hbal q (List.mem_cons_of_mem r hq)
      rw [htail, hbal r (List.mem_cons_self ..), List.map_cons, List.sum_cons, add_assoc]

end Chain

end Paayatam.Lib
