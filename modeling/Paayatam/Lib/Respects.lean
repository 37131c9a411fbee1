/-
  Paayatam.Lib.Respects

  Transactions that respect a preorder on stores.

  `Respects R m` says that wherever `m` commits, the store it leaves is
  related by `R` to the store it found.  For a reflexive and transitive `R`
  the rules below follow a `do` block statement by statement, so what a
  service can do to one table is read off its text; that a table is left alone
  is the case where `R` is an equation.
-/

import Mathlib.Order.Defs.Unbundled
import Paayatam.Lib.Table

namespace Paayatam.Lib

variable {σ ε α β : Type} {R : σ → σ → Prop}

/-- Wherever `m` commits, it moves the store along `R`. -/
def Respects (R : σ → σ → Prop) (m : Tx σ ε α) : Prop := ∀ ⦃s a s'⦄, Runs m s a s' → R s s'

namespace Respects

/-- An attempt that fails leaves the store alone. -/
theorem commit [Std.Refl R] {m : Tx σ ε α} (h : Respects R m) (s : σ) : R s (commit m s) := by
  rcases commit_cases m s with ⟨a, hrun⟩ | hsame
  · exact h hrun
  · rw [hsame]
    exact Std.Refl.refl s

theorem throw {e : ε} : Respects R (MonadExcept.throw e : Tx σ ε α) := by
  intro s a s' h
  exact absurd h (by simp)

section Statements

variable [Std.Refl R]

theorem pure {a : α} : Respects R (Pure.pure a : Tx σ ε α) := by
  intro s b s' h
  rw [(runs_pure.1 h).2]
  exact Std.Refl.refl s

theorem get : Respects R (MonadState.get : Tx σ ε σ) := by
  intro s a s' h
  rw [(runs_get.1 h).2]
  exact Std.Refl.refl s

theorem orThrow {e : ε} {o : Option α} : Respects R (orThrow e o) := by
  intro s a s' h
  rw [(runs_orThrow.1 h).2]
  exact Std.Refl.refl s

theorem guardTx {c : Prop} [Decidable c] {e : ε} : Respects R (guardTx c e) := by
  intro s a s' h
  rw [(runs_guardTx.1 h).2]
  exact Std.Refl.refl s

theorem fromExcept {x : Except ε α} : Respects R (fromExcept x) := by
  intro s a s' h
  rw [(runs_fromExcept.1 h).2]
  exact Std.Refl.refl s

theorem whenTx {c : Prop} [Decidable c] {m : Tx σ ε Unit} (h : c → Respects R m) :
    Respects R (whenTx c m) := by
  intro s a s' hrun
  rcases runs_whenTx.1 hrun with ⟨hc, hm⟩ | ⟨-, rfl⟩
  · exact h hc hm
  · exact Std.Refl.refl _

section Rows

variable {ρ κ : Type} [DecidableEq κ] [Row ρ κ] [HasTable σ ρ]

theorem findRow {k : κ} : Respects R (findRow k : Tx σ ε (Option ρ)) := by
  intro s a s' h
  rw [(runs_findRow.1 h).2]
  exact Std.Refl.refl s

theorem findRows {p : ρ → Bool} : Respects R (findRows p : Tx σ ε (List ρ)) := by
  intro s a s' h
  rw [(runs_findRows.1 h).2]
  exact Std.Refl.refl s

theorem countRows {p : ρ → Bool} : Respects R (countRows p : Tx σ ε Nat) := by
  intro s a s' h
  rw [(runs_countRows.1 h).2]
  exact Std.Refl.refl s

end Rows

end Statements

/-! A write to a table that `R` does not look at. -/

section Writes

variable {ρ κ : Type} [DecidableEq κ] [Row ρ κ] [HasTable σ ρ] [OfDbError ε]

theorem writeTable {f : Table ρ → Except DbError (Table ρ)}
    (h : ∀ (s : σ) (t : Table ρ), R s (HasTable.setTable t s)) :
    Respects R (writeTable f : Tx σ ε Unit) := by
  intro s u s' hrun
  obtain ⟨t, -, rfl⟩ := runs_writeTable.1 hrun
  exact h s t

theorem insertRowOrIgnore {r : ρ} (h : ∀ (s : σ) (t : Table ρ), R s (HasTable.setTable t s)) :
    Respects R (insertRowOrIgnore r : Tx σ ε Bool) := by
  intro s b s' hrun
  obtain ⟨t, rfl, -⟩ := runs_insertRowOrIgnore hrun
  exact h s t

end Writes

theorem ite {c : Prop} [Decidable c] {m n : Tx σ ε α} (hm : c → Respects R m)
    (hn : ¬ c → Respects R n) : Respects R (if c then m else n) := by
  intro s a s' h
  rcases runs_ite.1 h with ⟨hc, h⟩ | ⟨hc, h⟩
  · exact hm hc h
  · exact hn hc h

theorem map {m : Tx σ ε α} {f : α → β} (h : Respects R m) : Respects R (f <$> m) := by
  intro s b s' hrun
  obtain ⟨a, hm, -⟩ := runs_map.1 hrun
  exact h hm

section Sequence

variable [IsTrans σ R]

theorem bind {m : Tx σ ε α} {f : α → Tx σ ε β} (h : Respects R m) (hf : ∀ a, Respects R (f a)) :
    Respects R (m >>= f) := by
  intro s b s' hrun
  obtain ⟨a, s₁, hm, hrest⟩ := runs_bind.1 hrun
  exact IsTrans.trans s s₁ s' (h hm) (hf a hrest)

variable [Std.Refl R]

theorem forM {f : α → Tx σ ε Unit} {xs : List α} (h : ∀ x ∈ xs, Respects R (f x)) :
    Respects R (xs.forM f) := by
  intro s u s' hrun
  exact Runs.forM_rel (fun s => Std.Refl.refl s) (fun h₁ h₂ => IsTrans.trans _ _ _ h₁ h₂)
    (fun x hx s₁ s₂ hx' => h x hx hx') hrun

theorem foldlM {f : β → α → Tx σ ε β} {xs : List α} {b : β}
    (h : ∀ x ∈ xs, ∀ b, Respects R (f b x)) : Respects R (xs.foldlM f b) := by
  intro s c s' hrun
  exact Runs.foldlM_rel (fun s => Std.Refl.refl s) (fun h₁ h₂ => IsTrans.trans _ _ _ h₁ h₂)
    (fun x hx b b' s₁ s₂ hx' => h x hx b hx') hrun

end Sequence

end Respects

end Paayatam.Lib
