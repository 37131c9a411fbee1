/-
  Paayatam.Lib.Within

  A transaction on one part of a larger store.

  A part is given by how it is read and how it is put back.  Running a
  transaction within it changes the part as the transaction does and nothing
  else of the store.
-/

import Paayatam.Lib.Tx

namespace Paayatam.Lib

variable {σ τ ε α β : Type}

/-- `m`, on the part of the store that `part` reads and `put` puts back. -/
def within (part : σ → τ) (put : τ → σ → σ) (m : Tx τ ε α) : Tx σ ε α := fun s =>
  match m.run (part s) with
  | .ok (a, t) => .ok (a, put t s)
  | .error e => .error e

variable {part : σ → τ} {put : τ → σ → σ} {m : Tx τ ε α} {s s' : σ} {a : α}

theorem runs_within : Runs (within part put m) s a s' ↔ ∃ t, Runs m (part s) a t ∧ s' = put t s := by
  simp only [Runs, within, StateT.run]
  cases m (part s) with
  | error e => simp
  | ok r =>
      obtain ⟨b, t⟩ := r
      simp only [Except.ok.injEq, Prod.mk.injEq]
      constructor
      · rintro ⟨rfl, rfl⟩
        exact ⟨t, ⟨rfl, rfl⟩, rfl⟩
      · rintro ⟨t', ⟨rfl, rfl⟩, rfl⟩
        exact ⟨rfl, rfl⟩

theorem runs_within_bind {f : α → Tx σ ε β} {b : β} :
    Runs (within part put m >>= f) s b s' ↔
      ∃ a t, Runs m (part s) a t ∧ Runs (f a) (put t s) b s' := by
  simp only [runs_bind, runs_within]
  constructor
  · rintro ⟨a, _, ⟨t, hm, rfl⟩, hf⟩
    exact ⟨a, t, hm, hf⟩
  · rintro ⟨a, t, hm, hf⟩
    exact ⟨a, _, ⟨t, hm, rfl⟩, hf⟩

end Paayatam.Lib
