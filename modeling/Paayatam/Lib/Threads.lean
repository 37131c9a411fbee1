/-
  Paayatam.Lib.Threads

  Threads over a shared store.

  A thread moves by changing its own local state and possibly the store; the
  other threads' locals stand still.  An invariant of such a system has three
  parts: what holds of the store, what each thread holds over the store, and
  what keeps any two threads apart.  `Threads.Holds.set` is the obligation one
  move leaves: the mover re-establishes its own part, and shows that it did
  not disturb the parts of the others.
-/

import Mathlib.Logic.Function.Basic

namespace Paayatam.Lib

/-- A shared store, and one local state for each thread. -/
structure Threads (ι σ τ : Type) where
  shared : σ
  locals : ι → τ

namespace Threads

variable {ι σ τ : Type} [DecidableEq ι]

/-- Thread `i` moves to `l` and leaves the store at `s`. -/
def set (w : Threads ι σ τ) (i : ι) (s : σ) (l : τ) : Threads ι σ τ where
  shared := s
  locals := Function.update w.locals i l

variable {w : Threads ι σ τ} {i j : ι} {s : σ} {l : τ}

@[simp] theorem set_shared : (w.set i s l).shared = s := rfl

@[simp] theorem set_locals_self : (w.set i s l).locals i = l := by simp [set]

@[simp] theorem set_locals_ne (h : j ≠ i) : (w.set i s l).locals j = w.locals j := by
  simp [set, h]

/-- The store satisfies `Inv`, every thread `Own` over it, and any two threads
    are `Apart`. -/
structure Holds (Inv : σ → Prop) (Own : σ → τ → Prop) (Apart : τ → τ → Prop)
    (w : Threads ι σ τ) : Prop where
  shared : Inv w.shared
  own : ∀ i, Own w.shared (w.locals i)
  apart : ∀ i j, i ≠ j → Apart (w.locals i) (w.locals j)

namespace Holds

variable {Inv : σ → Prop} {Own : σ → τ → Prop} {Apart : τ → τ → Prop}

/-- One move: the mover's own part, and that the others keep theirs. -/
theorem set (h : w.Holds Inv Own Apart) (hsymm : ∀ a b, Apart a b → Apart b a) (hinv : Inv s)
    (hown : Own s l) (hothers : ∀ j, j ≠ i → Own s (w.locals j) ∧ Apart l (w.locals j)) :
    (w.set i s l).Holds Inv Own Apart where
  shared := hinv
  own j := by
    by_cases hj : j = i
    · subst hj
      simpa using hown
    · simpa [hj] using (hothers j hj).1
  apart j k hjk := by
    by_cases hj : j = i
    · subst hj
      simpa [Ne.symm hjk] using (hothers k (Ne.symm hjk)).2
    · by_cases hk : k = i
      · subst hk
        simpa [hj] using hsymm _ _ (hothers j hj).2
      · simpa [hj, hk] using h.apart j k hjk

/-- A move that leaves the store alone. -/
theorem set_local (h : w.Holds Inv Own Apart) (hsymm : ∀ a b, Apart a b → Apart b a)
    (hown : Own w.shared l) (hapart : ∀ j, j ≠ i → Apart l (w.locals j)) :
    (w.set i w.shared l).Holds Inv Own Apart :=
  h.set hsymm h.shared hown fun j hj => ⟨h.own j, hapart j hj⟩

/-- One move of threads that share nothing but the store. -/
theorem set_alone (h : w.Holds Inv Own fun _ _ => True) (hinv : Inv s) (hown : Own s l)
    (hothers : ∀ j, j ≠ i → Own s (w.locals j)) : (w.set i s l).Holds Inv Own fun _ _ => True :=
  h.set (fun _ _ _ => trivial) hinv hown fun j hj => ⟨hothers j hj, trivial⟩

/-- A move of such a thread that leaves the store alone. -/
theorem set_own (h : w.Holds Inv Own fun _ _ => True) (hown : Own w.shared l) :
    (w.set i w.shared l).Holds Inv Own fun _ _ => True :=
  h.set_alone h.shared hown fun j _ => h.own j

end Holds

end Threads

end Paayatam.Lib
