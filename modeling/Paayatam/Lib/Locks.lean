/-
  Paayatam.Lib.Locks

  Transactions that take locks and keep them until they end.

  A transaction has a list of locks to take, in order.  It waits for another when
  the next lock on its list is held by it; a lock it holds already it takes again
  at once.  Where every transaction takes its locks in one order, whoever is
  waited for and waits itself waits for something higher: nobody waits in a
  circle.
-/

import Paayatam.Lib.System
import Paayatam.Lib.Threads
import Mathlib.Logic.Relation
import Mathlib.Order.Defs.PartialOrder

namespace Paayatam.Lib

/-- What a transaction holds, and what it has still to take. -/
structure Locker (ρ : Type) where
  held : List ρ
  todo : List ρ

inductive LockMove (ι β : Type) where
  | begin (i : ι) (work : β)
  /-- Takes the next lock on the list. -/
  | take (i : ι)
  | commit (i : ι)
  /-- Given up: an error, or a victim of the database. -/
  | abort (i : ι)

/-- Transactions at work. -/
abbrev LockWorld (ι ρ : Type) := Threads ι Unit (Locker ρ)

namespace LockWorld

variable {ι ρ β : Type} [DecidableEq ι]

-- The work of a transaction, as the locks it takes.
variable (locks : β → List ρ)

inductive Step (w : LockWorld ι ρ) : LockMove ι β → LockWorld ι ρ → Prop
  | begin {i : ι} {work : β} (hheld : (w.locals i).held = []) (htodo : (w.locals i).todo = []) :
      Step w (.begin i work) (w.set i () ⟨[], locks work⟩)
  | take {i : ι} {r : ρ} {rest : List ρ} (htodo : (w.locals i).todo = r :: rest)
      (hfree : ∀ j, j ≠ i → r ∉ (w.locals j).held) :
      Step w (.take i) (w.set i () ⟨r :: (w.locals i).held, rest⟩)
  | commit {i : ι} (htodo : (w.locals i).todo = []) : Step w (.commit i) (w.set i () ⟨[], []⟩)
  | abort {i : ι} : Step w (.abort i) (w.set i () ⟨[], []⟩)

/-- Nobody is at work. -/
def Init (w : LockWorld ι ρ) : Prop := ∀ i, w.locals i = ⟨[], []⟩

/-- The next lock of `i` is held by `j`. -/
def WaitsFor (w : LockWorld ι ρ) (i j : ι) : Prop :=
  i ≠ j ∧ ∃ r rest, (w.locals i).todo = r :: rest ∧ r ∈ (w.locals j).held

/-- Nobody waits, through others or not, for itself. -/
def Acyclic (w : LockWorld ι ρ) : Prop := ∀ i, ¬ Relation.TransGen w.WaitsFor i i

end LockWorld

section Order

variable {ρ ρ' : Type} [Preorder ρ] [Preorder ρ'] {held held' l l' : List ρ} {r : ρ}

/-- Each lock is held already, or above all that are. -/
def TakenInOrder : List ρ → List ρ → Prop
  | _, [] => True
  | held, r :: rest => (r ∈ held ∨ ∀ h ∈ held, h < r) ∧ TakenInOrder (r :: held) rest

theorem takenInOrder_append : TakenInOrder held (l ++ l') ↔
    TakenInOrder held l ∧ TakenInOrder (l.reverse ++ held) l' := by
  induction l generalizing held with
  | nil => simp [TakenInOrder]
  | cons r rest ih => simp [TakenInOrder, ih, and_assoc]

end Order

section Sorted

variable {ρ : Type} [PartialOrder ρ] {held l : List ρ}

/-- Locks held from before, among new ones in order. -/
theorem takenInOrder_of_sorted (base : List ρ) (hbase : ∀ r ∈ base, r ∈ held)
    (habove : ∀ r ∈ l, r ∈ base ∨ ∀ h ∈ held, h ≤ r)
    (hsorted : l.Pairwise fun a b => a ∈ base ∨ b ∈ base ∨ a ≤ b) : TakenInOrder held l := by
  induction l generalizing held with
  | nil => trivial
  | cons r rest ih =>
      obtain ⟨hfirst, hrest⟩ := List.pairwise_cons.1 hsorted
      have hr := habove r List.mem_cons_self
      constructor
      · rcases hr with hr | hr
        · exact .inl (hbase r hr)
        · by_cases hmem : r ∈ held
          · exact .inl hmem
          · refine .inr fun h hh => lt_of_le_of_ne (hr h hh) ?_
            rintro rfl
            exact hmem hh
      · refine ih (fun x hx => List.mem_cons_of_mem _ (hbase x hx)) (fun x hx => ?_) hrest
        rcases habove x (List.mem_cons_of_mem _ hx) with hx' | hx'
        · exact .inl hx'
        · rcases hfirst x hx with hin | hin | hle
          · refine .inr fun h hh => ?_
            rcases List.mem_cons.1 hh with rfl | hh
            · exact hx' h (hbase h hin)
            · exact hx' h hh
          · exact .inl hin
          · refine .inr fun h hh => ?_
            rcases List.mem_cons.1 hh with rfl | hh
            · exact hle
            · exact hx' h hh

end Sorted

namespace LockWorld

section Acyclic

variable {ι ρ β : Type} [DecidableEq ι] [Preorder ρ] {locks : β → List ρ}
  {w w' : LockWorld ι ρ} {m : LockMove ι β} {i j k : ι}

/-- No lock is held twice, and what is still to be taken is taken in order. -/
structure LocksKept (w : LockWorld ι ρ) : Prop where
  exclusive : ∀ i j r, r ∈ (w.locals i).held → r ∈ (w.locals j).held → i = j
  ordered : ∀ i, TakenInOrder (w.locals i).held (w.locals i).todo

/-- Every transaction takes its locks in order. -/
def BeginsInOrder (locks : β → List ρ) (_ : LockWorld ι ρ) : LockMove ι β → Prop
  | .begin _ work => TakenInOrder [] (locks work)
  | _ => True

omit [DecidableEq ι] in
theorem locksKept_init (h : w.Init) : LocksKept w := by
  refine ⟨fun i j r hi => ?_, fun i => ?_⟩
  · rw [h i] at hi
    cases hi
  · rw [h i]
    trivial

/-- One transaction moves on; what it holds, nobody else does. -/
theorem LocksKept.set (h : LocksKept w) {l : Locker ρ} (hordered : TakenInOrder l.held l.todo)
    (hfree : ∀ j, j ≠ i → ∀ r ∈ l.held, r ∉ (w.locals j).held) : LocksKept (w.set i () l) := by
  refine ⟨fun a b r ha hb => ?_, fun a => ?_⟩
  · by_cases hai : a = i
    · by_cases hbi : b = i
      · exact hai.trans hbi.symm
      · rw [hai, Threads.set_locals_self] at ha
        rw [Threads.set_locals_ne hbi] at hb
        exact absurd hb (hfree b hbi r ha)
    · rw [Threads.set_locals_ne hai] at ha
      by_cases hbi : b = i
      · rw [hbi, Threads.set_locals_self] at hb
        exact absurd ha (hfree a hai r hb)
      · rw [Threads.set_locals_ne hbi] at hb
        exact h.exclusive a b r ha hb
  · by_cases hai : a = i
    · subst hai
      rw [Threads.set_locals_self]
      exact hordered
    · rw [Threads.set_locals_ne hai]
      exact h.ordered a

theorem LocksKept.step (h : LocksKept w) (hg : BeginsInOrder locks w m)
    (hs : w.Step locks m w') : LocksKept w' := by
  cases hs with
  | begin hheld htodo => exact h.set hg nofun
  | @take i r rest htodo hfree =>
      have hordered := h.ordered i
      rw [htodo] at hordered
      refine h.set hordered.2 fun j hj x hx => ?_
      rcases List.mem_cons.1 hx with rfl | hx
      · exact hfree j hj
      · exact fun hx' => hj (h.exclusive j i x hx' hx)
  | commit htodo => exact h.set trivial nofun
  | abort => exact h.set trivial nofun

omit [DecidableEq ι] in
/-- Who is waited for and waits, waits for something higher. -/
theorem LocksKept.higher (h : LocksKept w) (hij : w.WaitsFor i j) (hjk : w.WaitsFor j k) :
    ∀ r r' rest rest', (w.locals i).todo = r :: rest → (w.locals j).todo = r' :: rest' →
      r < r' := by
  intro r r' rest rest' hi hj
  obtain ⟨-, q, _, hq, hheld⟩ := hij
  obtain ⟨hne, q', _, hq', hheld'⟩ := hjk
  obtain ⟨rfl, -⟩ := List.cons.inj (hi.symm.trans hq)
  obtain ⟨rfl, -⟩ := List.cons.inj (hj.symm.trans hq')
  have hordered := h.ordered j
  rw [hj] at hordered
  rcases hordered.1 with hmem | habove
  · exact absurd (h.exclusive j k r' hmem hheld') hne
  · exact habove r hheld

omit [DecidableEq ι] in
/-- The locks waited for rise along every chain of waits. -/
theorem LocksKept.rises (h : LocksKept w) (hij : Relation.TransGen w.WaitsFor i j)
    (hjk : w.WaitsFor j k) : ∀ r r' rest rest', (w.locals i).todo = r :: rest →
      (w.locals j).todo = r' :: rest' → r < r' := by
  induction hij using Relation.TransGen.head_induction_on with
  | single hij => exact h.higher hij hjk
  | @head i m him hmj ih =>
      intro r r' rest rest' hi hj
      obtain ⟨m', hmm', _⟩ := Relation.TransGen.head'_iff.1 hmj
      have hwaits := hmm'
      obtain ⟨-, q, restq, hq, -⟩ := hwaits
      exact lt_trans (h.higher him hmm' r q rest restq hi hq) (ih q r' restq rest' hq hj)

omit [DecidableEq ι] in
theorem LocksKept.acyclic (h : LocksKept w) : w.Acyclic := by
  intro i hi
  obtain ⟨j, hij, -⟩ := Relation.TransGen.head'_iff.1 hi
  have hwaits := hij
  obtain ⟨-, r, rest, hr, -⟩ := hwaits
  exact lt_irrefl r (h.rises hi hij r r rest rest hr hr)

/-- Run rule: where every transaction takes its locks in order. -/
theorem locksKept_of_reach (h : Reach Init (Step locks) (BeginsInOrder locks) w) : LocksKept w :=
  h.invariant (I := LocksKept) (fun _ => locksKept_init) fun _ _ _ hI hg hs => hI.step hg hs

end Acyclic

end LockWorld

end Paayatam.Lib
