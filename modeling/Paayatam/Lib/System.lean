/-
  Paayatam.Lib.System

  Labelled transition systems and what holds in every state they reach.

  `Reach init step guard` collects the states some run reaches when every
  step of the run was taken in a state, and under a label, that `guard`
  admits.  With the trivial guard these are the reachable states.  A property
  of runs that meet a condition is a property of `Reach` under that guard.
-/

import Mathlib.Logic.Relation

namespace Paayatam.Lib

variable {σ ι : Type}

/-- The states reached from `init` by steps that all satisfy `guard`. -/
inductive Reach (init : σ → Prop) (step : σ → ι → σ → Prop) (guard : σ → ι → Prop) : σ → Prop
  | start {s : σ} (h : init s) : Reach init step guard s
  | next {s s' : σ} {i : ι} (h : Reach init step guard s) (hg : guard s i) (hs : step s i s') :
      Reach init step guard s'

/-- The states reached from `init` by any steps. -/
abbrev Reachable (init : σ → Prop) (step : σ → ι → σ → Prop) : σ → Prop :=
  Reach init step fun _ _ => True

namespace Reach

variable {init : σ → Prop} {step : σ → ι → σ → Prop} {guard guard' : σ → ι → Prop}

/-- Invariant rule: what holds initially and is kept by every guarded step
    holds in every state reached. -/
theorem invariant {I : σ → Prop} (h0 : ∀ s, init s → I s)
    (hstep : ∀ s i s', I s → guard s i → step s i s' → I s') {s : σ}
    (h : Reach init step guard s) : I s := by
  induction h with
  | start hi => exact h0 _ hi
  | next _ hg hs ih => exact hstep _ _ _ ih hg hs

/-- The invariant rule under an invariant `J` already known of these states. -/
theorem invariant_of {I J : σ → Prop} (hJ : ∀ s, Reach init step guard s → J s)
    (h0 : ∀ s, init s → I s)
    (hstep : ∀ s i s', I s → J s → J s' → guard s i → step s i s' → I s') {s : σ}
    (h : Reach init step guard s) : I s := by
  induction h with
  | start hi => exact h0 _ hi
  | next hr hg hs ih => exact hstep _ _ _ ih (hJ _ hr) (hJ _ (.next hr hg hs)) hg hs

theorem mono (hg : ∀ s i, guard s i → guard' s i) {s : σ} (h : Reach init step guard s) :
    Reach init step guard' s := by
  induction h with
  | start hi => exact .start hi
  | next _ hgi hs ih => exact .next ih (hg _ _ hgi) hs

/-- A run whose steps meet another guard, by an invariant of the run. -/
theorem mono_of {J : σ → Prop} {G : σ → ι → Prop} (h0 : ∀ s, init s → J s)
    (hJ : ∀ s i s', J s → guard s i → step s i s' → J s')
    (hg : ∀ s i s', J s → guard s i → step s i s' → G s i) {s : σ} (h : Reach init step guard s) :
    Reach init step G s := by
  have hboth : Reach init step G s ∧ J s := by
    induction h with
    | start hi => exact ⟨.start hi, h0 _ hi⟩
    | next _ hgi hs ih => exact ⟨.next ih.1 (hg _ _ _ ih.2 hgi hs) hs, hJ _ _ _ ih.2 hgi hs⟩
  exact hboth.1

theorem reachable {s : σ} (h : Reach init step guard s) : Reachable init step s :=
  h.mono fun _ _ _ => trivial

/-- A run that goes on from where another ended. -/
theorem trans {s s' : σ} (h : Reach init step guard s) (h' : Reach (· = s) step guard s') :
    Reach init step guard s' := by
  induction h' with
  | start hs =>
      rw [hs]
      exact h
  | next _ hg hs ih => exact .next ih hg hs

/-- A run after a first step. -/
theorem head {s s₁ s' : σ} {i : ι} (hg : guard s i) (hs : step s i s₁)
    (h : Reach (· = s₁) step guard s') : Reach (· = s) step guard s' :=
  Reach.trans (.next (.start rfl) hg hs) h

end Reach

/-- The runs themselves: the steps taken, oldest first, and the state reached. -/
inductive Run (init : σ → Prop) (step : σ → ι → σ → Prop) (guard : σ → ι → Prop) :
    List (σ × ι × σ) → σ → Prop
  | start {s : σ} (h : init s) : Run init step guard [] s
  | next {tr : List (σ × ι × σ)} {s s' : σ} {i : ι} (h : Run init step guard tr s) (hg : guard s i)
      (hs : step s i s') : Run init step guard (tr ++ [(s, i, s')]) s'

namespace Run

variable {init : σ → Prop} {step : σ → ι → σ → Prop} {guard : σ → ι → Prop}
  {tr : List (σ × ι × σ)} {s : σ}

theorem reach (h : Run init step guard tr s) : Reach init step guard s := by
  induction h with
  | start hi => exact .start hi
  | next _ hg hs ih => exact .next ih hg hs

/-- Step rule: what every guarded step from a reached state does, every step of a
    run does. -/
theorem steps {P : σ → ι → σ → Prop}
    (hstep : ∀ s i s', Reach init step guard s → guard s i → step s i s' → P s i s')
    (h : Run init step guard tr s) : ∀ x ∈ tr, P x.1 x.2.1 x.2.2 := by
  induction h with
  | start => simp
  | next hr hg hs ih =>
      intro x hx
      rcases List.mem_append.1 hx with hx | hx
      · exact ih x hx
      · obtain rfl := List.mem_singleton.1 hx
        exact hstep _ _ _ hr.reach hg hs

/-- A run whose steps all meet a guard is a run under it. -/
theorem guarded {G : σ → ι → Prop} (h : Run init step guard tr s)
    (hg : ∀ x ∈ tr, G x.1 x.2.1) : Run init step G tr s := by
  induction h with
  | start hi => exact .start hi
  | next hr _ hs ih =>
      refine .next (ih fun x hx => hg x (List.mem_append_left _ hx)) ?_ hs
      exact hg _ (List.mem_append_right _ (List.mem_singleton.2 rfl))

/-- What no step undoes comes about in at most one step of a run. -/
theorem once {κ : Type} {Q : σ → κ → Prop}
    (hkeep : ∀ s i s' k, Reach init step guard s → step s i s' → Q s k → Q s' k)
    (h : Run init step guard tr s) :
    tr.Pairwise (fun x y => ∀ k, ¬ Q x.1 k → Q x.2.2 k → Q y.1 k) ∧
      ∀ x ∈ tr, ∀ k, Q x.2.2 k → Q s k := by
  induction h with
  | start => simp
  | next hr _ hs ih =>
      obtain ⟨hpair, hlast⟩ := ih
      refine ⟨List.pairwise_append.2 ⟨hpair, List.pairwise_singleton _ _, fun x hx y hy k _ hk => ?_⟩,
        fun x hx k hk => ?_⟩
      · obtain rfl := List.mem_singleton.1 hy
        exact hlast x hx k hk
      · rcases List.mem_append.1 hx with hx | hx
        · exact hkeep _ _ _ k hr.reach hs (hlast x hx k hk)
        · obtain rfl := List.mem_singleton.1 hx
          exact hk

end Run

/-! ## Executing a run -/

/-- Executes a list of labels with a partial step function. -/
def runList (exec : σ → ι → Option σ) : σ → List ι → Option σ
  | s, [] => some s
  | s, i :: is => (exec s i).bind fun s' => runList exec s' is

/-- The guard, evaluated along an executed run. -/
def guardList (exec : σ → ι → Option σ) (guard : σ → ι → Bool) : σ → List ι → Bool
  | _, [] => true
  | s, i :: is => guard s i && match exec s i with
      | some s' => guardList exec guard s' is
      | none => true

section Executed

variable {exec : σ → ι → Option σ} {g : σ → ι → Bool} {s s' : σ} {i : ι} {is : List ι}

theorem runList_cons :
    runList exec s (i :: is) = some s' ↔ ∃ s₁, exec s i = some s₁ ∧ runList exec s₁ is = some s' :=
  Option.bind_eq_some_iff

theorem guardList_cons (h : exec s i = some s') :
    guardList exec g s (i :: is) = (g s i && guardList exec g s' is) := by
  rw [guardList, h]

end Executed

/-- An executed run whose labels all pass the guard ends in a state reached
    under it. -/
theorem reach_of_runList {I : σ → Prop} {step : σ → ι → σ → Prop} {G : σ → ι → Prop}
    {exec : σ → ι → Option σ} {g : σ → ι → Bool}
    (hexec : ∀ s i s', exec s i = some s' → step s i s') (hg : ∀ s i, g s i = true → G s i) :
    ∀ {is : List ι} {s s' : σ}, Reach I step G s → guardList exec g s is = true →
      runList exec s is = some s' → Reach I step G s' := by
  intro is
  induction is with
  | nil =>
      intro s s' h _ hrun
      obtain rfl := Option.some.inj hrun
      exact h
  | cons i is ih =>
      intro s s' h hguard hrun
      obtain ⟨s₁, h₁, h₂⟩ := runList_cons.1 hrun
      rw [guardList_cons h₁, Bool.and_eq_true] at hguard
      exact ih (.next h (hg _ _ hguard.1) (hexec _ _ _ h₁)) hguard.2 h₂

/-- The steps an execution takes. -/
def traceList (exec : σ → ι → Option σ) : σ → List ι → List (σ × ι × σ)
  | _, [] => []
  | s, i :: is => match exec s i with
      | some s' => (s, i, s') :: traceList exec s' is
      | none => []

/-- An executed list of labels that all pass the guard is a run under it. -/
theorem run_of_runList {I : σ → Prop} {step : σ → ι → σ → Prop} {G : σ → ι → Prop}
    {exec : σ → ι → Option σ} {g : σ → ι → Bool}
    (hexec : ∀ s i s', exec s i = some s' → step s i s') (hg : ∀ s i, g s i = true → G s i) :
    ∀ {is : List ι} {tr : List (σ × ι × σ)} {s s' : σ}, Run I step G tr s →
      guardList exec g s is = true → runList exec s is = some s' →
      Run I step G (tr ++ traceList exec s is) s' := by
  intro is
  induction is with
  | nil =>
      intro tr s s' h _ hrun
      obtain rfl := Option.some.inj hrun
      simpa [traceList] using h
  | cons i is ih =>
      intro tr s s' h hguard hrun
      obtain ⟨s₁, h₁, h₂⟩ := runList_cons.1 hrun
      rw [guardList_cons h₁, Bool.and_eq_true] at hguard
      have hnext := ih (.next h (hg _ _ hguard.1) (hexec _ _ _ h₁)) hguard.2 h₂
      simpa [traceList, h₁] using hnext

/-- A state an executed run ends in is reached by it. -/
theorem reachable_of_runList {init : σ → Prop} {step : σ → ι → σ → Prop} {exec : σ → ι → Option σ}
    (hexec : ∀ s i s', exec s i = some s' → step s i s') :
    ∀ {is : List ι} {s s' : σ}, Reachable init step s → runList exec s is = some s' →
      Reachable init step s' := by
  intro is
  induction is with
  | nil =>
      intro s s' h hrun
      obtain rfl := Option.some.inj hrun
      exact h
  | cons i is ih =>
      intro s s' h hrun
      obtain ⟨s₁, h₁, h₂⟩ := runList_cons.1 hrun
      exact ih (.next h trivial (hexec _ _ _ h₁)) h₂

end Paayatam.Lib
