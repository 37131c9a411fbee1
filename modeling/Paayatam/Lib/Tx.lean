/-
  Paayatam.Lib.Tx

  Database transactions as programs over an explicit store.

  A transaction reads and writes a store `σ`, returns a value, and may abort
  with an error.  An aborted transaction leaves no store behind: its result is
  the error alone, so rollback is not something a caller has to remember, it
  is what the type says (`commit`).

  `Runs m s a s'` is the judgment every specification is stated in: from store
  `s` the transaction `m` commits with value `a` and store `s'`.  The `runs_*`
  lemmas take a committed `do` block apart one statement at a time; the two
  loop rules at the end carry an invariant, or a preorder on stores, through
  `List.forM` and `List.foldlM`.
-/

import Mathlib.Logic.Relation
import Mathlib.Data.List.Basic

namespace Paayatam.Lib

/-- A transaction over the store `σ` that returns an `α` or aborts with an `ε`. -/
abbrev Tx (σ ε α : Type) := StateT σ (Except ε) α

variable {σ ε α β : Type}

/-- `m`, started in `s`, commits with value `a` and store `s'`. -/
def Runs (m : Tx σ ε α) (s : σ) (a : α) (s' : σ) : Prop :=
  m.run s = .ok (a, s')

/-- The store after `m` was attempted: the committed one, or the old one when
    `m` aborted. -/
def commit (m : Tx σ ε α) (s : σ) : σ :=
  match m.run s with
  | .ok (_, s') => s'
  | .error _ => s

/-- `m`, started in `s`, does not abort. -/
def commits (m : Tx σ ε α) (s : σ) : Bool :=
  match m.run s with
  | .ok _ => true
  | .error _ => false

/-- The value of an option, or an abort. -/
def orThrow (e : ε) : Option α → Tx σ ε α
  | some a => pure a
  | none => throw e

/-- Aborts unless the condition holds. -/
def guardTx (c : Prop) [Decidable c] (e : ε) : Tx σ ε Unit :=
  if c then pure () else throw e

/-- A decision made without the store, inside a transaction. -/
def fromExcept : Except ε α → Tx σ ε α
  | .ok a => pure a
  | .error e => throw e

/-- Fails unless the condition holds. -/
def require (c : Prop) [Decidable c] (e : ε) : Except ε Unit := if c then .ok () else .error e

/-- Runs `m` only when the condition holds. -/
def whenTx (c : Prop) [Decidable c] (m : Tx σ ε Unit) : Tx σ ε Unit := if c then m else pure ()

/-- A store update that a constraint of the store may refuse. -/
def attempt (f : σ → Except ε σ) : Tx σ ε Unit := fun s => (f s).map fun s' => ((), s')

/-! ## Taking a committed transaction apart -/

@[simp] theorem runs_pure {a b : α} {s s' : σ} :
    Runs (pure a : Tx σ ε α) s b s' ↔ b = a ∧ s' = s := by
  show (Except.ok (a, s) : Except ε (α × σ)) = .ok (b, s') ↔ _
  simp [eq_comm]

theorem runs_bind {m : Tx σ ε α} {f : α → Tx σ ε β} {s : σ} {b : β} {s' : σ} :
    Runs (m >>= f) s b s' ↔ ∃ a s₁, Runs m s a s₁ ∧ Runs (f a) s₁ b s' := by
  simp only [Runs, StateT.run_bind]
  cases h : m.run s with
  | error e => simp [bind, Except.bind]
  | ok p =>
      obtain ⟨a, s₁⟩ := p
      simp [bind, Except.bind]

@[simp] theorem runs_map {m : Tx σ ε α} {f : α → β} {s : σ} {b : β} {s' : σ} :
    Runs (f <$> m) s b s' ↔ ∃ a, Runs m s a s' ∧ b = f a := by
  rw [map_eq_pure_bind, runs_bind]
  simp only [runs_pure]
  constructor
  · rintro ⟨a, s₁, h, rfl, rfl⟩
    exact ⟨a, h, rfl⟩
  · rintro ⟨a, h, rfl⟩
    exact ⟨a, s', h, rfl, rfl⟩

@[simp] theorem runs_throw {e : ε} {s : σ} {a : α} {s' : σ} :
    Runs (throw e : Tx σ ε α) s a s' ↔ False := by
  simp [Runs, throw, throwThe, MonadExceptOf.throw, StateT.lift, StateT.run, bind, Except.bind]

@[simp] theorem runs_get {s a s' : σ} :
    Runs (get : Tx σ ε σ) s a s' ↔ a = s ∧ s' = s := by
  simp [Runs, get, getThe, MonadStateOf.get, StateT.get, StateT.run, pure, Except.pure, eq_comm]

@[simp] theorem runs_modify {f : σ → σ} {s : σ} {u : Unit} {s' : σ} :
    Runs (modify f : Tx σ ε Unit) s u s' ↔ s' = f s := by
  simp [Runs, modify, modifyGet, MonadStateOf.modifyGet, StateT.modifyGet, StateT.run, pure,
    Except.pure, eq_comm]

@[simp] theorem runs_orThrow {e : ε} {o : Option α} {s : σ} {a : α} {s' : σ} :
    Runs (orThrow e o) s a s' ↔ o = some a ∧ s' = s := by
  cases o <;> simp [orThrow, eq_comm]

@[simp] theorem runs_guardTx {c : Prop} [Decidable c] {e : ε} {s : σ} {u : Unit} {s' : σ} :
    Runs (guardTx c e) s u s' ↔ c ∧ s' = s := by
  by_cases hc : c <;> simp [guardTx, hc]

@[simp] theorem runs_fromExcept {x : Except ε α} {s : σ} {a : α} {s' : σ} :
    Runs (fromExcept x) s a s' ↔ x = .ok a ∧ s' = s := by
  cases x <;> simp [fromExcept, eq_comm]

@[simp] theorem require_eq_ok {c : Prop} [Decidable c] {e : ε} {u : Unit} :
    require c e = .ok u ↔ c := by
  by_cases hc : c <;> simp [require, hc]

theorem except_toOption_eq_some {x : Except ε α} {a : α} : x.toOption = some a ↔ x = .ok a := by
  cases x <;> simp [Except.toOption]

theorem except_bind_eq_ok {x : Except ε α} {f : α → Except ε β} {b : β} :
    (x >>= f) = .ok b ↔ ∃ a, x = .ok a ∧ f a = .ok b := by
  cases x <;> simp [bind, Except.bind]

@[simp] theorem require_bind_eq_ok {c : Prop} [Decidable c] {e : ε} {f : Unit → Except ε β}
    {b : β} : (require c e >>= f) = .ok b ↔ c ∧ f () = .ok b := by
  simp [except_bind_eq_ok, Unique.exists_iff]

@[simp] theorem runs_attempt {f : σ → Except ε σ} {s : σ} {u : Unit} {s' : σ} :
    Runs (attempt f) s u s' ↔ f s = .ok s' := by
  simp only [Runs, attempt, StateT.run]
  cases f s <;> simp [Except.map]

/-! The same statements in front of a continuation: `simp` walks a `do` block
with these, and stops at the first call that has a specification of its own,
which `runs_bind` then splits off. -/

@[simp] theorem runs_get_bind {f : σ → Tx σ ε β} {s : σ} {b : β} {s' : σ} :
    Runs (get >>= f) s b s' ↔ Runs (f s) s b s' := by
  simp [runs_bind]

@[simp] theorem runs_modify_bind {g : σ → σ} {f : Unit → Tx σ ε β} {s : σ} {b : β} {s' : σ} :
    Runs (modify g >>= f) s b s' ↔ Runs (f ()) (g s) b s' := by
  simp [runs_bind, Unique.exists_iff]

@[simp] theorem runs_orThrow_bind {e : ε} {o : Option α} {f : α → Tx σ ε β} {s : σ} {b : β}
    {s' : σ} : Runs (orThrow e o >>= f) s b s' ↔ ∃ a, o = some a ∧ Runs (f a) s b s' := by
  simp [runs_bind, and_assoc]

@[simp] theorem runs_guardTx_bind {c : Prop} [Decidable c] {e : ε} {f : Unit → Tx σ ε β} {s : σ}
    {b : β} {s' : σ} : Runs (guardTx c e >>= f) s b s' ↔ c ∧ Runs (f ()) s b s' := by
  simp [runs_bind, Unique.exists_iff, and_assoc]

@[simp] theorem runs_fromExcept_bind {x : Except ε α} {f : α → Tx σ ε β} {s : σ} {b : β}
    {s' : σ} : Runs (fromExcept x >>= f) s b s' ↔ ∃ a, x = .ok a ∧ Runs (f a) s b s' := by
  simp [runs_bind, and_assoc]

theorem runs_ite {c : Prop} [Decidable c] {m n : Tx σ ε α} {s : σ} {a : α} {s' : σ} :
    Runs (if c then m else n) s a s' ↔ (c ∧ Runs m s a s') ∨ (¬ c ∧ Runs n s a s') := by
  by_cases hc : c <;> simp [hc]

theorem runs_whenTx {c : Prop} [Decidable c] {m : Tx σ ε Unit} {s : σ} {u : Unit} {s' : σ} :
    Runs (whenTx c m) s u s' ↔ (c ∧ Runs m s u s') ∨ (¬ c ∧ s' = s) := by
  by_cases hc : c <;> simp [whenTx, hc]

/-- A transaction that commits does so in one way only. -/
theorem Runs.det {m : Tx σ ε α} {s : σ} {a b : α} {s₁ s₂ : σ}
    (h₁ : Runs m s a s₁) (h₂ : Runs m s b s₂) : a = b ∧ s₁ = s₂ := by
  unfold Runs at h₁ h₂
  rw [h₁] at h₂
  simpa using h₂

theorem commit_of_runs {m : Tx σ ε α} {s : σ} {a : α} {s' : σ} (h : Runs m s a s') :
    commit m s = s' := by
  unfold Runs at h
  simp [commit, h]

theorem commits_of_runs {m : Tx σ ε α} {s : σ} {a : α} {s' : σ} (h : Runs m s a s') :
    commits m s = true := by
  unfold Runs at h
  simp [commits, h]

theorem runs_of_commits {m : Tx σ ε α} {s : σ} (h : commits m s = true) :
    ∃ a, Runs m s a (commit m s) := by
  cases hrun : m.run s with
  | error e => simp [commits, hrun] at h
  | ok p => exact ⟨p.1, by simp [commit, Runs, hrun]⟩

/-- An attempt either commits or changes nothing. -/
theorem commit_cases (m : Tx σ ε α) (s : σ) :
    (∃ a, Runs m s a (commit m s)) ∨ commit m s = s := by
  cases h : m.run s with
  | error e => exact .inr (by simp [commit, h])
  | ok p => exact .inl ⟨p.1, by simp [commit, Runs, h]⟩

/-- Transactions that commit alike leave the same store. -/
theorem commit_congr {m n : Tx σ ε Unit} {s : σ}
    (h : ∀ s', Runs m s () s' ↔ Runs n s () s') : commit m s = commit n s := by
  rcases commit_cases m s with ⟨u, hm⟩ | hm
  · exact (commit_of_runs ((h _).1 hm)).symm
  · rcases commit_cases n s with ⟨u, hn⟩ | hn
    · exact commit_of_runs ((h _).2 hn)
    · rw [hm, hn]

/-! ## Loops -/

@[simp] theorem runs_forM_nil {f : α → Tx σ ε Unit} {s : σ} {u : Unit} {s' : σ} :
    Runs (([] : List α).forM f) s u s' ↔ s' = s := by
  simp [List.forM]

@[simp] theorem runs_forM_cons {f : α → Tx σ ε Unit} {x : α} {xs : List α} {s : σ} {u : Unit}
    {s' : σ} :
    Runs ((x :: xs).forM f) s u s' ↔ ∃ s₁, Runs (f x) s () s₁ ∧ Runs (xs.forM f) s₁ () s' := by
  simp [List.forM, runs_bind, Unique.exists_iff]

@[simp] theorem runs_foldlM_nil {f : β → α → Tx σ ε β} {b c : β} {s s' : σ} :
    Runs (([] : List α).foldlM f b) s c s' ↔ c = b ∧ s' = s := by
  simp [List.foldlM]

@[simp] theorem runs_foldlM_cons {f : β → α → Tx σ ε β} {x : α} {xs : List α} {b c : β}
    {s s' : σ} :
    Runs ((x :: xs).foldlM f b) s c s' ↔
      ∃ b₁ s₁, Runs (f b x) s b₁ s₁ ∧ Runs (xs.foldlM f b₁) s₁ c s' := by
  simp [List.foldlM, runs_bind]

/-- Loop invariant rule: `I done s` relates the elements already processed to
    the store reached. -/
theorem Runs.forM_induction {f : α → Tx σ ε Unit} {I : List α → σ → Prop} {xs : List α}
    (hstep : ∀ done x rest s s', xs = done ++ x :: rest → I done s → Runs (f x) s () s' →
      I (done ++ [x]) s') {s s' : σ} (h0 : I [] s) (h : Runs (xs.forM f) s () s') : I xs s' := by
  have hsuffix : ∀ todo done s, xs = done ++ todo → I done s → Runs (todo.forM f) s () s' →
      I xs s' := by
    intro todo
    induction todo with
    | nil =>
        intro done s hxs hI h
        rw [runs_forM_nil] at h
        simpa [hxs, h] using hI
    | cons x rest ih =>
        intro done s hxs hI h
        rw [runs_forM_cons] at h
        obtain ⟨s₁, h₁, h₂⟩ := h
        exact ih (done ++ [x]) s₁ (by simp [hxs]) (hstep done x rest s s₁ hxs hI h₁) h₂
  exact hsuffix xs [] s rfl h0 h

/-- `Runs.forM_induction` for a loop that accumulates a value. -/
theorem Runs.foldlM_induction {f : β → α → Tx σ ε β} {I : List α → σ → Prop} {xs : List α}
    (hstep : ∀ done x rest b b' s s', xs = done ++ x :: rest → I done s → Runs (f b x) s b' s' →
      I (done ++ [x]) s') {b c : β} {s s' : σ} (h0 : I [] s)
    (h : Runs (xs.foldlM f b) s c s') : I xs s' := by
  have hsuffix : ∀ todo done b s, xs = done ++ todo → I done s → Runs (todo.foldlM f b) s c s' →
      I xs s' := by
    intro todo
    induction todo with
    | nil =>
        intro done b s hxs hI h
        rw [runs_foldlM_nil] at h
        simpa [hxs, h.2] using hI
    | cons x rest ih =>
        intro done b s hxs hI h
        rw [runs_foldlM_cons] at h
        obtain ⟨b₁, s₁, h₁, h₂⟩ := h
        exact ih (done ++ [x]) b₁ s₁ (by simp [hxs]) (hstep done x rest b b₁ s s₁ hxs hI h₁) h₂
  exact hsuffix xs [] b s rfl h0 h

/-- A preorder on stores that every iteration respects is respected by the
    loop. -/
theorem Runs.forM_rel {f : α → Tx σ ε Unit} {R : σ → σ → Prop} (hrefl : ∀ s, R s s)
    (htrans : ∀ {s₁ s₂ s₃}, R s₁ s₂ → R s₂ s₃ → R s₁ s₃) :
    ∀ {xs : List α} {s s' : σ}, (∀ x ∈ xs, ∀ s s', Runs (f x) s () s' → R s s') →
      Runs (xs.forM f) s () s' → R s s' := by
  intro xs
  induction xs with
  | nil =>
      intro s s' _ h
      rw [runs_forM_nil] at h
      exact h ▸ hrefl s
  | cons x xs ih =>
      intro s s' hstep h
      rw [runs_forM_cons] at h
      obtain ⟨s₁, h₁, h₂⟩ := h
      exact htrans (hstep x (by simp) s s₁ h₁) (ih (fun y hy => hstep y (by simp [hy])) h₂)

/-- `Runs.forM_rel` for a loop that accumulates a value. -/
theorem Runs.foldlM_rel {f : β → α → Tx σ ε β} {R : σ → σ → Prop} (hrefl : ∀ s, R s s)
    (htrans : ∀ {s₁ s₂ s₃}, R s₁ s₂ → R s₂ s₃ → R s₁ s₃) :
    ∀ {xs : List α} {b c : β} {s s' : σ},
      (∀ x ∈ xs, ∀ b b' s s', Runs (f b x) s b' s' → R s s') →
      Runs (xs.foldlM f b) s c s' → R s s' := by
  intro xs
  induction xs with
  | nil =>
      intro b c s s' _ h
      rw [runs_foldlM_nil] at h
      exact h.2 ▸ hrefl s
  | cons x xs ih =>
      intro b c s s' hstep h
      rw [runs_foldlM_cons] at h
      obtain ⟨b₁, s₁, h₁, h₂⟩ := h
      exact htrans (hstep x (by simp) b b₁ s s₁ h₁) (ih (fun y hy => hstep y (by simp [hy])) h₂)

/-! ## Transactions that commit

`Succeeds m s` is the half of a specification that `Runs` leaves open: that the
transaction commits at all.  It follows a `do` block from the front, and what
the first part did is known to the second. -/

/-- `m`, started in `s`, commits. -/
def Succeeds (m : Tx σ ε α) (s : σ) : Prop := ∃ a s', Runs m s a s'

theorem Runs.succeeds {m : Tx σ ε α} {s : σ} {a : α} {s' : σ} (h : Runs m s a s') : Succeeds m s :=
  ⟨a, s', h⟩

theorem Succeeds.bind {m : Tx σ ε α} {f : α → Tx σ ε β} {s : σ} (h : Succeeds m s)
    (hf : ∀ a s₁, Runs m s a s₁ → Succeeds (f a) s₁) : Succeeds (m >>= f) s := by
  obtain ⟨a, s₁, hm⟩ := h
  obtain ⟨b, s', hb⟩ := hf a s₁ hm
  exact ⟨b, s', runs_bind.2 ⟨a, s₁, hm, hb⟩⟩

@[simp] theorem succeeds_pure {a : α} {s : σ} : Succeeds (pure a : Tx σ ε α) s :=
  ⟨a, s, runs_pure.2 ⟨rfl, rfl⟩⟩

@[simp] theorem succeeds_modify {f : σ → σ} {s : σ} : Succeeds (modify f : Tx σ ε Unit) s :=
  ⟨(), f s, runs_modify.2 rfl⟩

@[simp] theorem succeeds_get_bind {f : σ → Tx σ ε β} {s : σ} :
    Succeeds (get >>= f) s ↔ Succeeds (f s) s := by
  simp [Succeeds]

@[simp] theorem succeeds_guardTx_bind {c : Prop} [Decidable c] {e : ε} {f : Unit → Tx σ ε β} {s : σ} :
    Succeeds (guardTx c e >>= f) s ↔ c ∧ Succeeds (f ()) s := by
  simp [Succeeds]

@[simp] theorem succeeds_orThrow_bind {e : ε} {o : Option α} {f : α → Tx σ ε β} {s : σ} :
    Succeeds (orThrow e o >>= f) s ↔ ∃ a, o = some a ∧ Succeeds (f a) s := by
  simp only [Succeeds, runs_orThrow_bind]
  constructor
  · rintro ⟨b, s', a, ha, h⟩
    exact ⟨a, ha, b, s', h⟩
  · rintro ⟨a, ha, b, s', h⟩
    exact ⟨b, s', a, ha, h⟩

theorem succeeds_ite {c : Prop} [Decidable c] {m n : Tx σ ε α} {s : σ}
    (hm : c → Succeeds m s) (hn : ¬ c → Succeeds n s) : Succeeds (if c then m else n) s := by
  by_cases hc : c
  · rw [if_pos hc]
    exact hm hc
  · rw [if_neg hc]
    exact hn hc

/-- A loop commits when every iteration does, in the states the loop reaches:
    `I todo s` is what holds before the rows of `todo` are visited. -/
theorem Succeeds.forM {f : α → Tx σ ε Unit} {I : List α → σ → Prop}
    (hok : ∀ x rest s, I (x :: rest) s → Succeeds (f x) s)
    (hstep : ∀ x rest s s', I (x :: rest) s → Runs (f x) s () s' → I rest s') :
    ∀ {xs : List α} {s : σ}, I xs s → Succeeds (xs.forM f) s := by
  intro xs
  induction xs with
  | nil =>
      intro s _
      exact ⟨(), s, runs_forM_nil.2 rfl⟩
  | cons x xs ih =>
      intro s hI
      obtain ⟨u, s₁, h₁⟩ := hok x xs s hI
      obtain ⟨v, s', h₂⟩ := ih (hstep x xs s s₁ hI h₁)
      exact ⟨(), s', runs_forM_cons.2 ⟨s₁, h₁, h₂⟩⟩

/-- `Succeeds.forM` for a loop that accumulates a value. -/
theorem Succeeds.foldlM {f : β → α → Tx σ ε β} {I : List α → σ → Prop}
    (hok : ∀ b x rest s, I (x :: rest) s → Succeeds (f b x) s)
    (hstep : ∀ b b' x rest s s', I (x :: rest) s → Runs (f b x) s b' s' → I rest s') :
    ∀ {xs : List α} {b : β} {s : σ}, I xs s → Succeeds (xs.foldlM f b) s := by
  intro xs
  induction xs with
  | nil =>
      intro b s _
      exact ⟨b, s, runs_foldlM_nil.2 ⟨rfl, rfl⟩⟩
  | cons x xs ih =>
      intro b s hI
      obtain ⟨b₁, s₁, h₁⟩ := hok b x xs s hI
      obtain ⟨c, s', h₂⟩ := ih (hstep b b₁ x xs s s₁ hI h₁)
      exact ⟨c, s', runs_foldlM_cons.2 ⟨b₁, s₁, h₁, h₂⟩⟩

end Paayatam.Lib
