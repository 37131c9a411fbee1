/-
  Paayatam.Lib.Refusal

  What a transaction refuses with.

  `Refuses m s e` is the other half of `Runs m s a s'`: from store `s` the
  transaction `m` aborts with `e`.  A transaction does one of the two and never
  both, so a claim about who is refused is a claim about who is not served.
  `RefusesOnly P m` bounds the errors `m` can abort with at all, whatever the
  store; it is read off the statements of `m` one by one.
-/

import Paayatam.Lib.Table

namespace Paayatam.Lib

variable {σ ε α β : Type}

/-- `m`, started in `s`, aborts with `e`. -/
def Refuses (m : Tx σ ε α) (s : σ) (e : ε) : Prop := m.run s = .error e

/-- Whatever `m` aborts with satisfies `P`. -/
def RefusesOnly (P : ε → Prop) (m : Tx σ ε α) : Prop := ∀ s e, Refuses m s e → P e

section Refusals

variable {m : Tx σ ε α} {f : α → Tx σ ε β} {s s₁ : σ} {a : α} {e e' : ε}

theorem succeeds_or_refuses (m : Tx σ ε α) (s : σ) : Succeeds m s ∨ ∃ e, Refuses m s e := by
  cases h : m.run s with
  | ok p => exact .inl ⟨p.1, p.2, h⟩
  | error e => exact .inr ⟨e, h⟩

theorem Refuses.not_succeeds (h : Refuses m s e) : ¬ Succeeds m s := by
  rintro ⟨a, s', hruns⟩
  have hboth : (Except.error e : Except ε (α × σ)) = .ok (a, s') := h.symm.trans hruns
  cases hboth

theorem Succeeds.not_refuses (h : Succeeds m s) : ¬ Refuses m s e := fun hr => hr.not_succeeds h

theorem Refuses.unique (h : Refuses m s e) (h' : Refuses m s e') : e = e' := by
  have hboth : (Except.error e : Except ε (α × σ)) = .error e' := h.symm.trans h'
  exact Except.error.inj hboth

theorem Refuses.bind (h : Refuses m s e) : Refuses (m >>= f) s e := by
  have hrun : m.run s = .error e := h
  show (m >>= f).run s = .error e
  rw [StateT.run_bind, hrun]
  rfl

/-- What comes first and commits refuses nothing. -/
theorem Runs.refuses_bind (h : Runs m s a s₁) : Refuses (m >>= f) s e ↔ Refuses (f a) s₁ e := by
  have hrun : m.run s = .ok (a, s₁) := h
  show (m >>= f).run s = .error e ↔ _
  rw [StateT.run_bind, hrun]
  rfl

theorem Runs.runs_bind (h : Runs m s a s₁) {b : β} {s' : σ} :
    Runs (m >>= f) s b s' ↔ Runs (f a) s₁ b s' := by
  rw [Lib.runs_bind]
  constructor
  · rintro ⟨a', s₂, h', hf⟩
    obtain ⟨rfl, rfl⟩ := h.det h'
    exact hf
  · intro hf
    exact ⟨a, s₁, h, hf⟩

theorem refuses_pure : ¬ Refuses (pure a : Tx σ ε α) s e :=
  succeeds_pure.not_refuses

theorem refuses_guardTx {c : Prop} [Decidable c] :
    Refuses (guardTx c e : Tx σ ε Unit) s e' ↔ ¬ c ∧ e' = e := by
  by_cases hc : c
  · have hruns : Runs (guardTx c e : Tx σ ε Unit) s () s := runs_guardTx.2 ⟨hc, rfl⟩
    exact ⟨fun h => absurd hruns.succeeds h.not_succeeds, fun h => absurd hc h.1⟩
  · have hrefuses : Refuses (guardTx c e : Tx σ ε Unit) s e := by
      rw [guardTx, if_neg hc]
      rfl
    constructor
    · intro h
      exact ⟨hc, h.unique hrefuses⟩
    · rintro ⟨-, rfl⟩
      exact hrefuses

theorem refuses_guardTx_bind {c : Prop} [Decidable c] {f : Unit → Tx σ ε β} :
    Refuses (guardTx c e >>= f) s e' ↔ (¬ c ∧ e' = e) ∨ (c ∧ Refuses (f ()) s e') := by
  by_cases hc : c
  · have hruns : Runs (guardTx c e : Tx σ ε Unit) s () s := runs_guardTx.2 ⟨hc, rfl⟩
    rw [hruns.refuses_bind]
    simp [hc]
  · have hrefuses : Refuses (guardTx c e : Tx σ ε Unit) s e := refuses_guardTx.2 ⟨hc, rfl⟩
    constructor
    · intro h
      exact .inl ⟨hc, h.unique hrefuses.bind⟩
    · rintro (⟨-, rfl⟩ | ⟨h, -⟩)
      · exact hrefuses.bind
      · exact absurd h hc

theorem refuses_orThrow_bind {o : Option α} :
    Refuses (orThrow e o >>= f) s e' ↔
      (o = none ∧ e' = e) ∨ ∃ a, o = some a ∧ Refuses (f a) s e' := by
  cases o with
  | none =>
      have hrefuses : Refuses (orThrow e (none : Option α) : Tx σ ε α) s e := rfl
      constructor
      · intro h
        exact .inl ⟨rfl, h.unique hrefuses.bind⟩
      · rintro (⟨-, rfl⟩ | ⟨a, h, -⟩)
        · exact hrefuses.bind
        · cases h
  | some a =>
      have hruns : Runs (orThrow e (some a) : Tx σ ε α) s a s := runs_orThrow.2 ⟨rfl, rfl⟩
      rw [hruns.refuses_bind]
      simp

theorem refuses_bind : Refuses (m >>= f) s e ↔
    Refuses m s e ∨ ∃ a s₁, Runs m s a s₁ ∧ Refuses (f a) s₁ e := by
  rcases succeeds_or_refuses m s with ⟨a, s₁, hruns⟩ | ⟨e₀, hrefuses⟩
  · rw [hruns.refuses_bind]
    constructor
    · intro h
      exact .inr ⟨a, s₁, hruns, h⟩
    · rintro (h | ⟨a', s₂, h', hf⟩)
      · exact absurd hruns.succeeds h.not_succeeds
      · obtain ⟨rfl, rfl⟩ := hruns.det h'
        exact hf
  · constructor
    · intro h
      exact .inl (h.unique hrefuses.bind ▸ hrefuses)
    · rintro (h | ⟨a', s₂, h', -⟩)
      · exact h.bind
      · exact absurd h'.succeeds hrefuses.not_succeeds

end Refusals

section Bounds

variable {P : ε → Prop} {m : Tx σ ε α} {f : α → Tx σ ε β} {e : ε}

theorem RefusesOnly.bind (hm : RefusesOnly P m) (hf : ∀ a, RefusesOnly P (f a)) :
    RefusesOnly P (m >>= f) := by
  intro s e h
  rcases refuses_bind.1 h with h | ⟨a, s₁, -, h⟩
  · exact hm s e h
  · exact hf a s₁ e h

theorem refusesOnly_pure (a : α) : RefusesOnly P (pure a : Tx σ ε α) :=
  fun _ _ h => absurd h refuses_pure

theorem refusesOnly_guardTx {c : Prop} [Decidable c] (he : P e) :
    RefusesOnly P (guardTx c e : Tx σ ε Unit) := by
  intro s e' h
  rw [(refuses_guardTx.1 h).2]
  exact he

theorem refusesOnly_orThrow (o : Option α) (he : P e) :
    RefusesOnly P (orThrow e o : Tx σ ε α) := by
  intro s e' h
  cases o with
  | none =>
      have hrefuses : Refuses (orThrow e (none : Option α) : Tx σ ε α) s e := rfl
      rw [h.unique hrefuses]
      exact he
  | some a => exact absurd h refuses_pure

theorem refusesOnly_findRow {ρ κ : Type} [DecidableEq κ] [Row ρ κ] [HasTable σ ρ] (k : κ) :
    RefusesOnly P (findRow k : Tx σ ε (Option ρ)) := by
  intro s e h
  have hruns : Runs (findRow k : Tx σ ε (Option ρ)) s _ s := runs_findRow.2 ⟨rfl, rfl⟩
  exact absurd hruns.succeeds h.not_succeeds

end Bounds

end Paayatam.Lib
