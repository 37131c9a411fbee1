/-
  Paayatam.Lib.Table

  Relational tables whose constraints hold by construction.

  A row type declares its primary key, its `CHECK` constraint and the pairs of
  rows that clash on some other unique index (`Row`).  A `Table` is a list of
  rows together with the proofs that every row passes its check and that no
  two rows share a key or a unique index, so a table that violates a
  constraint cannot be written down.  Every write rebuilds the table and is
  refused, with the constraint it broke, when the proofs do not exist.

  Rows are kept in insertion order; nothing but an append-only reading of a
  table depends on it.  The lemmas say what each committed write does to
  membership, to lookup by key and to `List.countP`, which is all the layers
  above ever ask.
-/

import Paayatam.Lib.Tx
import Mathlib.Data.List.Count
import Mathlib.Data.List.Pairwise
import Mathlib.Tactic.Common

namespace Paayatam.Lib

/-- Why the store refused a write. -/
inductive DbError where
  | recordNotFound
  | uniqueViolation
  | checkViolation
  deriving DecidableEq

/-- A row type: its primary key, its check, and when two rows agree on a unique
    index other than the primary key. -/
class Row (ρ : Type) (κ : outParam Type) where
  key : ρ → κ
  check : ρ → Bool
  collide : ρ → ρ → Bool
  collide_comm : ∀ a b, collide a b = collide b a

variable {ρ κ : Type} [Row ρ κ]

/-- Both rows can be stored in one table. -/
def Row.compatible (a b : ρ) : Prop := Row.key a ≠ Row.key b ∧ Row.collide a b = false

instance : Std.Symm (Row.compatible : ρ → ρ → Prop) where
  symm _ _ h := ⟨h.1.symm, by rw [Row.collide_comm]; exact h.2⟩

variable [DecidableEq κ]

instance (a b : ρ) : Decidable (Row.compatible a b) :=
  inferInstanceAs (Decidable (_ ∧ _))

/-- A list of rows that satisfies its checks and unique indexes. -/
structure Table (ρ : Type) {κ : Type} [DecidableEq κ] [Row ρ κ] where
  rows : List ρ
  valid : ∀ r ∈ rows, Row.check r = true
  distinct : rows.Pairwise Row.compatible

namespace Table

@[ext] theorem ext {t t' : Table ρ} (h : t.rows = t'.rows) : t = t' := by
  cases t
  cases t'
  simpa using h

instance [DecidableEq ρ] : DecidableEq (Table ρ) := fun t t' =>
  decidable_of_iff (t.rows = t'.rows) ⟨ext, fun h => by rw [h]⟩

def empty : Table ρ := ⟨[], by simp, by simp⟩

@[simp] theorem rows_empty : (empty : Table ρ).rows = [] := rfl

/-- The table with exactly these rows, or the constraint they break. -/
def rebuild (rows : List ρ) : Except DbError (Table ρ) :=
  if hv : ∀ r ∈ rows, Row.check r = true then
    if hd : rows.Pairwise Row.compatible then .ok ⟨rows, hv, hd⟩ else .error .uniqueViolation
  else .error .checkViolation

@[simp] theorem rebuild_eq_ok {rows : List ρ} {t : Table ρ} :
    rebuild rows = .ok t ↔ t.rows = rows := by
  constructor
  · intro h
    unfold rebuild at h
    split at h
    · split at h
      · obtain rfl := Except.ok.inj h
        rfl
      · cases h
    · cases h
  · rintro rfl
    simp only [rebuild, dif_pos t.valid, dif_pos t.distinct]

/-! ## Lookup -/

def find? (t : Table ρ) (k : κ) : Option ρ := t.rows.find? fun r => decide (Row.key r = k)

theorem mem_of_find? {t : Table ρ} {k : κ} {r : ρ} (h : t.find? k = some r) : r ∈ t.rows :=
  List.mem_of_find?_eq_some h

theorem key_of_find? {t : Table ρ} {k : κ} {r : ρ} (h : t.find? k = some r) : Row.key r = k := by
  simpa using List.find?_some h

theorem compatible_of_mem {t : Table ρ} {a b : ρ} (ha : a ∈ t.rows) (hb : b ∈ t.rows)
    (hne : a ≠ b) : Row.compatible a b :=
  t.distinct.forall ha hb hne

theorem eq_of_key {t : Table ρ} {a b : ρ} (ha : a ∈ t.rows) (hb : b ∈ t.rows)
    (hk : Row.key a = Row.key b) : a = b := by
  by_contra hne
  exact (compatible_of_mem ha hb hne).1 hk

theorem eq_of_collide {t : Table ρ} {a b : ρ} (ha : a ∈ t.rows) (hb : b ∈ t.rows)
    (hc : Row.collide a b = true) : a = b := by
  by_contra hne
  have h := (compatible_of_mem ha hb hne).2
  simp [hc] at h

theorem find?_of_mem {t : Table ρ} {r : ρ} (h : r ∈ t.rows) : t.find? (Row.key r) = some r := by
  cases hf : t.find? (Row.key r) with
  | none =>
      have := List.find?_eq_none.1 hf r h
      simp at this
  | some r' => rw [eq_of_key (mem_of_find? hf) h (key_of_find? hf)]

theorem find?_eq_some {t : Table ρ} {k : κ} {r : ρ} :
    t.find? k = some r ↔ r ∈ t.rows ∧ Row.key r = k :=
  ⟨fun h => ⟨mem_of_find? h, key_of_find? h⟩, fun h => h.2 ▸ find?_of_mem h.1⟩

theorem find?_eq_none {t : Table ρ} {k : κ} :
    t.find? k = none ↔ ∀ r ∈ t.rows, Row.key r ≠ k := by
  simp [find?]

/-! ## Insertion -/

/-- `INSERT` of one row. -/
def insert (t : Table ρ) (r : ρ) : Except DbError (Table ρ) := rebuild (t.rows ++ [r])

/-- `INSERT … ON CONFLICT DO NOTHING`: whether the row went in, and the table. -/
def insertOrIgnore (t : Table ρ) (r : ρ) : Except DbError (Bool × Table ρ) :=
  if (∀ x ∈ t.rows, Row.compatible x r) ∨ Row.check r = false then
    (t.insert r).map fun t' => (true, t')
  else .ok (false, t)

theorem insert_eq_ok {t t' : Table ρ} {r : ρ} :
    t.insert r = .ok t' ↔ t'.rows = t.rows ++ [r] := rebuild_eq_ok

theorem insertOrIgnore_eq_ok {t t' : Table ρ} {r : ρ} {b : Bool} :
    t.insertOrIgnore r = .ok (b, t') →
      (b = true ∧ t'.rows = t.rows ++ [r]) ∨
        (b = false ∧ t' = t ∧ ∃ x ∈ t.rows, ¬ Row.compatible x r) := by
  unfold insertOrIgnore
  split
  · intro h
    cases hi : t.insert r with
    | error e => simp [hi, Except.map] at h
    | ok t₁ =>
        simp only [hi, Except.map, Except.ok.injEq, Prod.mk.injEq] at h
        obtain ⟨rfl, rfl⟩ := h
        exact .inl ⟨rfl, insert_eq_ok.1 hi⟩
  · next hclash =>
      intro h
      simp only [Except.ok.injEq, Prod.mk.injEq] at h
      refine .inr ⟨h.1.symm, h.2.symm, ?_⟩
      simpa using (not_or.1 hclash).1

/-- A stored row clashes with nothing that was there before it. -/
theorem compatible_of_insert {t t' : Table ρ} {r x : ρ} (h : t'.rows = t.rows ++ [r])
    (hx : x ∈ t.rows) : Row.compatible x r := by
  have hd := t'.distinct
  rw [h, List.pairwise_append] at hd
  exact hd.2.2 x hx r (by simp)

theorem find?_of_insert {t t' : Table ρ} {r : ρ} (h : t'.rows = t.rows ++ [r]) (k : κ) :
    t'.find? k = if Row.key r = k then some r else t.find? k := by
  split
  · next hk =>
      rw [← hk]
      exact find?_of_mem (by simp [h])
  · next hk =>
      simp only [find?, h, List.find?_append]
      cases t.rows.find? fun x => decide (Row.key x = k) <;> simp [hk]

/-! ## Update of one row -/

/-- `f` on the row with key `k`, the identity on every other row. -/
def updateAt (k : κ) (f : ρ → ρ) (r : ρ) : ρ := if Row.key r = k then f r else r

/-- `UPDATE` of the row with key `k`; a missing row is an error, as the client
    library raises one. -/
def update (t : Table ρ) (k : κ) (f : ρ → ρ) : Except DbError (Table ρ) :=
  if (t.find? k).isSome then rebuild (t.rows.map (updateAt k f)) else .error .recordNotFound

/-- `t'` is `t` with its row `r` rewritten by `f`. -/
structure Rewrites (t : Table ρ) (r : ρ) (f : ρ → ρ) (t' : Table ρ) : Prop where
  mem : r ∈ t.rows
  rows : t'.rows = t.rows.map (updateAt (Row.key r) f)

theorem update_eq_ok {t t' : Table ρ} {k : κ} {f : ρ → ρ} :
    t.update k f = .ok t' ↔ ∃ r, t.find? k = some r ∧ Rewrites t r f t' := by
  unfold update
  constructor
  · intro h
    cases hf : t.find? k with
    | none => simp [hf] at h
    | some r =>
        simp only [hf, Option.isSome_some, if_true, rebuild_eq_ok] at h
        exact ⟨r, rfl, mem_of_find? hf, by rw [h, key_of_find? hf]⟩
  · rintro ⟨r, hf, -, hrows⟩
    rw [hf, Option.isSome_some, if_pos rfl, rebuild_eq_ok, hrows, key_of_find? hf]

theorem updateAt_self {k : κ} {f : ρ → ρ} {r : ρ} (h : Row.key r = k) : updateAt k f r = f r := by
  simp [updateAt, h]

theorem updateAt_other {k : κ} {f : ρ → ρ} {r : ρ} (h : Row.key r ≠ k) : updateAt k f r = r := by
  simp [updateAt, h]

namespace Rewrites

variable {t t' : Table ρ} {r x : ρ} {f : ρ → ρ}

theorem key_ne (h : Rewrites t r f t') (hx : x ∈ t.rows) (hne : x ≠ r) :
    Row.key x ≠ Row.key r :=
  fun hk => hne (eq_of_key hx h.mem hk)

/-- The rows after an update: the updated one, and the others as they were. -/
theorem cases (h : Rewrites t r f t') (hx : x ∈ t'.rows) : x = f r ∨ (x ∈ t.rows ∧ x ≠ r) := by
  rw [h.rows, List.mem_map] at hx
  obtain ⟨y, hy, rfl⟩ := hx
  by_cases hk : Row.key y = Row.key r
  · left
    rw [updateAt_self hk, eq_of_key hy h.mem hk]
  · right
    rw [updateAt_other hk]
    exact ⟨hy, fun he => hk (by rw [he])⟩

theorem self (h : Rewrites t r f t') : f r ∈ t'.rows := by
  rw [h.rows, List.mem_map]
  exact ⟨r, h.mem, updateAt_self rfl⟩

theorem other (h : Rewrites t r f t') (hx : x ∈ t.rows) (hne : x ≠ r) : x ∈ t'.rows := by
  rw [h.rows, List.mem_map]
  exact ⟨x, hx, updateAt_other (h.key_ne hx hne)⟩

theorem find? (h : Rewrites t r f t') (hkey : Row.key (f r) = Row.key r) (k : κ) :
    t'.find? k = if Row.key r = k then some (f r) else t.find? k := by
  split
  · next hk => exact find?_eq_some.2 ⟨h.self, hkey.trans hk⟩
  · next hk =>
      cases hf : t.find? k with
      | none =>
          refine find?_eq_none.2 fun x hx hxk => ?_
          rcases h.cases hx with rfl | ⟨hx, -⟩
          · exact hk (hkey.symm.trans hxk)
          · exact find?_eq_none.1 hf x hx hxk
      | some x =>
          obtain ⟨hx, hxk⟩ := find?_eq_some.1 hf
          exact find?_eq_some.2 ⟨h.other hx fun he => hk (he ▸ hxk), hxk⟩

theorem find?_self (h : Rewrites t r f t') (hkey : Row.key (f r) = Row.key r) {k : κ}
    (hk : Row.key r = k) : t'.find? k = some (f r) := by
  rw [h.find? hkey, if_pos hk]

theorem find?_other (h : Rewrites t r f t') (hkey : Row.key (f r) = Row.key r) {k : κ}
    (hk : Row.key r ≠ k) : t'.find? k = t.find? k := by
  rw [h.find? hkey, if_neg hk]

/-- Two updates of one row are one. -/
theorem trans {t₁ : Table ρ} {g : ρ → ρ} {y : ρ} (h₁ : Rewrites t r f t₁) (h₂ : Rewrites t₁ y g t')
    (hy : t₁.find? (Row.key r) = some y) (hkey : Row.key (f r) = Row.key r) :
    Rewrites t r (g ∘ f) t' where
  mem := h₁.mem
  rows := by
    rw [h₂.rows, h₁.rows, List.map_map, key_of_find? hy]
    apply List.map_congr_left
    intro x hx
    by_cases hxr : x = r
    · subst hxr
      simp [updateAt, hkey]
    · simp [updateAt, h₁.key_ne hx hxr]

/-- An update of the row just inserted. -/
theorem of_insert {t₁ : Table ρ} {y : ρ} (h : t₁.rows = t.rows ++ [r])
    (hy : t₁.find? (Row.key r) = some y) (hw : Rewrites t₁ y f t') : t'.rows = t.rows ++ [f r] := by
  have hr : r ∈ t₁.rows := by simp [h]
  obtain rfl : y = r := eq_of_key (mem_of_find? hy) hr (key_of_find? hy)
  rw [hw.rows, h, List.map_append, List.map_singleton, updateAt_self rfl]
  congr 1
  have hid : ∀ x ∈ t.rows, updateAt (Row.key y) f x = x := fun x hx =>
    updateAt_other (compatible_of_insert h hx).1
  simpa using List.map_congr_left hid

/-- Counting after an update: only the updated row can change sides. -/
theorem countP (h : Rewrites t r f t') (P : ρ → Bool) :
    t'.rows.countP P + (if P r then 1 else 0) = t.rows.countP P + (if P (f r) then 1 else 0) := by
  have hmem := h.mem
  rw [h.rows]
  have hd : t.rows.Pairwise Row.compatible := t.distinct
  clear h
  generalize t.rows = l at hmem hd
  induction l with
  | nil => cases hmem
  | cons y ys ih =>
      rw [List.pairwise_cons] at hd
      simp only [List.map_cons, List.countP_cons]
      rcases List.mem_cons.1 hmem with rfl | hys
      · -- the updated row is the head: no later row has its key
        have hrest : ys.map (updateAt (Row.key r) f) = ys := by
          have hid : ∀ z ∈ ys, updateAt (Row.key r) f z = z := fun z hz =>
            updateAt_other fun hz' => (hd.1 z hz).1 hz'.symm
          simpa using List.map_congr_left hid
        rw [hrest, updateAt_self rfl]
        omega
      · have hne : Row.key y ≠ Row.key r := (hd.1 _ hys).1
        rw [updateAt_other hne]
        have := ih hys hd.2
        omega

/-- A count the update cannot change. -/
theorem countP_eq (h : Rewrites t r f t') {P : ρ → Bool} (hP : P (f r) = P r) :
    t'.rows.countP P = t.rows.countP P := by
  have := h.countP P
  rw [hP] at this
  omega

end Rewrites

/-! ## Writes that are not refused -/

/-- `INSERT` of a row that passes its check and clashes with nothing is not refused. -/
theorem insert_total {t : Table ρ} {r : ρ} (hcheck : Row.check r = true)
    (hfree : ∀ x ∈ t.rows, Row.compatible x r) : ∃ t', t.insert r = .ok t' := by
  have hd : (t.rows ++ [r]).Pairwise Row.compatible :=
    List.pairwise_append.2 ⟨t.distinct, by simp, by simpa using hfree⟩
  have hv : ∀ x ∈ t.rows ++ [r], Row.check x = true := by
    intro x hx
    rcases List.mem_append.1 hx with hx | hx
    · exact t.valid x hx
    · rw [List.mem_singleton.1 hx, hcheck]
  exact ⟨⟨_, hv, hd⟩, rebuild_eq_ok.2 rfl⟩

/-- `INSERT … ON CONFLICT DO NOTHING` of a row that passes its check is not refused. -/
theorem insertOrIgnore_total {t : Table ρ} {r : ρ} (h : Row.check r = true) :
    ∃ p, t.insertOrIgnore r = .ok p := by
  unfold insertOrIgnore
  split
  · next hfree =>
      obtain ⟨t', hins⟩ := insert_total h (hfree.resolve_right (by simp [h]))
      exact ⟨_, by rw [hins]; rfl⟩
  · exact ⟨_, rfl⟩

/-- An update of a row that is there, to one as good as it, is not refused. -/
theorem update_total {t : Table ρ} {k : κ} {f : ρ → ρ} {r : ρ} (h : t.find? k = some r)
    (hkey : Row.key (f r) = Row.key r) (hcheck : Row.check (f r) = true)
    (hcollide : ∀ x, Row.collide (f r) x = Row.collide r x) : ∃ t', t.update k f = .ok t' := by
  have hat : ∀ x ∈ t.rows, updateAt k f x = x ∨ (x = r ∧ updateAt k f x = f r) := by
    intro x hx
    by_cases hk : Row.key x = k
    · have hxr : x = r := eq_of_key hx (mem_of_find? h) (hk.trans (key_of_find? h).symm)
      exact .inr ⟨hxr, by rw [updateAt_self hk, hxr]⟩
    · exact .inl (updateAt_other hk)
  have hfresh : ∀ x y, Row.compatible x y → (x = r → Row.compatible (f r) y) := by
    rintro x y hxy rfl
    exact ⟨by rw [hkey]; exact hxy.1, by rw [hcollide]; exact hxy.2⟩
  have hv : ∀ x ∈ t.rows.map (updateAt k f), Row.check x = true := by
    intro x hx
    obtain ⟨y, hy, rfl⟩ := List.mem_map.1 hx
    rcases hat y hy with he | ⟨-, he⟩
    · rw [he]
      exact t.valid y hy
    · rw [he, hcheck]
  have hd : (t.rows.map (updateAt k f)).Pairwise Row.compatible := by
    rw [List.pairwise_map]
    refine t.distinct.imp_of_mem fun {x y} hx hy hxy => ?_
    rcases hat x hx with he | ⟨hxr, he⟩ <;> rcases hat y hy with he' | ⟨hyr, he'⟩ <;> rw [he, he']
    · exact hxy
    · exact symm (hfresh y x (symm hxy) hyr)
    · exact hfresh x y hxy hxr
    · exact absurd (by rw [hxr, hyr]) hxy.1
  exact ⟨⟨_, hv, hd⟩, by rw [update, h, Option.isSome_some, if_pos rfl, rebuild_eq_ok]⟩

/-! ## Update of many rows -/

/-- `f` on every row that satisfies `p`. -/
def updateIf (p : ρ → Bool) (f : ρ → ρ) (r : ρ) : ρ := if p r then f r else r

/-- `UPDATE … WHERE p`. -/
def updateMany (t : Table ρ) (p : ρ → Bool) (f : ρ → ρ) : Except DbError (Table ρ) :=
  rebuild (t.rows.map (updateIf p f))

/-- A bulk update that keeps keys, checks and unique indexes is not refused. -/
theorem updateMany_total {t : Table ρ} {p : ρ → Bool} {f : ρ → ρ}
    (hkey : ∀ r, Row.key (f r) = Row.key r) (hcheck : ∀ r, Row.check (f r) = Row.check r)
    (hcollide : ∀ r x, Row.collide (f r) x = Row.collide r x) :
    ∃ t', t.updateMany p f = .ok t' := by
  have hat : ∀ r x, (Row.key (updateIf p f r) = Row.key r ∧
      Row.collide (updateIf p f r) x = Row.collide r x) ∧
      Row.check (updateIf p f r) = Row.check r := by
    intro r x
    unfold updateIf
    split
    · exact ⟨⟨hkey r, hcollide r x⟩, hcheck r⟩
    · exact ⟨⟨rfl, rfl⟩, rfl⟩
  have hv : ∀ x ∈ t.rows.map (updateIf p f), Row.check x = true := by
    intro x hx
    obtain ⟨r, hr, rfl⟩ := List.mem_map.1 hx
    rw [(hat r r).2]
    exact t.valid r hr
  have hd : (t.rows.map (updateIf p f)).Pairwise Row.compatible := by
    rw [List.pairwise_map]
    refine t.distinct.imp fun {a b} hab => ⟨?_, ?_⟩
    · rw [(hat a a).1.1, (hat b b).1.1]
      exact hab.1
    · rw [(hat a _).1.2, Row.collide_comm, (hat b a).1.2, Row.collide_comm]
      exact hab.2
  exact ⟨⟨_, hv, hd⟩, rebuild_eq_ok.2 rfl⟩

theorem updateMany_eq_ok {t t' : Table ρ} {p : ρ → Bool} {f : ρ → ρ} :
    t.updateMany p f = .ok t' ↔ t'.rows = t.rows.map (updateIf p f) := rebuild_eq_ok

/-- `t'` is `t` with every row that satisfies `p` rewritten by `f`. -/
def RewritesAll (t : Table ρ) (p : ρ → Bool) (f : ρ → ρ) (t' : Table ρ) : Prop :=
  t'.rows = t.rows.map (updateIf p f)

namespace RewritesAll

variable {t t' : Table ρ} {p : ρ → Bool} {f : ρ → ρ} {x : ρ}

theorem cases (h : RewritesAll t p f t') (hx : x ∈ t'.rows) :
    (∃ r ∈ t.rows, p r = true ∧ x = f r) ∨ (x ∈ t.rows ∧ p x = false) := by
  rw [h, List.mem_map] at hx
  obtain ⟨r, hr, rfl⟩ := hx
  cases hp : p r with
  | true => exact .inl ⟨r, hr, hp, by simp [updateIf, hp]⟩
  | false => exact .inr ⟨by simpa [updateIf, hp] using hr, by simp [updateIf, hp]⟩

theorem self (h : RewritesAll t p f t') (hx : x ∈ t.rows) (hp : p x = true) : f x ∈ t'.rows := by
  rw [h, List.mem_map]
  exact ⟨x, hx, by simp [updateIf, hp]⟩

theorem other (h : RewritesAll t p f t') (hx : x ∈ t.rows) (hp : p x = false) : x ∈ t'.rows := by
  rw [h, List.mem_map]
  exact ⟨x, hx, by simp [updateIf, hp]⟩

theorem countP (h : RewritesAll t p f t') (P : ρ → Bool) :
    t'.rows.countP P = t.rows.countP fun r => P (updateIf p f r) := by
  rw [h, List.countP_map]
  rfl

theorem find? (h : RewritesAll t p f t') (hkey : ∀ r, Row.key (f r) = Row.key r) (k : κ) :
    t'.find? k = (t.find? k).map (updateIf p f) := by
  have hsame : ∀ r, Row.key (updateIf p f r) = Row.key r := by
    intro r
    unfold updateIf
    split
    · exact hkey r
    · rfl
  unfold Table.find?
  rw [h, List.find?_map]
  congr 2
  funext r
  simp only [Function.comp_apply, hsame]

end RewritesAll

/-! ## Deletion -/

/-- `DELETE … WHERE p`. -/
def deleteMany (t : Table ρ) (p : ρ → Bool) : Table ρ where
  rows := t.rows.filter fun r => !p r
  valid r hr := t.valid r (List.mem_filter.1 hr).1
  distinct := t.distinct.filter _

@[simp] theorem rows_deleteMany {t : Table ρ} {p : ρ → Bool} :
    (t.deleteMany p).rows = t.rows.filter fun r => !p r := rfl

theorem mem_deleteMany {t : Table ρ} {p : ρ → Bool} {r : ρ} :
    r ∈ (t.deleteMany p).rows ↔ r ∈ t.rows ∧ p r = false := by
  simp

/-! ### A loop of updates

A loop that updates, one after another, rows read before it started reaches
the table in which all of them were updated. -/

/-- The rows of `t` in `done` have been rewritten, each as `f` says for it. -/
def Rewritten (t : Table ρ) [DecidableEq ρ] (f : ρ → ρ → ρ) (done : List ρ) (t' : Table ρ) : Prop :=
  t'.rows = t.rows.map fun r => if r ∈ done then f r r else r

namespace Rewritten

variable [DecidableEq ρ] {t t₁ t₂ : Table ρ} {f : ρ → ρ → ρ} {done : List ρ} {x y : ρ}

theorem start (t : Table ρ) (f : ρ → ρ → ρ) : Rewritten t f [] t := by simp [Rewritten]

theorem step (h : Rewritten t f done t₁) (hkey : ∀ r y, Row.key (f r y) = Row.key y)
    (hx : x ∈ t.rows) (hxd : x ∉ done) (hy : t₁.find? (Row.key x) = some y)
    (hw : Rewrites t₁ y (f x) t₂) : Rewritten t f (done ++ [x]) t₂ := by
  have hyk : Row.key y = Row.key x := key_of_find? hy
  rw [Rewritten, hw.rows, h, List.map_map]
  apply List.map_congr_left
  intro r hr
  by_cases hrx : r = x
  · subst hrx
    simp [updateAt, hxd, hyk]
  · have hne : Row.key r ≠ Row.key x := fun hk => hrx (eq_of_key hr hx hk)
    by_cases hrd : r ∈ done
    · simp [updateAt, hrd, hkey, hyk, hne]
    · simp [updateAt, hrd, hrx, hyk, hne]

/-- A row the loop leaves as it is. -/
theorem skip (h : Rewritten t f done t₁) (hfix : f x x = x) : Rewritten t f (done ++ [x]) t₁ := by
  rw [Rewritten, h]
  apply List.map_congr_left
  intro r _
  by_cases hrx : r = x
  · subst hrx
    simp [hfix]
  · simp [hrx]

/-- Once every row that satisfies `p` is done, the loop was one bulk update. -/
theorem all {p : ρ → Bool} (h : Rewritten t f done t₁)
    (hdone : ∀ r ∈ t.rows, r ∈ done ↔ p r = true) : RewritesAll t p (fun r => f r r) t₁ := by
  rw [RewritesAll, h]
  apply List.map_congr_left
  intro r hr
  simp [updateIf, hdone r hr]

end Rewritten

end Table

/-! ## Tables inside a store -/

/-- The store `σ` holds a table of `ρ`. -/
class HasTable (σ ρ : Type) {κ : outParam Type} [DecidableEq κ] [Row ρ κ] where
  table : σ → Table ρ
  setTable : Table ρ → σ → σ

/-- The error a refused write raises in the program. -/
class OfDbError (ε : Type) where
  ofDbError : DbError → ε

section TxOps

variable {σ ε : Type} [HasTable σ ρ]

open HasTable

/-- The row with key `k`, if there is one. -/
def findRow (k : κ) : Tx σ ε (Option ρ) := do
  let s ← get
  return (table s).find? k

/-- The rows that satisfy `p`, in insertion order. -/
def findRows (p : ρ → Bool) : Tx σ ε (List ρ) := do
  let s ← get
  return (table s).rows.filter p

/-- The number of rows that satisfy `p`. -/
def countRows (p : ρ → Bool) : Tx σ ε Nat := do
  let s ← get
  return (table s).rows.countP p

variable {s s' : σ}

@[simp] theorem runs_findRow {k : κ} {o : Option ρ} :
    Runs (findRow k : Tx σ ε (Option ρ)) s o s' ↔ o = (table s).find? k ∧ s' = s := by
  simp [findRow, and_comm]

@[simp] theorem runs_findRows {p : ρ → Bool} {l : List ρ} :
    Runs (findRows p : Tx σ ε (List ρ)) s l s' ↔ l = (table s).rows.filter p ∧ s' = s := by
  simp [findRows, and_comm]

@[simp] theorem runs_countRows {p : ρ → Bool} {n : Nat} :
    Runs (countRows p : Tx σ ε Nat) s n s' ↔ n = (table s).rows.countP p ∧ s' = s := by
  simp [countRows, and_comm]

variable {β : Type} {b : β}

@[simp] theorem runs_findRow_bind {k : κ} {f : Option ρ → Tx σ ε β} :
    Runs (findRow k >>= f) s b s' ↔ Runs (f ((table s).find? k)) s b s' := by
  simp [runs_bind]

@[simp] theorem runs_findRows_bind {p : ρ → Bool} {f : List ρ → Tx σ ε β} :
    Runs (findRows p >>= f) s b s' ↔ Runs (f ((table s).rows.filter p)) s b s' := by
  simp [runs_bind]

@[simp] theorem runs_countRows_bind {p : ρ → Bool} {f : Nat → Tx σ ε β} :
    Runs (countRows p >>= f) s b s' ↔ Runs (f ((table s).rows.countP p)) s b s' := by
  simp [runs_bind]

@[simp] theorem succeeds_findRow_bind {k : κ} {f : Option ρ → Tx σ ε β} :
    Succeeds (findRow k >>= f) s ↔ Succeeds (f ((table s).find? k)) s := by
  simp [Succeeds]

@[simp] theorem succeeds_findRows_bind {p : ρ → Bool} {f : List ρ → Tx σ ε β} :
    Succeeds (findRows p >>= f) s ↔ Succeeds (f ((table s).rows.filter p)) s := by
  simp [Succeeds]

variable [OfDbError ε]

/-- Replaces a table by what a constrained write makes of it. -/
def writeTable (f : Table ρ → Except DbError (Table ρ)) : Tx σ ε Unit :=
  attempt fun s =>
    match f (table s) with
    | .ok t => .ok (setTable t s)
    | .error e => .error (OfDbError.ofDbError e)

def insertRow (r : ρ) : Tx σ ε Unit := writeTable fun t => t.insert r

def updateRow (k : κ) (f : ρ → ρ) : Tx σ ε Unit := writeTable fun t => t.update k f

def updateRows (p : ρ → Bool) (f : ρ → ρ) : Tx σ ε Unit := writeTable fun t => t.updateMany p f

def deleteRows (p : ρ → Bool) : Tx σ ε Unit :=
  modify fun s => setTable ((table s).deleteMany p) s

/-- Inserts unless the row clashes with a stored one, and says which. -/
def insertRowOrIgnore (r : ρ) : Tx σ ε Bool := fun s =>
  match (table s).insertOrIgnore r with
  | .ok (b, t) => .ok (b, setTable t s)
  | .error e => .error (OfDbError.ofDbError e)

theorem runs_writeTable {f : Table ρ → Except DbError (Table ρ)} {u : Unit} :
    Runs (writeTable f : Tx σ ε Unit) s u s' ↔
      ∃ t, f (table s) = .ok t ∧ s' = setTable t s := by
  simp only [writeTable, runs_attempt]
  cases f (table s) <;> simp [eq_comm]

/-- A committed insert appended its row. -/
@[simp] theorem runs_insertRow {r : ρ} {u : Unit} :
    Runs (insertRow r : Tx σ ε Unit) s u s' ↔
      ∃ t, t.rows = (table s).rows ++ [r] ∧ s' = setTable t s := by
  simp only [insertRow, runs_writeTable, Table.insert_eq_ok]

/-- A committed update found its row and rewrote it. -/
@[simp] theorem runs_updateRow {k : κ} {f : ρ → ρ} {u : Unit} :
    Runs (updateRow k f : Tx σ ε Unit) s u s' ↔
      ∃ r, (table s).find? k = some r ∧
        ∃ t, Table.Rewrites (table s) r f t ∧ s' = setTable t s := by
  simp only [updateRow, runs_writeTable, Table.update_eq_ok]
  constructor
  · rintro ⟨t, ⟨r, hr, ht⟩, rfl⟩
    exact ⟨r, hr, t, ht, rfl⟩
  · rintro ⟨r, hr, t, ht, rfl⟩
    exact ⟨t, ⟨r, hr, ht⟩, rfl⟩

@[simp] theorem runs_updateRows {p : ρ → Bool} {f : ρ → ρ} {u : Unit} :
    Runs (updateRows p f : Tx σ ε Unit) s u s' ↔
      ∃ t, t.rows = (table s).rows.map (Table.updateIf p f) ∧ s' = setTable t s := by
  simp only [updateRows, runs_writeTable, Table.updateMany_eq_ok]

@[simp] theorem runs_insertRow_bind {r : ρ} {f : Unit → Tx σ ε β} :
    Runs (insertRow r >>= f) s b s' ↔
      ∃ t, t.rows = (table s).rows ++ [r] ∧ Runs (f ()) (setTable t s) b s' := by
  simp only [runs_bind, runs_insertRow, Unique.exists_iff]
  constructor
  · rintro ⟨_, ⟨t, ht, rfl⟩, h⟩
    exact ⟨t, ht, h⟩
  · rintro ⟨t, ht, h⟩
    exact ⟨_, ⟨t, ht, rfl⟩, h⟩

@[simp] theorem runs_updateRow_bind {k : κ} {g : ρ → ρ} {f : Unit → Tx σ ε β} :
    Runs (updateRow k g >>= f) s b s' ↔
      ∃ r, (table s).find? k = some r ∧
        ∃ t, Table.Rewrites (table s) r g t ∧ Runs (f ()) (setTable t s) b s' := by
  simp only [runs_bind, runs_updateRow, Unique.exists_iff]
  constructor
  · rintro ⟨_, ⟨r, hr, t, ht, rfl⟩, h⟩
    exact ⟨r, hr, t, ht, h⟩
  · rintro ⟨r, hr, t, ht, h⟩
    exact ⟨_, ⟨r, hr, t, ht, rfl⟩, h⟩

@[simp] theorem runs_updateRows_bind {p : ρ → Bool} {g : ρ → ρ} {f : Unit → Tx σ ε β} :
    Runs (updateRows p g >>= f) s b s' ↔
      ∃ t, t.rows = (table s).rows.map (Table.updateIf p g) ∧
        Runs (f ()) (setTable t s) b s' := by
  simp only [runs_bind, runs_updateRows, Unique.exists_iff]
  constructor
  · rintro ⟨_, ⟨t, ht, rfl⟩, h⟩
    exact ⟨t, ht, h⟩
  · rintro ⟨t, ht, h⟩
    exact ⟨_, ⟨t, ht, rfl⟩, h⟩

omit [OfDbError ε] in
@[simp] theorem runs_deleteRows {p : ρ → Bool} {u : Unit} :
    Runs (deleteRows p : Tx σ ε Unit) s u s' ↔ s' = setTable ((table s).deleteMany p) s := by
  simp [deleteRows]

theorem runs_insertRowOrIgnore {r : ρ} {b : Bool}
    (h : Runs (insertRowOrIgnore r : Tx σ ε Bool) s b s') :
    ∃ t, s' = setTable t s ∧
      ((b = true ∧ t.rows = (table s).rows ++ [r]) ∨
        (b = false ∧ t = table s ∧ ∃ x ∈ (table s).rows, ¬ Row.compatible x r)) := by
  simp only [Runs, insertRowOrIgnore, StateT.run] at h
  split at h
  · next b' t hi =>
      simp only [Except.ok.injEq, Prod.mk.injEq] at h
      obtain ⟨rfl, rfl⟩ := h
      exact ⟨t, rfl, Table.insertOrIgnore_eq_ok hi⟩
  · cases h

/-! The writes that are not refused, as transactions that commit. -/

theorem succeeds_insertRow {r : ρ} (hcheck : Row.check r = true)
    (hfree : ∀ x ∈ (table s).rows, Row.compatible x r) :
    Succeeds (insertRow r : Tx σ ε Unit) s := by
  obtain ⟨t, ht⟩ := Table.insert_total hcheck hfree
  exact ⟨(), setTable t s, runs_writeTable.2 ⟨t, ht, rfl⟩⟩

theorem succeeds_insertRowOrIgnore {r : ρ} (hcheck : Row.check r = true) :
    Succeeds (insertRowOrIgnore r : Tx σ ε Bool) s := by
  obtain ⟨⟨b, t⟩, ht⟩ := Table.insertOrIgnore_total (t := (table s : Table ρ)) hcheck
  refine ⟨b, setTable t s, ?_⟩
  simp only [Runs, insertRowOrIgnore, StateT.run, ht]

theorem succeeds_updateRow {k : κ} {f : ρ → ρ} {r : ρ} (h : (table s).find? k = some r)
    (hkey : Row.key (f r) = Row.key r) (hcheck : Row.check (f r) = true)
    (hcollide : ∀ x, Row.collide (f r) x = Row.collide r x) :
    Succeeds (updateRow k f : Tx σ ε Unit) s := by
  obtain ⟨t, ht⟩ := Table.update_total h hkey hcheck hcollide
  exact ⟨(), setTable t s, runs_writeTable.2 ⟨t, ht, rfl⟩⟩

theorem succeeds_updateRows {p : ρ → Bool} {f : ρ → ρ} (hkey : ∀ r, Row.key (f r) = Row.key r)
    (hcheck : ∀ r, Row.check (f r) = Row.check r)
    (hcollide : ∀ r x, Row.collide (f r) x = Row.collide r x) :
    Succeeds (updateRows p f : Tx σ ε Unit) s := by
  obtain ⟨t, ht⟩ := Table.updateMany_total (t := (table s : Table ρ)) hkey hcheck hcollide
  exact ⟨(), setTable t s, runs_writeTable.2 ⟨t, ht, rfl⟩⟩

end TxOps

end Paayatam.Lib
