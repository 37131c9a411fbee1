/-
  Paayatam.Lib.Keyset

  Keyset pagination over a changing table.

  Rows are ranked in a linear order and no two rows of one table share a rank.
  A page is the first rows, in rank order, that rank strictly above the last row
  of the page before.  The table may be another one at every page: what the
  pages have to do with each other is only the rank they continue from.
-/

import Mathlib.Data.List.Sort
import Mathlib.Order.Defs.LinearOrder

namespace Paayatam.Lib

variable {α κ : Type} [LinearOrder κ] {rank : α → κ} {k : Option κ} {rows page : List α} {a x : α}

/-- The row ranks strictly above the position, if there is one. -/
def After (rank : α → κ) (k : Option κ) (a : α) : Prop := ∀ from' ∈ k, from' < rank a

instance : Decidable (After rank k a) :=
  match k with
  | none => .isTrue nofun
  | some from' => decidable_of_iff (from' < rank a) (by simp [After])

theorem after_none : After rank none a := nofun

theorem after_some {from' : κ} : After rank (some from') a ↔ from' < rank a :=
  ⟨fun h => h from' rfl, fun h _ hfrom => Option.some.inj hfrom ▸ h⟩

/-- What is left from a position on, in order. -/
def remaining (rank : α → κ) (k : Option κ) (rows : List α) : List α :=
  (rows.filter fun a => After rank k a).insertionSort fun a b => rank a ≤ rank b

/-- No two rows of the table share a rank. -/
def Ranked (rank : α → κ) (rows : List α) : Prop := rows.Pairwise fun a b => rank a ≠ rank b

theorem mem_remaining : a ∈ remaining rank k rows ↔ a ∈ rows ∧ After rank k a := by
  rw [remaining, List.mem_insertionSort, List.mem_filter, decide_eq_true_eq]

/-- Filtering and sorting by tests that decide the position and the rank. -/
theorem remaining_eq {f : α → Bool} {r : α → α → Prop} [DecidableRel r]
    (hf : ∀ a ∈ rows, f a = true ↔ After rank k a) (hr : ∀ a b, r a b ↔ rank a ≤ rank b) :
    (rows.filter f).insertionSort r = remaining rank k rows := by
  have hfilter : rows.filter f = rows.filter fun a => After rank k a := by
    refine List.filter_congr fun a ha => ?_
    rw [Bool.eq_iff_iff, hf a ha, decide_eq_true_eq]
  have hrel : r = fun a b => rank a ≤ rank b := by
    funext a b
    exact propext (hr a b)
  subst hrel
  rw [hfilter, remaining]
  congr

theorem remaining_pairwise (h : Ranked rank rows) :
    (remaining rank k rows).Pairwise fun a b => rank a < rank b := by
  have hsorted : (remaining rank k rows).Pairwise fun a b => rank a ≤ rank b := by
    have : Std.Total fun a b : α => rank a ≤ rank b := ⟨fun a b => le_total _ _⟩
    have : IsTrans α fun a b => rank a ≤ rank b := ⟨fun a b c => le_trans⟩
    exact List.pairwise_insertionSort _ _
  have hne : (remaining rank k rows).Pairwise fun a b => rank a ≠ rank b := by
    have hperm := List.perm_insertionSort (fun a b : α => rank a ≤ rank b)
      (rows.filter fun a => After rank k a)
    exact (hperm.pairwise_iff fun hab => Ne.symm hab).2 (h.sublist List.filter_sublist)
  exact (hsorted.and hne).imp fun hab => lt_of_le_of_ne hab.1 hab.2

/-! ## One page -/

/-- The rows of a page are the lowest that are left. -/
theorem page_lt (h : Ranked rank rows) {n : Nat} (ha : a ∈ remaining rank k rows)
    (hout : a ∉ (remaining rank k rows).take n) (hx : x ∈ (remaining rank k rows).take n) :
    rank x < rank a := by
  have hsplit := List.take_append_drop n (remaining rank k rows)
  have hsorted := remaining_pairwise (k := k) h
  rw [← hsplit] at ha hsorted
  have hdrop : a ∈ (remaining rank k rows).drop n := (List.mem_append.1 ha).resolve_left hout
  exact (List.pairwise_append.1 hsorted).2.2 x hx a hdrop

/-- The last row of a page is its highest. -/
theorem page_le_last (h : Ranked rank rows) {n : Nat} {last : α}
    (hlast : ((remaining rank k rows).take n).getLast? = some last)
    (hx : x ∈ (remaining rank k rows).take n) : rank x ≤ rank last := by
  have hsorted : ((remaining rank k rows).take n).Pairwise fun a b => rank a < rank b :=
    (remaining_pairwise h).sublist (List.take_sublist _ _)
  obtain ⟨init, hinit⟩ := List.getLast?_eq_some_iff.1 hlast
  rw [hinit] at hsorted hx
  rcases List.mem_append.1 hx with hx | hx
  · exact le_of_lt ((List.pairwise_append.1 hsorted).2.2 x hx last (List.mem_singleton_self _))
  · rw [List.mem_singleton.1 hx]

/-! ## Following the pages -/

/-- Following the pages from a position over the successive tables: what was shown, and
whether the last page was reached.  A page that is not the last one ends at the row the next
page continues from. -/
inductive Followed (rank : α → κ) : Option κ → List (List α) → List α → Bool → Prop
  | stop {k : Option κ} : Followed rank k [] [] false
  | last {k : Option κ} {rows : List α} : Followed rank k [rows] (remaining rank k rows) true
  | next {k : Option κ} {rows shown : List α} {tables : List (List α)} {n : Nat} {last : α}
      {done : Bool}
      (hlast : ((remaining rank k rows).take n).getLast? = some last)
      (hrest : Followed rank (some (rank last)) tables shown done) :
      Followed rank k (rows :: tables) ((remaining rank k rows).take n ++ shown) done

variable {tables : List (List α)} {shown : List α} {done : Bool}

/-- Each row shown was in one of the tables and ranks above the position. -/
theorem Followed.mem (h : Followed rank k tables shown done)
    (hranked : ∀ rows ∈ tables, Ranked rank rows) (ha : a ∈ shown) :
    (∃ rows ∈ tables, a ∈ rows) ∧ After rank k a := by
  induction h with
  | stop => cases ha
  | last =>
      obtain ⟨hmem, hafter⟩ := mem_remaining.1 ha
      exact ⟨⟨_, List.mem_cons_self, hmem⟩, hafter⟩
  | @next k rows shown tables n last done hlast hrest ih =>
      rcases List.mem_append.1 ha with ha | ha
      · obtain ⟨hmem, hafter⟩ := mem_remaining.1 (List.mem_of_mem_take ha)
        exact ⟨⟨rows, List.mem_cons_self, hmem⟩, hafter⟩
      · obtain ⟨⟨rows', hrows', hmem⟩, hafter⟩ :=
          ih (fun rows' hr => hranked rows' (List.mem_cons_of_mem _ hr)) ha
        have hkept : last ∈ remaining rank k rows :=
          List.mem_of_mem_take (List.mem_of_getLast? hlast)
        refine ⟨⟨rows', List.mem_cons_of_mem _ hrows', hmem⟩, fun from' hfrom => ?_⟩
        exact lt_trans ((mem_remaining.1 hkept).2 from' hfrom) (hafter _ rfl)

/-- What is shown is strictly increasing, so no rank is shown twice. -/
theorem Followed.pairwise (h : Followed rank k tables shown done)
    (hranked : ∀ rows ∈ tables, Ranked rank rows) :
    shown.Pairwise fun a b => rank a < rank b := by
  induction h with
  | stop => exact List.Pairwise.nil
  | last => exact remaining_pairwise (hranked _ List.mem_cons_self)
  | @next k rows shown tables n last done hlast hrest ih =>
      have hrows : Ranked rank rows := hranked rows List.mem_cons_self
      have htables : ∀ rows' ∈ tables, Ranked rank rows' :=
        fun rows' hr => hranked rows' (List.mem_cons_of_mem _ hr)
      refine List.pairwise_append.2 ⟨?_, ih htables, fun x hx y hy => ?_⟩
      · exact (remaining_pairwise hrows).sublist (List.take_sublist _ _)
      · exact lt_of_le_of_lt (page_le_last hrows hlast hx) ((hrest.mem htables hy).2 _ rfl)

/-- A row that is in every table and ranks above the position is shown, unless the pages
were not followed to where it ranks. -/
theorem Followed.complete (h : Followed rank k tables shown done)
    (hranked : ∀ rows ∈ tables, Ranked rank rows) (ha : ∀ rows ∈ tables, a ∈ rows)
    (hafter : After rank k a) :
    a ∈ shown ∨ done = false ∧ ∀ x ∈ shown, rank x < rank a := by
  induction h with
  | stop => exact .inr ⟨rfl, nofun⟩
  | last => exact .inl (mem_remaining.2 ⟨ha _ List.mem_cons_self, hafter⟩)
  | @next k rows shown tables n last done hlast hrest ih =>
      have hrows : Ranked rank rows := hranked rows List.mem_cons_self
      have hleft : a ∈ remaining rank k rows :=
        mem_remaining.2 ⟨ha rows List.mem_cons_self, hafter⟩
      by_cases hin : a ∈ (remaining rank k rows).take n
      · exact .inl (List.mem_append_left _ hin)
      · have habove : After rank (some (rank last)) a := by
          intro from' hfrom
          rw [← Option.some.inj hfrom]
          exact page_lt hrows hleft hin (List.mem_of_getLast? hlast)
        rcases ih (fun rows' hr => hranked rows' (List.mem_cons_of_mem _ hr))
          (fun rows' hr => ha rows' (List.mem_cons_of_mem _ hr)) habove with hshown | ⟨hdone, hlt⟩
        · exact .inl (List.mem_append_right _ hshown)
        · refine .inr ⟨hdone, fun x hx => ?_⟩
          rcases List.mem_append.1 hx with hx | hx
          · exact page_lt hrows hleft hin hx
          · exact hlt x hx

end Paayatam.Lib
