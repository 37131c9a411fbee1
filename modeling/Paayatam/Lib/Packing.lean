/-
  Paayatam.Lib.Packing

  Blocks packed into pages, as many to a page as fit.

  A page is begun with the block that no longer fitted the one before it.  What
  can be read through the joiner is the same on the pages as in the blocks
  (`flatMap_greedy`), a page that does not fit is a block of its own
  (`mem_greedy`), and where sizes add up no other way to cut the blocks into
  pages that fit takes fewer of them (`length_greedy_le`).
-/

import Mathlib.Data.List.Basic

namespace Paayatam.Lib

section Greedy

variable {α β : Type} {full : List α → Bool} {joiner held page : List α} {blocks : List (List α)}

/-- Blocks behind what a page already holds: one is joined to it, or begins the next page. -/
def greedy (full : List α → Bool) (joiner : List α) : List α → List (List α) → List (List α)
  | held, [] => if held.isEmpty then [] else [held]
  | held, block :: blocks =>
    let candidate := if held.isEmpty then block else held ++ joiner ++ block
    if full candidate && !held.isEmpty then held :: greedy full joiner block blocks
    else greedy full joiner candidate blocks

theorem greedy_nil : greedy full joiner [] [] = [] := rfl

theorem greedy_held (hne : held ≠ []) : greedy full joiner held [] = [held] :=
  if_neg fun h => hne (List.isEmpty_iff.1 h)

theorem greedy_cons {block : List α} :
    greedy full joiner held (block :: blocks) =
      let candidate := if held.isEmpty then block else held ++ joiner ++ block
      if full candidate && !held.isEmpty then held :: greedy full joiner block blocks
      else greedy full joiner candidate blocks := rfl

theorem greedy_nil_cons (block : List α) :
    greedy full joiner [] (block :: blocks) = greedy full joiner block blocks := by
  simp [greedy_cons]

theorem greedy_full (hne : held ≠ []) {block : List α}
    (h : full (held ++ joiner ++ block) = true) :
    greedy full joiner held (block :: blocks) = held :: greedy full joiner block blocks := by
  have hempty : held.isEmpty = false := by simpa using hne
  simp only [greedy_cons, hempty, h, Bool.false_eq_true, if_false, Bool.not_false, Bool.and_self, if_true]

theorem greedy_fits (hne : held ≠ []) {block : List α}
    (h : full (held ++ joiner ++ block) = false) :
    greedy full joiner held (block :: blocks) =
      greedy full joiner (held ++ joiner ++ block) blocks := by
  have hempty : held.isEmpty = false := by simpa using hne
  simp only [greedy_cons, hempty, h, Bool.false_eq_true, if_false, Bool.false_and]

/-- What is read through the joiner is the same on the pages. -/
theorem flatMap_greedy {read : List α → List β} (hnil : read [] = [])
    (hjoin : ∀ x y, read (x ++ joiner ++ y) = read x ++ read y) (held : List α)
    (blocks : List (List α)) :
    (greedy full joiner held blocks).flatMap read = read held ++ blocks.flatMap read := by
  induction blocks generalizing held with
  | nil =>
      cases held with
      | nil => simp [greedy_nil, hnil]
      | cons c held => simp [greedy_held]
  | cons block blocks ih =>
      by_cases hheld : held = []
      · rw [hheld, greedy_nil_cons, ih, hnil, List.flatMap_cons, List.nil_append]
      · cases hover : full (held ++ joiner ++ block) with
        | true => rw [greedy_full hheld hover, List.flatMap_cons, ih, List.flatMap_cons]
        | false =>
            rw [greedy_fits hheld hover, ih, hjoin, List.append_assoc, List.flatMap_cons]

/-- A page that does not fit is what was held, or a block of its own; none is empty. -/
theorem mem_greedy (h : page ∈ greedy full joiner held blocks) :
    page ≠ [] ∧ (full page = false ∨ page = held ∨ page ∈ blocks) := by
  induction blocks generalizing held with
  | nil =>
      cases held with
      | nil => cases h
      | cons c held =>
          obtain rfl : page = c :: held := by simpa [greedy_held] using h
          exact ⟨List.cons_ne_nil c held, .inr (.inl rfl)⟩
  | cons block blocks ih =>
      have hrest : page ∈ greedy full joiner block blocks →
          page ≠ [] ∧ (full page = false ∨ page = held ∨ page ∈ block :: blocks) := by
        intro hin
        obtain ⟨hne, hfits | rfl | hblock⟩ := ih hin
        · exact ⟨hne, .inl hfits⟩
        · exact ⟨hne, .inr (.inr List.mem_cons_self)⟩
        · exact ⟨hne, .inr (.inr (List.mem_cons_of_mem block hblock))⟩
      by_cases hheld : held = []
      · rw [hheld, greedy_nil_cons] at h
        exact hrest h
      · cases hover : full (held ++ joiner ++ block) with
        | true =>
            rw [greedy_full hheld hover] at h
            rcases List.mem_cons.1 h with rfl | hin
            · exact ⟨hheld, .inr (.inl rfl)⟩
            · exact hrest hin
        | false =>
            rw [greedy_fits hheld hover] at h
            obtain ⟨hne, hfits | rfl | hblock⟩ := ih h
            · exact ⟨hne, .inl hfits⟩
            · exact ⟨hne, .inl hover⟩
            · exact ⟨hne, .inr (.inr (List.mem_cons_of_mem block hblock))⟩

end Greedy

/-! ## No fewer pages -/

section Fewest

variable {α : Type} {size : List α → Nat} {budget : Nat} {joiner x y : List α}
  {blocks : List (List α)}

/-- Whether a page is longer than what one may hold. -/
def exceeds (size : List α → Nat) (budget : Nat) (page : List α) : Bool := budget < size page

/-- How many pages there are depends on what the first one holds by one page at most, and the
    more it holds the more there are. -/
theorem length_greedy_between (hsize : ∀ x y, size (x ++ y) = size x + size y)
    (hx : x ≠ []) (hy : y ≠ []) (hblocks : ∀ block ∈ blocks, block ≠ []) :
    (greedy (exceeds size budget) joiner x blocks).length ≤
        (greedy (exceeds size budget) joiner y blocks).length + 1 ∧
      (size x ≤ size y → (greedy (exceeds size budget) joiner x blocks).length ≤
        (greedy (exceeds size budget) joiner y blocks).length) := by
  induction blocks generalizing x y with
  | nil =>
      have hone : ∀ z : List α, z ≠ [] →
          (greedy (exceeds size budget) joiner z []).length = 1 := by
        intro z hz
        rw [greedy_held hz, List.length_singleton]
      rw [hone x hx, hone y hy]
      omega
  | cons block blocks ih =>
      obtain ⟨hblock, hrest⟩ := List.forall_mem_cons.1 hblocks
      have hjoined : ∀ z : List α, z ≠ [] → z ++ joiner ++ block ≠ [] := by
        intro z hz
        simp [hz]
      have hlarger : size x ≤ size y →
          size (x ++ joiner ++ block) ≤ size (y ++ joiner ++ block) := by
        intro hle
        simp only [hsize]
        omega
      have hbegun := ih hblock hblock hrest
      cases hoverx : exceeds size budget (x ++ joiner ++ block) with
      | true =>
          rw [greedy_full hx hoverx, List.length_cons]
          cases hovery : exceeds size budget (y ++ joiner ++ block) with
          | true =>
              rw [greedy_full hy hovery, List.length_cons]
              omega
          | false =>
              -- The block that no longer fits behind the first still fits behind the second.
              have hmore : size block ≤ size (y ++ joiner ++ block) := by
                simp only [hsize]
                omega
              have hless := (ih hblock (hjoined y hy) hrest).2 hmore
              rw [greedy_fits hy hovery]
              refine ⟨by omega, fun hle => ?_⟩
              have hover := of_decide_eq_true hoverx
              have hfits := of_decide_eq_false hovery
              have hlonger := hlarger hle
              omega
      | false =>
          rw [greedy_fits hx hoverx]
          cases hovery : exceeds size budget (y ++ joiner ++ block) with
          | true =>
              have hless := (ih (hjoined x hx) hblock hrest).1
              rw [greedy_full hy hovery, List.length_cons]
              omega
          | false =>
              have hboth := ih (hjoined x hx) (hjoined y hy) hrest
              rw [greedy_fits hy hovery]
              exact ⟨hboth.1, fun hle => hboth.2 (hlarger hle)⟩

/-- A stretch of blocks that fits on a page is put on one. -/
theorem greedy_stretch (hsize : ∀ x y, size (x ++ y) = size x + size y) {stretch : List (List α)}
    (hx : x ≠ []) (hfits : size (joiner.intercalate (x :: stretch)) ≤ budget) :
    greedy (exceeds size budget) joiner x (stretch ++ blocks) =
      greedy (exceeds size budget) joiner (joiner.intercalate (x :: stretch)) blocks := by
  induction stretch generalizing x with
  | nil => simp
  | cons block stretch ih =>
      have hwhole : joiner.intercalate (x :: block :: stretch) =
          joiner.intercalate ((x ++ joiner ++ block) :: stretch) := by
        cases stretch with
        | nil => simp [List.intercalate_cons_cons]
        | cons next stretch => simp [List.intercalate_cons_cons]
      have hfirst : size (x ++ joiner ++ block) ≤
          size (joiner.intercalate ((x ++ joiner ++ block) :: stretch)) := by
        cases stretch with
        | nil => simp
        | cons next stretch =>
            rw [List.intercalate_cons_cons]
            simp only [hsize]
            omega
      rw [hwhole] at hfits ⊢
      have hin : exceeds size budget (x ++ joiner ++ block) = false :=
        decide_eq_false (by omega)
      rw [List.cons_append, greedy_fits hx hin, ih (by simp [hx]) hfits]

/-- No other way to cut the blocks into pages, of one block or that fit, takes fewer pages. -/
theorem length_greedy_le (hsize : ∀ x y, size (x ++ y) = size x + size y)
    (pages : List (List (List α)))
    (hfits : ∀ page ∈ pages, page.length ≤ 1 ∨ size (joiner.intercalate page) ≤ budget)
    (hblocks : ∀ block ∈ pages.flatten, block ≠ []) :
    (greedy (exceeds size budget) joiner [] pages.flatten).length ≤ pages.length := by
  induction pages with
  | nil => simp [greedy_nil]
  | cons page pages ih =>
      obtain ⟨hpage, hpages⟩ := List.forall_mem_cons.1 hfits
      rw [List.flatten_cons] at hblocks ⊢
      have hrest := ih hpages fun block hin => hblocks block (List.mem_append_right _ hin)
      cases page with
      | nil =>
          rw [List.nil_append, List.length_cons]
          omega
      | cons block page =>
          have hblock : block ≠ [] := hblocks block (by simp)
          have hstretch : greedy (exceeds size budget) joiner block (page ++ pages.flatten) =
              greedy (exceeds size budget) joiner (joiner.intercalate (block :: page))
                pages.flatten := by
            rcases hpage with hone | hpage
            · obtain rfl : page = [] := List.length_eq_zero_iff.1 (by simpa using hone)
              simp
            · exact greedy_stretch hsize hblock hpage
          rw [List.cons_append, greedy_nil_cons, hstretch, List.length_cons]
          have hwhole : joiner.intercalate (block :: page) ≠ [] := by
            cases page with
            | nil => simpa using hblock
            | cons next page => simp [List.intercalate_cons_cons, hblock]
          cases hlater : pages.flatten with
          | nil =>
              rw [greedy_held hwhole, List.length_singleton]
              omega
          | cons next later =>
              rw [hlater] at hrest hblocks
              have hnext : next ≠ [] := hblocks next (by simp)
              have hmore : ∀ b ∈ later, b ≠ [] := fun b hin =>
                hblocks b (List.mem_append_right _ (List.mem_cons_of_mem next hin))
              rw [greedy_nil_cons] at hrest
              cases hover : exceeds size budget
                  (joiner.intercalate (block :: page) ++ joiner ++ next) with
              | true =>
                  rw [greedy_full hwhole hover, List.length_cons]
                  omega
              | false =>
                  have hjoined :
                      joiner.intercalate (block :: page) ++ joiner ++ next ≠ [] := by
                    simp [hnext]
                  have hone : (greedy (exceeds size budget) joiner
                      (joiner.intercalate (block :: page) ++ joiner ++ next) later).length ≤
                      (greedy (exceeds size budget) joiner next later).length + 1 :=
                    (length_greedy_between hsize hjoined hnext hmore).1
                  rw [greedy_fits hwhole hover]
                  omega

end Fewest

end Paayatam.Lib
