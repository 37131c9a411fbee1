/-
  Paayatam.Lib.Words

  The words of a text: its longest stretches free of separators.

  A text is read through its words: a separator cuts it in two, one word is its
  own list of words, and words joined by a separator are found again.
-/

import Mathlib.Data.List.Basic

namespace Paayatam.Lib

section Words

variable {α : Type} {sep : α → Bool} {c : α} {s x y w : List α} {ws : List (List α)}

/-- The longest stretches without a separator. -/
def words (sep : α → Bool) (s : List α) : List (List α) :=
  (s.splitOnP sep).filter fun w => 0 < w.length

@[simp] theorem words_nil : words sep [] = [] := by
  simp [words]

/-- A separator cuts a text in two. -/
theorem words_cut (hc : sep c = true) : words sep (x ++ c :: y) = words sep x ++ words sep y := by
  unfold words
  rw [List.splitOnP_append_cons x y hc, List.filter_append]

theorem words_sep (hc : sep c = true) : words sep (c :: s) = words sep s := by
  have hcut : words sep ([] ++ c :: s) = words sep [] ++ words sep s := words_cut hc
  rwa [words_nil, List.nil_append, List.nil_append] at hcut

/-- A text without separators is one word. -/
theorem words_self (hs : ∀ c ∈ s, sep c = false) (hne : s ≠ []) : words sep s = [s] := by
  unfold words
  rw [List.splitOnP_eq_singleton hs]
  simp [List.length_pos_iff.2 hne]

/-- What stands in front of a separator is a word of its own. -/
theorem words_first (hx : ∀ c ∈ x, sep c = false) (hne : x ≠ []) (hc : sep c = true) :
    words sep (x ++ c :: y) = x :: words sep y := by
  rw [words_cut hc, words_self hx hne]
  rfl

theorem splitOnP_free (h : w ∈ s.splitOnP sep) : ∀ c ∈ w, sep c = false := by
  induction s generalizing w with
  | nil =>
      obtain rfl : w = [] := by simpa using h
      simp
  | cons x s ih =>
      rw [List.splitOnP_cons_eq_if_modifyHead] at h
      split at h
      · rcases List.mem_cons.1 h with rfl | hrest
        · simp
        · exact ih hrest
      · next hx =>
          cases hsplit : s.splitOnP sep with
          | nil => exact absurd hsplit (List.splitOnP_ne_nil sep s)
          | cons first parts =>
              rw [hsplit, List.modifyHead_cons] at h
              rcases List.mem_cons.1 h with rfl | hrest
              · have hfirst := ih (hsplit ▸ List.mem_cons_self)
                exact List.forall_mem_cons.2 ⟨by simpa using hx, hfirst⟩
              · exact ih (hsplit ▸ List.mem_cons_of_mem first hrest)

/-- A word is not empty, and has no separator. -/
theorem mem_words (h : w ∈ words sep s) : w ≠ [] ∧ ∀ c ∈ w, sep c = false := by
  obtain ⟨hsplit, hlen⟩ := List.mem_filter.1 h
  exact ⟨List.length_pos_iff.1 (of_decide_eq_true hlen), splitOnP_free hsplit⟩

theorem mem_of_mem_splitOnP (h : w ∈ s.splitOnP sep) (hc : c ∈ w) : c ∈ s := by
  induction s generalizing w with
  | nil =>
      obtain rfl : w = [] := by simpa using h
      cases hc
  | cons x s ih =>
      rw [List.splitOnP_cons_eq_if_modifyHead] at h
      split at h
      · rcases List.mem_cons.1 h with rfl | hrest
        · cases hc
        · exact List.mem_cons_of_mem x (ih hrest hc)
      · cases hsplit : s.splitOnP sep with
        | nil => exact absurd hsplit (List.splitOnP_ne_nil sep s)
        | cons first parts =>
            rw [hsplit, List.modifyHead_cons] at h
            rcases List.mem_cons.1 h with rfl | hrest
            · rcases List.mem_cons.1 hc with rfl | hin
              · exact List.mem_cons_self
              · exact List.mem_cons_of_mem x (ih (hsplit ▸ List.mem_cons_self) hin)
            · exact List.mem_cons_of_mem x (ih (hsplit ▸ List.mem_cons_of_mem first hrest) hc)

/-- A word is made of characters of the text. -/
theorem mem_of_mem_words (h : w ∈ words sep s) (hc : c ∈ w) : c ∈ s :=
  mem_of_mem_splitOnP (List.mem_filter.1 h).1 hc

/-- The words of joined words. -/
theorem words_intercalate (hc : sep c = true) :
    words sep ([c].intercalate ws) = ws.flatMap (words sep) := by
  induction ws with
  | nil => simp
  | cons w ws ih =>
      cases ws with
      | nil => simp
      | cons next ws =>
          rw [List.intercalate_cons_cons, List.append_assoc, List.singleton_append, words_cut hc,
            ih]
          rfl

/-- Joined words are found again. -/
theorem words_join (hc : sep c = true) (hws : ∀ w ∈ ws, w ≠ [] ∧ ∀ c ∈ w, sep c = false) :
    words sep ([c].intercalate ws) = ws := by
  rw [words_intercalate hc]
  induction ws with
  | nil => rfl
  | cons w ws ih =>
      obtain ⟨⟨hne, hfree⟩, hrest⟩ := List.forall_mem_cons.1 hws
      rw [List.flatMap_cons, words_self hfree hne, ih hrest]
      rfl

/-- A word goes on over what separates nothing. -/
theorem words_cons_cons {d : α} (hc : sep c = false) (hd : sep d = false) :
    words sep (c :: d :: s) = (words sep (d :: s)).modifyHead (c :: ·) := by
  unfold words
  rw [List.splitOnP_cons_eq_if_modifyHead, if_neg (by simp [hc]),
    List.splitOnP_cons_eq_if_modifyHead, if_neg (by simp [hd])]
  cases hsplit : s.splitOnP sep with
  | nil => exact absurd hsplit (List.splitOnP_ne_nil sep s)
  | cons first parts => simp

/-- A stretch that separators or the ends of the text bound has its own words. -/
theorem words_stretch (hx : x = [] ∨ ∃ front b, x = front ++ [b] ∧ sep b = true)
    (hy : y = [] ∨ ∃ b back, y = b :: back ∧ sep b = true) :
    words sep (x ++ w ++ y) = words sep x ++ words sep w ++ words sep y := by
  have hback : words sep (w ++ y) = words sep w ++ words sep y := by
    rcases hy with rfl | ⟨b, back, rfl, hb⟩
    · simp
    · rw [words_cut hb, words_sep hb]
  rcases hx with rfl | ⟨front, b, rfl, hb⟩
  · rw [List.nil_append, hback, words_nil, List.nil_append]
  · have hsplit : front ++ [b] ++ w ++ y = front ++ b :: (w ++ y) := by simp
    rw [hsplit, words_cut hb, hback, words_cut hb, words_nil, List.append_nil, List.append_assoc]

/-- A text up to its first separator, and from it on. -/
theorem first_stretch (sep : α → Bool) (s : List α) : ∃ w y, s = w ++ y ∧ (∀ c ∈ w, sep c = false) ∧
    (y = [] ∨ ∃ b back, y = b :: back ∧ sep b = true) := by
  induction s with
  | nil => exact ⟨[], [], rfl, by simp, .inl rfl⟩
  | cons c s ih =>
      cases hc : sep c with
      | true => exact ⟨[], c :: s, rfl, by simp, .inr ⟨c, s, rfl, hc⟩⟩
      | false =>
          obtain ⟨w, y, rfl, hw, hy⟩ := ih
          exact ⟨c :: w, y, rfl, List.forall_mem_cons.2 ⟨hc, hw⟩, hy⟩

/-- A rule that puts a separator for a separator, and words for words, works word by word. -/
theorem words_map {f : List α → List α} {P : α → Prop} (hnil : f [] = [])
    (hcut : ∀ x c y, sep c = true → ∃ c', sep c' = true ∧ f (x ++ c :: y) = f x ++ c' :: f y)
    (hfree : ∀ x, x ≠ [] → (∀ c ∈ x, P c ∧ sep c = false) →
      f x ≠ [] ∧ ∀ c ∈ f x, sep c = false)
    (hs : ∀ c ∈ s, P c) : words sep (f s) = (words sep s).map f := by
  have hword : ∀ w, (∀ c ∈ w, sep c = false) → (∀ c ∈ w, P c) →
      words sep (f w) = (words sep w).map f := by
    intro w hw hp
    by_cases hne : w = []
    · rw [hne, hnil, words_nil, List.map_nil]
    · obtain ⟨hne', hw'⟩ := hfree w hne fun c hc => ⟨hp c hc, hw c hc⟩
      rw [words_self hw' hne', words_self hw hne, List.map_singleton]
  induction hlength : s.length using Nat.strongRecOn generalizing s with
  | ind n ih =>
      obtain ⟨w, y, rfl, hw, hy⟩ := first_stretch sep s
      have hpw : ∀ c ∈ w, P c := fun c hc => hs c (List.mem_append_left y hc)
      rcases hy with rfl | ⟨b, back, rfl, hb⟩
      · rw [List.append_nil]
        exact hword w hw hpw
      · obtain ⟨b', hb', hmapped⟩ := hcut w b back hb
        have hback : words sep (f back) = (words sep back).map f := by
          refine ih back.length ?_ (fun c hc => hs c (by simp [hc])) rfl
          rw [← hlength, List.length_append, List.length_cons]
          omega
        rw [hmapped, words_cut hb', words_cut hb, List.map_append, hword w hw hpw, hback]

/-- A text up to its last separator, and from it on. -/
theorem last_stretch (sep : α → Bool) (s : List α) : ∃ x w, s = x ++ w ∧ (∀ c ∈ w, sep c = false) ∧
    (x = [] ∨ ∃ front b, x = front ++ [b] ∧ sep b = true) := by
  obtain ⟨w, y, hs, hw, hy⟩ := first_stretch sep s.reverse
  refine ⟨y.reverse, w.reverse, ?_, fun c hc => hw c (List.mem_reverse.1 hc), ?_⟩
  · have hrev := congrArg List.reverse hs
    rwa [List.reverse_reverse, List.reverse_append] at hrev
  · rcases hy with rfl | ⟨b, back, rfl, hb⟩
    · exact .inl rfl
    · exact .inr ⟨back.reverse, b, List.reverse_cons, hb⟩

end Words

end Paayatam.Lib
