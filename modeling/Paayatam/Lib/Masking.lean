/-
  Paayatam.Lib.Masking

  A text in which every match of a scan is replaced.

  What is left can match again only where the replacement helps to: a word that
  begins outside the replacements and does not hold the symbol they begin with lies
  in a stretch the scan left alone, so it was in the text before, at a place where
  the scan saw no match.
-/

import Paayatam.Lib.Scan

namespace Paayatam.Lib

/-- `Masked m f prev s out`: scanned behind `prev`, the text `s` becomes `out`. -/
inductive Masked {α β : Type} (m : Pattern α β) (f : β → List α) :
    Option α → List α → List α → Prop where
  | nil (prev : Option α) : Masked m f prev [] []
  | keep {prev : Option α} {c : α} {s out : List α} (h : m prev c s = none)
      (rest : Masked m f (some c) s out) : Masked m f prev (c :: s) (c :: out)
  | mask {prev : Option α} {c : α} {xs s out : List α} {b : β}
      (h : m prev c (xs ++ s) = some (b, xs.length))
      (rest : Masked m f (lastRead (some c) xs) s out) :
      Masked m f prev (c :: (xs ++ s)) (f b ++ out)

section Masked

variable {α β : Type} {m : Pattern α β} {f : β → List α} {prev : Option α} {s out : List α}
  {c : α}

theorem lastRead_of_ne_nil {xs : List α} (h : xs ≠ []) (p q : Option α) :
    lastRead p xs = lastRead q xs := by
  cases xs with
  | nil => exact absurd rfl h
  | cons c xs => rw [lastRead_cons, lastRead_cons]

theorem masked_replaceAll (hm : m.Within) (f : β → List α) (s : List α) :
    Masked m f none s (replaceAll m f s) := by
  refine scan_induction (P := fun prev s => Masked m f prev s
    ((pieces m prev 0 s).flatMap (replacement f fun c => [c]))) hm ?_ ?_ ?_ none s
  · intro prev
    rw [pieces_nil]
    exact .nil prev
  · intro prev c rest h ih
    rw [pieces_unmatched h]
    exact .keep h ih
  · intro prev c xs rest b h ih
    rw [pieces_matched h]
    exact .mask h ih

/-- A text without a match stays as it is, and nothing is found in it. -/
theorem pieces_of_none {k : Option α}
    (h : ∀ a c b, s = a ++ c :: b → m (lastRead k a) c b = none) :
    pieces m k 0 s = s.map .inl := by
  induction s generalizing k with
  | nil => exact pieces_nil
  | cons c rest ih =>
    have here : m k c rest = none := h [] c rest rfl
    rw [pieces_unmatched here, ih fun a d b split => ?_]
    · rfl
    · have next := h (c :: a) d b (by rw [split]; rfl)
      rw [lastRead_cons] at next
      exact next

theorem replaceAll_of_unmatched (h : pieces m none 0 s = s.map .inl) (f : β → List α) :
    replaceAll m f s = s := by
  rw [replaceAll, h, List.flatMap_map]
  exact List.flatMap_singleton' s

theorem matchAll_of_unmatched (h : pieces m none 0 s = s.map .inl) : matchAll m s = [] := by
  rw [matchAll, h, List.filterMap_map]
  exact List.filterMap_eq_nil_iff.2 fun c _ => rfl

/-- What a match takes is in front of what is left. -/
theorem Pattern.Within.split (hm : m.Within) {rest : List α} {b : β} {k : Nat}
    (h : m prev c rest = some (b, k)) : ∃ xs rest', rest = xs ++ rest' ∧ xs.length = k := by
  refine ⟨rest.take k, rest.drop k, (List.take_append_drop k rest).symm, ?_⟩
  rw [List.length_take]
  exact Nat.min_eq_left (hm prev c rest b k h)

/-- The text that pieces were read from. -/
def sourceOf (ps : List (α ⊕ List α)) : List α := ps.flatMap (replacement id fun c => [c])

/-- How a scan reads a text: where no match begins the symbol is passed, and a
    match is taken as a whole. -/
structure ReadAs (m : Pattern α (List α)) (prev : Option α) (s : List α)
    (ps : List (α ⊕ List α)) : Prop where
  whole : sourceOf ps = s
  passed : ∀ x c y, ps = x ++ .inl c :: y → m (lastRead prev (sourceOf x)) c (sourceOf y) = none
  taken : ∀ x w y, ps = x ++ .inr w :: y → ∃ c xs, w = c :: xs ∧
    m (lastRead prev (sourceOf x)) c (xs ++ sourceOf y) = some (w, xs.length)

theorem readAs_pieces {m : Pattern α (List α)} (hm : m.Within)
    (hb : ∀ prev c xs rest b, m prev c (xs ++ rest) = some (b, xs.length) → b = c :: xs)
    (prev : Option α) (s : List α) : ReadAs m prev s (pieces m prev 0 s) := by
  refine scan_induction (P := fun prev s => ReadAs m prev s (pieces m prev 0 s)) hm ?_ ?_ ?_ prev s
  · intro prev
    rw [pieces_nil]
    exact ⟨rfl, fun x c y split => by simp at split, fun x w y split => by simp at split⟩
  · intro prev c rest h ih
    rw [pieces_unmatched h]
    refine ⟨?_, fun x d y split => ?_, fun x w y split => ?_⟩
    · show c :: sourceOf _ = _
      rw [ih.whole]
    · cases x with
      | nil =>
        obtain ⟨same, rfl⟩ := List.cons.inj split
        rw [← Sum.inl.inj same, ih.whole]
        exact h
      | cons p x =>
        obtain ⟨rfl, after⟩ := List.cons.inj split
        show m (lastRead prev (c :: sourceOf x)) d (sourceOf y) = none
        rw [lastRead_cons]
        exact ih.passed x d y after
    · cases x with
      | nil => cases (List.cons.inj split).1
      | cons p x =>
        obtain ⟨rfl, after⟩ := List.cons.inj split
        show ∃ d xs, w = d :: xs ∧ m (lastRead prev (c :: sourceOf x)) d _ = _
        rw [lastRead_cons]
        exact ih.taken x w y after
  · intro prev c xs rest b h ih
    have source := hb prev c xs rest b h
    rw [pieces_matched h]
    refine ⟨?_, fun x d y split => ?_, fun x w y split => ?_⟩
    · show b ++ sourceOf _ = _
      rw [ih.whole, source]
    · cases x with
      | nil => cases (List.cons.inj split).1
      | cons p x =>
        obtain ⟨rfl, after⟩ := List.cons.inj split
        show m (lastRead prev (b ++ sourceOf x)) d (sourceOf y) = none
        rw [lastRead_append, source, lastRead_cons]
        exact ih.passed x d y after
    · cases x with
      | nil =>
        obtain ⟨same, rfl⟩ := List.cons.inj split
        refine ⟨c, xs, ?_, ?_⟩
        · rw [← Sum.inr.inj same, source]
        · rw [← Sum.inr.inj same, ih.whole]
          exact h
      | cons p x =>
        obtain ⟨rfl, after⟩ := List.cons.inj split
        show ∃ d ys, w = d :: ys ∧ m (lastRead prev (b ++ sourceOf x)) d _ = _
        rw [lastRead_append, source, lastRead_cons]
        exact ih.taken x w y after

namespace Masked

/-- Every symbol is one of the text or of a replacement. -/
theorem mem (h : Masked m f prev s out) {c : α} (hc : c ∈ out) : c ∈ s ∨ ∃ b, c ∈ f b := by
  induction h with
  | nil => exact .inl hc
  | keep h rest ih =>
    rcases List.mem_cons.1 hc with rfl | hc
    · exact .inl List.mem_cons_self
    · exact (ih hc).imp_left (List.mem_cons_of_mem _)
  | mask h rest ih =>
    rcases List.mem_append.1 hc with hc | hc
    · exact .inr ⟨_, hc⟩
    · exact (ih hc).imp_left fun mem => List.mem_cons_of_mem _ (List.mem_append_right _ mem)

/-- What stands behind a cut in the result, when the cut is not inside a
    replacement, and of what the rest is. -/
theorem suffix (h : Masked m f prev s out) {a o : List α} (split : out = a ++ c :: o)
    (hc : ∀ b x y, f b = x ++ c :: y → x = []) :
    ∃ a₀ s', s = a₀ ++ s' ∧ Masked m f (lastRead prev a₀) s' (c :: o) ∧
      ∀ d ∈ a₀, d ∈ a ∨ ∃ prev e xs rest b, m prev e (xs ++ rest) = some (b, xs.length) ∧
        d ∈ e :: xs := by
  induction h generalizing a with
  | nil => simp at split
  | @keep prev d s out h rest ih =>
    cases a with
    | nil =>
      obtain ⟨rfl, rfl⟩ := List.cons.inj split
      exact ⟨[], _, rfl, .keep h rest, fun e mem => absurd mem List.not_mem_nil⟩
    | cons e a =>
      have ⟨same, after⟩ := List.cons.inj split
      subst same
      obtain ⟨a₀, s', rfl, tail, chars⟩ := ih after
      refine ⟨d :: a₀, s', rfl, by rw [lastRead_cons]; exact tail,
        List.forall_mem_cons.2 ⟨.inl List.mem_cons_self, fun x mem => ?_⟩⟩
      exact (chars x mem).imp_left (List.mem_cons_of_mem d)
  | @mask prev d xs s out b h rest ih =>
    -- behind the replacement, the match is of what comes before the cut
    have behind : ∀ {a}, out = a ++ c :: o → (∃ a₀ s', d :: (xs ++ s) = a₀ ++ s' ∧
        Masked m f (lastRead prev a₀) s' (c :: o) ∧ ∀ x ∈ a₀, x ∈ a ∨
          ∃ prev e xs rest b, m prev e (xs ++ rest) = some (b, xs.length) ∧ x ∈ e :: xs) := by
      intro a after
      obtain ⟨a₀, s', rfl, tail, chars⟩ := ih after
      refine ⟨d :: (xs ++ a₀), s', by simp, ?_, fun x mem => ?_⟩
      · rw [lastRead_cons, lastRead_append]
        exact tail
      · rw [← List.cons_append, List.mem_append] at mem
        exact mem.elim (fun mem => .inr ⟨_, _, _, _, _, h, mem⟩) (chars x)
    rcases List.append_eq_append_iff.1 split with ⟨x, before, after⟩ | ⟨x, before, after⟩
    · obtain ⟨a₀, s', same, tail, chars⟩ := behind after
      refine ⟨a₀, s', same, tail, fun y mem => (chars y mem).imp_left fun mem => ?_⟩
      rw [before]
      exact List.mem_append_right _ mem
    · cases x with
      | nil =>
        obtain ⟨a₀, s', same, tail, chars⟩ := behind (a := []) (by simpa using after.symm)
        exact ⟨a₀, s', same, tail, fun y mem =>
          .inr ((chars y mem).resolve_left List.not_mem_nil)⟩
      | cons e x =>
        obtain ⟨rfl, after⟩ := List.cons.inj after
        have start : a = [] := hc b a x before
        subst start
        refine ⟨[], _, rfl, ?_, fun e mem => absurd mem List.not_mem_nil⟩
        rw [after, ← List.cons_append, ← List.nil_append (c :: x), ← before]
        exact .mask h rest

/-- A symbol that no match begins with is left where it stands. -/
theorem stays (h : Masked m f prev (c :: s) out)
    (hc : ∀ prev xs rest b, m prev c (xs ++ rest) ≠ some (b, xs.length)) :
    ∃ o, out = c :: o ∧ Masked m f (some c) s o := by
  generalize whole : c :: s = text at h
  cases h with
  | nil => cases whole
  | keep hnone rest =>
    obtain ⟨rfl, rfl⟩ := List.cons.inj whole
    exact ⟨_, rfl, rest⟩
  | mask hmatch rest =>
    have first := (List.cons.inj whole).1
    exact absurd (first ▸ hmatch) (hc _ _ _ _)

/-- The result at a place in the text: where no match covers the place the scan goes
    on, and otherwise there is the match that begins at it or before. -/
inductive Cut (m : Pattern α β) (f : β → List α) (a : List α) (c : α) (t : List α) :
    List α → Prop where
  | free {p o : List α} {prev : Option α} (unseen : m prev c t = none)
      (tail : Masked m f (some c) t o) (chars : ∀ d ∈ p, d ∈ a ∨ ∃ b, d ∈ f b) :
      Cut m f a c t (p ++ c :: o)
  | covered {p o xs u v rest : List α} {prev : Option α} {d : α} {b : β}
      (found : m prev d (xs ++ rest) = some (b, xs.length)) (within : d :: xs = u ++ c :: v)
      (after : t = v ++ rest) (tail : Masked m f (lastRead (some d) xs) rest o) :
      Cut m f a c t (p ++ (f b ++ o))

/-- The same behind some more. -/
theorem Cut.behind {a₀ a x t o : List α} (h : Cut m f a₀ c t o) (before : ∀ d ∈ a₀, d ∈ a)
    (hx : ∀ d ∈ x, d ∈ a ∨ ∃ b, d ∈ f b) : Cut m f a c t (x ++ o) := by
  cases h with
  | free unseen tail chars =>
    rw [← List.append_assoc]
    refine .free unseen tail fun d mem => ?_
    rcases List.mem_append.1 mem with mem | mem
    · exact hx d mem
    · exact (chars d mem).imp_left (before d)
  | covered found within after tail =>
    rw [← List.append_assoc]
    exact .covered found within after tail

theorem cut {a t : List α} (h : Masked m f prev (a ++ c :: t) out) : Cut m f a c t out := by
  generalize whole : a ++ c :: t = s at h
  induction h generalizing a with
  | nil => simp at whole
  | @keep prev d s out hnone rest ih =>
    cases a with
    | nil =>
      obtain ⟨rfl, rfl⟩ := List.cons.inj whole
      exact .free (p := []) hnone rest fun e mem => absurd mem List.not_mem_nil
    | cons e a =>
      have ⟨same, after⟩ := List.cons.inj whole
      refine (ih after).behind (x := [d]) (fun x mem => List.mem_cons_of_mem e mem) fun x mem => ?_
      rw [List.mem_singleton.1 mem, same]
      exact .inl List.mem_cons_self
  | @mask prev d xs s out b hmatch rest ih =>
    have piece : ∀ x ∈ f b, x ∈ a ∨ ∃ b, x ∈ f b := fun x mem => .inr ⟨b, mem⟩
    rw [← List.cons_append] at whole
    rcases List.append_eq_append_iff.1 whole with ⟨x, before, after⟩ | ⟨x, before, after⟩
    · cases x with
      | nil => exact (ih (a := []) after).behind (fun y mem => absurd mem List.not_mem_nil) piece
      | cons e x =>
        obtain ⟨rfl, split⟩ := List.cons.inj after
        exact .covered (p := []) hmatch before split rest
    · refine (ih after.symm).behind (fun y mem => ?_) piece
      rw [before]
      exact List.mem_append_right _ mem

/-- A symbol that is in no match is left, behind whatever is left of what stands
    before it. -/
theorem push {a t : List α} (h : Masked m f prev (a ++ c :: t) out)
    (hc : ∀ prev d xs rest b, m prev d (xs ++ rest) = some (b, xs.length) → c ∉ d :: xs) :
    ∃ a' o prev', out = a' ++ c :: o ∧ Masked m f prev' (c :: t) (c :: o) ∧
      ∀ d ∈ a', d ∈ a ∨ ∃ b, d ∈ f b := by
  cases h.cut with
  | free unseen tail chars => exact ⟨_, _, _, rfl, .keep unseen tail, chars⟩
  | @covered _ _ _ u _ _ _ _ _ found within =>
    refine absurd ?_ (hc _ _ _ _ _ found)
    rw [within]
    exact List.mem_append_right u List.mem_cons_self

/-- A word of such symbols stays a word. -/
theorem stays_word {w : List α} (h : Masked m f prev (w ++ s) out)
    (hw : ∀ c ∈ w, ∀ prev xs rest b, m prev c (xs ++ rest) ≠ some (b, xs.length)) :
    ∃ o, out = w ++ o ∧ Masked m f (lastRead prev w) s o := by
  induction w generalizing prev out with
  | nil => exact ⟨out, rfl, h⟩
  | cons c w ih =>
    have ⟨first, others⟩ := List.forall_mem_cons.1 hw
    obtain ⟨o, rfl, tail⟩ := h.stays first
    obtain ⟨o', rfl, behind⟩ := ih tail others
    exact ⟨o', rfl, by rw [lastRead_cons]; exact behind⟩

/-- Replacements that are no longer than the matches do not make a text longer. -/
theorem length_le (h : Masked m f prev s out)
    (hf : ∀ prev c xs rest b, m prev c (xs ++ rest) = some (b, xs.length) →
      (f b).length ≤ xs.length + 1) : out.length ≤ s.length := by
  induction h with
  | nil => exact Nat.le_refl 0
  | keep _ _ ih => exact Nat.succ_le_succ ih
  | @mask prev c xs s out b hmatch rest ih =>
    have shorter := hf prev c xs s b hmatch
    simp only [List.length_append, List.length_cons]
    omega

/-- And shorter ones make it shorter, unless there is no match. -/
theorem shorter (h : Masked m f prev s out)
    (hf : ∀ prev c xs rest b, m prev c (xs ++ rest) = some (b, xs.length) →
      (f b).length < xs.length + 1) :
    (∀ a c b, s = a ++ c :: b → m (lastRead prev a) c b = none) ∨ out.length < s.length := by
  induction h with
  | nil => exact .inl fun a c b split => by simp at split
  | @keep prev d s out hnone rest ih =>
    refine ih.imp (fun unseen a c b split => ?_) Nat.succ_lt_succ
    cases a with
    | nil =>
      obtain ⟨rfl, rfl⟩ := List.cons.inj split
      exact hnone
    | cons e a =>
      obtain ⟨rfl, after⟩ := List.cons.inj split
      rw [lastRead_cons]
      exact unseen a c b after
  | @mask prev c xs s out b hmatch rest ih =>
    have fewer := hf prev c xs s b hmatch
    have tail := rest.length_le fun prev c xs rest b found =>
      Nat.le_of_lt (hf prev c xs rest b found)
    refine .inr ?_
    simp only [List.length_append, List.length_cons]
    omega

/-- A symbol of the result that is in no replacement was passed by the scan, and behind
    it is what was behind it in the text, or a replacement and the match it is for. -/
theorem place (h : Masked m f prev s out) {a o : List α} (split : out = a ++ c :: o)
    (filled : ∀ b, f b ≠ [])
    (hc : ∀ b x y o', f b = x ++ c :: y → o ≠ y ++ o') :
    ∃ a₀ s', s = a₀ ++ c :: s' ∧ m (lastRead prev a₀) c s' = none ∧ Masked m f (some c) s' o ∧
      (lastRead prev a₀ = lastRead prev a ∨ ∃ p d xs b a₁ a₂,
        m p d (xs ++ c :: s') = some (b, xs.length) ∧ a₀ = a₁ ++ d :: xs ∧ a = a₂ ++ f b) := by
  induction h generalizing a with
  | nil => simp at split
  | @keep prev d s out unseen rest ih =>
    cases a with
    | nil =>
      obtain ⟨rfl, rfl⟩ := List.cons.inj split
      exact ⟨[], s, rfl, unseen, rest, .inl rfl⟩
    | cons e a =>
      obtain ⟨rfl, after⟩ := List.cons.inj split
      obtain ⟨a₀, s', rfl, hnone, tail, same | ⟨p, d', xs, b, a₁, a₂, found, rfl, rfl⟩⟩ := ih after
      · refine ⟨d :: a₀, s', rfl, by rw [lastRead_cons]; exact hnone, tail, .inl ?_⟩
        rw [lastRead_cons, lastRead_cons, same]
      · exact ⟨d :: (a₁ ++ d' :: xs), s', rfl, by rw [lastRead_cons]; exact hnone, tail,
          .inr ⟨p, d', xs, b, d :: a₁, d :: a₂, found, rfl, rfl⟩⟩
  | @mask prev d xs s out b found rest ih =>
    -- right behind the replacement
    have here : ∀ {o}, out = c :: o → (∀ b x y o', f b = x ++ c :: y → o ≠ y ++ o') →
        ∃ s', s = c :: s' ∧ m (lastRead (some d) xs) c s' = none ∧ Masked m f (some c) s' o := by
      intro o first outside
      generalize lastRead (some d) xs = q at rest
      cases rest with
      | nil => cases first
      | keep unseen rest =>
        obtain ⟨rfl, rfl⟩ := List.cons.inj first
        exact ⟨_, rfl, unseen, rest⟩
      | @mask _ _ _ _ o₁ b' _ _ =>
        cases piece : f b' with
        | nil => exact absurd piece (filled b')
        | cons e y =>
          rw [piece] at first
          obtain ⟨rfl, after⟩ := List.cons.inj first
          exact absurd after.symm (outside b' [] y o₁ piece)
    have behind : ∀ {x}, out = x ++ c :: o → ∃ a₀ s', d :: (xs ++ s) = a₀ ++ c :: s' ∧
        m (lastRead prev a₀) c s' = none ∧ Masked m f (some c) s' o ∧
        (lastRead prev a₀ = lastRead prev (f b ++ x) ∨ ∃ p d xs b' a₁ a₂,
          m p d (xs ++ c :: s') = some (b', xs.length) ∧ a₀ = a₁ ++ d :: xs ∧
            f b ++ x = a₂ ++ f b') := by
      intro x after
      by_cases first : x = []
      · subst first
        obtain ⟨s', rfl, hnone, tail⟩ := here after hc
        exact ⟨d :: xs, s', rfl, by rw [lastRead_cons]; exact hnone, tail,
          .inr ⟨prev, d, xs, b, [], [], found, rfl, by simp⟩⟩
      · obtain ⟨a₀, s', rfl, hnone, tail, same | ⟨p, d', ys, b', a₁, a₂, found', rfl, rfl⟩⟩ :=
          ih after
        · refine ⟨d :: (xs ++ a₀), s', by simp, ?_, tail, .inl ?_⟩
          · rw [lastRead_cons, lastRead_append]
            exact hnone
          · rw [lastRead_cons, lastRead_append, lastRead_append, same]
            exact lastRead_of_ne_nil first _ _
        · refine ⟨d :: (xs ++ (a₁ ++ d' :: ys)), s', by simp, ?_, tail,
            .inr ⟨p, d', ys, b', d :: (xs ++ a₁), f b ++ a₂, found', by simp, by simp⟩⟩
          rw [lastRead_cons, lastRead_append]
          exact hnone
    rcases List.append_eq_append_iff.1 split with ⟨x, rfl, after⟩ | ⟨x, before, after⟩
    · exact behind after
    · cases x with
      | nil =>
        rw [List.append_nil] at before
        obtain ⟨a₀, s', whole, hnone, tail, same⟩ := behind (x := []) after.symm
        rw [List.append_nil, before] at same
        exact ⟨a₀, s', whole, hnone, tail, same⟩
      | cons e x =>
        obtain ⟨rfl, within⟩ := List.cons.inj after
        exact absurd within (hc b a x out before)

/-- A word of the result was left as it is, or else from some place on it is of a
    replacement. -/
theorem kept_or {w o : List α} (h : Masked m f prev s (w ++ o)) :
    (∃ s', s = w ++ s' ∧ Masked m f (lastRead prev w) s' o) ∨
      ∃ w₁ w₂ c xs rest b o', w = w₁ ++ w₂ ∧ w₂ ≠ [] ∧ s = w₁ ++ c :: (xs ++ rest) ∧
        m (lastRead prev w₁) c (xs ++ rest) = some (b, xs.length) ∧ w₂ ++ o = f b ++ o' := by
  induction w generalizing prev s with
  | nil => exact .inl ⟨s, rfl, h⟩
  | cons c w ih =>
    generalize whole : c :: w ++ o = out at h
    cases h with
    | nil => cases whole
    | keep unseen rest =>
      obtain ⟨rfl, rfl⟩ := List.cons.inj whole
      rcases ih rest with
        ⟨s', rfl, tail⟩ | ⟨w₁, w₂, d, xs, rest', b, o', rfl, filled, rfl, found, same⟩
      · exact .inl ⟨s', rfl, by rw [lastRead_cons]; exact tail⟩
      · exact .inr ⟨c :: w₁, w₂, d, xs, rest', b, o', rfl, filled, rfl,
          by rw [lastRead_cons]; exact found, same⟩
    | @mask _ d xs rest o' b found tail =>
      exact .inr ⟨[], c :: w, d, xs, rest, b, o', rfl, List.cons_ne_nil c w, rfl, found, whole⟩

section Replacements

variable {q : α} (hf : ∀ b, ∃ y, f b = q :: y)
include hf

/-- A word without the symbol the replacements begin with was left as it is. -/
theorem kept {w o : List α} (h : Masked m f prev s (w ++ o)) (hw : q ∉ w) :
    ∃ s', s = w ++ s' ∧ Masked m f (lastRead prev w) s' o := by
  induction w generalizing prev s with
  | nil => exact ⟨s, rfl, h⟩
  | cons c w ih =>
    rw [List.mem_cons, not_or] at hw
    generalize whole : c :: w ++ o = out at h
    cases h with
    | nil => cases whole
    | keep hnone rest =>
      obtain ⟨rfl, rfl⟩ := List.cons.inj whole
      obtain ⟨s', rfl, tail⟩ := ih rest hw.2
      exact ⟨s', rfl, by rw [lastRead_cons]; exact tail⟩
    | @mask _ _ _ _ _ b hmatch rest =>
      have ⟨y, start⟩ := hf b
      rw [start] at whole
      exact absurd (List.cons.inj whole).1.symm hw.1

/-- A word of the result that begins in no replacement, and does not hold the symbol
    they begin with, with what stands at both its ends. -/
theorem place_word {a w o : List α} (h : Masked m f prev s (a ++ c :: (w ++ o)))
    (hc : ∀ b x y o', f b = x ++ c :: y → w ++ o ≠ y ++ o') (hw : q ∉ w) :
    ∃ a₀ s', s = a₀ ++ c :: (w ++ s') ∧ m (lastRead prev a₀) c (w ++ s') = none ∧
      Masked m f (lastRead (some c) w) s' o ∧
      (lastRead prev a₀ = lastRead prev a ∨ ∃ p d xs b a₁ a₂,
        m p d (xs ++ c :: (w ++ s')) = some (b, xs.length) ∧ a₀ = a₁ ++ d :: xs ∧
          a = a₂ ++ f b) := by
  have filled : ∀ b, f b ≠ [] := by
    intro b
    have ⟨y, start⟩ := hf b
    rw [start]
    exact List.cons_ne_nil q y
  obtain ⟨a₀, s₁, rfl, unseen, tail, before⟩ := h.place rfl filled hc
  obtain ⟨s', rfl, behind⟩ := tail.kept hf hw
  exact ⟨a₀, s', rfl, unseen, behind, before⟩

/-- What stands first in the result stood first, or a match did. -/
theorem head (h : Masked m f prev s out) :
    out.head? = s.head? ∨
      out.head? = some q ∧ ∃ c xs s' b, s = c :: (xs ++ s') ∧
        m prev c (xs ++ s') = some (b, xs.length) := by
  cases h with
  | nil => exact .inl rfl
  | keep => exact .inl rfl
  | @mask _ c xs s' _ b hmatch rest =>
    have ⟨y, start⟩ := hf b
    rw [start]
    exact .inr ⟨rfl, c, xs, s', b, rfl, hmatch⟩

/-- A word of the result that begins outside the replacements, and does not hold
    the symbol they begin with, was in the text before, where the scan saw no
    match.  `L` is told what stands behind the word. -/
theorem pull (h : Masked m f prev s out) {L : List α → Option α → Prop} {a w b : List α} {c : α}
    (split : out = a ++ (c :: w) ++ b) (hL : L (c :: w) b.head?)
    (hc : ∀ b, c ∉ f b) (hw : q ∉ w)
    (hq : L (c :: w) (some q) → ∀ prev x xs b rest, m prev x (xs ++ rest) = some (b, xs.length) →
      L (c :: w) (some x)) :
    ∃ a₀ b₀, s = a₀ ++ (c :: w) ++ b₀ ∧ L (c :: w) b₀.head? ∧
      m (lastRead prev a₀) c (w ++ b₀) = none := by
  have out' : out = a ++ c :: (w ++ b) := by rw [split, List.append_assoc]; rfl
  obtain ⟨a₀, s', rfl, tail, _⟩ := h.suffix out' fun b x y whole => by
    exact absurd (whole ▸ List.mem_append_right x List.mem_cons_self) (hc b)
  generalize whole : c :: (w ++ b) = rest at tail
  cases tail with
  | nil => cases whole
  | keep hnone rest =>
    obtain ⟨rfl, rfl⟩ := List.cons.inj whole
    obtain ⟨b₀, rfl, tail⟩ := rest.kept hf hw
    refine ⟨a₀, b₀, by simp, ?_, hnone⟩
    rcases tail.head hf with same | ⟨masked, x, xs, s', piece, rfl, hmatch⟩
    · rw [← same]
      exact hL
    · rw [masked] at hL
      exact hq hL _ x xs piece s' hmatch
  | @mask _ d xs s' o b' hmatch rest =>
    have ⟨y, start⟩ := hf b'
    rw [start] at whole
    have first : c ∈ f b' := by
      rw [start, (List.cons.inj whole).1]
      exact List.mem_cons_self
    exact absurd first (hc b')

end Replacements

end Masked

end Masked

end Paayatam.Lib
