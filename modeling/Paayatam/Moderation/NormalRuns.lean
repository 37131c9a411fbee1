/-
  Paayatam.Moderation.NormalRuns

  The two rules that look beyond one character, on texts put together of parts.

  A repetition is collapsed run by run, so a text is cut without loss wherever no
  run of three crosses the cut (`collapseRepetition_append`).  Intruders are
  deleted between two letters of the Arabic block, so what is left has none
  (`stripIntrusiveLatin_idem`), and putting some in changes nothing.
-/

import Paayatam.Moderation.NormalWords

namespace Paayatam

open Lib

namespace Normalizer

/-! ## Runs -/

section Runs

variable {c : Char} {s p q : List Char}

theorem pieces_REPEATED (prev prev' : Option Char) (s : List Char) :
    pieces REPEATED prev 0 s = pieces REPEATED prev' 0 s := by
  cases s <;> rfl

theorem takeWhile_split {test : Char → Bool}
    (h : ((p ++ q).takeWhile test).length = p.length) :
    (∀ c ∈ p, test c = true) ∧ (p ++ q).dropWhile test = q := by
  have hsplit : (p ++ q).takeWhile test ++ (p ++ q).dropWhile test = p ++ q :=
    List.takeWhile_append_dropWhile
  obtain ⟨hfront, hback⟩ := List.append_inj hsplit h
  refine ⟨fun c hc => ?_, hback⟩
  rw [← hfront] at hc
  exact List.all_eq_true.1 List.all_takeWhile c hc

/-- A match is a run of its character, of three at least. -/
theorem REPEATED_shape {prev : Option Char} {rest : List Char} {b : Char} {n : Nat}
    (h : REPEATED prev c rest = some (b, n)) :
    b = c ∧ 2 ≤ n ∧ (rest.takeWhile fun x => x = c).length = n := by
  unfold REPEATED at h
  simp only at h
  split at h
  · next hrun =>
      obtain ⟨rfl, rfl⟩ := Prod.mk.inj (Option.some.inj h)
      exact ⟨rfl, hrun.2, rfl⟩
  · cases h

theorem REPEATED_none {prev : Option Char} {rest : List Char} (hc : isLineTerminator c = false)
    (h : REPEATED prev c rest = none) : (rest.takeWhile fun x => x = c).length < 2 := by
  unfold REPEATED at h
  simp only at h
  split at h
  · cases h
  · next hrun =>
      by_contra hlong
      exact hrun ⟨hc, by omega⟩

/-- Collapsing keeps the first character of each run. -/
theorem collapseRepetition_sublist (s : List Char) : (collapseRepetition s).Sublist s := by
  unfold collapseRepetition replaceAll
  refine scan_induction (P := fun prev s => ((pieces REPEATED prev 0 s).flatMap
    (replacement (fun c => [c]) fun c => [c])).Sublist s) REPEATED_within ?_ ?_ ?_ none s
  · intro prev
    simp
  · intro prev c rest h ih
    rw [pieces_unmatched h, List.flatMap_cons]
    exact ih.cons_cons c
  · intro prev c xs rest b h ih
    obtain ⟨rfl, -, -⟩ := REPEATED_shape h
    rw [pieces_matched h, List.flatMap_cons, List.cons_append]
    exact (ih.trans (List.sublist_append_right xs rest)).cons_cons b

/-- Three equal characters in a row. -/
def Tripled (s : List Char) : Prop := ∃ x, [x, x, x] <:+: s

theorem run_front (h : 2 ≤ (s.takeWhile fun x => x = c).length) : [c, c] <+: s := by
  cases s with
  | nil => simp at h
  | cons a s =>
      cases s with
      | nil =>
          have hone := (List.takeWhile_sublist (l := [a]) fun x => x = c).length_le
          rw [List.length_singleton] at hone
          omega
      | cons b s =>
          by_cases ha : a = c
          · by_cases hb : b = c
            · exact ⟨s, by rw [ha, hb]; rfl⟩
            · simp [ha, hb] at h
          · simp [ha] at h

theorem run_length (h : [c, c] <+: s) : 2 ≤ (s.takeWhile fun x => x = c).length := by
  obtain ⟨rest, rfl⟩ := h
  simp

theorem collapseRepetition_self (h : ¬ Tripled s) : collapseRepetition s = s := by
  unfold collapseRepetition replaceAll
  revert h
  refine scan_induction (P := fun prev s => ¬ Tripled s → (pieces REPEATED prev 0 s).flatMap
    (replacement (fun c => [c]) fun c => [c]) = s) REPEATED_within ?_ ?_ ?_ none s
  · intro prev _
    simp
  · intro prev c rest hnone ih hs
    have hrest : ¬ Tripled rest := by
      rintro ⟨x, hx⟩
      exact hs ⟨x, hx.trans (List.suffix_cons c rest).isInfix⟩
    rw [pieces_unmatched hnone, List.flatMap_cons, ih hrest]
    rfl
  · intro prev c xs rest b hmatch _ hs
    obtain ⟨-, hlong, hrun⟩ := REPEATED_shape hmatch
    refine absurd ⟨c, List.IsPrefix.isInfix ?_⟩ hs
    rw [List.cons_append, List.cons_prefix_cons]
    exact ⟨rfl, run_front (hrun ▸ hlong)⟩

/-- A word that collapsing leaves alone has no run of three. -/
theorem not_tripled_of_collapse (hs : ∀ c ∈ s, isLineTerminator c = false)
    (h : collapseRepetition s = s) : ¬ Tripled s := by
  unfold collapseRepetition replaceAll at h
  revert hs h
  refine scan_induction (P := fun prev s => (∀ c ∈ s, isLineTerminator c = false) →
    (pieces REPEATED prev 0 s).flatMap (replacement (fun c => [c]) fun c => [c]) = s →
      ¬ Tripled s) REPEATED_within ?_ ?_ ?_ none s
  · rintro prev - - ⟨x, hx⟩
    simp at hx
  · rintro prev c rest hnone ih hs h ⟨x, hx⟩
    obtain ⟨hc, hrest⟩ := List.forall_mem_cons.1 hs
    rw [pieces_unmatched hnone, List.flatMap_cons] at h
    rcases List.infix_cons_iff.1 hx with hfront | hlater
    · obtain ⟨rfl, hrun⟩ := List.cons_prefix_cons.1 hfront
      have hshort := REPEATED_none hc hnone
      have hlong := run_length hrun
      omega
    · exact ih hrest (List.cons.inj h).2 ⟨x, hlater⟩
  · intro prev c xs rest b hmatch _ _ h
    obtain ⟨-, hlong, -⟩ := REPEATED_shape hmatch
    have hshort := (collapseRepetition_sublist rest).length_le
    unfold collapseRepetition replaceAll at hshort
    rw [pieces_REPEATED none (lastRead (some c) xs)] at hshort
    rw [pieces_matched hmatch, List.flatMap_cons] at h
    have hlen := congrArg List.length h
    rw [List.length_append, List.length_append, List.length_cons] at hlen
    have hone : (replacement (fun c => [c]) (fun c => [c]) (.inr b : Char ⊕ Char)).length = 1 := rfl
    omega

/-- A run of three or more would cross the cut. -/
def Crosses (p q : List Char) : Prop :=
  ∃ x, ([x, x] <:+ p ∧ [x] <+: q) ∨ ([x] <:+ p ∧ [x, x] <+: q)

theorem Crosses.cons (h : Crosses p q) : Crosses (c :: p) q := by
  obtain ⟨x, ⟨hp, hq⟩ | ⟨hp, hq⟩⟩ := h
  · exact ⟨x, .inl ⟨hp.trans (List.suffix_cons c p), hq⟩⟩
  · exact ⟨x, .inr ⟨hp.trans (List.suffix_cons c p), hq⟩⟩

/-- Where a run crosses, the same character stands on both sides. -/
theorem Crosses.meet (h : Crosses p q) : ∃ x, p.getLast? = some x ∧ q.head? = some x := by
  obtain ⟨x, ⟨hp, rest, rfl⟩ | ⟨⟨front, rfl⟩, rest, rfl⟩⟩ := h
  · obtain ⟨front, rfl⟩ : [x] <:+ p := List.IsSuffix.trans ⟨[x], rfl⟩ hp
    exact ⟨x, List.getLast?_concat, rfl⟩
  · exact ⟨x, List.getLast?_concat, rfl⟩

/-- A run that stays on its side of the cut is the same run with more text behind it. -/
theorem REPEATED_append {prev : Option Char} {rest : List Char} (h : ¬ Crosses (c :: rest) q) :
    REPEATED prev c (rest ++ q) = REPEATED prev c rest := by
  have hreach : (rest ++ q).takeWhile (fun x => x = c) = rest.takeWhile (fun x => x = c) ∨
      (rest = [] ∧ (q.takeWhile fun x => x = c).length < 2) := by
    rw [List.takeWhile_append]
    split
    · next hall =>
        have hrest : rest = List.replicate rest.length c := by
          refine List.eq_replicate_iff.2 ⟨rfl, fun x hx => ?_⟩
          have hsame := (List.takeWhile_sublist (fun x => decide (x = c))).eq_of_length hall
          rw [← hsame] at hx
          exact of_decide_eq_true (List.all_eq_true.1 List.all_takeWhile x hx)
        cases hm : rest.length with
        | zero =>
            right
            refine ⟨List.length_eq_zero_iff.1 hm, ?_⟩
            by_contra hlong
            exact h ⟨c, .inr ⟨⟨[], by rw [hrest, hm]; rfl⟩, run_front (by omega)⟩⟩
        | succ m =>
            left
            have htail : [c, c] <:+ c :: rest := by
              refine ⟨List.replicate m c, ?_⟩
              rw [hrest, hm, ← List.replicate_succ, List.replicate_succ', List.replicate_succ',
                List.append_assoc]
              rfl
            cases q with
            | nil =>
                rw [hrest]
                simp
            | cons d q =>
                have hd : ¬ d = c := by
                  rintro rfl
                  exact h ⟨d, .inl ⟨htail, ⟨q, rfl⟩⟩⟩
                rw [hrest]
                simp [hd]
    · exact .inl rfl
  rcases hreach with hsame | ⟨rfl, hshort⟩
  · unfold REPEATED
    rw [hsame]
  · unfold REPEATED
    rw [List.nil_append]
    have hlong : ¬ 2 ≤ (q.takeWhile fun x => x = c).length := by omega
    simp [hlong]

/-- Runs that do not reach each other across a cut are collapsed by themselves. -/
theorem collapseRepetition_append (h : ¬ Crosses p q) :
    collapseRepetition (p ++ q) = collapseRepetition p ++ collapseRepetition q := by
  have hsplit : pieces REPEATED none 0 (p ++ q) =
      pieces REPEATED none 0 p ++ pieces REPEATED none 0 q := by
    revert h
    refine scan_induction (P := fun prev p => ¬ Crosses p q → pieces REPEATED prev 0 (p ++ q) =
      pieces REPEATED prev 0 p ++ pieces REPEATED none 0 q) REPEATED_within ?_ ?_ ?_ none p
    · intro prev _
      rw [List.nil_append, pieces_nil, List.nil_append]
      exact pieces_REPEATED prev none q
    · intro prev c rest hnone ih h
      rw [List.cons_append, pieces_unmatched ((REPEATED_append h).trans hnone),
        pieces_unmatched hnone, ih fun hcross => h hcross.cons]
      rfl
    · intro prev c xs rest b hmatch ih h
      have hrest : ¬ Crosses rest q := by
        rintro ⟨x, hx⟩
        refine h ⟨x, ?_⟩
        have hsuffix : rest <:+ c :: xs ++ rest := List.suffix_append _ _
        exact hx.imp (fun h => ⟨h.1.trans hsuffix, h.2⟩) fun h => ⟨h.1.trans hsuffix, h.2⟩
      have hreach : REPEATED prev c (xs ++ (rest ++ q)) = some (b, xs.length) := by
        have hcross : ¬ Crosses (c :: (xs ++ rest)) q := h
        rw [← List.append_assoc, REPEATED_append hcross]
        exact hmatch
      rw [List.append_assoc, pieces_matched hreach, pieces_matched hmatch, ih hrest]
      rfl
  unfold collapseRepetition replaceAll
  rw [hsplit, List.flatMap_append]

theorem collapseRepetition_replicate {k : Nat} (hc : isLineTerminator c = false) (hk : 3 ≤ k) :
    collapseRepetition (List.replicate k c) = [c] := by
  obtain ⟨m, rfl⟩ : ∃ m, k = m + 1 := ⟨k - 1, by omega⟩
  have hmatch : REPEATED none c (List.replicate m c ++ []) =
      some (c, (List.replicate m c).length) := by
    have hlong : 2 ≤ m := by omega
    simp [REPEATED, hc, hlong]
  have hsplit : List.replicate (m + 1) c = c :: List.replicate m c ++ [] := by
    rw [List.append_nil]
    rfl
  unfold collapseRepetition replaceAll
  rw [hsplit, pieces_matched hmatch, pieces_nil]
  rfl

theorem collapseRepetition_single : collapseRepetition [c] = [c] := by
  refine collapseRepetition_self ?_
  rintro ⟨x, hx⟩
  have hlen := hx.length_le
  simp at hlen

/-- A run of one character is collapsed by itself when it is whole. -/
theorem collapseRepetition_run {k : Nat} (hk : 0 < k) (hp : ¬ [c] <:+ p) (hq : ¬ [c] <+: q) :
    collapseRepetition (p ++ List.replicate k c ++ q) =
      collapseRepetition p ++ collapseRepetition (List.replicate k c) ++ collapseRepetition q := by
  obtain ⟨m, rfl⟩ : ∃ m, k = m + 1 := ⟨k - 1, by omega⟩
  have hback : ¬ Crosses (p ++ List.replicate (m + 1) c) q := by
    intro hcross
    obtain ⟨x, hlast, hfirst⟩ := hcross.meet
    rw [List.replicate_succ', ← List.append_assoc, List.getLast?_concat] at hlast
    rw [← Option.some.inj hlast] at hfirst
    obtain ⟨rest, rfl⟩ := List.head?_eq_some_iff.1 hfirst
    exact hq ⟨rest, rfl⟩
  have hfront : ¬ Crosses p (List.replicate (m + 1) c) := by
    intro hcross
    obtain ⟨x, hlast, hfirst⟩ := hcross.meet
    rw [List.replicate_succ, List.head?_cons] at hfirst
    rw [← Option.some.inj hfirst] at hlast
    obtain ⟨front, rfl⟩ := List.getLast?_eq_some_iff.1 hlast
    exact hp ⟨front, rfl⟩
  rw [collapseRepetition_append hback, collapseRepetition_append hfront]

/-- How many of a character stand at the end of a text, and at its front. -/
def trailing (c : Char) (p : List Char) : Nat := (p.reverse.takeWhile fun x => x = c).length

def leading (c : Char) (q : List Char) : Nat := (q.takeWhile fun x => x = c).length

/-- How many of a character stand next to a place. -/
def near (c : Char) (p q : List Char) : Nat := trailing c p + leading c q

theorem leading_split (c : Char) (q : List Char) :
    ∃ q', q = List.replicate (leading c q) c ++ q' ∧ ¬ [c] <+: q' := by
  induction q with
  | nil => exact ⟨[], rfl, by simp⟩
  | cons x q ih =>
      by_cases hx : x = c
      · subst hx
        obtain ⟨q', hq, hfree⟩ := ih
        refine ⟨q', ?_, hfree⟩
        have hcount : leading x (x :: q) = leading x q + 1 := by simp [leading]
        rw [hcount, List.replicate_succ, List.cons_append, ← hq]
      · refine ⟨x :: q, by simp [leading, hx], ?_⟩
        rintro ⟨rest, hrest⟩
        exact hx (List.cons.inj hrest).1.symm

theorem trailing_split (c : Char) (p : List Char) :
    ∃ p', p = p' ++ List.replicate (trailing c p) c ∧ ¬ [c] <:+ p' := by
  obtain ⟨q', hq, hfree⟩ := leading_split c p.reverse
  refine ⟨q'.reverse, ?_, ?_⟩
  · have hrev := congrArg List.reverse hq
    rwa [List.reverse_reverse, List.reverse_append, List.reverse_replicate] at hrev
  · intro hsuffix
    refine hfree ?_
    rw [← List.reverse_suffix]
    exact hsuffix

/-- A repeated letter is collapsed as the letter alone is, if it is not one of a pair. -/
theorem collapseRepetition_repeated {n : Nat} (hc : isLineTerminator c = false) (hn : 3 ≤ n)
    (hnear : near c p q ≠ 1) :
    collapseRepetition (p ++ List.replicate n c ++ q) = collapseRepetition (p ++ [c] ++ q) := by
  obtain ⟨p', hp, hpfree⟩ := trailing_split c p
  obtain ⟨q', hq, hqfree⟩ := leading_split c q
  have hwhole : ∀ k, 0 < k → collapseRepetition (p ++ List.replicate k c ++ q) =
      collapseRepetition p' ++
        collapseRepetition (List.replicate (trailing c p + k + leading c q) c) ++
          collapseRepetition q' := by
    intro k hk
    rw [← collapseRepetition_run (by omega) hpfree hqfree]
    congr 1
    conv => lhs; rw [hp, hq]
    rw [List.replicate_add (trailing c p + k) (leading c q), List.replicate_add (trailing c p) k]
    simp only [List.append_assoc]
  have hone : ([c] : List Char) = List.replicate 1 c := rfl
  rw [hone, hwhole n (by omega), hwhole 1 (by omega),
    collapseRepetition_replicate hc (by omega)]
  unfold near at hnear
  by_cases hlone : trailing c p + leading c q = 0
  · rw [show trailing c p + 1 + leading c q = 1 by omega, ← hone, collapseRepetition_single]
  · rw [collapseRepetition_replicate hc (by omega)]

/-- A character that is no part of a run of three stands between two texts. -/
theorem collapseRepetition_lone (hnear : near c p q ≤ 1) :
    collapseRepetition (p ++ [c] ++ q) =
      collapseRepetition p ++ [c] ++ collapseRepetition q := by
  have hlast : ∀ x, [x] <:+ p ++ [c] → x = c := by
    rintro x ⟨front, hfront⟩
    exact (List.cons.inj (List.append_inj_right' hfront rfl)).1
  have hbehind : ∀ k, List.replicate k c <:+ p → k ≤ trailing c p := by
    intro k hk
    obtain ⟨front, rfl⟩ := hk
    simp [trailing]
  have hahead : ∀ k, List.replicate k c <+: q → k ≤ leading c q := by
    intro k hk
    obtain ⟨rest, rfl⟩ := hk
    simp [leading]
  unfold near at hnear
  have hback : ¬ Crosses (p ++ [c]) q := by
    rintro ⟨x, ⟨hxp, hxq⟩ | ⟨hxp, hxq⟩⟩
    · obtain rfl := hlast x (List.IsSuffix.trans ⟨[x], rfl⟩ hxp)
      have hone : [x] <:+ p := by
        obtain ⟨front, hfront⟩ := hxp
        refine ⟨front, ?_⟩
        have hsplit : (front ++ [x]) ++ [x] = p ++ [x] := by simpa using hfront
        exact List.append_cancel_right hsplit
      have hp := hbehind 1 hone
      have hq := hahead 1 hxq
      omega
    · obtain rfl := hlast x hxp
      have hq := hahead 2 hxq
      omega
  have hfront : ¬ Crosses p [c] := by
    rintro ⟨x, ⟨hxp, hxq⟩ | ⟨hxp, hxq⟩⟩
    · obtain ⟨rfl, -⟩ := List.cons_prefix_cons.1 hxq
      have hp := hbehind 2 hxp
      omega
    · have hlen := hxq.length_le
      simp at hlen
  rw [collapseRepetition_append hback, collapseRepetition_append hfront, collapseRepetition_single]

/-- Collapsing keeps the first and the last character of a text. -/
theorem collapseRepetition_head (s : List Char) : (collapseRepetition s).head? = s.head? := by
  cases s with
  | nil => rfl
  | cons c rest =>
      unfold collapseRepetition replaceAll
      cases h : REPEATED none c rest with
      | none =>
          rw [pieces_unmatched h]
          rfl
      | some found =>
          obtain ⟨b, n⟩ := found
          obtain ⟨rfl, -, -⟩ := REPEATED_shape h
          rw [pieces, h]
          rfl

theorem collapseRepetition_last (s : List Char) :
    (collapseRepetition s).getLast? = s.getLast? := by
  unfold collapseRepetition replaceAll
  refine scan_induction (P := fun prev s => ((pieces REPEATED prev 0 s).flatMap
    (replacement (fun c => [c]) fun c => [c])).getLast? = s.getLast?) REPEATED_within ?_ ?_ ?_
      none s
  · intro prev
    simp
  · intro prev c rest hnone ih
    have hone : replacement (fun c => [c]) (fun c => [c]) (.inl c : Char ⊕ Char) = [c] := rfl
    rw [pieces_unmatched hnone, List.flatMap_cons, hone, List.singleton_append,
      List.getLast?_cons, List.getLast?_cons, ih]
  · intro prev c xs rest b hmatch ih
    obtain ⟨rfl, -, hlen⟩ := REPEATED_shape hmatch
    have hxs : ∀ x ∈ xs, x = b := by
      intro x hx
      have hsame := (takeWhile_split hlen).1 x hx
      exact of_decide_eq_true hsame
    have hone : replacement (fun c => [c]) (fun c => [c]) (.inr b : Char ⊕ Char) = [b] := rfl
    rw [pieces_matched hmatch, List.flatMap_cons, hone, List.singleton_append, List.cons_append,
      List.getLast?_cons, List.getLast?_cons, ih, List.getLast?_append]
    cases hrest : rest.getLast? with
    | some d => rfl
    | none =>
        cases hend : xs.getLast? with
        | none => rfl
        | some d =>
            obtain rfl := hxs d (List.mem_of_getLast? hend)
            rfl

end Runs

/-! ## Intruders -/

/-- Intruders come first, and a letter of the Arabic block behind them. -/
def entering (s : List Char) : Bool :=
  s.head?.any isIntruder && (s.dropWhile isIntruder).head?.any isPersoArabic

/-- `stripIntrusiveLatin` character by character, behind a letter of the Arabic block or not;
    a deleted character leaves it there. -/
def stripFrom : Bool → List Char → List Char
  | _, [] => []
  | behind, c :: rest =>
    if behind && entering (c :: rest) then stripFrom behind rest
    else c :: stripFrom (isPersoArabic c) rest

section Intruders

variable {c : Char} {s rest p q run : List Char} {behind : Bool}

theorem isIntruder_not_perso (h : isIntruder c = true) : isPersoArabic c = false := by
  simp [isIntruder] at h
  simp [isPersoArabic]
  omega

theorem perso_not_intruder (h : isPersoArabic c = true) : isIntruder c = false := by
  cases hintruder : isIntruder c with
  | false => rfl
  | true =>
      rw [isIntruder_not_perso hintruder] at h
      cases h

theorem first_perso (h : s.head?.any isPersoArabic = true) :
    ∃ d after, s = d :: after ∧ isPersoArabic d = true ∧ isIntruder d = false := by
  cases s with
  | nil => cases h
  | cons d after =>
      have hd : isPersoArabic d = true := h
      exact ⟨d, after, rfl, hd, perso_not_intruder hd⟩

theorem entering_cons (hc : isIntruder c = true) (s : List Char) :
    entering (c :: s) = (s.dropWhile isIntruder).head?.any isPersoArabic := by
  simp [entering, hc]

theorem entering_other (hc : isIntruder c = false) (s : List Char) : entering (c :: s) = false := by
  simp [entering, hc]

theorem stripFrom_cons : stripFrom behind (c :: rest) =
    if behind && entering (c :: rest) then stripFrom behind rest
    else c :: stripFrom (isPersoArabic c) rest := rfl

/-- A run of intruders in front of a letter is deleted whole. -/
theorem stripFrom_run (hrun : ∀ c ∈ run, isIntruder c = true)
    (hnext : (rest.dropWhile isIntruder).head?.any isPersoArabic = true) :
    stripFrom true (run ++ rest) = stripFrom true rest := by
  induction run with
  | nil => rfl
  | cons c run ih =>
      obtain ⟨hc, htail⟩ := List.forall_mem_cons.1 hrun
      have henter : entering (c :: (run ++ rest)) = true := by
        rw [entering_cons hc, List.dropWhile_append_of_pos htail]
        exact hnext
      rw [List.cons_append, stripFrom_cons, henter]
      exact ih htail

theorem INTRUSIVE_shape {prev : Option Char} {b : Unit} {n : Nat}
    (h : INTRUSIVE prev c rest = some (b, n)) :
    prev.any isPersoArabic = true ∧ isIntruder c = true ∧
      (rest.dropWhile isIntruder).head?.any isPersoArabic = true ∧
        (rest.takeWhile isIntruder).length = n := by
  unfold INTRUSIVE at h
  split at h
  · next hmatch =>
      obtain ⟨-, rfl⟩ := Prod.mk.inj (Option.some.inj h)
      exact ⟨hmatch.1, hmatch.2.1, hmatch.2.2, rfl⟩
  · cases h

theorem lastRead_free {test : Char → Bool} (hc : test c = false) (hs : ∀ x ∈ s, test x = false) :
    (lastRead (some c) s).any test = false := by
  induction s generalizing c with
  | nil => simpa using hc
  | cons x s ih =>
      obtain ⟨hx, hrest⟩ := List.forall_mem_cons.1 hs
      rw [lastRead_cons]
      exact ih hx hrest

theorem stripIntrusiveLatin_eq (s : List Char) :
    stripIntrusiveLatin s = stripFrom false s := by
  have hall : ∀ prev s, (pieces INTRUSIVE prev 0 s).flatMap
      (replacement (fun _ => []) fun c => [c]) = stripFrom (prev.any isPersoArabic) s := by
    intro prev s
    refine scan_induction (P := fun prev s => (pieces INTRUSIVE prev 0 s).flatMap
      (replacement (fun _ => []) fun c => [c]) = stripFrom (prev.any isPersoArabic) s)
      INTRUSIVE_within ?_ ?_ ?_ prev s
    · intro prev
      rfl
    · intro prev c rest hnone ih
      have hstay : (prev.any isPersoArabic && entering (c :: rest)) = false := by
        unfold INTRUSIVE at hnone
        split at hnone
        · cases hnone
        · next hmatch =>
            by_contra h
            rw [Bool.not_eq_false, Bool.and_eq_true] at h
            cases hc : isIntruder c with
            | false =>
                rw [entering_other hc] at h
                cases h.2
            | true =>
                rw [entering_cons hc] at h
                exact hmatch ⟨h.1, hc, h.2⟩
      rw [pieces_unmatched hnone, List.flatMap_cons, ih, stripFrom_cons, hstay]
      rfl
    · intro prev c xs rest b hmatch ih
      obtain ⟨hprev, hc, hnext, hlen⟩ := INTRUSIVE_shape hmatch
      obtain ⟨hxs, hrest⟩ := takeWhile_split hlen
      rw [hrest] at hnext
      have hlast : (lastRead (some c) xs).any isPersoArabic = false := by
        refine lastRead_free (isIntruder_not_perso hc) fun x hx => ?_
        exact isIntruder_not_perso (hxs x hx)
      obtain ⟨d, after, rfl, hletter, hd⟩ := first_perso hnext
      have hfirst : stripFrom true (d :: after) = stripFrom false (d :: after) := by
        rw [stripFrom_cons, stripFrom_cons, entering_other hd]
        rfl
      have hdrop : ((d :: after).dropWhile isIntruder).head?.any isPersoArabic = true := by
        rw [List.dropWhile_cons_of_neg (by simp [hd])]
        exact hnext
      rw [pieces_matched hmatch, List.flatMap_cons, ih, hlast, hprev, stripFrom_run _ hdrop, hfirst]
      · rfl
      · exact List.forall_mem_cons.2 ⟨hc, hxs⟩
  exact hall none s

/-- No intruder stands between two letters. -/
def Clean : Bool → List Char → Prop
  | _, [] => True
  | behind, c :: rest => (behind && entering (c :: rest)) = false ∧ Clean (isPersoArabic c) rest

theorem stripFrom_clean (h : Clean behind s) : stripFrom behind s = s := by
  induction s generalizing behind with
  | nil => rfl
  | cons c s ih =>
      rw [stripFrom_cons, h.1, ih h.2]
      rfl

theorem stripFrom_sublist (behind : Bool) (s : List Char) : (stripFrom behind s).Sublist s := by
  induction s generalizing behind with
  | nil => exact List.Sublist.refl _
  | cons c s ih =>
      rw [stripFrom_cons]
      split
      · exact (ih behind).cons c
      · exact (ih (isPersoArabic c)).cons_cons c

/-- What follows the intruders at the front is the same after the deletion. -/
theorem stripFrom_next (s : List Char) :
    ((stripFrom false s).dropWhile isIntruder).head? = (s.dropWhile isIntruder).head? := by
  induction s with
  | nil => rfl
  | cons c s ih =>
      rw [stripFrom_cons, Bool.false_and, if_neg (by simp)]
      cases hc : isIntruder c with
      | true =>
          rw [List.dropWhile_cons_of_pos hc, List.dropWhile_cons_of_pos hc,
            isIntruder_not_perso hc]
          exact ih
      | false =>
          rw [List.dropWhile_cons_of_neg (by simp [hc]), List.dropWhile_cons_of_neg (by simp [hc])]
          rfl

theorem clean_stripFrom (behind : Bool) (s : List Char) : Clean behind (stripFrom behind s) := by
  induction s generalizing behind with
  | nil => trivial
  | cons c s ih =>
      rw [stripFrom_cons]
      split
      · exact ih behind
      · next hstay =>
          refine ⟨?_, ih (isPersoArabic c)⟩
          cases hc : isIntruder c with
          | false => rw [entering_other hc, Bool.and_false]
          | true =>
              rw [entering_cons hc] at hstay ⊢
              rw [isIntruder_not_perso hc, stripFrom_next]
              simpa using hstay

/-- Intruders put between two letters are deleted again. -/
theorem stripFrom_between {d : Char} (hd : isPersoArabic d = true)
    (hrun : ∀ c ∈ run, isIntruder c = true) (hnext : q.head?.any isPersoArabic = true) :
    stripFrom behind (p ++ d :: (run ++ q)) = stripFrom behind (p ++ d :: q) := by
  obtain ⟨e, after, rfl, he, heout⟩ := first_perso hnext
  have hdout := perso_not_intruder hd
  induction p generalizing behind with
  | nil =>
      rw [List.nil_append, List.nil_append, stripFrom_cons, stripFrom_cons, entering_other hdout,
        entering_other hdout, hd]
      have hdrop : ((e :: after).dropWhile isIntruder).head?.any isPersoArabic = true := by
        rw [List.dropWhile_cons_of_neg (by simp [heout])]
        exact hnext
      rw [stripFrom_run hrun hdrop, Bool.and_false, if_neg Bool.false_ne_true,
        if_neg Bool.false_ne_true]
  | cons c p ih =>
      have hsame : entering (c :: p ++ d :: (run ++ e :: after)) =
          entering (c :: p ++ d :: (e :: after)) := by
        unfold entering
        rw [dropWhile_stop hdout, dropWhile_stop hdout]
        cases (c :: p).dropWhile isIntruder <;> rfl
      rw [List.cons_append] at hsame ⊢
      rw [List.cons_append] at hsame ⊢
      rw [stripFrom_cons, stripFrom_cons, hsame, ih, ih]

/-- What the rule leaves it leaves again. -/
theorem stripIntrusiveLatin_idem (s : List Char) :
    stripIntrusiveLatin (stripIntrusiveLatin s) = stripIntrusiveLatin s := by
  rw [stripIntrusiveLatin_eq, stripIntrusiveLatin_eq]
  exact stripFrom_clean (clean_stripFrom false s)

end Intruders

end Normalizer

end Paayatam
