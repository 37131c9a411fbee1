/-
  Paayatam.Lib.Bits

  The low bits of a word, most significant first.

  An accumulator that takes symbols in by shifting left and gives others out by
  shifting right is followed by the list of bits it still holds: pushing a
  symbol appends its bits, and what is given out comes off the front.  The word
  may overflow, as long as the bits held fit into it.
-/

import Mathlib.Data.List.Basic

namespace Paayatam.Lib

section Bits

variable {n m k w : Nat} {v x : BitVec n}

/-- The `w` low bits of a word, most significant first. -/
def bitsOf (w : Nat) (v : BitVec n) : List Bool :=
  match w with
  | 0 => []
  | w + 1 => v.getLsbD w :: bitsOf w v

@[simp] theorem bitsOf_zero : bitsOf 0 v = [] := rfl

theorem bitsOf_succ : bitsOf (w + 1) v = v.getLsbD w :: bitsOf w v := rfl

@[simp] theorem length_bitsOf : (bitsOf w v).length = w := by
  induction w with
  | zero => rfl
  | succ w ih => rw [bitsOf_succ, List.length_cons, ih]

/-- Only the low bits count. -/
theorem bitsOf_congr {v : BitVec n} {v' : BitVec m}
    (h : ∀ i, i < w → v.getLsbD i = v'.getLsbD i) : bitsOf w v = bitsOf w v' := by
  induction w with
  | zero => rfl
  | succ w ih => rw [bitsOf_succ, bitsOf_succ, h w (by omega), ih fun i hi => h i (by omega)]

theorem getLsbD_of_bitsOf {v : BitVec n} {v' : BitVec m} (h : bitsOf w v = bitsOf w v') {i : Nat}
    (hi : i < w) : v.getLsbD i = v'.getLsbD i := by
  induction w with
  | zero => omega
  | succ w ih =>
      obtain ⟨htop, hrest⟩ := List.cons.inj h
      by_cases hlast : i = w
      · rw [hlast, htop]
      · exact ih hrest (by omega)

/-- A word is its bits. -/
theorem bitsOf_inj {v v' : BitVec n} (h : bitsOf n v = bitsOf n v') : v = v' :=
  BitVec.eq_of_getLsbD_eq fun _ hi => getLsbD_of_bitsOf h hi

/-- The front of the bits is what a shift to the right leaves. -/
theorem bitsOf_add (k w : Nat) (v : BitVec n) :
    bitsOf (k + w) v = bitsOf k (v >>> w) ++ bitsOf w v := by
  induction k with
  | zero => rw [Nat.zero_add, bitsOf_zero, List.nil_append]
  | succ k ih =>
      rw [show k + 1 + w = k + w + 1 by omega, bitsOf_succ, bitsOf_succ, ih,
        List.cons_append, BitVec.getLsbD_ushiftRight, Nat.add_comm w k]

/-- A symbol of `k` bits pushed in from the right. -/
theorem bitsOf_push (hw : w + k ≤ n) (hx : ∀ i, k ≤ i → x.getLsbD i = false) :
    bitsOf (w + k) (v <<< k ||| x) = bitsOf w v ++ bitsOf k x := by
  rw [bitsOf_add]
  congr 1
  · refine bitsOf_congr fun i hi => ?_
    have hin : k + i < n := by omega
    rw [BitVec.getLsbD_ushiftRight, BitVec.getLsbD_or, BitVec.getLsbD_shiftLeft,
      hx (k + i) (by omega)]
    simp [hin]
  · refine bitsOf_congr fun i hi => ?_
    rw [BitVec.getLsbD_or, BitVec.getLsbD_shiftLeft]
    simp [hi]

/-- A shift to the left puts zeros in. -/
theorem bitsOf_shiftLeft (hw : w + k ≤ n) :
    bitsOf (w + k) (v <<< k) = bitsOf w v ++ bitsOf k (0#n) := by
  rw [← bitsOf_push hw (fun i _ => by simp), BitVec.or_zero]

/-- Two texts of words of one width, with less than a word's bits left over each: the same
    words. -/
theorem words_of_bits {α : Type} {width : Nat} {bits : α → List Bool}
    (hbits : ∀ a, (bits a).length = width) (hinj : ∀ a b, bits a = bits b → a = b)
    {as bs : List α} {rest rest' : List Bool} (hrest : rest.length < width)
    (hrest' : rest'.length < width)
    (h : as.flatMap bits ++ rest = bs.flatMap bits ++ rest') : as = bs := by
  induction as generalizing bs with
  | nil =>
      cases bs with
      | nil => rfl
      | cons b bs =>
          have hlen := congrArg List.length h
          rw [List.flatMap_nil, List.nil_append, List.flatMap_cons, List.length_append,
            List.length_append, hbits] at hlen
          omega
  | cons a as ih =>
      cases bs with
      | nil =>
          have hlen := congrArg List.length h
          rw [List.flatMap_nil, List.nil_append, List.flatMap_cons, List.length_append,
            List.length_append, hbits] at hlen
          omega
      | cons b bs =>
          rw [List.flatMap_cons, List.flatMap_cons, List.append_assoc, List.append_assoc] at h
          obtain ⟨hfirst, hothers⟩ := List.append_inj h ((hbits a).trans (hbits b).symm)
          rw [hinj a b hfirst, ih hothers]

end Bits

end Paayatam.Lib
