/-
  Paayatam.Lib.Digits

  Decimal numerals of a fixed width.

  `fixedDigits width n` writes the last `width` decimal digits of `n`, padded
  with zeros.  Reading them back gives the number, and every run of that many
  digits is written by its own value; a number without leading zeros is the
  numeral of its own length.
-/

import Mathlib.Data.List.Induction
import Mathlib.Tactic.IntervalCases

namespace Paayatam.Lib

section Digits

variable {width n : Nat} {ds : List Char} {c : Char}

theorem ofDigitChars_concat :
    Nat.ofDigitChars 10 (ds ++ [c]) 0 = 10 * Nat.ofDigitChars 10 ds 0 + (c.toNat - '0'.toNat) := by
  rw [Nat.ofDigitChars_append, Nat.ofDigitChars_cons, Nat.ofDigitChars_nil]

/-- A digit is that of its value. -/
theorem digitChar_toNat (h : c.isDigit = true) :
    Nat.digitChar (c.toNat - '0'.toNat) = c ∧ c.toNat - '0'.toNat < 10 ∧
      (c ≠ '0' → 0 < c.toNat - '0'.toNat) := by
  simp only [Char.isDigit, Bool.and_eq_true, decide_eq_true_eq] at h
  have hlow : 48 ≤ c.toNat := UInt32.le_iff_toNat_le.1 h.1
  have hhigh : c.toNat ≤ 57 := UInt32.le_iff_toNat_le.1 h.2
  have hzero : '0'.toNat = 48 := rfl
  rw [hzero]
  refine ⟨?_, by omega, fun hne => ?_⟩
  · apply Char.toNat_inj.1
    rw [Nat.toNat_digitChar_of_lt_ten (by omega)]
    omega
  · have hne' : c.toNat ≠ 48 := fun heq => hne (Char.toNat_inj.1 heq)
    omega

theorem digitChar_spec (h : n < 10) :
    (Nat.digitChar n).isDigit = true ∧ (Nat.digitChar n).toNat - '0'.toNat = n := by
  interval_cases n <;> exact ⟨rfl, rfl⟩

/-- A number read from its decimal digits. -/
def readDigits (ds : List Char) : Nat := Nat.ofDigitChars 10 ds 0

theorem readDigits_concat : readDigits (ds ++ [c]) = 10 * readDigits ds + (c.toNat - '0'.toNat) :=
  ofDigitChars_concat

/-- The last digits of a number, so many of them. -/
def fixedDigits : Nat → Nat → List Char
  | 0, _ => []
  | width + 1, n => fixedDigits width (n / 10) ++ [Nat.digitChar (n % 10)]

theorem fixedDigits_succ :
    fixedDigits (width + 1) n = fixedDigits width (n / 10) ++ [Nat.digitChar (n % 10)] := rfl

@[simp] theorem length_fixedDigits : (fixedDigits width n).length = width := by
  induction width generalizing n with
  | zero => rfl
  | succ width ih => rw [fixedDigits_succ, List.length_append, ih, List.length_singleton]

theorem all_isDigit_fixedDigits : (fixedDigits width n).all Char.isDigit = true := by
  induction width generalizing n with
  | zero => rfl
  | succ width ih =>
      rw [fixedDigits_succ, List.all_append, ih, List.all_cons, List.all_nil,
        (digitChar_spec (Nat.mod_lt n (by omega))).1]
      rfl

theorem readDigits_fixedDigits (h : n < 10 ^ width) : readDigits (fixedDigits width n) = n := by
  induction width generalizing n with
  | zero =>
      have hzero : n = 0 := by simpa using h
      rw [hzero]
      rfl
  | succ width ih =>
      have hfront : n / 10 < 10 ^ width := by omega
      rw [fixedDigits_succ, readDigits_concat, ih hfront,
        (digitChar_spec (Nat.mod_lt n (by omega))).2]
      omega

theorem readDigits_lt (h : ds.all Char.isDigit = true) : readDigits ds < 10 ^ ds.length := by
  induction ds using List.reverseRecOn with
  | nil => exact Nat.one_pos
  | append_singleton ds c ih =>
      rw [List.all_append, Bool.and_eq_true] at h
      obtain ⟨hfront, hlast⟩ := h
      have hdigit : c.toNat - '0'.toNat < 10 := (digitChar_toNat (by simpa using hlast)).2.1
      have hvalue := ih hfront
      rw [readDigits_concat, List.length_append, List.length_singleton, Nat.pow_succ]
      omega

/-- Without leading zeros a number takes as many digits as it has. -/
theorem toDigits_eq_fixedDigits (hlow : 10 ^ width ≤ n) (hhigh : n < 10 ^ (width + 1)) :
    Nat.toDigits 10 n = fixedDigits (width + 1) n := by
  induction width generalizing n with
  | zero =>
      have hlt : n < 10 := by omega
      rw [Nat.toDigits_of_lt_base hlt, fixedDigits_succ, Nat.mod_eq_of_lt hlt]
      rfl
  | succ width ih =>
      have hpow : 10 ^ (width + 1) = 10 * 10 ^ width := Nat.pow_succ'
      have hpow' : 10 ^ (width + 1 + 1) = 10 * 10 ^ (width + 1) := Nat.pow_succ'
      have hpos : 0 < 10 ^ width := Nat.pow_pos (by omega)
      rw [Nat.toDigits_of_base_le (by omega) (by omega), ih (by omega) (by omega),
        fixedDigits_succ, fixedDigits_succ, fixedDigits_succ]

/-- So many digits and no fewer: the number is as large as that. -/
theorem le_of_length_toDigits (h : (Nat.toDigits 10 n).length = width + 1) (hpos : 0 < width) :
    10 ^ width ≤ n := by
  by_contra hlt
  have hle := (Nat.length_toDigits_le_iff (b := 10) (n := n) (k := width) (by omega) hpos).2
    (by omega)
  omega

end Digits

end Paayatam.Lib
