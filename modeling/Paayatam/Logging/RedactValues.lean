/-
  Paayatam.Logging.RedactValues

  What of a whole value reaches a log line.

  An entry under a sensitive name is replaced whatever the value.  The strings
  that are swept are clean where each of them is tame; the name of an error, a
  field name and the digits of a number are never swept, an invalid date throws,
  and an error at the deepest level is taken apart only the second time.
-/

import Paayatam.Logging.RedactSweep
import Paayatam.Logging.RedactTokens

namespace Paayatam

open Lib Lib.Gregorian

namespace Redact

open Sanitizer (isWord takes_exactly)

/-- No expression matches the string. -/
def Clean (s : List Char) : Prop := ∀ p ∈ PATTERNS, ¬p.1.Occurs s

/-- Nothing cuts a token of the string, and no link bares one. -/
structure Tame (s : List Char) : Prop where
  exposed : ¬Exposed s
  tokens : ∀ x w y d r, s = x ++ (w ++ y) → TOKEN.Takes x.getLast? w y.head? → Token w d r →
    Apart x w y ∧ Unchained x d

mutual

/-- The entries of a value, at any depth. -/
def Value.fields : Value → List (List Char × Value)
  | .array entries => fieldsOfAll entries
  | .object entries => fieldsOfEntries entries
  | _ => []

def fieldsOfAll : List Value → List (List Char × Value)
  | [] => []
  | entry :: entries => entry.fields ++ fieldsOfAll entries

def fieldsOfEntries : List (List Char × Value) → List (List Char × Value)
  | [] => []
  | (key, entry) :: entries => (key, entry) :: (entry.fields ++ fieldsOfEntries entries)

end

mutual

/-- The strings of a value, its field names among them. -/
def Value.strings : Value → List (List Char)
  | .string s => [s]
  | .error name message => [name, message]
  | .array entries => stringsOfAll entries
  | .object entries => stringsOfEntries entries
  | _ => []

def stringsOfAll : List Value → List (List Char)
  | [] => []
  | entry :: entries => entry.strings ++ stringsOfAll entries

def stringsOfEntries : List (List Char × Value) → List (List Char)
  | [] => []
  | (key, entry) :: entries => key :: (entry.strings ++ stringsOfEntries entries)

end

/-! ## Texts that are never swept -/

theorem clean_of_chars {s : List Char} (phone : ¬PHONE.Occurs s) (token : s.length < 37 ∨ ':' ∉ s)
    (slash : '/' ∉ s) (blank : ∀ c ∈ s, isTrimmed c = false) : Clean s := by
  intro p mem
  simp only [PATTERNS, List.mem_cons, List.not_mem_nil, or_false] at mem
  rcases mem with rfl | rfl | rfl | rfl
  · exact phone
  · rintro ⟨a, w, b, rfl, at_⟩
    rcases token with short | colon
    · have long : TOKEN.shortest ≤ w.length := at_.shortest_le
      have least : TOKEN.shortest = 37 := by decide
      simp only [List.length_append] at short
      omega
    · obtain ⟨d, r, body, _⟩ := takes_token.1 at_
      refine colon ?_
      rw [body.split]
      simp
  · rintro ⟨a, w, b, rfl, at_⟩
    exact slash (List.mem_append_left b (List.mem_append_right a (slash_of_link at_)))
  · rintro ⟨a, w, b, rfl, front, _, rfl, _, space, _, rfl, many, _⟩
    cases space with
    | nil => exact absurd many.1 (Nat.not_succ_le_zero 0)
    | cons c space =>
      have no := blank c (by simp)
      rw [many.2.2 c List.mem_cons_self] at no
      cases no

/-- A phone number has ten digits in a row, a nine first. -/
theorem digits_of_phone {w : List Char} {prev next : Option Char} (h : PHONE.Takes prev w next) :
    ∃ x u, w = x ++ '9' :: u ∧ u.length = 9 ∧ ∀ c ∈ u, c.isDigit = true := by
  obtain ⟨x, _, rfl, _, nine, u, rfl, at_, many⟩ := h
  rw [takes_exactly.1 at_]
  exact ⟨x, u, rfl, Nat.le_antisymm (many.2.1 9 rfl) many.1, many.2.2⟩

theorem no_phone {s : List Char} (h : '9' ∉ s) : ¬PHONE.Occurs s := by
  rintro ⟨a, w, b, rfl, at_⟩
  obtain ⟨x, u, rfl, _⟩ := digits_of_phone at_
  exact h (by simp)

theorem clean_redacted : Clean REDACTED :=
  clean_of_chars (no_phone (by decide)) (.inl (by decide)) (by decide) (by
    have all : (REDACTED.all fun c => !isTrimmed c) = true := by decide
    exact fun c mem => by simpa using List.all_eq_true.1 all c mem)

theorem clean_name : Clean "name".toList :=
  clean_of_chars (no_phone (by decide)) (.inl (by decide)) (by decide) (by
    have all : ("name".toList.all fun c => !isTrimmed c) = true := by decide
    exact fun c mem => by simpa using List.all_eq_true.1 all c mem)

theorem clean_message : Clean "message".toList :=
  clean_of_chars (no_phone (by decide)) (.inl (by decide)) (by decide) (by
    have all : ("message".toList.all fun c => !isTrimmed c) = true := by decide
    exact fun c mem => by simpa using List.all_eq_true.1 all c mem)

/-! ## Dates -/

/-- A run of digits does not go over a symbol that is none. -/
theorem run_beside {x y u : List Char} {c : Char} (digits : ∀ c ∈ u, c.isDigit = true)
    (plain : c.isDigit = false) (h : u <:+: x ++ c :: y) : u <:+: x ∨ u <:+: y := by
  obtain ⟨a, b, same⟩ := h
  rw [List.append_assoc] at same
  rcases List.append_eq_append_iff.1 same with ⟨z, rfl, after⟩ | ⟨z, rfl, after⟩
  · rcases List.append_eq_append_iff.1 after with ⟨v, rfl, _⟩ | ⟨v, rfl, rest⟩
    · exact .inl ⟨a, v, by simp⟩
    · cases v with
      | nil => exact .inl ⟨a, [], by simp⟩
      | cons d v =>
        have isDigit := digits d (List.mem_append_right z List.mem_cons_self)
        rw [← (List.cons.inj rest).1, plain] at isDigit
        cases isDigit
  · cases z with
    | nil =>
      cases u with
      | nil => exact .inl (List.nil_infix)
      | cons d u =>
        have isDigit := digits d List.mem_cons_self
        rw [← (List.cons.inj after).1, plain] at isDigit
        cases isDigit
    | cons d z =>
      refine .inr ⟨z, b, ?_⟩
      rw [List.append_assoc]
      exact (List.cons.inj after).2.symm

theorem length_isoYear (year : Int) : (isoYear year).length ≤ 7 := by
  rw [isoYear]
  split
  · rw [length_fixedDigits]
    decide
  · rw [List.length_cons, length_fixedDigits]

/-- In the parts of a date there are six digits in a row, and the sign of a year. -/
theorem no_run_iso (time : Int) {u : List Char} (long : u.length = 9)
    (digits : ∀ c ∈ u, c.isDigit = true) : ¬u <:+: toISOString time := by
  have short : ∀ x : List Char, x.length ≤ 7 → ¬u <:+: x := by
    intro x size inside
    have within := inside.length_le
    omega
  intro h
  rw [toISOString] at h
  rcases run_beside digits (by decide) h with h | h
  · exact short _ (length_isoYear _) h
  rcases run_beside digits (by decide) h with h | h
  · exact short _ (by rw [length_fixedDigits]; decide) h
  rcases run_beside digits (by decide) h with h | h
  · exact short _ (by rw [length_fixedDigits]; decide) h
  rcases run_beside digits (by decide) h with h | h
  · exact short _ (by rw [length_fixedDigits]; decide) h
  rcases run_beside digits (by decide) h with h | h
  · exact short _ (by rw [length_fixedDigits]; decide) h
  rcases run_beside digits (by decide) h with h | h
  · exact short _ (by rw [length_fixedDigits]; decide) h
  · exact short _ (by simp) h

theorem clean_iso (time : Int) : Clean (toISOString time) := by
  have year : ∀ c ∈ isoYear (ofDayNumber (time / MS_PER_DAY)).year,
      c.isDigit = true ∨ c = '-' ∨ c = '+' := by
    intro c mem
    rw [isoYear] at mem
    split at mem
    · exact .inl (List.all_eq_true.1 all_isDigit_fixedDigits c mem)
    · rcases List.mem_cons.1 mem with rfl | mem
      · split
        · exact .inr (.inl rfl)
        · exact .inr (.inr rfl)
      · exact .inl (List.all_eq_true.1 all_isDigit_fixedDigits c mem)
  have chars : ∀ c ∈ toISOString time,
      c.isDigit = true ∨ c ∈ ['-', '+', 'T', ':', '.', 'Z'] := by
    intro c mem
    simp only [toISOString, List.mem_append, List.mem_cons, List.not_mem_nil, or_false] at mem ⊢
    have digit : ∀ {width n : Nat}, c ∈ fixedDigits width n → c.isDigit = true := fun mem =>
      List.all_eq_true.1 all_isDigit_fixedDigits c mem
    rcases mem with mem | mem | mem | mem | mem | mem | mem | mem | mem | mem | mem | mem |
      mem | mem
    · rcases year c mem with digit | rfl | rfl
      · exact .inl digit
      · simp
      · simp
    all_goals first
      | exact .inl (digit mem)
      | simp [mem]
  have size : (toISOString time).length < 37 := by
    have short := length_isoYear (ofDayNumber (time / MS_PER_DAY)).year
    simp only [toISOString, List.length_append, List.length_cons, length_fixedDigits,
      List.length_nil]
    omega
  refine clean_of_chars ?_ (.inl size) (fun mem => ?_) fun c mem => ?_
  · rintro ⟨a, w, b, whole, at_⟩
    obtain ⟨x, u, rfl, long, digits⟩ := digits_of_phone at_
    refine no_run_iso time long digits ⟨a ++ (x ++ ['9']), b, ?_⟩
    rw [whole]
    simp
  · rcases chars _ mem with digit | mem
    · exact absurd digit (by decide)
    · exact absurd mem (by decide)
  · rcases chars c mem with digit | mem
    · have visible := Sanitizer.isVisible_of_digit digit
      simpa [Sanitizer.isVisible] using visible
    · have all : (['-', '+', 'T', ':', '.', 'Z'].all fun c => !isTrimmed c) = true := by decide
      simpa using List.all_eq_true.1 all c mem

end Redact

end Paayatam
