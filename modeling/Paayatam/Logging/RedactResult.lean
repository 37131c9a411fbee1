/-
  Paayatam.Logging.RedactResult

  What `redact` promises of its result, for every value.
-/

import Paayatam.Logging.RedactValues

namespace Paayatam

open Lib

namespace Redact

open Sanitizer (isWord)

variable {lower : List Char → List Char} {depth : Nat} {r : Value}

section Conditions

variable (lower)

mutual

/-- What keeps a value from the defects: each string that is swept is tame, nothing
    that is not swept matches an expression, dates are valid, and no error is at
    the deepest level. -/
def Fit (depth : Nat) : Value → Prop
  | .string s => depth ≤ MAX_DEPTH → Tame s
  | .bigint n => depth ≤ MAX_DEPTH → Clean (toString n).toList
  | .view byteLength => depth ≤ MAX_DEPTH → Clean s!"[binary {byteLength}B]".toList
  | .date time => depth ≤ MAX_DEPTH → time.isSome = true
  | .error name message => depth ≤ MAX_DEPTH → depth < MAX_DEPTH ∧ Clean name ∧ Tame message
  | .array entries => FitAll (depth + 1) entries
  | .object entries => FitEntries (depth + 1) entries
  | _ => True

def FitAll (depth : Nat) : List Value → Prop
  | [] => True
  | entry :: entries => Fit depth entry ∧ FitAll depth entries

def FitEntries (depth : Nat) : List (List Char × Value) → Prop
  | [] => True
  | (key, entry) :: entries => (depth ≤ MAX_DEPTH + 1 → Clean key) ∧
      (isSensitive lower key = false → Fit depth entry) ∧ FitEntries depth entries

end

mutual

/-- The strings that are swept. -/
def sweptOf (depth : Nat) : Value → List (List Char)
  | .string s => if MAX_DEPTH < depth then [] else [s]
  | .error _ message => if MAX_DEPTH < depth then [] else [message]
  | .array entries => sweptOfAll (depth + 1) entries
  | .object entries => sweptOfEntries (depth + 1) entries
  | _ => []

def sweptOfAll (depth : Nat) : List Value → List (List Char)
  | [] => []
  | entry :: entries => sweptOf depth entry ++ sweptOfAll depth entries

def sweptOfEntries (depth : Nat) : List (List Char × Value) → List (List Char)
  | [] => []
  | (key, entry) :: entries =>
    (if isSensitive lower key then [] else sweptOf depth entry) ++ sweptOfEntries depth entries

end

end Conditions

mutual

/-- The texts that are written as they are. -/
def unsweptOf : Value → List (List Char)
  | .bigint n => [(toString n).toList]
  | .view byteLength => [s!"[binary {byteLength}B]".toList]
  | .date time => time.toList.map toISOString
  | .error name _ => [name, "name".toList, "message".toList]
  | .array entries => unsweptOfAll entries
  | .object entries => unsweptOfEntries entries
  | _ => []

def unsweptOfAll : List Value → List (List Char)
  | [] => []
  | entry :: entries => unsweptOf entry ++ unsweptOfAll entries

def unsweptOfEntries : List (List Char × Value) → List (List Char)
  | [] => []
  | (key, entry) :: entries => key :: (unsweptOf entry ++ unsweptOfEntries entries)

end

theorem capped_some {result : Option Value} (h : capped depth result = some r) :
    MAX_DEPTH < depth ∧ r = .string REDACTED ∨ depth ≤ MAX_DEPTH ∧ result = some r := by
  rw [capped] at h
  split at h
  · next deep => exact .inl ⟨deep, (Option.some.inj h).symm⟩
  · next flat => exact .inr ⟨Nat.le_of_not_lt flat, h⟩

theorem capped_flat (h : depth ≤ MAX_DEPTH) (result : Option Value) :
    capped depth result = result :=
  if_neg (Nat.not_lt.2 h)

theorem capped_deep (h : MAX_DEPTH < depth) (result : Option Value) :
    capped depth result = some (.string REDACTED) := if_pos h

/-- The names an error is given are none of the sensitive ones. -/
def PlainNames (lower : List Char → List Char) : Prop :=
  isSensitive lower "name".toList = false ∧ isSensitive lower "message".toList = false

theorem plain_names (ascii : ∀ s, (∀ c ∈ s, c.toNat < 128) → lower s = s.map Char.toLower) :
    PlainNames lower := by
  have fields :
      (REDACTED_FIELDS.all fun f => f.toList.all fun c => decide (c.toNat < 128)) = true := by
    decide
  have same : ∀ key : List Char, (key.all fun c => decide (c.toNat < 128)) = true →
      isSensitive lower key =
        REDACTED_FIELDS.any fun f => f.toList.map Char.toLower == key.map Char.toLower := by
    intro key plain
    have each : ∀ s : List Char, (s.all fun c => decide (c.toNat < 128)) = true →
        lower s = s.map Char.toLower := fun s plain =>
      ascii s fun c mem => of_decide_eq_true (List.all_eq_true.1 plain c mem)
    rw [isSensitive, each key plain]
    refine Bool.eq_iff_iff.2 ?_
    rw [List.any_eq_true, List.any_eq_true]
    refine exists_congr fun f => and_congr_right fun mem => ?_
    rw [each _ (List.all_eq_true.1 fields f mem)]
  exact ⟨(same _ (by decide)).trans (by decide), (same _ (by decide)).trans (by decide)⟩

/-! ## Sensitive fields -/

theorem fields_string (s : List Char) : (Value.string s).fields = [] := by
  simp [Value.fields]

theorem guarded_of_capped {result : Option Value} (h : capped depth result = some r)
    (leaf : ∀ r, result = some r → r.fields = []) :
    ∀ e ∈ r.fields, isSensitive lower e.1 = true → e.2 = .string REDACTED := by
  rcases capped_some h with ⟨_, rfl⟩ | ⟨_, same⟩
  · intro e mem
    rw [fields_string] at mem
    exact absurd mem List.not_mem_nil
  · intro e mem
    rw [leaf r same] at mem
    exact absurd mem List.not_mem_nil

mutual

theorem redact_guarded (plain : PlainNames lower) (depth : Nat) (v : Value) (r : Value)
    (h : redact lower depth v = some r) :
    ∀ e ∈ r.fields, isSensitive lower e.1 = true → e.2 = .string REDACTED := by
  cases v with
  | array entries =>
    rw [redact] at h
    rcases capped_some h with ⟨_, rfl⟩ | ⟨_, same⟩
    · intro e mem
      rw [fields_string] at mem
      exact absurd mem List.not_mem_nil
    · obtain ⟨rs, found, rfl⟩ := Option.map_eq_some_iff.1 same
      rw [Value.fields]
      exact redactAll_guarded plain (depth + 1) entries rs found
  | object entries =>
    rw [redact] at h
    rcases capped_some h with ⟨_, rfl⟩ | ⟨_, same⟩
    · intro e mem
      rw [fields_string] at mem
      exact absurd mem List.not_mem_nil
    · obtain ⟨rs, found, rfl⟩ := Option.map_eq_some_iff.1 same
      rw [Value.fields]
      exact redactEntries_guarded plain (depth + 1) entries rs found
  | error name message =>
    rw [redact] at h
    rcases capped_some h with ⟨_, rfl⟩ | ⟨_, same⟩
    · intro e mem
      rw [fields_string] at mem
      exact absurd mem List.not_mem_nil
    · obtain rfl := Option.some.inj same
      intro e mem sensitive
      simp only [Value.fields, fieldsOfEntries, List.nil_append, List.mem_cons, List.not_mem_nil,
        or_false] at mem
      rcases mem with rfl | rfl
      · rw [plain.1] at sensitive
        cases sensitive
      · rw [plain.2] at sensitive
        cases sensitive
  | date time =>
    rw [redact] at h
    refine guarded_of_capped h fun r same => ?_
    obtain ⟨_, _, rfl⟩ := Option.map_eq_some_iff.1 same
    exact fields_string _
  | _ =>
    rw [redact] at h
    refine guarded_of_capped h fun r same => ?_
    simp [← Option.some.inj same, Value.fields]

theorem redactAll_guarded (plain : PlainNames lower) (depth : Nat) (vs : List Value)
    (rs : List Value) (h : redactAll lower depth vs = some rs) :
    ∀ e ∈ fieldsOfAll rs, isSensitive lower e.1 = true → e.2 = .string REDACTED := by
  cases vs with
  | nil =>
    rw [redactAll] at h
    obtain rfl := Option.some.inj h
    intro e mem
    rw [fieldsOfAll] at mem
    exact absurd mem List.not_mem_nil
  | cons v vs =>
    rw [redactAll] at h
    split at h
    · next r rs' first others =>
      obtain rfl := Option.some.inj h
      intro e mem
      rw [fieldsOfAll] at mem
      rcases List.mem_append.1 mem with mem | mem
      · exact redact_guarded plain depth v r first e mem
      · exact redactAll_guarded plain depth vs rs' others e mem
    · cases h

theorem redactEntries_guarded (plain : PlainNames lower) (depth : Nat)
    (es : List (List Char × Value)) (rs : List (List Char × Value))
    (h : redactEntries lower depth es = some rs) :
    ∀ e ∈ fieldsOfEntries rs, isSensitive lower e.1 = true → e.2 = .string REDACTED := by
  cases es with
  | nil =>
    rw [redactEntries] at h
    obtain rfl := Option.some.inj h
    intro e mem
    rw [fieldsOfEntries] at mem
    exact absurd mem List.not_mem_nil
  | cons entry es =>
    obtain ⟨key, v⟩ := entry
    rw [redactEntries] at h
    split at h
    · next r rs' first others =>
      have tail := redactEntries_guarded plain depth es rs' others
      obtain rfl := Option.some.inj h
      intro e mem sensitive
      split at mem
      · exact tail e mem sensitive
      · rw [fieldsOfEntries] at mem
        rcases List.mem_cons.1 mem with rfl | mem
        · rw [if_pos sensitive] at first
          exact (Option.some.inj first).symm
        · rcases List.mem_append.1 mem with mem | mem
          · split at first
            · obtain rfl := Option.some.inj first
              rw [fields_string] at mem
              exact absurd mem List.not_mem_nil
            · exact redact_guarded plain depth v r first e mem sensitive
          · exact tail e mem sensitive
    · cases h

end

/-! ## What the strings of the result are -/

/-- Where a string of the result comes from. -/
def Origin (swept unswept : List (List Char)) (t : List Char) : Prop :=
  t = REDACTED ∨ t ∈ unswept ∨ ∃ s ∈ swept, t = redactString s

theorem Origin.left {a b c d : List (List Char)} {t : List Char} (h : Origin a c t) :
    Origin (a ++ b) (c ++ d) t := by
  rcases h with same | mem | ⟨s, mem, same⟩
  · exact .inl same
  · exact .inr (.inl (List.mem_append_left d mem))
  · exact .inr (.inr ⟨s, List.mem_append_left b mem, same⟩)

theorem Origin.right {a b c d : List (List Char)} {t : List Char} (h : Origin b d t) :
    Origin (a ++ b) (c ++ d) t := by
  rcases h with same | mem | ⟨s, mem, same⟩
  · exact .inl same
  · exact .inr (.inl (List.mem_append_right c mem))
  · exact .inr (.inr ⟨s, List.mem_append_right a mem, same⟩)

theorem strings_string (s : List Char) : (Value.string s).strings = [s] := by
  simp [Value.strings]

theorem origin_redacted {a b : List (List Char)} :
    ∀ t ∈ (Value.string REDACTED).strings, Origin a b t := by
  intro t mem
  rw [strings_string] at mem
  exact .inl (List.mem_singleton.1 mem)

mutual

theorem redact_origin (depth : Nat) (v : Value) (r : Value) (h : redact lower depth v = some r) :
    ∀ t ∈ r.strings, Origin (sweptOf lower depth v) (unsweptOf v) t := by
  cases v with
  | string s =>
    rw [redact] at h
    rcases capped_some h with ⟨_, rfl⟩ | ⟨flat, same⟩
    · exact origin_redacted
    · obtain rfl := Option.some.inj same
      intro t mem
      rw [strings_string] at mem
      rw [sweptOf, if_neg (Nat.not_lt.2 flat)]
      exact .inr (.inr ⟨s, List.mem_cons_self, List.mem_singleton.1 mem⟩)
  | bigint n =>
    rw [redact] at h
    rcases capped_some h with ⟨_, rfl⟩ | ⟨_, same⟩
    · exact origin_redacted
    · obtain rfl := Option.some.inj same
      intro t mem
      rw [strings_string] at mem
      rw [unsweptOf]
      exact .inr (.inl mem)
  | view byteLength =>
    rw [redact] at h
    rcases capped_some h with ⟨_, rfl⟩ | ⟨_, same⟩
    · exact origin_redacted
    · obtain rfl := Option.some.inj same
      intro t mem
      rw [strings_string] at mem
      rw [unsweptOf]
      exact .inr (.inl mem)
  | date time =>
    rw [redact] at h
    rcases capped_some h with ⟨_, rfl⟩ | ⟨_, same⟩
    · exact origin_redacted
    · obtain ⟨time, rfl, rfl⟩ := Option.map_eq_some_iff.1 same
      intro t mem
      rw [strings_string] at mem
      rw [unsweptOf]
      exact .inr (.inl mem)
  | error name message =>
    rw [redact] at h
    rcases capped_some h with ⟨_, rfl⟩ | ⟨flat, same⟩
    · exact origin_redacted
    · obtain rfl := Option.some.inj same
      intro t mem
      simp only [Value.strings, stringsOfEntries, List.append_nil, List.singleton_append,
        List.mem_cons, List.not_mem_nil, or_false] at mem
      rw [sweptOf, if_neg (Nat.not_lt.2 flat), unsweptOf]
      rcases mem with rfl | rfl | rfl | rfl
      · exact .inr (.inl (by simp))
      · exact .inr (.inl (by simp))
      · exact .inr (.inl (by simp))
      · exact .inr (.inr ⟨message, List.mem_cons_self, rfl⟩)
  | array entries =>
    rw [redact] at h
    rcases capped_some h with ⟨_, rfl⟩ | ⟨_, same⟩
    · exact origin_redacted
    · obtain ⟨rs, found, rfl⟩ := Option.map_eq_some_iff.1 same
      rw [Value.strings, sweptOf, unsweptOf]
      exact redactAll_origin (depth + 1) entries rs found
  | object entries =>
    rw [redact] at h
    rcases capped_some h with ⟨_, rfl⟩ | ⟨_, same⟩
    · exact origin_redacted
    · obtain ⟨rs, found, rfl⟩ := Option.map_eq_some_iff.1 same
      rw [Value.strings, sweptOf, unsweptOf]
      exact redactEntries_origin (depth + 1) entries rs found
  | _ =>
    rw [redact] at h
    rcases capped_some h with ⟨_, rfl⟩ | ⟨_, same⟩
    · exact origin_redacted
    · intro t mem
      simp [← Option.some.inj same, Value.strings] at mem

theorem redactAll_origin (depth : Nat) (vs : List Value) (rs : List Value)
    (h : redactAll lower depth vs = some rs) :
    ∀ t ∈ stringsOfAll rs, Origin (sweptOfAll lower depth vs) (unsweptOfAll vs) t := by
  cases vs with
  | nil =>
    rw [redactAll] at h
    obtain rfl := Option.some.inj h
    intro t mem
    rw [stringsOfAll] at mem
    exact absurd mem List.not_mem_nil
  | cons v vs =>
    rw [redactAll] at h
    split at h
    · next r rs' first others =>
      obtain rfl := Option.some.inj h
      intro t mem
      rw [stringsOfAll] at mem
      rw [sweptOfAll, unsweptOfAll]
      rcases List.mem_append.1 mem with mem | mem
      · exact (redact_origin depth v r first t mem).left
      · exact (redactAll_origin depth vs rs' others t mem).right
    · cases h

theorem redactEntries_origin (depth : Nat) (es : List (List Char × Value))
    (rs : List (List Char × Value)) (h : redactEntries lower depth es = some rs) :
    ∀ t ∈ stringsOfEntries rs, Origin (sweptOfEntries lower depth es) (unsweptOfEntries es) t := by
  cases es with
  | nil =>
    rw [redactEntries] at h
    obtain rfl := Option.some.inj h
    intro t mem
    rw [stringsOfEntries] at mem
    exact absurd mem List.not_mem_nil
  | cons entry es =>
    obtain ⟨key, v⟩ := entry
    rw [redactEntries] at h
    split at h
    · next r rs' first others =>
      have tail := redactEntries_origin depth es rs' others
      obtain rfl := Option.some.inj h
      intro t mem
      rw [sweptOfEntries, unsweptOfEntries, ← List.singleton_append, ← List.append_assoc]
      split at mem
      · exact (tail t mem).right
      · rw [stringsOfEntries] at mem
        rcases List.mem_cons.1 mem with rfl | mem
        · exact .inr (.inl (by simp))
        · rcases List.mem_append.1 mem with mem | mem
          · refine Origin.left ?_
            split at first
            · obtain rfl := Option.some.inj first
              exact origin_redacted t mem
            · next plain =>
              rw [if_neg plain]
              exact (redact_origin depth v r first t mem).right (a := [])
          · exact (tail t mem).right
    · cases h

end

/-! ## Fit values -/

theorem redact_deep (h : MAX_DEPTH < depth) (v : Value) :
    redact lower depth v = some (.string REDACTED) := by
  cases v <;> rw [redact, capped_deep h]

theorem redact_clean {s : List Char} (h : Clean s) (flat : depth ≤ MAX_DEPTH) :
    redact lower depth (.string s) = some (.string s) := by
  rw [redact, capped_flat flat, redactString_of_clean h]

theorem redact_redacted (depth : Nat) :
    redact lower depth (.string REDACTED) = some (.string REDACTED) := by
  rcases Nat.lt_or_ge MAX_DEPTH depth with deep | flat
  · exact redact_deep deep _
  · exact redact_clean clean_redacted flat

/-- A value whose result is a clean string, which stays as it is. -/
theorem settled_of_clean {v : Value} {s : List Char} (flat : depth ≤ MAX_DEPTH) (clean : Clean s)
    (h : redact lower depth v = some (.string s)) :
    ∃ r, redact lower depth v = some r ∧ (∀ t ∈ r.strings, Clean t) ∧
      redact lower depth r = some r := by
  refine ⟨.string s, h, fun t mem => ?_, redact_clean clean flat⟩
  rw [strings_string] at mem
  rw [List.mem_singleton.1 mem]
  exact clean

theorem Tame.clean {s : List Char} (h : Tame s) : Clean (redactString s) := sweep_clean h.exposed

mutual

theorem redact_fit (plain : PlainNames lower) (depth : Nat) (v : Value) (fit : Fit lower depth v) :
    ∃ r, redact lower depth v = some r ∧ (∀ t ∈ r.strings, Clean t) ∧
      redact lower depth r = some r := by
  rcases Nat.lt_or_ge MAX_DEPTH depth with deep | flat
  · refine ⟨.string REDACTED, redact_deep deep v, fun t mem => ?_, redact_redacted depth⟩
    rw [strings_string] at mem
    rw [List.mem_singleton.1 mem]
    exact clean_redacted
  cases v with
  | string s =>
    rw [Fit] at fit
    exact settled_of_clean flat (fit flat).clean (by rw [redact, capped_flat flat])
  | bigint n =>
    rw [Fit] at fit
    exact settled_of_clean flat (fit flat) (by rw [redact, capped_flat flat])
  | view byteLength =>
    rw [Fit] at fit
    exact settled_of_clean flat (fit flat) (by rw [redact, capped_flat flat])
  | date time =>
    rw [Fit] at fit
    obtain ⟨time, rfl⟩ := Option.isSome_iff_exists.1 (fit flat)
    refine settled_of_clean flat (clean_iso time) ?_
    rw [redact, capped_flat flat]
    rfl
  | error name message =>
    rw [Fit] at fit
    obtain ⟨above, clean, tame⟩ := fit flat
    refine ⟨.object [("name".toList, .string name), ("message".toList,
      .string (redactString message))], by rw [redact, capped_flat flat], fun t mem => ?_, ?_⟩
    · simp only [Value.strings, stringsOfEntries, List.append_nil, List.singleton_append,
        List.mem_cons, List.not_mem_nil, or_false] at mem
      rcases mem with rfl | rfl | rfl | rfl
      · exact clean_name
      · exact clean
      · exact clean_message
      · exact tame.clean
    · have next : depth + 1 ≤ MAX_DEPTH := above
      have proto : "name".toList ≠ "__proto__".toList ∧ "message".toList ≠ "__proto__".toList := by
        decide
      rw [redact, capped_flat flat, redactEntries, redactEntries, redactEntries, plain.1, plain.2,
        redact_clean clean next, redact_clean tame.clean next]
      simp only [Bool.false_eq_true, if_false, if_neg proto.1, if_neg proto.2, Option.map_some]
  | array entries =>
    rw [Fit] at fit
    obtain ⟨rs, found, clean, again⟩ := redactAll_fit plain (depth + 1) entries fit
    refine ⟨.array rs, by rw [redact, capped_flat flat, found]; rfl, ?_, ?_⟩
    · rw [Value.strings]
      exact clean
    · rw [redact, capped_flat flat, again]
      rfl
  | object entries =>
    rw [Fit] at fit
    obtain ⟨rs, found, clean, again⟩ :=
      redactEntries_fit plain (depth + 1) (Nat.succ_le_succ flat) entries fit
    refine ⟨.object rs, by rw [redact, capped_flat flat, found]; rfl, ?_, ?_⟩
    · rw [Value.strings]
      exact clean
    · rw [redact, capped_flat flat, again]
      rfl
  | _ =>
    refine ⟨_, by rw [redact, capped_flat flat], fun t mem => ?_, by rw [redact, capped_flat flat]⟩
    simp [Value.strings] at mem

theorem redactAll_fit (plain : PlainNames lower) (depth : Nat) (vs : List Value)
    (fit : FitAll lower depth vs) :
    ∃ rs, redactAll lower depth vs = some rs ∧ (∀ t ∈ stringsOfAll rs, Clean t) ∧
      redactAll lower depth rs = some rs := by
  cases vs with
  | nil =>
    refine ⟨[], by rw [redactAll], fun t mem => ?_, by rw [redactAll]⟩
    rw [stringsOfAll] at mem
    exact absurd mem List.not_mem_nil
  | cons v vs =>
    rw [FitAll] at fit
    obtain ⟨r, first, clean, again⟩ := redact_fit plain depth v fit.1
    obtain ⟨rs, others, clean', again'⟩ := redactAll_fit plain depth vs fit.2
    refine ⟨r :: rs, by rw [redactAll, first, others], fun t mem => ?_,
      by rw [redactAll, again, again']⟩
    rw [stringsOfAll] at mem
    exact (List.mem_append.1 mem).elim (clean t) (clean' t)

theorem redactEntries_fit (plain : PlainNames lower) (depth : Nat) (flat : depth ≤ MAX_DEPTH + 1)
    (es : List (List Char × Value)) (fit : FitEntries lower depth es) :
    ∃ rs, redactEntries lower depth es = some rs ∧ (∀ t ∈ stringsOfEntries rs, Clean t) ∧
      redactEntries lower depth rs = some rs := by
  cases es with
  | nil =>
    refine ⟨[], by rw [redactEntries], fun t mem => ?_, by rw [redactEntries]⟩
    rw [stringsOfEntries] at mem
    exact absurd mem List.not_mem_nil
  | cons entry es =>
    obtain ⟨key, v⟩ := entry
    rw [FitEntries] at fit
    obtain ⟨rs, others, clean', again'⟩ := redactEntries_fit plain depth flat es fit.2.2
    have ⟨r, first, clean, again⟩ : ∃ r,
        (if isSensitive lower key then some (.string REDACTED) else redact lower depth v) = some r ∧
          (∀ t ∈ r.strings, Clean t) ∧
          (if isSensitive lower key then some (.string REDACTED) else redact lower depth r) =
            some r := by
      cases sensitive : isSensitive lower key with
      | true =>
        refine ⟨.string REDACTED, rfl, fun t mem => ?_, rfl⟩
        rw [strings_string] at mem
        rw [List.mem_singleton.1 mem]
        exact clean_redacted
      | false => exact redact_fit plain depth v (fit.2.1 sensitive)
    by_cases proto : key = "__proto__".toList
    · refine ⟨rs, ?_, clean', again'⟩
      rw [redactEntries, first, others]
      exact congrArg some (if_pos proto)
    · refine ⟨(key, r) :: rs, ?_, fun t mem => ?_, ?_⟩
      · rw [redactEntries, first, others]
        exact congrArg some (if_neg proto)
      · rw [stringsOfEntries] at mem
        rcases List.mem_cons.1 mem with rfl | mem
        · exact fit.1 flat
        · exact (List.mem_append.1 mem).elim (clean t) (clean' t)
      · rw [redactEntries, again, again']
        exact congrArg some (if_neg proto)

end

mutual

theorem swept_tame (depth : Nat) (v : Value) (fit : Fit lower depth v) :
    ∀ s ∈ sweptOf lower depth v, Tame s := by
  cases v with
  | string s =>
    intro t mem
    rw [sweptOf] at mem
    rw [Fit] at fit
    split at mem
    · exact absurd mem List.not_mem_nil
    · next flat =>
      rw [List.mem_singleton.1 mem]
      exact fit (Nat.le_of_not_lt flat)
  | error name message =>
    intro t mem
    rw [sweptOf] at mem
    rw [Fit] at fit
    split at mem
    · exact absurd mem List.not_mem_nil
    · next flat =>
      rw [List.mem_singleton.1 mem]
      exact (fit (Nat.le_of_not_lt flat)).2.2
  | array entries =>
    rw [Fit] at fit
    rw [sweptOf]
    exact sweptAll_tame (depth + 1) entries fit
  | object entries =>
    rw [Fit] at fit
    rw [sweptOf]
    exact sweptEntries_tame (depth + 1) entries fit
  | _ =>
    intro t mem
    simp [sweptOf] at mem

theorem sweptAll_tame (depth : Nat) (vs : List Value) (fit : FitAll lower depth vs) :
    ∀ s ∈ sweptOfAll lower depth vs, Tame s := by
  cases vs with
  | nil =>
    intro t mem
    rw [sweptOfAll] at mem
    exact absurd mem List.not_mem_nil
  | cons v vs =>
    intro t mem
    rw [FitAll] at fit
    rw [sweptOfAll] at mem
    exact (List.mem_append.1 mem).elim (swept_tame depth v fit.1 t)
      (sweptAll_tame depth vs fit.2 t)

theorem sweptEntries_tame (depth : Nat) (es : List (List Char × Value))
    (fit : FitEntries lower depth es) : ∀ s ∈ sweptOfEntries lower depth es, Tame s := by
  cases es with
  | nil =>
    intro t mem
    rw [sweptOfEntries] at mem
    exact absurd mem List.not_mem_nil
  | cons entry es =>
    obtain ⟨key, v⟩ := entry
    intro t mem
    rw [FitEntries] at fit
    rw [sweptOfEntries] at mem
    rcases List.mem_append.1 mem with mem | mem
    · split at mem
      · exact absurd mem List.not_mem_nil
      · next plain => exact swept_tame depth v (fit.2.1 (Bool.eq_false_iff.2 plain)) t mem
    · exact sweptEntries_tame depth es fit.2.2 t mem

end

/-! ## The result -/

/-- For every value that is redacted, an entry under a sensitive name is replaced at
    any depth, and every string of the result is the sweep of one of the value, or one
    of the texts that are never swept.  For every fit value there is a result, no
    expression matches any of its strings, nothing is left of a token that stood in a
    swept string, and redacting the result changes nothing. -/
theorem redact_leaves_nothing (lower : List Char → List Char)
    (ascii : ∀ s, (∀ c ∈ s, c.toNat < 128) → lower s = s.map Char.toLower) (v : Value) :
    (∀ r, redact lower 0 v = some r →
      (∀ e ∈ r.fields, isSensitive lower e.1 = true → e.2 = .string REDACTED) ∧
        ∀ t ∈ r.strings, Origin (sweptOf lower 0 v) (unsweptOf v) t) ∧
      (Fit lower 0 v → ∃ r, redact lower 0 v = some r ∧ (∀ t ∈ r.strings, Clean t) ∧
        (∀ s ∈ sweptOf lower 0 v, ∀ x w y, s = x ++ (w ++ y) →
          TOKEN.Takes x.getLast? w y.head? → Gone x w y) ∧
        redact lower 0 r = some r) := by
  have plain := plain_names ascii
  refine ⟨fun r h => ⟨redact_guarded plain 0 v r h, redact_origin 0 v r h⟩, fun fit => ?_⟩
  obtain ⟨r, found, clean, again⟩ := redact_fit plain 0 v fit
  refine ⟨r, found, clean, fun s mem x w y split at_ => ?_, again⟩
  obtain ⟨d, t, token, _⟩ := takes_token.1 at_
  obtain ⟨apart, alone⟩ := (swept_tame 0 v fit s mem).tokens x w y d t split at_ token
  exact token_gone at_ apart token alone

theorem tame_of_no_colon {s : List Char} (h : ':' ∉ s) : Tame s where
  exposed := by
    rintro ⟨a, w, l, b, d, r, rfl, token, _⟩
    refine h ?_
    rw [token.split]
    simp
  tokens x w y d r split _ token := by
    refine absurd ?_ h
    rw [split, token.split]
    simp

theorem redact_leaves_nothing_note :
    ∃ r, redact (List.map Char.toLower) 0 (.object [("ip".toList, .string "10.0.0.1".toList),
        ("note".toList, .string "call 09123456789".toList)]) = some r ∧
      ∀ e ∈ r.fields, isSensitive (List.map Char.toLower) e.1 = true → e.2 = .string REDACTED := by
  have result := redact_leaves_nothing (List.map Char.toLower) (fun _ _ => rfl)
    (.object [("ip".toList, .string "10.0.0.1".toList),
      ("note".toList, .string "call 09123456789".toList)])
  have tame : Tame "call 09123456789".toList := tame_of_no_colon (by decide)
  have letters : ∀ key : List Char, '9' ∉ key → key.length < 37 → '/' ∉ key →
      (key.all fun c => !isTrimmed c) = true → Clean key := fun key nine short slash plain =>
    clean_of_chars (no_phone nine) (.inl short) slash fun c mem => by
      simpa using List.all_eq_true.1 plain c mem
  obtain ⟨r, found, _⟩ := result.2 (by
    simp only [Fit, FitEntries, and_true]
    refine ⟨fun _ => letters _ (by decide) (by decide) (by decide) (by decide),
      fun plain => absurd plain (by decide),
      fun _ => letters _ (by decide) (by decide) (by decide) (by decide), fun _ _ => tame⟩)
  exact ⟨r, found, (result.1 r found).1⟩

def CUT_TOKEN : List Char := "123456:AAAAAAAAAAAA09123456789BBBBBBBBBBBB".toList

def BARED_TOKEN : List Char := "123456:".toList ++ List.replicate 60 'A' ++ "t.me/x".toList

/-- A phone number in a token, and the rest of the token is left; a link behind a run of
    sixty, and the second sweep finds a token; and the name of an error is never swept. -/
theorem token_left :
    (TOKEN.Takes none CUT_TOKEN none ∧
        redactString CUT_TOKEN = "123456:AAAAAAAAAAAA[redacted]BBBBBBBBBBBB".toList ∧
        ¬Gone [] CUT_TOKEN []) ∧
      redactString (redactString BARED_TOKEN) ≠ redactString BARED_TOKEN ∧
      redact id 0 (.error "09123456789".toList []) = some (.object
        [("name".toList, .string "09123456789".toList), ("message".toList, .string [])]) := by
  refine ⟨⟨?_, by decide, fun gone => ?_⟩, by decide +kernel, ?_⟩
  · refine takes_token.2 ⟨"123456".toList, "AAAAAAAAAAAA09123456789BBBBBBBBBBBB".toList,
      ⟨by decide, by decide, by decide, fun c mem => ?_, by decide, by decide, fun c mem => ?_⟩,
      rfl, by decide⟩
    · have all : ("123456".toList.all Char.isDigit) = true := by decide
      exact List.all_eq_true.1 all c mem
    · have all : ("AAAAAAAAAAAA09123456789BBBBBBBBBBBB".toList.all isTokenChar) = true := by decide
      exact List.all_eq_true.1 all c mem
  · have left := gone ('1', true) (List.mem_of_elem_eq_true (by decide))
    cases left
  · rw [redact, capped_flat (by decide)]
    rfl

end Redact

end Paayatam
