/-
  Paayatam.Logging.RedactTokens

  What is left of a bot token.

  The string is swept with its symbols marked, those of the token and the others.
  Nothing of a token is left unless something cuts it before it is looked for: a
  phone number in it or right behind it, or a token in front whose run takes its
  digits.
-/

import Paayatam.Lib.Provenance
import Paayatam.Logging.RedactStrings

namespace Paayatam

open Lib

namespace Redact

open Sanitizer (isWord)

variable {x w y : List Char}

/-! ## Marked strings -/

/-- A string with the symbols of `w` marked. -/
def marked (x w y : List Char) : List (Char × Bool) :=
  x.map (·, false) ++ (w.map (·, true) ++ y.map (·, false))

/-- The sweep, of marked symbols; those it writes are not marked. -/
def sweepMarked (p : Regex Char × List Char) (t : List (Char × Bool)) : List (Char × Bool) :=
  replaceAll (p.1.pattern.under Prod.fst) (fun _ => p.2.map (·, false)) t

def redactMarked (t : List (Char × Bool)) : List (Char × Bool) :=
  PATTERNS.foldl (fun out p => sweepMarked p out) t

/-- Nothing of the token is left. -/
def Gone (x w y : List Char) : Prop := ∀ c ∈ redactMarked (marked x w y), c.2 = false

theorem map_fst_marks (s : List Char) (b : Bool) : (s.map (·, b)).map Prod.fst = s := by
  rw [List.map_map]
  exact List.map_id s

theorem map_fst_marked (x w y : List Char) : (marked x w y).map Prod.fst = x ++ (w ++ y) := by
  rw [marked, List.map_append, List.map_append, map_fst_marks, map_fst_marks, map_fst_marks]

/-- The marked sweep is the sweep. -/
theorem redactMarked_fst (t : List (Char × Bool)) :
    (redactMarked t).map Prod.fst = redactString (t.map Prod.fst) := by
  have step : ∀ p t, (sweepMarked p t).map Prod.fst = sweep p (t.map Prod.fst) := by
    intro p t
    rw [sweepMarked, replaceAll_under, map_fst_marks]
    rfl
  have fold : ∀ (ps : List (Regex Char × List Char)) (t : List (Char × Bool)),
      (ps.foldl (fun out p => sweepMarked p out) t).map Prod.fst =
        ps.foldl (fun out p => sweep p out) (t.map Prod.fst) := by
    intro ps
    induction ps with
    | nil => exact fun _ => rfl
    | cons p ps ih =>
      intro t
      rw [List.foldl_cons, List.foldl_cons, ih, step]
  exact fold PATTERNS t

/-- The pieces of a marked sweep. -/
theorem readAs_marked (r : Regex Char) (t : List (Char × Bool)) :
    ReadAs (r.pattern.under Prod.fst) none t (pieces (r.pattern.under Prod.fst) none 0 t) :=
  readAs_pieces (under_within r.pattern_within) (fun _ _ _ _ _ found => under_source found) none t

/-- What is swept, piece by piece. -/
def written (f : List Char) (ps : List ((Char × Bool) ⊕ List (Char × Bool))) : List (Char × Bool) :=
  ps.flatMap (replacement (fun _ => f.map (·, false)) fun c => [c])

theorem written_append (f : List Char) (p q : List ((Char × Bool) ⊕ List (Char × Bool))) :
    written f (p ++ q) = written f p ++ written f q := List.flatMap_append

/-- A sweep marks nothing. -/
theorem mem_written {f : List Char} {ps : List ((Char × Bool) ⊕ List (Char × Bool))}
    (h : ∀ c ∈ sourceOf ps, c.2 = false) : ∀ c ∈ written f ps, c.2 = false := by
  intro c mem
  obtain ⟨p, at_, mem⟩ := List.mem_flatMap.1 mem
  cases p with
  | inl d =>
    rw [List.mem_singleton.1 mem]
    exact h d (List.mem_flatMap.2 ⟨.inl d, at_, List.mem_cons_self⟩)
  | inr b =>
    obtain ⟨_, _, rfl⟩ := List.mem_map.1 mem
    rfl

theorem sweepMarked_written (p : Regex Char × List Char) (t : List (Char × Bool)) :
    sweepMarked p t = written p.2 (pieces (p.1.pattern.under Prod.fst) none 0 t) := rfl

theorem unmarked_sweep {p : Regex Char × List Char} {t : List (Char × Bool)}
    (h : ∀ c ∈ t, c.2 = false) : ∀ c ∈ sweepMarked p t, c.2 = false := by
  rw [sweepMarked_written]
  refine mem_written ?_
  rw [(readAs_marked p.1 t).whole]
  exact h

/-- What ends a written text without a bracket ended the source. -/
theorem suffix_of_written {ps : List ((Char × Bool) ⊕ List (Char × Bool))}
    {z u : List (Char × Bool)} (h : written REDACTED ps = z ++ u) (plain : ']' ∉ u.map Prod.fst) :
    ∃ z', sourceOf ps = z' ++ u := by
  induction ps using List.reverseRecOn generalizing z u with
  | nil =>
    obtain ⟨_, rfl⟩ := List.append_eq_nil_iff.1 h.symm
    exact ⟨[], rfl⟩
  | append_singleton ps p ih =>
    rw [written_append] at h
    rcases List.eq_nil_or_concat u with rfl | ⟨u, e, rfl⟩
    · exact ⟨_, (List.append_nil _).symm⟩
    · rw [List.concat_eq_append, ← List.append_assoc] at h
      rw [List.concat_eq_append, List.map_append, List.mem_append, not_or] at plain
      cases p with
      | inl c =>
        have one : written REDACTED [.inl c] = [c] := rfl
        rw [one] at h
        obtain ⟨front, last⟩ := List.append_inj' h rfl
        obtain ⟨z', same⟩ := ih front plain.1
        refine ⟨z', ?_⟩
        rw [sourceOf_append, same, List.concat_eq_append, List.cons.inj last |>.1,
          List.append_assoc]
        rfl
      | inr b =>
        have split : written REDACTED [.inr b] =
            ("[redacted".toList.map (·, false)) ++ [(']', false)] := by
          show REDACTED.map (·, false) ++ [] = _
          decide
        rw [split, ← List.append_assoc] at h
        have last := (List.append_inj' h rfl).2
        refine absurd ?_ plain.2
        rw [← (List.cons.inj last).1]
        exact List.mem_cons_self

/-! ## What cuts a token -/

/-- No phone number shares a symbol with the token, and none is right behind it but one
    with the country code. -/
def Apart (x w y : List Char) : Prop :=
  ∀ a phone b, x ++ (w ++ y) = a ++ (phone ++ b) → PHONE.Takes none phone none →
    a.length + phone.length ≤ x.length ∨ x.length + w.length < a.length ∨
      a.length = x.length + w.length ∧ phone.head? = some '+'

/-- The digits of the token do not end the run of a token in front. -/
def Unchained (x d : List Char) : Prop :=
  ∀ a u e r, x = a ++ u → u ≠ [] → ¬Token (u ++ d) e r

/-- Phone numbers are swept, and the token is still one. -/
theorem token_kept (at_ : TOKEN.Takes x.getLast? w y.head?) (apart : Apart x w y) :
    ∃ p₁ p₂, sweepMarked (PHONE, REDACTED) (marked x w y) =
        written REDACTED p₁ ++ (w.map (·, true) ++ written REDACTED p₂) ∧
      sourceOf p₁ = x.map (·, false) ∧ sourceOf p₂ = y.map (·, false) ∧
      TOKEN.Takes (lastRead none ((written REDACTED p₁).map Prod.fst)) w
        ((written REDACTED p₂).map Prod.fst).head? := by
  have read := readAs_marked PHONE (marked x w y)
  obtain ⟨d, r, token, front, back⟩ := takes_token.1 at_
  -- a piece is a phone number
  have phone : ∀ p₁ b p₂, pieces (PHONE.pattern.under Prod.fst) none 0 (marked x w y) =
      p₁ ++ .inr b :: p₂ → PHONE.Takes none (b.map Prod.fst) none ∧
        x ++ (w ++ y) = (sourceOf p₁).map Prod.fst ++
          (b.map Prod.fst ++ (sourceOf p₂).map Prod.fst) := by
    intro p₁ b p₂ split
    obtain ⟨c, xs, rfl, found⟩ := read.taken p₁ b p₂ split
    obtain ⟨⟨piece, found'⟩, _⟩ := under_eq_some.1 found
    rw [List.map_append, ← List.length_map Prod.fst] at found'
    refine ⟨(Regex.takes_of_pattern found').2.anywhere rfl none none, ?_⟩
    rw [← map_fst_marked, ← read.whole, split, sourceOf_append, sourceOf_inr, List.map_append,
      List.map_append]
  have filled : ∀ b, .inr b ∈ pieces (PHONE.pattern.under Prod.fst) none 0 (marked x w y) →
      b ≠ [] := by
    intro b mem
    obtain ⟨p₁, p₂, split⟩ := List.append_of_mem mem
    obtain ⟨c, xs, rfl, _⟩ := read.taken p₁ b p₂ split
    exact List.cons_ne_nil c xs
  obtain ⟨p₁, p₂, split, before, after⟩ := pieces_clear filled read.whole fun p₁ b p₂ split => by
    obtain ⟨at_, whole⟩ := phone p₁ b p₂ split
    have where_ := apart _ _ _ whole at_
    simp only [List.length_map] at where_ ⊢
    omega
  have text : sweepMarked (PHONE, REDACTED) (marked x w y) =
      written REDACTED p₁ ++ (w.map (·, true) ++ written REDACTED p₂) := by
    rw [sweepMarked_written, split, written_append, written_append]
    have plain : ∀ w : List Char, written REDACTED ((w.map (·, true)).map .inl) =
        w.map (·, true) := by
      intro w
      rw [written, List.flatMap_map]
      exact List.flatMap_singleton' _
    rw [plain]
  refine ⟨p₁, p₂, text, before, after, takes_token.2 ⟨d, r, token, ?_, ?_⟩⟩
  · rcases List.eq_nil_or_concat p₁ with rfl | ⟨front₁, p, rfl⟩
    · rfl
    · rw [List.concat_eq_append] at before ⊢
      rw [written_append, List.map_append, lastRead_append]
      cases p with
      | inl c =>
        rw [sourceOf_append] at before
        have last := congrArg (fun s => (s.map Prod.fst).getLast?) before
        have one : sourceOf [.inl c] = [c] := rfl
        simp only [one, List.map_append, List.map_cons, List.map_nil, List.getLast?_concat,
          map_fst_marks] at last
        rw [← last] at front
        exact front
      | inr b => rfl
  · cases p₂ with
    | nil =>
      have none_ : y = [] := List.map_eq_nil_iff.1 after.symm
      rw [none_] at back
      exact back
    | cons p p₂ =>
      cases p with
      | inl c =>
        have first := congrArg (fun s => (s.map Prod.fst).head?) after
        rw [map_fst_marks] at first
        rw [← first] at back
        exact back
      | inr b =>
        -- a phone number right behind it begins with a sign
        have here := split
        rw [← List.append_assoc] at here
        obtain ⟨number, whole⟩ := phone _ b p₂ here
        rw [sourceOf_append, before] at whole
        have clear : sourceOf ((w.map (·, true)).map .inl) = w.map (·, true) := by
          rw [sourceOf, List.flatMap_map]
          exact List.flatMap_singleton' _
        rw [clear, List.map_append, map_fst_marks, map_fst_marks] at whole
        have where_ := apart _ _ _ whole number
        rw [List.length_append] at where_
        have plus : (b.map Prod.fst).head? = some '+' := by
          rcases where_ with low | high | ⟨_, plus⟩
          · have long := number.shortest_le
            have ten : PHONE.shortest = 11 := by decide
            omega
          · omega
          · exact plus
        have first : y.head? = some '+' := by
          rw [sourceOf_inr] at after
          have same := congrArg (fun s => (s.map Prod.fst).head?) after
          simp only [map_fst_marks, List.map_append, List.head?_append, plus, Option.some_or]
            at same
          exact same.symm
        rw [first] at back
        exact back

theorem lastRead_map {α β : Type} (g : α → β) (s : List α) :
    (lastRead none s).map g = lastRead none (s.map g) := by
  rw [lastRead, lastRead, List.getLast?_map, Option.or_none, Option.or_none]

/-- A token that reaches over the front of another ends at the colon of the other. -/
theorem chained {u w v y d r : List Char} {c : Char} (token : Token w d r)
    (whole : w ++ y = c :: v) {prev : Option Char} {m rest : List Char} (behind : v = m ++ rest)
    (filled : u ≠ []) (front : (lastRead prev u).any isWord = false)
    {before : Option Char} (at_ : TOKEN.Takes before (u ++ c :: m) rest.head?) :
    ∃ e r', c :: m = d ∧ Token (u ++ d) e r' := by
  obtain ⟨e, r', other, _, back⟩ := takes_token.1 at_
  have digit : c.isDigit = true := by
    obtain ⟨c', t, start, digit⟩ := token.first
    rw [start] at whole
    rw [← (List.cons.inj whole).1]
    exact digit
  -- its colon stands in front of the other
  obtain ⟨z, rfl, rfl⟩ : ∃ z, u = e ++ ':' :: z ∧ r' = z ++ c :: m := by
    rcases List.append_eq_append_iff.1 other.split with ⟨z, word, after⟩ | ⟨z, word, after⟩
    · cases z with
      | nil =>
        rw [(List.cons.inj after).1] at digit
        exact absurd digit (by decide)
      | cons c' z =>
        obtain ⟨f, mem, last⟩ := lastRead_mem filled prev
        rw [last, Option.any_some] at front
        have isDigit := other.digits f (by
          rw [word]
          exact List.mem_append_left _ mem)
        rw [isWord_of_digit isDigit] at front
        cases front
    · cases z with
      | nil =>
        have colon : c = ':' := (List.cons.inj after).1.symm
        rw [colon] at digit
        exact absurd digit (by decide)
      | cons c' z =>
        obtain ⟨rfl, same⟩ := List.cons.inj after
        exact ⟨z, word, same⟩
  have noColon : ':' ∉ c :: m := by
    intro mem
    exact absurd (other.run ':' (List.mem_append_right z mem)) (by decide)
  have text : d ++ ':' :: (r ++ y) = c :: m ++ rest := by
    rw [List.cons_append, ← behind, ← whole, token.split]
    simp
  have same : c :: m = d := by
    rcases List.append_eq_append_iff.1 text with ⟨z', word, after⟩ | ⟨z', word, after⟩
    · cases z' with
      | nil => rw [word, List.append_nil]
      | cons f z' =>
        refine absurd ?_ noColon
        rw [word, (List.cons.inj after).1]
        exact List.mem_append_right d List.mem_cons_self
    · cases z' with
      | nil => rw [word, List.append_nil]
      | cons f z' =>
        -- it would end between two digits
        obtain ⟨g, mem, last⟩ := lastRead_mem (List.cons_ne_nil c m) none
        rw [lastRead_none] at last
        have isDigit := token.digits g (by
          rw [word]
          exact List.mem_append_left _ mem)
        have isDigit' := token.digits f (by
          rw [word]
          exact List.mem_append_right _ List.mem_cons_self)
        rw [List.getLast?_append_of_ne_nil _ (List.cons_ne_nil c m), last, after, List.cons_append,
          List.head?_cons, Option.any_some, Option.any_some, isWord_of_digit isDigit,
          isWord_of_digit isDigit'] at back
        exact absurd rfl back
  exact ⟨e, _, same, same ▸ other⟩

/-- Nothing is left of a token that neither a phone number nor another token cuts. -/
theorem token_gone {d r : List Char} (at_ : TOKEN.Takes x.getLast? w y.head?)
    (apart : Apart x w y) (body : Token w d r) (alone : Unchained x d) : Gone x w y := by
  obtain ⟨p₁, p₂, text, before, after, kept⟩ := token_kept at_ apart
  have unmarked : ∀ s : List Char, ∀ c ∈ s.map (·, false), c.2 = false := by
    intro s c mem
    obtain ⟨_, _, rfl⟩ := List.mem_map.1 mem
    rfl
  have front₁ : ∀ c ∈ written REDACTED p₁, c.2 = false := mem_written (before ▸ unmarked x)
  have behind₁ : ∀ c ∈ written REDACTED p₂, c.2 = false := mem_written (after ▸ unmarked y)
  suffices swept₂ : ∀ c ∈ sweepMarked (TOKEN, REDACTED) (sweepMarked (PHONE, REDACTED)
      (marked x w y)), c.2 = false from unmarked_sweep (unmarked_sweep swept₂)
  rw [text]
  obtain ⟨c, t, rfl, _⟩ := body.first
  have read := readAs_marked TOKEN
    (written REDACTED p₁ ++ ((c :: t).map (·, true) ++ written REDACTED p₂))
  rw [sweepMarked_written]
  have here := pieces_at (x := written REDACTED p₁) (c := (c, true))
    (y := t.map (·, true) ++ written REDACTED p₂) read.whole
  generalize pieces _ none 0 _ = qs at read here ⊢
  have behind₂ : (t.map (·, true) ++ written REDACTED p₂).map Prod.fst =
      t ++ (written REDACTED p₂).map Prod.fst := by
    rw [List.map_append, map_fst_marks]
  cases here with
  | @passed q₁ q₂ front rest =>
    have unseen := under_eq_none.1 (read.passed q₁ (c, true) q₂ rfl)
    rw [← front, ← rest, lastRead_map, behind₂] at unseen
    exact absurd kept (Regex.not_takes_of_pattern (by decide) unseen)
  | @taken q₁ q₂ u v front rest =>
    have inFront : ∀ e ∈ sourceOf q₁, e.2 = false := fun e mem =>
      front₁ e (by rw [front]; exact List.mem_append_left u mem)
    have whole : (t ++ (written REDACTED p₂).map Prod.fst) =
        v.map Prod.fst ++ (sourceOf q₂).map Prod.fst := by
      rw [← behind₂, rest, List.map_append]
    obtain ⟨e, xs, piece, found⟩ := read.taken q₁ _ q₂ rfl
    obtain ⟨⟨_, match_⟩, _⟩ := under_eq_some.1 found
    rw [lastRead_map, List.map_append, ← List.length_map Prod.fst] at match_
    -- the piece goes on to the end of the token
    have reaches : t.length ≤ v.length := by
      cases u with
      | nil =>
        obtain ⟨rfl, rfl⟩ := List.cons.inj piece
        rw [List.append_nil] at front
        rw [front] at kept
        have far := longest_token.reaches match_ (u := c :: t) (by rw [← whole]; rfl) kept
        rw [List.length_map, List.length_cons] at far
        omega
      | cons u₀ u =>
        have at_ := (Regex.takes_of_pattern match_).2
        have word : e.1 :: xs.map Prod.fst = (u₀ :: u).map Prod.fst ++ c :: v.map Prod.fst := by
          rw [← List.map_cons, ← piece, List.map_append]
          rfl
        rw [word] at at_
        obtain ⟨_, _, _, bare, _⟩ := takes_token.1 kept
        rw [front, List.map_append, lastRead_append] at bare
        obtain ⟨e', r', _, other⟩ := chained body (y := (written REDACTED p₂).map Prod.fst) rfl
          whole (List.cons_ne_nil _ _) bare at_
        have plain : ']' ∉ (u₀ :: u).map Prod.fst := fun mem =>
          token_chars at_ ']' (List.mem_append_left _ mem) (by decide)
        obtain ⟨z, source⟩ := suffix_of_written front plain
        refine absurd other (alone (z.map Prod.fst) ((u₀ :: u).map Prod.fst) e' r' ?_
          (List.cons_ne_nil _ _))
        rw [← List.map_append, ← source, before, map_fst_marks]
    have inRest : ∀ e ∈ sourceOf q₂, e.2 = false := by
      rcases List.append_eq_append_iff.1 rest with ⟨z, _, after⟩ | ⟨z, word, after⟩
      · exact fun e mem => behind₁ e (by rw [after]; exact List.mem_append_right z mem)
      · have size := congrArg List.length word
        rw [List.length_map, List.length_append] at size
        obtain rfl := List.length_eq_zero_iff.1 (show z.length = 0 by omega)
        rw [List.nil_append] at after
        exact fun e mem => behind₁ e (by rw [← after]; exact mem)
    intro e' mem
    rw [written_append] at mem
    rcases List.mem_append.1 mem with mem | mem
    · exact mem_written inFront e' mem
    · rcases List.mem_append.1 (show e' ∈ REDACTED.map (·, false) ++ written REDACTED q₂ from mem)
        with mem | mem
      · exact unmarked REDACTED e' mem
      · exact mem_written inRest e' mem

end Redact

end Paayatam
