/-
  Paayatam.Privacy.Sanitized

  What joining leaves side by side, and what a sanitized text is the next time.

  A run of placeholders becomes one, so no two of them are side by side in what
  is joined.  Squeezing makes a placeholder of a spread one, and this can put two
  of them side by side again.
-/

import Mathlib.Data.List.Chain
import Paayatam.Booking.EventCreation
import Paayatam.Privacy.SanitizerAgain

namespace Paayatam

open Lib

namespace Sanitizer

variable {n : Nat}

/-! ## The runs that are joined -/

theorem no_repeated_at {c : Char} (h : c ≠ '«') (prev : Option Char) (xs rest : List Char)
    (u : Unit) : repeated prev c (xs ++ rest) ≠ some (u, xs.length) := by
  intro found
  have ⟨n, two, run, _⟩ := repeated_some found
  have ⟨tail, start, _⟩ := lookalike_cons lookalike_placeholder
  have ⟨t, whole⟩ := run.starts (by omega)
  rw [start] at whole
  exact h (List.cons.inj whole).1.symm

/-- A run ends with a placeholder and white space. -/
theorem PlaceholderRun.last {w : List Char} (run : PlaceholderRun n w) (some : 0 < n) :
    ∃ front gap, w = front ++ (REDACTION_PLACEHOLDER ++ gap) ∧
      ∀ c ∈ gap, isTrimmed c = true := by
  induction run with
  | nil => exact absurd some (Nat.lt_irrefl 0)
  | @cons n gap w blank run ih =>
    cases run with
    | nil => exact ⟨[], gap, by simp, blank⟩
    | @cons n gap' w blank' run =>
      obtain ⟨front, back, same, trailing⟩ := ih (Nat.succ_pos n)
      exact ⟨REDACTION_PLACEHOLDER ++ (gap ++ front), back, by rw [same]; simp, trailing⟩

/-- Behind the white space of the first placeholder of a run comes the second. -/
theorem PlaceholderRun.second {w rest gap t : List Char} (run : PlaceholderRun (n + 2) w)
    (blank : ∀ c ∈ gap, isTrimmed c = true)
    (split : w ++ rest = REDACTION_PLACEHOLDER ++ (gap ++ '«' :: t)) :
    REDACTION_PLACEHOLDER <+: '«' :: t := by
  have stop : ∀ t : List Char, ∀ c ∈ ('«' :: t).head?, isTrimmed c = false := by
    intro t c mem
    cases mem
    rfl
  cases run with
  | @cons _ gap' w blank' run =>
    rw [List.append_assoc, List.append_assoc] at split
    have tails := List.append_cancel_left split
    obtain ⟨tail, start, _⟩ := lookalike_cons lookalike_placeholder
    have ⟨more, begins⟩ := run.starts (Nat.succ_pos n)
    have first : w ++ rest = '«' :: (tail ++ (more ++ rest)) := by
      rw [← begins, start]
      simp
    have same := congrArg (List.takeWhile isTrimmed) tails
    rw [first, takeWhile_run blank' (stop _), takeWhile_run blank (stop _)] at same
    rw [same] at tails
    rw [← List.append_cancel_left tails, ← begins, List.append_assoc]
    exact List.prefix_append _ _

/-- In a run every guillemet begins a placeholder, and the rest is a run again. -/
theorem PlaceholderRun.behind {u v : List Char} (run : PlaceholderRun n (u ++ '«' :: v)) :
    ∃ k, PlaceholderRun (k + 1) ('«' :: v) := by
  generalize whole : u ++ '«' :: v = w at run
  induction run generalizing u with
  | nil => simp at whole
  | @cons n gap w blank run ih =>
    obtain ⟨tail, start, once⟩ := lookalike_cons lookalike_placeholder
    cases u with
    | nil =>
      rw [List.nil_append] at whole
      exact ⟨n, whole ▸ .cons blank run⟩
    | cons e u =>
      have outside : '«' ∉ tail ++ gap := by
        intro mem
        rcases List.mem_append.1 mem with mem | mem
        · exact once mem
        · exact absurd (blank _ mem) (by decide)
      have rest : u ++ '«' :: v = (tail ++ gap) ++ w := by
        rw [start] at whole
        simpa using (List.cons.inj whole).2
      rcases List.append_eq_append_iff.1 rest with ⟨x, before, after⟩ | ⟨x, _, after⟩
      · cases x with
        | nil => exact ih (u := []) (by simpa using after)
        | cons c x =>
          refine absurd ?_ outside
          rw [before, (List.cons.inj after).1]
          exact List.mem_append_right u List.mem_cons_self
      · exact ih after.symm

/-! ## Joining -/

/-- Where a lookalike of the joined text comes from. -/
inductive Origin (q o : List Char) : List Char → Prop where
  | kept {s' : List Char} {p : Option Char} (tail : Joined p s' o)
      (alone : ∀ gap t, (∀ c ∈ gap, isTrimmed c = true) →
        q ++ s' ≠ REDACTION_PLACEHOLDER ++ (gap ++ (REDACTION_PLACEHOLDER ++ t))) :
      Origin q o (q ++ s')
  | joined {n : Nat} {w s' o' : List Char} {p : Option Char} (same : q = REDACTION_PLACEHOLDER)
      (two : 2 ≤ n) (run : PlaceholderRun n w) (after : o = ' ' :: o') (tail : Joined p s' o')
      (maximal : ¬REDACTION_PLACEHOLDER <+: s') (visible : ∀ c ∈ s'.head?, isTrimmed c = false) :
      Origin q o (w ++ s')

theorem Joined.origin {prev : Option Char} {q s o : List Char} (hq : Lookalike q)
    (h : Joined prev s (q ++ o)) : Origin q o s := by
  obtain ⟨tail, start, once⟩ := lookalike_cons lookalike_placeholder
  obtain ⟨t, rfl, inside⟩ := lookalike_cons hq
  generalize whole : '«' :: t ++ o = out at h
  cases h with
  | nil => cases whole
  | keep unseen rest =>
    obtain ⟨rfl, rfl⟩ := List.cons.inj whole
    obtain ⟨s', rfl, behind⟩ := rest.kept (fun _ => ⟨_, by rw [start]; rfl⟩) inside
    exact .kept behind fun gap t' blank => repeated_none unseen blank
  | @mask _ c xs s out u found rest =>
    have ⟨n, two, run, maximal, visible⟩ := repeated_some found
    have starts : REDACTION_PLACEHOLDER <+: '«' :: t ++ o := by
      rw [whole, List.append_assoc]
      exact List.prefix_append _ _
    have same := eq_of_lookalike hq starts
    rw [same, List.append_assoc] at whole
    have after := List.append_cancel_left whole
    exact .joined same two run after rest maximal visible

theorem spread_of_joined {text : List Char} (h : LookalikesBeside (joinPlaceholders text)) :
    SpreadBeside text := by
  obtain ⟨a, q, gap, q', b, split, hq, hq', blank⟩ := h
  obtain ⟨tail, start, once⟩ := lookalike_cons lookalike_placeholder
  obtain ⟨t, first, _⟩ := lookalike_cons hq
  have guillemet : '«' ∉ gap := fun mem => absurd (blank _ mem) (by decide)
  have begins : ∀ _ : Unit, ∃ y, REDACTION_PLACEHOLDER ++ [' '] = '«' :: y :=
    fun _ => ⟨_, by rw [start]; rfl⟩
  have once' : ∀ (_ : Unit) (x y : List Char), REDACTION_PLACEHOLDER ++ [' '] = x ++ '«' :: y →
      x = [] := by
    intro _ x y same
    cases x with
    | nil => rfl
    | cons e x =>
      rw [start] at same
      have mem : '«' ∈ tail ++ [' '] := by
        have behind : tail ++ [' '] = x ++ '«' :: y := (List.cons.inj same).2
        rw [behind]
        exact List.mem_append_right x List.mem_cons_self
      rcases List.mem_append.1 mem with mem | mem
      · exact absurd mem once
      · exact absurd mem (by decide)
  have here : joinPlaceholders text = a ++ '«' :: (t ++ (gap ++ (q' ++ b))) := by
    rw [split, first]
    simp
  obtain ⟨a₀, s₁, rfl, h₁, _⟩ := (joined text).suffix here once'
  rw [← List.cons_append, ← first] at h₁
  cases Joined.origin hq h₁ with
  | @kept s' p tail alone =>
    obtain ⟨s₂, rfl, h₂⟩ := tail.kept begins guillemet
    cases Joined.origin hq' h₂ with
    | @kept s₃ _ _ _ =>
      refine ⟨a₀, q, gap, q', s₃, rfl, hq, hq', blank, fun both => ?_⟩
      exact alone gap s₃ blank (by rw [both.1, both.2])
    | @joined n w s₃ o' p same two run after tail maximal visible =>
      obtain ⟨more, rfl⟩ := run.starts (by omega)
      refine ⟨a₀, q, gap, REDACTION_PLACEHOLDER, more ++ s₃, by simp, hq,
        lookalike_placeholder, blank, fun both => ?_⟩
      exact alone gap (more ++ s₃) blank (by rw [both.1]; simp)
  | @joined n w s' o' p same two run after tail maximal visible =>
    obtain ⟨front, gap₀, rfl, blank₀⟩ := run.last (by omega)
    -- what is between is the one blank that joining leaves
    obtain ⟨gap', rfl⟩ : ∃ gap', gap = ' ' :: gap' := by
      cases gap with
      | nil =>
        obtain ⟨t', rfl, _⟩ := lookalike_cons hq'
        exact absurd (List.cons.inj after).1 (by decide)
      | cons c gap' => exact ⟨gap', by rw [(List.cons.inj after).1]⟩
    have behind : o' = gap' ++ (q' ++ b) := (List.cons.inj after).2.symm
    rw [List.mem_cons, not_or] at guillemet
    rw [behind] at tail
    obtain ⟨s₂, rfl, h₂⟩ := tail.kept begins guillemet.2
    cases gap' with
    | cons c gap' =>
      have seen := visible c rfl
      rw [blank c (by simp)] at seen
      exact absurd seen.symm Bool.false_ne_true
    | nil =>
      cases Joined.origin hq' h₂ with
      | @kept s₃ _ _ _ =>
        refine ⟨a₀ ++ front, REDACTION_PLACEHOLDER, gap₀, q', s₃, by simp, lookalike_placeholder,
          hq', blank₀, fun both => ?_⟩
        exact maximal (both.2 ▸ List.prefix_append _ _)
      | @joined n' w' s₃ _ _ same' two' run' _ _ _ _ =>
        obtain ⟨more, rfl⟩ := run'.starts (by omega)
        exact absurd ⟨more ++ s₃, by simp⟩ maximal

/-- Joining leaves a lookalike at the front, or puts a placeholder there. -/
theorem Joined.front {prev : Option Char} {q s out : List Char} (hq : Lookalike q)
    (h : Joined prev (q ++ s) out) : ∃ q' o, out = q' ++ o ∧ Lookalike q' := by
  obtain ⟨t, rfl, inside⟩ := lookalike_cons hq
  generalize whole : '«' :: t ++ s = text at h
  cases h with
  | nil => cases whole
  | keep unseen rest =>
    obtain ⟨rfl, rfl⟩ := List.cons.inj whole
    obtain ⟨o, rfl, _⟩ := rest.stays_word fun c mem =>
      no_repeated_at fun same => inside (same ▸ mem)
    exact ⟨'«' :: t, o, rfl, hq⟩
  | mask found rest =>
    exact ⟨REDACTION_PLACEHOLDER, _, by rw [List.append_assoc], lookalike_placeholder⟩

theorem joined_of_spread {text : List Char} (h : SpreadBeside text) :
    LookalikesBeside (joinPlaceholders text) := by
  obtain ⟨a, q, gap, q', b, split, hq, hq', blank, odd⟩ := h
  obtain ⟨t, first, inside⟩ := lookalike_cons hq
  obtain ⟨t', first', _⟩ := lookalike_cons hq'
  have guillemet : ∀ c ∈ gap, c ≠ '«' := by
    rintro c mem rfl
    exact absurd (blank _ mem) (by decide)
  have whole : text = a ++ '«' :: (t ++ (gap ++ (q' ++ b))) := by
    rw [split, first]
    simp
  have start := joined text
  generalize joinPlaceholders text = out at start
  rw [whole] at start
  cases start.cut with
  | @free a' o prev unseen tail chars =>
    obtain ⟨o₁, rfl, h₁⟩ := tail.stays_word fun c mem =>
      no_repeated_at fun same => inside (same ▸ mem)
    obtain ⟨o₂, rfl, h₂⟩ := h₁.stays_word fun c mem => no_repeated_at (guillemet c mem)
    obtain ⟨q₂, o₃, rfl, hq₂⟩ := Joined.front hq' h₂
    exact ⟨a', q, gap, q₂, o₃, by rw [first]; simp, hq, hq₂, blank⟩
  | @covered a' o xs u v rest prev d _ found within after tail =>
    have ⟨n, two, run, maximal, visible⟩ := repeated_some found
    rw [within] at run
    obtain ⟨k, run⟩ := run.behind
    have ⟨more, begins⟩ := run.starts (Nat.succ_pos k)
    have whole' : '«' :: v ++ rest = q ++ (gap ++ (q' ++ b)) := by
      rw [first, List.cons_append, List.cons_append, after]
    have same : q = REDACTION_PLACEHOLDER := by
      refine eq_of_lookalike hq (t := gap ++ (q' ++ b)) ?_
      rw [← whole', ← begins, List.append_assoc]
      exact List.prefix_append _ _
    have apart : ¬REDACTION_PLACEHOLDER <+: q' ++ b := fun starts =>
      odd ⟨same, eq_of_lookalike hq' starts⟩
    rw [same] at whole'
    rcases k with _ | k
    · generalize one : '«' :: v = w at run
      cases run with
      | @cons _ gap₀ _ blank₀ run =>
        cases run
        rw [one, List.append_nil, List.append_assoc] at whole'
        have tails := List.append_cancel_left whole'
        have stop : ∀ c ∈ (q' ++ b).head?, isTrimmed c = false := by
          intro c mem
          rw [first'] at mem
          cases mem
          rfl
        have gaps := congrArg (List.takeWhile isTrimmed) tails
        rw [takeWhile_run blank₀ visible, takeWhile_run blank stop] at gaps
        rw [gaps] at tails
        rw [List.append_cancel_left tails] at tail
        obtain ⟨q₂, o₃, rfl, hq₂⟩ := Joined.front hq' tail
        refine ⟨a', REDACTION_PLACEHOLDER, [' '], q₂, o₃, by simp, lookalike_placeholder, hq₂,
          fun c mem => ?_⟩
        rw [List.mem_singleton.1 mem]
        rfl
    · rw [first', List.cons_append] at whole' apart
      exact absurd (run.second blank whole') apart

/-- What joining and squeezing put side by side. -/
theorem adjacent_collapse_iff (text : List Char) :
    Adjacent (collapse text) ↔ SpreadBeside text := by
  rw [collapse, adjacent_trim_iff, adjacent_squeeze_iff]
  exact ⟨spread_of_joined, joined_of_spread⟩

/-! ## The second time -/

/-- No two blanks one behind the other. -/
def Unspread (s : List Char) : Prop :=
  s.IsChain fun c d => isBlank c = true → isBlank d = false

theorem unspread_of_squeezed {prev : Option Char} {s out : List Char} (h : Squeezed prev s out) :
    Unspread out := by
  have blank : ∀ {prev : Option Char} {s out : List Char} {d : Char}, Squeezed prev s out →
      d ∈ out.head? → isBlank d = true → ∃ e ∈ s.head?, isBlank e = true := by
    intro prev s out d rest mem isBlank
    rcases rest.head (fun _ => ⟨[], rfl⟩) with same | ⟨_, e, xs, s', b, rfl, found⟩
    · exact ⟨d, same ▸ mem, isBlank⟩
    · exact ⟨e, rfl, blanks_of_match found e List.mem_cons_self⟩
  induction h with
  | nil => exact .nil
  | @keep prev c s out unseen rest ih =>
    refine List.isChain_cons.2 ⟨fun d mem first => ?_, ih⟩
    rw [Bool.eq_false_iff]
    intro second
    obtain ⟨e, behind, third⟩ := blank rest mem second
    obtain ⟨t, rfl⟩ := List.head?_eq_some_iff.1 behind
    have pair : BLANKS.Takes prev [c, e] t.head? := by
      refine ⟨Nat.le_refl 2, by simp, List.forall_mem_cons.2 ⟨first, fun x mem => ?_⟩⟩
      rw [List.mem_singleton.1 mem]
      exact third
    exact Regex.not_takes_of_pattern (w := [e]) (by decide) unseen pair
  | @mask prev c xs s out b found rest ih =>
    refine List.isChain_cons.2 ⟨fun d mem _ => ?_, ih⟩
    rw [Bool.eq_false_iff]
    intro second
    obtain ⟨e, behind, third⟩ := blank rest mem second
    rw [(Regex.many_greedy found).2 e behind] at third
    exact Bool.false_ne_true third

theorem squeeze_of_unspread {s : List Char} (h : Unspread s) : squeeze s = s := by
  refine replaceAll_of_unmatched (Regex.pieces_of_not_occurs ?_) _
  rintro ⟨a, w, b, rfl, two, _, blank⟩
  rcases w with _ | ⟨c, _ | ⟨d, w⟩⟩
  · exact absurd two (Nat.not_succ_le_zero 1)
  · exact absurd two (Nat.not_succ_le_self 1)
  · rw [List.append_assoc] at h
    have pair : Unspread (c :: d :: w) := h.right_of_append.left_of_append
    have apart := (List.isChain_cons_cons.1 pair).1 (blank c (by simp))
    rw [blank d (by simp)] at apart
    exact Bool.false_ne_true apart.symm

theorem trimmed_trimmed (s : List Char) : trimmed (trimmed s) = trimmed s := by
  have same := congrArg String.toList (trim_trim (String.ofList s))
  simp only [trim, String.toList_ofList] at same
  exact same

/-- A run of placeholders is long. -/
theorem PlaceholderRun.length_le {w : List Char} (run : PlaceholderRun n w) :
    8 * n ≤ w.length := by
  induction run with
  | nil => exact Nat.le_refl 0
  | cons _ _ ih =>
    have eight : REDACTION_PLACEHOLDER.length = 8 := rfl
    simp only [List.length_append, eight]
    omega

theorem adjacent_of_repeated {a xs rest : List Char} {c : Char} {prev : Option Char} {u : Unit}
    (found : repeated prev c (xs ++ rest) = some (u, xs.length)) :
    Adjacent (a ++ c :: (xs ++ rest)) := by
  obtain ⟨n, two, run, _⟩ := repeated_some found
  rw [← List.cons_append]
  generalize c :: xs = w at run
  cases run with
  | nil => exact absurd two (Nat.not_succ_le_zero 1)
  | cons blank run =>
    obtain ⟨more, rfl⟩ := run.starts (Nat.lt_of_succ_lt_succ two)
    exact ⟨a, _, more ++ rest, by simp, blank⟩

/-- A text that is squeezed and trimmed collapses no further, unless two placeholders
    are side by side. -/
theorem collapse_eq_self_iff {s : List Char} (apart : Unspread s) (ends : trimmed s = s) :
    collapse s = s ↔ ¬Adjacent s := by
  constructor
  · rintro same ⟨a, gap, b, split, blank⟩
    have shorter := (joined s).shorter fun prev c xs rest u found => by
      obtain ⟨n, two, run, _⟩ := repeated_some found
      have long := run.length_le
      rw [List.length_cons] at long
      show 9 < xs.length + 1
      omega
    rcases shorter with unseen | less
    · obtain ⟨tail, start, _⟩ := lookalike_cons lookalike_placeholder
      have here : s = a ++ '«' :: (tail ++ (gap ++ (REDACTION_PLACEHOLDER ++ b))) := by
        rw [split]
        nth_rewrite 1 [start]
        rfl
      refine repeated_none (unseen a _ _ here) blank (t := b) ?_
      nth_rewrite 2 [start]
      rfl
    · have squeezing := (squeezed (joinPlaceholders s)).length_le fun _ _ xs _ _ _ =>
        Nat.le_add_left 1 xs.length
      obtain ⟨p, q, whole, _⟩ := trimmed_split (squeeze (joinPlaceholders s))
      have trimming : (collapse s).length ≤ (squeeze (joinPlaceholders s)).length := by
        rw [whole, List.length_append, List.length_append]
        exact Nat.le_trans (Nat.le_add_left _ p.length) (Nat.le_add_right _ q.length)
      rw [same] at trimming
      omega
  · intro alone
    have joining : joinPlaceholders s = s := by
      refine replaceAll_of_unmatched (pieces_of_none fun a c b split => ?_) _
      cases found : repeated (lastRead none a) c b with
      | none => rfl
      | some piece =>
        obtain ⟨u, k⟩ := piece
        obtain ⟨xs, rest, rfl, rfl⟩ := repeated_within.split found
        exact absurd (split ▸ adjacent_of_repeated found) alone
    rw [collapse, joining, squeeze_of_unspread apart, ends]

theorem collapse_collapse_iff (text : List Char) :
    collapse (collapse text) = collapse text ↔ ¬SpreadBeside text := by
  obtain ⟨p, q, whole, _⟩ := trimmed_split (squeeze (joinPlaceholders text))
  have squeezed' : Unspread (squeeze (joinPlaceholders text)) :=
    unspread_of_squeezed (squeezed (joinPlaceholders text))
  rw [whole] at squeezed'
  have apart : Unspread (collapse text) := squeezed'.left_of_append.right_of_append
  rw [collapse_eq_self_iff apart (trimmed_trimmed _), adjacent_collapse_iff]

end Sanitizer

end Paayatam
