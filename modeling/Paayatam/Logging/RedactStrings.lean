/-
  Paayatam.Logging.RedactStrings

  What the sweep of a string leaves.

  No phone number, no link and no bearer token is left, whatever the string.  A
  bot token can come out of the sweep: where a link that stood right behind a run
  of symbols is replaced, the run ends, and may be a token that it was not.
-/

import Mathlib.Data.List.Infix
import Paayatam.Logging.Redact
import Paayatam.Privacy.SanitizerMarks

namespace Paayatam

open Lib

namespace Redact

open Sanitizer (exactly ignoringCase isWord takes_exactly Mark Marks)

variable {s w : List Char} {prev next : Option Char}

theorem swept (p : Regex Char × List Char) (s : List Char) :
    Masked p.1.pattern (fun _ => p.2) none s (sweep p s) :=
  masked_replaceAll p.1.pattern_within _ s

theorem redacted_start : ∃ y, REDACTED = '[' :: y := ⟨"redacted]".toList, by decide⟩

theorem bearer_redacted_start : ∃ y, BEARER_REDACTED = 'B' :: y :=
  ⟨"earer [redacted]".toList, by decide⟩

/-- A symbol that is in a replacement nowhere does not stand inside of it. -/
theorem outside {f o : List Char} {c : Char} (h : c ∉ f) (x y o' : List Char)
    (split : f = x ++ c :: y) : o ≠ y ++ o' :=
  absurd (split ▸ List.mem_append_right x List.mem_cons_self) h

/-! ## Phone numbers -/

/-- The four replacements hold no symbol of a phone number. -/
theorem phone_outside {f : List Char} (h : f = REDACTED ∨ f = BEARER_REDACTED)
    (at_ : PHONE.Takes prev w next) : ∀ c ∈ w, c ∉ f := by
  rcases h with rfl | rfl
  · exact at_.avoid (by decide)
  · exact at_.avoid (by decide)

theorem start_of {f : List Char} (h : f = REDACTED ∨ f = BEARER_REDACTED) :
    ∃ q ∈ f, ∃ y, f = q :: y := by
  rcases h with rfl | rfl
  · exact ⟨'[', by decide, redacted_start⟩
  · exact ⟨'B', by decide, bearer_redacted_start⟩

/-- A phone number that a sweep leaves was there, at a place the sweep passed. -/
theorem phone_of_sweep {r : Regex Char} {f : List Char} (h : f = REDACTED ∨ f = BEARER_REDACTED)
    (occurs : PHONE.Occurs (sweep (r, f) s)) :
    PHONE.Occurs s ∧ ∃ p c v b, PHONE.Takes p (c :: v) b.head? ∧ r.pattern p c (v ++ b) = none := by
  obtain ⟨a, w, b, split, at_⟩ := occurs
  cases w with
  | nil => exact absurd at_.shortest_le (by decide)
  | cons c w =>
    obtain ⟨q, mem, y, start⟩ := start_of h
    have apart := phone_outside h at_
    have here := swept (r, f) s
    rw [split, List.append_assoc, List.cons_append] at here
    obtain ⟨a₀, b₀, rfl, unseen, _⟩ := here.place_word (fun _ => ⟨y, start⟩)
      (fun _ => outside (apart c List.mem_cons_self))
      (fun inside => apart q (List.mem_cons_of_mem c inside) mem)
    have anywhere := fun p n => at_.anywhere (by decide) p n
    exact ⟨⟨a₀, c :: w, b₀, by simp, anywhere _ _⟩, _, c, w, b₀, anywhere _ _, unseen⟩

theorem phone_swept (s : List Char) : ¬PHONE.Occurs (sweep (PHONE, REDACTED) s) := by
  intro occurs
  obtain ⟨_, p, c, v, b, at_, unseen⟩ := phone_of_sweep (.inl rfl) occurs
  exact Regex.not_takes_of_pattern (by decide) unseen at_

/-! ## Bot tokens -/

/-- What makes a token: digits, a colon and a run. -/
structure Token (w d r : List Char) : Prop where
  split : w = d ++ ':' :: r
  few : 6 ≤ d.length
  most : d.length ≤ 12
  digits : ∀ c ∈ d, c.isDigit = true
  long : 30 ≤ r.length
  short : r.length ≤ 60
  run : ∀ c ∈ r, isTokenChar c = true

theorem isWord_of_digit {c : Char} (h : c.isDigit = true) : isWord c = true := by
  rw [isWord, Char.isAlphanum, h, Bool.or_true, Bool.true_or]

theorem Token.first {d r : List Char} (h : Token w d r) : ∃ c t, w = c :: t ∧ c.isDigit = true := by
  have few := h.few
  cases d with
  | nil => exact absurd few (Nat.not_succ_le_zero 5)
  | cons c d => exact ⟨c, d ++ ':' :: r, h.split, h.digits c List.mem_cons_self⟩

theorem Token.last {d r : List Char} (h : Token w d r) (prev : Option Char) :
    lastRead prev w = r.getLast? := by
  have long := h.long
  have filled : r ≠ [] := List.ne_nil_of_length_pos (by omega)
  rw [h.split, lastRead_append, lastRead_cons, lastRead_of_ne_nil filled _ none]
  exact Option.or_none

theorem takes_body : TOKEN_BODY.Takes prev w next ↔ ∃ d r, Token w d r := by
  constructor
  · rintro ⟨d, _, rfl, digits, colon, r, rfl, at_, run⟩
    rw [takes_exactly.1 at_]
    exact ⟨d, r, rfl, digits.1, digits.2.1 12 rfl, digits.2.2, run.1, run.2.1 60 rfl, run.2.2⟩
  · rintro ⟨d, r, rfl, few, most, digits, long, short, run⟩
    refine ⟨d, ':' :: r, rfl, ⟨few, fun m mem => ?_, digits⟩, [':'], r, rfl,
      takes_exactly.2 rfl, long, fun m mem => ?_, run⟩
    · cases mem
      exact most
    · cases mem
      exact short

/-- A token is one where it stands: no word goes on into it, and none goes on behind. -/
theorem takes_token : TOKEN.Takes prev w next ↔
    ∃ d r, Token w d r ∧ prev.any isWord = false ∧ r.getLast?.any isWord ≠ next.any isWord := by
  constructor
  · rintro ⟨_, _, rfl, ⟨rfl, front⟩, d, _, rfl, digits, colon, _, rfl, at_, r, _, rfl, run, rfl,
      back⟩
    rw [takes_exactly.1 at_] at front back ⊢
    rw [List.append_nil] at front ⊢
    have token : Token (d ++ ':' :: r) d r :=
      ⟨rfl, digits.1, digits.2.1 12 rfl, digits.2.2, run.1, run.2.1 60 rfl, run.2.2⟩
    obtain ⟨c, t, whole, digit⟩ := token.first
    refine ⟨d, r, token, ?_, ?_⟩
    · have first : (d ++ (":".toList ++ r)).head? = some c := by
        show (d ++ ':' :: r).head? = some c
        rw [whole]
        rfl
      rw [first, Option.some_or, Option.any_some, isWord_of_digit digit] at front
      exact Bool.eq_false_iff.2 front
    · have filled : r ≠ [] := List.ne_nil_of_length_pos (by have long := token.long; omega)
      rw [lastRead_of_ne_nil filled _ none] at back
      rw [lastRead, Option.or_none] at back
      exact back
  · rintro ⟨d, r, token, front, back⟩
    obtain ⟨c, t, whole, digit⟩ := token.first
    have filled : r ≠ [] := List.ne_nil_of_length_pos (by have long := token.long; omega)
    obtain ⟨rfl, few, most, digits, long, short, run⟩ := token
    refine ⟨[], d ++ ':' :: r, rfl, ⟨rfl, ?_⟩, d, ':' :: r, rfl, ⟨few, fun m mem => ?_, digits⟩,
      [':'], r, rfl, takes_exactly.2 rfl, r, [], by simp, ⟨long, fun m mem => ?_, run⟩, rfl, ?_⟩
    · rw [whole, List.head?_cons, Option.some_or, Option.any_some, isWord_of_digit digit, front]
      exact Bool.false_ne_true
    · cases mem
      exact most
    · cases mem
      exact short
    · rw [lastRead_of_ne_nil filled _ none, lastRead, Option.or_none]
      exact back

theorem token_chars (at_ : TOKEN.Takes prev w next) : ∀ c ∈ w, c ∉ ['[', ']', '/', ' '] :=
  at_.avoid (by decide)

/-- No replacement holds a digit. -/
theorem digit_outside {f : List Char} (h : f = REDACTED ∨ f = BEARER_REDACTED) {c : Char}
    (digit : c.isDigit = true) : c ∉ f := by
  have letters : (f.all fun c => !c.isDigit) = true := by
    rcases h with rfl | rfl <;> decide
  intro mem
  have none_ := List.all_eq_true.1 letters c mem
  rw [digit] at none_
  exact Bool.false_ne_true none_

theorem longest_token : Regex.Longest TOKEN := by
  have run := Regex.longest_many_boundary isTokenChar isWord 30 (some 60)
  have colon : Regex.Longest (.seq (exactly ":") (.seq (.many isTokenChar 30 (some 60))
      (.boundary isWord))) := by
    refine run.seq fun prev s i j hi hj _ _ => ?_
    have one : ∀ k ∈ (exactly ":").ends prev s, k = 1 := by
      intro k mem
      obtain ⟨within, at_⟩ := Regex.mem_ends.1 mem
      have size := congrArg List.length (takes_exactly.1 at_)
      rw [List.length_take_of_le within] at size
      exact size
    rw [one i hi, one j hj]
  have digits : Regex.Longest (.seq (.many Char.isDigit 6 (some 12)) (.seq (exactly ":")
      (.seq (.many isTokenChar 30 (some 60)) (.boundary isWord)))) := by
    refine colon.seq fun prev s i j hi hj restI restJ => ?_
    -- behind the digits comes the colon, which is none
    have place : ∀ k, k ∈ (Regex.many Char.isDigit 6 (some 12)).ends prev s →
        (Regex.seq (exactly ":") (.seq (.many isTokenChar 30 (some 60)) (.boundary isWord))).ends
          (lastRead prev (s.take k)) (s.drop k) ≠ [] →
        (s.takeWhile Char.isDigit).length = k := by
      intro k mem rest
      obtain ⟨within, at_⟩ := Regex.mem_ends.1 mem
      obtain ⟨n, hn⟩ := List.exists_mem_of_ne_nil _ rest
      obtain ⟨_, colon, more, whole, here, _⟩ := Regex.mem_ends.1 hn
      rw [takes_exactly.1 here] at whole
      have next : s.drop k = ':' :: (more ++ (s.drop k).drop n) :=
        (List.take_append_drop n (s.drop k)).symm.trans (by rw [whole]; rfl)
      have run : ((s.take k) ++ s.drop k).takeWhile Char.isDigit =
          s.take k ++ (s.drop k).takeWhile Char.isDigit :=
        List.takeWhile_append_of_pos at_.2.2
      rw [List.take_append_drop] at run
      rw [run, next, List.takeWhile_cons_of_neg (by decide), List.append_nil,
        List.length_take_of_le within]
    rw [← place i hi restI, ← place j hj restJ]
  refine digits.seq fun prev s i j hi hj _ _ => ?_
  have none_ : ∀ k ∈ (Regex.boundary isWord).ends prev s, k = 0 := by
    intro k mem
    obtain ⟨within, at_, _⟩ := Regex.mem_ends.1 mem
    rw [← List.length_take_of_le within, at_, List.length_nil]
  rw [none_ i hi, none_ j hj]

/-- Behind a token comes no word, and what stood behind it still looks on it. -/
theorem token_behind {p : Option Char} {c d : Char} {xs rest b : List Char} {a₁ : List Char}
    (found : TOKEN.pattern p d (xs ++ c :: rest) = some (b, xs.length)) (word : isWord c = true) :
    (lastRead none (a₁ ++ d :: xs)).any isWord = false := by
  obtain ⟨d', r, token, _, back⟩ := takes_token.1 (Regex.takes_of_pattern found).2
  rw [lastRead_append, token.last]
  rw [List.head?_cons, Option.any_some, word] at back
  exact Bool.eq_false_iff.2 back

theorem lastRead_none (a : List Char) : lastRead none a = a.getLast? := Option.or_none

/-- No token is left when they are swept. -/
theorem token_swept (s : List Char) : ¬TOKEN.Occurs (sweep (TOKEN, REDACTED) s) := by
  rintro ⟨a, w, b, split, at_⟩
  obtain ⟨d, r, token, front, back⟩ := takes_token.1 at_
  obtain ⟨c, t, rfl, digit⟩ := token.first
  have here := swept (TOKEN, REDACTED) s
  rw [split, List.append_assoc, List.cons_append] at here
  obtain ⟨a₀, b₀, rfl, unseen, tail, before⟩ := here.place_word (fun _ => redacted_start)
    (fun _ => outside (digit_outside (.inl rfl) digit))
    (fun mem => token_chars at_ '[' (List.mem_cons_of_mem c mem) (by decide))
  have front' : (lastRead none a₀).any isWord = false := by
    rcases before with same | ⟨p, d', xs, _, a₁, _, found, rfl, _⟩
    · rw [same, lastRead_none]
      exact front
    · exact token_behind found (isWord_of_digit digit)
  have back' : r.getLast?.any isWord ≠ b₀.head?.any isWord := by
    rcases tail.head (fun _ => redacted_start) with same | ⟨masked, x, xs, s', _, rfl, found⟩
    · rw [← same]
      exact back
    · obtain ⟨_, _, _, fore, _⟩ := takes_token.1 (Regex.takes_of_pattern found).2
      have fore' : (lastRead none (c :: t)).any isWord = false := by
        rw [lastRead_cons]
        exact fore
      rw [token.last] at fore'
      rw [masked, fore'] at back
      exact absurd rfl back
  exact Regex.not_takes_of_pattern (by decide) unseen (takes_token.2 ⟨d, r, token, front', back'⟩)

/-! ## Links and bearer tokens -/

theorem takes_ignoringCase {text : String} (h : (ignoringCase text).Takes prev w next) :
    w.length = text.toList.length ∧
      List.Forall₂ (fun a c => c.toLower == a.toLower) text.toList w := by
  rw [ignoringCase, Regex.takes_literal, List.forall₂_map_left_iff] at h
  exact ⟨h.length_eq.symm, h⟩

theorem greedy_link : Regex.Greedy isLinkChar LINK :=
  ((Regex.greedy_many isLinkChar 1).seq _).seq _

theorem greedy_bearer : Regex.Greedy isBearerChar BEARER :=
  ((Regex.greedy_many isBearerChar 1).seq _).seq _

/-- How a link begins, and that it goes on. -/
def LINK_MARK : Mark := ⟨ignoringCase "t.me/", fun next => next.any isLinkChar⟩

def BEARER_MARK : Mark :=
  ⟨.seq (ignoringCase "Bearer") (.many isTrimmed 1 none), fun next => next.any isBearerChar⟩

theorem goes_on {p : Char → Bool} {b : List Char} (h : b.head?.any p = true) (prev : Option Char)
    (next : Option Char) :
    ∃ c b', b = c :: b' ∧ (Regex.many p 1 none).Takes prev [c] next := by
  cases b with
  | nil => exact absurd h Bool.false_ne_true
  | cons c b => exact ⟨c, b, rfl, Nat.le_refl 1, by simp, by simpa using h⟩

theorem went_on {p : Char → Bool} (at_ : (Regex.many p 1 none).Takes prev w next)
    (other : Option Char) : (w.head?.or other).any p = true := by
  cases w with
  | nil => exact absurd at_.1 (Nat.not_succ_le_zero 0)
  | cons c w => exact at_.2.2 c List.mem_cons_self

theorem link_marks : Marks LINK LINK_MARK where
  long := by decide
  extend prev w b shown := by
    obtain ⟨c, b', rfl, name⟩ := goes_on shown.2 (lastRead prev w) b.head?
    refine ⟨[c], b', rfl, [], w ++ [c], rfl, .inr rfl, w, [c], rfl, shown.1.anywhere rfl _ _, ?_⟩
    exact name.anywhere rfl _ _
  shrink prev w next at_ := by
    obtain ⟨scheme, _, rfl, _, host, name, rfl, atHost, atName⟩ := at_
    exact ⟨scheme, host, name, by simp, atHost.anywhere rfl _ _, went_on atName next⟩

theorem bearer_marks : Marks BEARER BEARER_MARK where
  long := by decide
  extend prev w b shown := by
    obtain ⟨⟨front, blank, rfl, atFront, atBlank⟩, stop⟩ := shown
    obtain ⟨c, b', rfl, token⟩ := goes_on stop none none
    exact ⟨[c], b', rfl, front, blank ++ [c], by simp, atFront.anywhere rfl _ _, blank, [c], rfl,
      atBlank, token.anywhere rfl _ _⟩
  shrink prev w next at_ := by
    obtain ⟨front, _, rfl, atFront, blank, token, rfl, atBlank, atToken⟩ := at_
    exact ⟨[], front ++ blank, token, by simp,
      ⟨front, blank, rfl, atFront.anywhere rfl _ _, atBlank⟩, went_on atToken next⟩

/-- A capital is lowered, and anything else stays. -/
theorem toLower_cases (c : Char) :
    c.toLower = c ∨ (65 ≤ c.toNat ∧ c.toNat ≤ 90) ∧ c.toLower.toNat = c.toNat + 32 := by
  by_cases upper : c.val ≥ 'A'.val ∧ c.val ≤ 'Z'.val
  · have low : 65 ≤ c.toNat := UInt32.le_iff_toNat_le.1 upper.1
    have high : c.toNat ≤ 90 := UInt32.le_iff_toNat_le.1 upper.2
    refine .inr ⟨⟨low, high⟩, ?_⟩
    have lowered : c.toLower = _ := dif_pos upper
    rw [lowered]
    show (c.val + 32).toNat = c.val.toNat + 32
    rw [UInt32.toNat_add]
    exact Nat.mod_eq_of_lt (by
      show c.toNat + 32 < 2 ^ 32
      omega)
  · exact .inl (dif_neg upper)

theorem eq_of_toLower {a c : Char} (same : c.toLower = a) (h : a.toNat < 97) : c = a := by
  rcases toLower_cases c with plain | ⟨⟨low, _⟩, value⟩
  · rw [← plain, same]
  · rw [same] at value
    omega

/-- What is lowered to a letter of a word is one. -/
theorem isWord_of_toLower {a c : Char} (same : (c.toLower == a.toLower) = true)
    (h : isWord a.toLower = true) : isWord c = true := by
  rw [← eq_of_beq same] at h
  rcases toLower_cases c with plain | ⟨⟨low, high⟩, _⟩
  · rw [plain] at h
    exact h
  · have upper : c.isUpper = true := decide_eq_true ⟨low, high⟩
    have letter : c.isAlpha = true := Bool.or_eq_true_iff.2 (.inl upper)
    have alphanum : c.isAlphanum = true := Bool.or_eq_true_iff.2 (.inl letter)
    rw [isWord, alphanum, Bool.true_or]

/-- The letters a link begins with. -/
theorem link_core (at_ : LINK_MARK.core.Takes prev w next) :
    ∃ c t, w = c :: '.' :: t ∧ c.toLower = 't' ∧ t.length = 3 ∧ '[' ∉ w ∧ 'B' ∉ w := by
  have apart : ∀ c ∈ w, c ∉ ['[', 'B'] := at_.avoid (by decide)
  obtain ⟨size, letters⟩ := takes_ignoringCase at_
  have chars : "t.me/".toList = ['t', '.', 'm', 'e', '/'] := by decide
  rw [chars] at letters size
  obtain ⟨c, _, first, more, rfl⟩ := List.forall₂_cons_left_iff.1 letters
  obtain ⟨d, t, second, _, rfl⟩ := List.forall₂_cons_left_iff.1 more
  have dot : d = '.' := eq_of_toLower (eq_of_beq second) (by decide)
  subst dot
  refine ⟨c, t, rfl, eq_of_beq first, ?_, fun mem => apart _ mem (by decide),
    fun mem => apart _ mem (by decide)⟩
  simpa using size

/-- A `t` in front, if there is one, is not that of a link. -/
def plainAtLink : List Char → Bool
  | c :: y => !(c.toLower == 't') || y.head?.any (· != '.')
  | [] => true

/-- No replacement goes on like a link. -/
theorem link_outside {f : List Char} (h : f = REDACTED ∨ f = BEARER_REDACTED) {c : Char}
    (first : c.toLower = 't') (t x y o' : List Char) (split : f = x ++ c :: y) :
    '.' :: t ≠ y ++ o' := by
  have sound : f.tails.all plainAtLink = true := by
    rcases h with rfl | rfl <;> decide
  have here := List.all_eq_true.1 sound (c :: y)
    ((List.mem_tails _ _).2 (split ▸ List.suffix_append x (c :: y)))
  intro same
  cases y with
  | nil => simp [plainAtLink, first] at here
  | cons d y =>
    have dot := (List.cons.inj same).1
    simp [plainAtLink, first, ← dot] at here

/-- Where a link of the swept text begins. -/
theorem link_place {r : Regex Char} {f : List Char} (h : f = REDACTED ∨ f = BEARER_REDACTED)
    (shown : LINK_MARK.Shows (sweep (r, f) s)) :
    ∃ a c v s' b, s = a ++ c :: (v ++ s') ∧ r.pattern (lastRead none a) c (v ++ s') = none ∧
      Masked r.pattern (fun _ => f) (lastRead (some c) v) s' b ∧
      LINK_MARK.core.Takes none (c :: v) none ∧ b.head?.any isLinkChar = true := by
  obtain ⟨a, w, b, split, core, stop⟩ := shown
  obtain ⟨c, t, rfl, first, _, square, capital⟩ := link_core core
  have here := swept (r, f) s
  rw [split, List.append_assoc, List.cons_append] at here
  have inner : ∀ q, q = '[' ∨ q = 'B' → q ∉ '.' :: t := by
    rintro q (rfl | rfl) mem
    · exact square (List.mem_cons_of_mem c mem)
    · exact capital (List.mem_cons_of_mem c mem)
  have start : ∃ q, (q = '[' ∨ q = 'B') ∧ ∃ y, f = q :: y := by
    rcases h with rfl | rfl
    · exact ⟨'[', .inl rfl, redacted_start⟩
    · exact ⟨'B', .inr rfl, bearer_redacted_start⟩
  obtain ⟨q, which, begins⟩ := start
  obtain ⟨a₀, s', rfl, unseen, tail, _⟩ := here.place_word (fun _ => begins)
    (fun _ x y o' split => link_outside h first (t ++ b) x y o' split) (inner q which)
  exact ⟨a₀, c, '.' :: t, s', b, rfl, unseen, tail, core, stop⟩

/-- No link is left when they are swept. -/
theorem link_swept (s : List Char) : ¬LINK_MARK.Shows (sweep (LINK, REDACTED) s) := by
  intro shown
  obtain ⟨a, c, v, s', b, rfl, unseen, tail, core, stop⟩ := link_place (.inl rfl) shown
  refine link_marks.not_at unseen ⟨core, ?_⟩
  rcases tail.head (fun _ => redacted_start) with same | ⟨masked, _⟩
  · rw [← same]
    exact stop
  · rw [masked] at stop
    exact absurd stop (by decide)

theorem bearer_first {c : Char} {xs : List Char} (at_ : BEARER.Takes prev (c :: xs) next) :
    c = 'b' ∨ c = 'B' := by
  obtain ⟨front, rest, split, atFront, _⟩ := at_
  obtain ⟨_, letters⟩ := takes_ignoringCase atFront
  have chars : "Bearer".toList = 'B' :: "earer".toList := by decide
  rw [chars] at letters
  obtain ⟨d, _, lowered, _, rfl⟩ := List.forall₂_cons_left_iff.1 letters
  have first : c.toLower = 'b' := by
    rw [(List.cons.inj split).1]
    exact eq_of_beq lowered
  rcases toLower_cases c with plain | ⟨_, value⟩
  · exact .inl (plain.symm.trans first)
  · refine .inr (Char.toNat_inj.1 ?_)
    rw [first] at value
    have small : ('b' : Char).toNat = 98 := rfl
    have capital : ('B' : Char).toNat = 66 := rfl
    omega

/-- And none comes out of the sweep of bearer tokens. -/
theorem link_of_bearer (shown : LINK_MARK.Shows (sweep (BEARER, BEARER_REDACTED) s)) :
    LINK_MARK.Shows s := by
  obtain ⟨a, c, v, s', b, rfl, unseen, tail, core, stop⟩ := link_place (.inr rfl) shown
  refine ⟨a, c :: v, s', by simp, core, ?_⟩
  rcases tail.head (fun _ => bearer_redacted_start) with same | ⟨_, x, xs, rest, _, rfl, found⟩
  · rw [← same]
    exact stop
  · rcases bearer_first (Regex.takes_of_pattern found).2 with rfl | rfl <;> rfl

/-- No bearer token is left when they are swept: the one that is written is none. -/
theorem bearer_swept (s : List Char) :
    ¬BEARER_MARK.Shows (sweep (BEARER, BEARER_REDACTED) s) := by
  rintro ⟨a, w, b, split, core, stop⟩
  obtain ⟨front, blank, rfl, atFront, atBlank⟩ := core
  obtain ⟨size, letters⟩ := takes_ignoringCase atFront
  have chars : "Bearer".toList = 'B' :: "earer".toList := by decide
  rw [chars] at letters
  obtain ⟨c, rest, first, more, rfl⟩ := List.forall₂_cons_left_iff.1 letters
  have core : BEARER_MARK.core.Takes none (c :: rest ++ blank) none :=
    ⟨c :: rest, blank, rfl, atFront.anywhere rfl _ _, atBlank⟩
  have length : rest.length = 5 := by simpa using size
  have here := swept (BEARER, BEARER_REDACTED) s
  rw [split, List.append_assoc, List.cons_append, List.cons_append] at here
  have inside : ∀ (_ : List Char) (x y o' : List Char), BEARER_REDACTED = x ++ c :: y →
      rest ++ blank ++ b ≠ y ++ o' := by
    intro _ x y o' within same
    have written :
        BEARER_REDACTED = 'B' :: ("earer".toList ++ ' ' :: '[' :: "redacted]".toList) := by
      decide
    cases x with
    | nil =>
      -- the blank is one, and what follows is no token
      rw [written] at within
      rw [← (List.cons.inj within).2, List.append_assoc, List.append_assoc] at same
      have tails := (List.append_inj same (by rw [length]; rfl)).2
      cases blank with
      | nil => exact absurd atBlank.1 (Nat.not_succ_le_zero 0)
      | cons y blank =>
        have rest' : blank ++ b = '[' :: ("redacted]".toList ++ o') := (List.cons.inj tails).2
        cases blank with
        | nil =>
          rw [List.nil_append] at rest'
          rw [rest'] at stop
          have token : isBearerChar '[' = true := stop
          exact absurd token (by decide)
        | cons z blank =>
          have trimmed := atBlank.2.2 z (by simp)
          rw [(List.cons.inj rest').1] at trimmed
          exact absurd trimmed (by decide)
    | cons x₀ x =>
      have outside : ((BEARER_REDACTED.tail).all fun c => c.toLower != 'b') = true := by decide
      have mem : c ∈ BEARER_REDACTED.tail := by
        rw [within]
        exact List.mem_append_right x List.mem_cons_self
      have small : c.toLower = 'b' := eq_of_beq first
      have no := List.all_eq_true.1 outside c mem
      rw [small] at no
      exact absurd no (by decide)
  have capital : 'B' ∉ rest ++ blank := by
    intro mem
    rcases List.mem_append.1 mem with mem | mem
    · have letters' : (ignoringCase "earer").Takes none rest none := by
        rw [ignoringCase, Regex.takes_literal, List.forall₂_map_left_iff]
        exact more
      have small : (ignoringCase "earer").avoids ['B'] = true := by decide
      exact letters'.avoid small 'B' mem List.mem_cons_self
    · exact absurd (atBlank.2.2 'B' mem) (by decide)
  obtain ⟨a₀, s', rfl, unseen, tail, _⟩ := here.place_word (fun _ => bearer_redacted_start) inside
    capital
  refine bearer_marks.not_at unseen ⟨core, ?_⟩
  rcases tail.head (fun _ => bearer_redacted_start) with same | ⟨_, x, xs, more, _, rfl, found⟩
  · rw [← same]
    exact stop
  · rcases bearer_first (Regex.takes_of_pattern found).2 with rfl | rfl <;> rfl

end Redact

end Paayatam
