/-
  Paayatam.Logging.RedactSweep

  When a swept string is clean.

  The one thing that comes out of a sweep is a bot token in front of a link: the
  run of its symbols went on into the link, or was too long with it, and ends
  where the link is replaced.  Where nothing like it stands in the string, no
  expression matches the swept string, and sweeping it again changes nothing.
-/

import Paayatam.Logging.RedactStrings
import Paayatam.Privacy.SanitizerCollapse

namespace Paayatam

open Lib

namespace Redact

open Sanitizer (exactly ignoringCase isWord takes_exactly not_isWord_of_isTrimmed)

variable {s w : List Char} {prev next : Option Char}

/-- A run like a token stands right in front of a link, its front is that of a word
    or is bared by a phone number, and as it stands no token begins there. -/
def Exposed (s : List Char) : Prop :=
  ∃ a w l b d r, s = a ++ (w ++ (l ++ b)) ∧ Token w d r ∧ r.getLast?.any isWord = true ∧
    LINK.Takes none l none ∧
    (a.getLast?.any isWord = false ∨ ∃ a' phone, a = a' ++ phone ∧ PHONE.Takes none phone none) ∧
    ∀ u v, w ++ (l ++ b) = u ++ v → ¬TOKEN.Takes none u v.head?

/-- The same of a string in which phone numbers and tokens are swept. -/
def Bared (s : List Char) : Prop :=
  ∃ a w l b d r, s = a ++ (w ++ (l ++ b)) ∧ Token w d r ∧ r.getLast?.any isWord = true ∧
    LINK.Takes none l none ∧ a.getLast?.any isWord = false

/-! ## The sweep of links -/

theorem bared_of_link (clean : ¬TOKEN.Occurs s)
    (occurs : TOKEN.Occurs (sweep (LINK, REDACTED) s)) : Bared s := by
  obtain ⟨a, w, b, split, at_⟩ := occurs
  obtain ⟨d, r, token, front, back⟩ := takes_token.1 at_
  obtain ⟨c, t, rfl, digit⟩ := token.first
  have here := swept (LINK, REDACTED) s
  rw [split, List.append_assoc, List.cons_append] at here
  obtain ⟨a₀, b₀, rfl, _, tail, before⟩ := here.place_word (fun _ => redacted_start)
    (fun _ => outside (digit_outside (.inl rfl) digit))
    (fun mem => token_chars at_ '[' (List.mem_cons_of_mem c mem) (by decide))
  have front' : a₀.getLast?.any isWord = false := by
    rcases before with same | ⟨p, d', xs, _, a₁, _, found, rfl, _⟩
    · rw [← lastRead_none, same, lastRead_none]
      exact front
    · -- a link goes on as far as there are digits
      have stop := greedy_link.behind found c rfl
      rw [isLinkChar, isWord_of_digit digit] at stop
      cases stop
  rcases tail.head (fun _ => redacted_start) with same | ⟨masked, x, xs, s', _, rfl, found⟩
  · refine absurd ⟨a₀, c :: t, b₀, by simp, takes_token.2 ⟨d, r, token, front', ?_⟩⟩ clean
    rw [← same]
    exact back
  · refine ⟨a₀, c :: t, x :: xs, s', d, r, by simp, token, ?_,
      (Regex.takes_of_pattern found).2.anywhere rfl none none, front'⟩
    rw [masked] at back
    exact Bool.eq_true_of_not_eq_false back

/-! ## The sweep of bearer tokens -/

theorem bearer_letters {v : List Char} (h : (ignoringCase "Bearer").Takes prev v next) :
    v.length = 6 ∧ ∀ c ∈ v, isWord c = true := by
  refine ⟨(takes_ignoringCase h).1, h.all ?_⟩
  have letters : ∀ a ∈ "Bearer".toList, isWord a.toLower = true := by
    have all : ("Bearer".toList.all fun a => isWord a.toLower) = true := by decide
    exact fun a mem => List.all_eq_true.1 all a mem
  have each : ∀ chars : List Char, (∀ a ∈ chars, isWord a.toLower = true) →
      (Regex.literal (chars.map fun a c => c.toLower == a.toLower)).classes
        fun p => ∀ c, p c = true → isWord c = true := by
    intro chars
    induction chars with
    | nil => exact fun _ => trivial
    | cons a chars ih =>
      intro all
      have ⟨first, others⟩ := List.forall_mem_cons.1 all
      exact ⟨fun c same => isWord_of_toLower same first, ih others⟩
  exact each _ letters

/-- The part of a token that is of the replacement can be that of the match. -/
theorem Token.change {d r u v v' : List Char} (h : Token (u ++ v) d r)
    (letters : ∀ c ∈ v, c ≠ ':') (same : v'.length = v.length)
    (run : ∀ c ∈ v', isTokenChar c = true) :
    ∃ x, r = x ++ v ∧ Token (u ++ v') d (x ++ v') := by
  obtain ⟨split, few, most, digits, long, short, chars⟩ := h
  have split' : u ++ v = (d ++ [':']) ++ r := by
    rw [split, List.append_assoc]
    rfl
  rcases List.append_eq_append_iff.1 split' with ⟨x, before, after⟩ | ⟨x, rfl, rfl⟩
  · rcases List.eq_nil_or_concat x with rfl | ⟨front, e, rfl⟩
    · rw [List.append_nil] at before
      rw [List.nil_append] at after
      subst after
      refine ⟨[], rfl, ?_, few, most, digits, ?_, ?_, run⟩
      · rw [← before, List.append_assoc]
        rfl
      · rw [List.nil_append, same]
        exact long
      · rw [List.nil_append, same]
        exact short
    · -- the colon would be a letter
      have mem : ':' ∈ v := by
        have last := congrArg List.getLast? before
        rw [List.getLast?_append_of_ne_nil _ (List.cons_ne_nil ':' [])] at last
        rw [List.concat_eq_append, ← List.append_assoc, List.getLast?_concat] at last
        rw [after, List.concat_eq_append, ← Option.some_inj.1 last]
        simp
      exact absurd rfl (letters ':' mem)
  · refine ⟨x, rfl, by simp, few, most, digits, ?_, ?_, fun c mem => ?_⟩
    · rw [List.length_append, same, ← List.length_append]
      exact long
    · rw [List.length_append, same, ← List.length_append]
      exact short
    · rcases List.mem_append.1 mem with mem | mem
      · exact chars c (List.mem_append_left v mem)
      · exact run c mem

/-- What a word without a blank shares with the front of the replacement. -/
theorem bearer_word {v b o : List Char} (h : ' ' ∉ v) (same : v ++ b = BEARER_REDACTED ++ o) :
    v = "Bearer".toList ∨ ∃ y z, v ++ [y] <+: "Bearer".toList ∧ b = y :: z := by
  have written : BEARER_REDACTED = "Bearer".toList ++ (' ' :: REDACTED) := by decide
  rw [written, List.append_assoc] at same
  rcases List.append_eq_append_iff.1 same with ⟨y, word, behind⟩ | ⟨y, rfl, behind⟩
  · cases y with
    | nil => exact .inl (by rw [word, List.append_nil])
    | cons y z =>
      refine .inr ⟨y, z ++ (' ' :: REDACTED ++ o), ⟨z, ?_⟩, behind⟩
      rw [word, List.append_assoc]
      rfl
  · cases y with
    | nil => exact .inl (List.append_nil _)
    | cons y z =>
      refine absurd ?_ h
      rw [(List.cons.inj behind).1]
      exact List.mem_append_right _ List.mem_cons_self

theorem token_of_bearer (occurs : TOKEN.Occurs (sweep (BEARER, BEARER_REDACTED) s)) :
    TOKEN.Occurs s := by
  obtain ⟨a, w, b, split, at_⟩ := occurs
  obtain ⟨d, r, token, front, back⟩ := takes_token.1 at_
  obtain ⟨c, t, rfl, digit⟩ := token.first
  have here := swept (BEARER, BEARER_REDACTED) s
  have filled : ∀ _ : List Char, BEARER_REDACTED ≠ [] := fun _ => by decide
  obtain ⟨a₀, s', rfl, _, tail, before⟩ :=
    here.place (a := a) (o := t ++ b) (by rw [split]; simp) filled
      (fun _ => outside (digit_outside (.inr rfl) digit))
  have front' : a₀.getLast?.any isWord = false := by
    rcases before with same | ⟨p, d', xs, _, a₁, _, found, rfl, _⟩
    · rw [← lastRead_none, same, lastRead_none]
      exact front
    · have stop := greedy_bearer.behind found c rfl
      rw [isBearerChar, isWord_of_digit digit] at stop
      cases stop
  rcases tail.kept_or with ⟨s'', rfl, tail'⟩ | ⟨t₁, t₂, x, xs, rest, _, o', rfl, filled₂, rfl,
    found, same⟩
  · refine ⟨a₀, c :: t, s'', by simp, takes_token.2 ⟨d, r, token, front', ?_⟩⟩
    rcases tail'.head (fun _ => bearer_redacted_start) with
      same | ⟨masked, x, xs, rest, _, rfl, found⟩
    · rw [← same]
      exact back
    · have word : isWord x = true := by
        rcases bearer_first (Regex.takes_of_pattern found).2 with rfl | rfl <;> rfl
      rw [masked] at back
      rw [List.head?_cons, Option.any_some, word]
      exact back
  · -- the token goes on into the word that is written again
    obtain ⟨v, more, match_, atFront, blank, token', rfl, atBlank, _⟩ :=
      (Regex.takes_of_pattern found).2
    obtain ⟨size, letters⟩ := bearer_letters atFront
    have last : r.getLast? = t₂.getLast? := by
      rw [← token.last none, lastRead_cons, lastRead_append, lastRead_of_ne_nil filled₂ _ none,
        lastRead_none]
    obtain ⟨e, mem, ends⟩ := lastRead_mem filled₂ none
    rw [lastRead_none] at ends
    have word := bearer_word (fun mem => token_chars at_ ' '
      (List.mem_cons_of_mem c (List.mem_append_right t₁ mem)) (by decide)) same
    rcases word with rfl | ⟨y, z, within, behind⟩
    · have colon : ∀ c ∈ "Bearer".toList, c ≠ ':' := by
        have all : ("Bearer".toList.all fun c => c != ':') = true := by decide
        exact fun c mem => by simpa using List.all_eq_true.1 all c mem
      obtain ⟨x', rfl, changed⟩ := Token.change (u := c :: t₁) token colon size fun c mem => by
        rw [isTokenChar, letters c mem, Bool.true_or]
      have filled' : v ≠ [] := List.ne_nil_of_length_pos (by rw [size]; decide)
      obtain ⟨e', mem', ends'⟩ := lastRead_mem filled' none
      refine ⟨a₀, c :: t₁ ++ v, blank ++ token' ++ rest, ?_,
        takes_token.2 ⟨d, x' ++ v, changed, front', ?_⟩⟩
      · have whole : x :: (xs ++ rest) = v ++ (blank ++ token') ++ rest := by
          rw [← match_]
          rfl
        rw [whole]
        simp
      · rw [List.getLast?_append_of_ne_nil _ filled', ← lastRead_none, ends', Option.any_some,
          letters e' mem']
        cases blank with
        | nil => exact absurd atBlank.1 (Nat.not_succ_le_zero 0)
        | cons y blank =>
          show true ≠ isWord y
          rw [not_isWord_of_isTrimmed (atBlank.2.2 y List.mem_cons_self)]
          exact Bool.false_ne_true.symm
    · have all : ("Bearer".toList.all isWord) = true := by decide
      have inWord : ∀ e ∈ t₂ ++ [y], isWord e = true := fun e mem =>
        List.all_eq_true.1 all e (within.subset mem)
      rw [last, ends, behind, Option.any_some, inWord e (List.mem_append_left _ mem)] at back
      rw [List.head?_cons, Option.any_some, inWord y (by simp)] at back
      exact absurd rfl back

/-! ## The whole sweep -/

theorem redactString_eq (s : List Char) : redactString s =
    sweep (BEARER, BEARER_REDACTED) (sweep (LINK, REDACTED)
      (sweep (TOKEN, REDACTED) (sweep (PHONE, REDACTED) s))) := rfl

/-- What a sweep to `REDACTED` leaves whole, and what was behind and before it. -/
theorem place_redacted {r : Regex Char} {a v b : List Char} {c : Char}
    (split : sweep (r, REDACTED) s = a ++ c :: (v ++ b)) (digit : c.isDigit = true)
    (square : '[' ∉ v) : ∃ a₀ b₀, s = a₀ ++ c :: (v ++ b₀) ∧
      r.pattern (lastRead none a₀) c (v ++ b₀) = none ∧ (a₀.getLast? = a.getLast? ∨
        ∃ p d xs piece a₁, r.pattern p d (xs ++ c :: (v ++ b₀)) = some (piece, xs.length) ∧
          a₀ = a₁ ++ d :: xs) := by
  have here := swept (r, REDACTED) s
  rw [split] at here
  obtain ⟨a₀, b₀, rfl, unseen, _, before⟩ := here.place_word (fun _ => redacted_start)
    (fun _ => outside (digit_outside (.inl rfl) digit)) square
  refine ⟨a₀, b₀, rfl, unseen, ?_⟩
  rcases before with same | ⟨p, d, xs, piece, a₁, _, found, same, _⟩
  · rw [lastRead_none, lastRead_none] at same
    exact .inl same
  · exact .inr ⟨p, d, xs, piece, a₁, found, same⟩

theorem slash_of_link (h : LINK.Takes prev w next) : '/' ∈ w := by
  obtain ⟨scheme, _, rfl, _, host, name, rfl, atHost, _⟩ := h
  obtain ⟨_, letters⟩ := takes_ignoringCase atHost
  have chars : "t.me/".toList = ['t', '.', 'm', 'e', '/'] := by decide
  rw [chars] at letters
  obtain ⟨_, _, _, more₁, rfl⟩ := List.forall₂_cons_left_iff.1 letters
  obtain ⟨_, _, _, more₂, rfl⟩ := List.forall₂_cons_left_iff.1 more₁
  obtain ⟨_, _, _, more₃, rfl⟩ := List.forall₂_cons_left_iff.1 more₂
  obtain ⟨_, _, _, more₄, rfl⟩ := List.forall₂_cons_left_iff.1 more₃
  obtain ⟨c, _, same, _, rfl⟩ := List.forall₂_cons_left_iff.1 more₄
  rw [eq_of_toLower (eq_of_beq same) (by decide)]
  simp

/-- A token that begins where a run stands in front of a link ends in the link at
    the latest, whatever comes behind. -/
theorem token_before_slash {x y u v : List Char} (at_ : TOKEN.Takes none u v.head?)
    (whole : x ++ '/' :: y = u ++ v) : ∃ z, x = u ++ z ∧ v = z ++ '/' :: y := by
  rcases List.append_eq_append_iff.1 whole with ⟨z, rfl, behind⟩ | ⟨z, same, behind⟩
  · cases z with
    | nil => exact ⟨[], by simp, by simpa using behind.symm⟩
    | cons e z =>
      have mem : '/' ∈ x ++ e :: z := by
        rw [(List.cons.inj behind).1]
        exact List.mem_append_right x List.mem_cons_self
      exact absurd (by decide) (token_chars at_ '/' mem)
  · exact ⟨z, same, behind⟩

theorem exposed_of_bared
    (h : Bared (sweep (TOKEN, REDACTED) (sweep (PHONE, REDACTED) s))) : Exposed s := by
  obtain ⟨a, w, l, b, d, r, split, token, last, link, front⟩ := h
  obtain ⟨c, t, rfl, digit⟩ := token.first
  have square : '[' ∉ t ++ l := by
    intro mem
    rcases List.mem_append.1 mem with mem | mem
    · have body : TOKEN_BODY.Takes none (c :: t) none := takes_body.2 ⟨d, r, token⟩
      exact body.avoid (show TOKEN_BODY.avoids ['['] = true by decide) '['
        (List.mem_cons_of_mem c mem) List.mem_cons_self
    · exact link.avoid (show LINK.avoids ['['] = true by decide) '[' mem List.mem_cons_self
  rw [List.cons_append, ← List.append_assoc] at split
  obtain ⟨a₁, b₁, split₁, unseen, before⟩ := place_redacted split digit square
  obtain ⟨a₂, b₂, rfl, _, before'⟩ := place_redacted split₁ digit square
  have front₁ : a₁.getLast?.any isWord = false := by
    rcases before with same | ⟨p, d', xs, _, a₃, found, rfl⟩
    · rw [same]
      exact front
    · rw [← lastRead_none]
      exact token_behind found (isWord_of_digit digit)
  refine ⟨a₂, c :: t, l, b₂, d, r, by simp, token, last, link, ?_, fun u v whole at_ => ?_⟩
  · rcases before' with same | ⟨p, d', xs, _, a₃, found, rfl⟩
    · rw [same]
      exact .inl front₁
    · exact .inr ⟨a₃, d' :: xs, rfl, (Regex.takes_of_pattern found).2.anywhere rfl none none⟩
  · -- a token ends in front of the slash, and would have been swept
    obtain ⟨l₁, l₂, rfl⟩ := List.append_of_mem (slash_of_link link)
    have whole' : (c :: t ++ l₁) ++ '/' :: (l₂ ++ b₂) = u ++ v := by
      rw [← whole]
      simp
    obtain ⟨z, front₂, rfl⟩ := token_before_slash at_ whole'
    cases u with
    | nil => exact absurd at_.shortest_le (by decide)
    | cons e u =>
      obtain ⟨rfl, tails⟩ := List.cons.inj front₂
      have rest : t ++ l₁ = u ++ z := tails
      have text : t ++ (l₁ ++ '/' :: l₂) ++ b₁ = u ++ (z ++ '/' :: (l₂ ++ b₁)) := by
        rw [← List.append_assoc t l₁, rest]
        simp
      rw [text] at unseen
      obtain ⟨d', r', token', _, back⟩ := takes_token.1 at_
      refine Regex.not_takes_of_pattern (by decide) unseen (takes_token.2 ⟨d', r', token', ?_, ?_⟩)
      · rw [lastRead_none]
        exact front₁
      · rw [List.head?_append, List.head?_cons] at back ⊢
        exact back

/-- Swept, a string in which no token is exposed matches no expression. -/
theorem sweep_clean (h : ¬Exposed s) : ∀ p ∈ PATTERNS, ¬p.1.Occurs (redactString s) := by
  have phone := phone_swept s
  have phone₂ : ¬PHONE.Occurs (sweep (TOKEN, REDACTED) (sweep (PHONE, REDACTED) s)) := fun occurs =>
    phone (phone_of_sweep (.inl rfl) occurs).1
  have phone₃ : ¬PHONE.Occurs (sweep (LINK, REDACTED) (sweep (TOKEN, REDACTED)
      (sweep (PHONE, REDACTED) s))) := fun occurs =>
    phone₂ (phone_of_sweep (.inl rfl) occurs).1
  intro p mem
  simp only [PATTERNS, List.mem_cons, List.not_mem_nil, or_false] at mem
  rw [redactString_eq]
  rcases mem with rfl | rfl | rfl | rfl
  · exact fun occurs => phone₃ (phone_of_sweep (.inr rfl) occurs).1
  · exact fun occurs => h (exposed_of_bared (bared_of_link (token_swept _)
      (token_of_bearer occurs)))
  · exact fun occurs => link_swept _ (link_of_bearer ((link_marks.occurs_iff _).1 occurs))
  · exact fun occurs => bearer_swept _ ((bearer_marks.occurs_iff _).1 occurs)

/-- And a string that matches none is not changed. -/
theorem redactString_of_clean (h : ∀ p ∈ PATTERNS, ¬p.1.Occurs s) : redactString s = s := by
  have same : ∀ p ∈ PATTERNS, sweep p s = s := fun p mem =>
    replaceAll_of_unmatched (Regex.pieces_of_not_occurs (h p mem)) _
  have fold : ∀ ps : List (Regex Char × List Char), (∀ p ∈ ps, sweep p s = s) →
      ps.foldl (fun out p => sweep p out) s = s := by
    intro ps
    induction ps with
    | nil => exact fun _ => rfl
    | cons p ps ih =>
      intro all
      have ⟨first, others⟩ := List.forall_mem_cons.1 all
      rw [List.foldl_cons, first]
      exact ih others
  exact fold PATTERNS same

end Redact

end Paayatam
