/-
  Paayatam.Telegram.Emphasis

  What the two emphasis patterns make of a line.

  A line is written as marks: its characters, and tags where a pair of markers
  was.  To a pattern a tag is a character that is no asterisk, blank or letter, so
  the pairs a pattern finds are those it finds among the faces of the marks
  (`pieces_shown`), whatever the marks are written as.  The tags cross exactly
  where an italic was wrapped around one end of a bold.
-/

import Paayatam.Lib.Nesting
import Paayatam.Telegram.LightMarkdown
import Mathlib.Data.Bool.AllAny

namespace Paayatam

open Lib

namespace Markdown

inductive Emphasis where
  | b | i
  deriving DecidableEq

abbrev Tag := Lib.Bracket Emphasis

/-- A character of the text, or a tag. -/
inductive Mark where
  | char (c : Char)
  | tag (t : Tag)
  deriving DecidableEq

def Tag.html : Tag → List Char
  | .opens .b => "<b>".toList
  | .shuts .b => "</b>".toList
  | .opens .i => "<i>".toList
  | .shuts .i => "</i>".toList

/-- A mark in Telegram's HTML. -/
def Mark.html : Mark → List Char
  | .char c => escapeChar c
  | .tag t => Tag.html t

/-- What a pattern sees of a mark. -/
def Mark.face : Mark → Char
  | .char c => c
  | .tag _ => '>'

/-- A mark of a text without tags. -/
def Mark.bare : Mark → List Char
  | .char c => [c]
  | .tag _ => []

/-- The marker a tag stands for. -/
def stars : Emphasis → List Char
  | .b => ['*', '*']
  | .i => ['*']

/-- A mark in Markdown. -/
def Mark.source : Mark → List Char
  | .char c => [c]
  | .tag (.opens a) => stars a
  | .tag (.shuts a) => stars a

def Mark.tag? : Mark → Option Tag
  | .char _ => none
  | .tag t => some t

def tagsOf (ms : List Mark) : List Tag := ms.filterMap Mark.tag?

/-- The text without its markers. -/
def textOf (ms : List Mark) : List Char := ms.flatMap Mark.bare

def fence (a : Emphasis) : List Mark := (stars a).map .char

def patternOf : Emphasis → Pattern Char (List Char)
  | .b => BOLD
  | .i => ITALIC

/-- The pairs of markers among marks, with what stands between them. -/
def pairs (a : Emphasis) : Pattern Mark (List Mark) := fun prev c rest =>
  (patternOf a (prev.map Mark.face) c.face (rest.map Mark.face)).map fun found =>
    ((rest.drop ((stars a).length - 1)).take found.1.length, found.2)

/-- What is put for a pair. -/
def tagged (a : Emphasis) (group : List Mark) : List Mark :=
  .tag (.opens a) :: group ++ [.tag (.shuts a)]

/-- The marks with tags for the pairs. -/
def mark (a : Emphasis) (ms : List Mark) : List Mark := replaceAll (pairs a) (tagged a) ms

/-! ## The shape of a match -/

section Shape

variable {a : Emphasis} {prev : Option Char} {c : Char} {rest group : List Char} {n : Nat}

theorem shortest_shape {closed : Char → List Char → Bool} (h : shortest closed rest = some group) :
    ∃ last after, rest = group ++ after ∧ closed last after = true := by
  induction rest generalizing group with
  | nil => cases h
  | cons c rest ih =>
      unfold shortest at h
      split at h
      · cases h
      · split at h
        · next hclosed =>
            obtain rfl := Option.some.inj h
            exact ⟨c, rest, rfl, hclosed⟩
        · obtain ⟨tail, htail, rfl⟩ := Option.map_eq_some_iff.1 h
          obtain ⟨last, after, hsplit, hclosed⟩ := ih htail
          refine ⟨last, after, ?_, hclosed⟩
          rw [List.cons_append, ← hsplit]

/-- A match is a group between its markers. -/
theorem patternOf_shape (h : patternOf a prev c rest = some (group, n)) :
    ∃ after, c :: rest = stars a ++ group ++ stars a ++ after ∧
      n + 1 = (stars a ++ group ++ stars a).length := by
  cases a with
  | b =>
      have hbold : BOLD prev c rest = some (group, n) := h
      unfold BOLD at hbold
      split at hbold
      · next behind =>
          obtain ⟨found, hfound, hgroup⟩ := Option.map_eq_some_iff.1 hbold
          obtain ⟨rfl, rfl⟩ := Prod.mk.inj hgroup
          obtain ⟨last, after, hsplit, hclosed⟩ := shortest_shape hfound
          obtain ⟨more, rfl⟩ := List.isPrefixOf_iff_prefix.1 hclosed
          refine ⟨more, ?_, ?_⟩
          · rw [hsplit]
            simp [stars]
          · simp [stars]
      · cases hbold
  | i =>
      have hitalic : ITALIC prev c rest = some (group, n) := h
      unfold ITALIC at hitalic
      split at hitalic
      · next hopen =>
          obtain ⟨found, hfound, hgroup⟩ := Option.map_eq_some_iff.1 hitalic
          obtain ⟨rfl, rfl⟩ := Prod.mk.inj hgroup
          obtain ⟨last, after, hsplit, hclosed⟩ := shortest_shape hfound
          unfold closesItalic at hclosed
          split at hclosed
          · next after =>
              refine ⟨after, ?_, ?_⟩
              · rw [hsplit, hopen.1]
                simp [stars]
              · simp [stars]
          · cases hclosed
      · cases hitalic

theorem patternOf_star (h : c ≠ '*') : patternOf a prev c rest = none := by
  cases hm : patternOf a prev c rest with
  | none => rfl
  | some found =>
      obtain ⟨group, n⟩ := found
      obtain ⟨after, hshape, -⟩ := patternOf_shape hm
      refine absurd ?_ h
      cases a with
      | b => exact (List.cons.inj hshape).1
      | i => exact (List.cons.inj hshape).1

end Shape

theorem face_star {m : Mark} (h : m.face = '*') : m = .char '*' := by
  cases m with
  | char c => exact congrArg Mark.char h
  | tag t =>
      have hnot : ('>' : Char) ≠ '*' := by decide
      exact absurd h hnot

theorem faces_stars {a : Emphasis} {ms : List Mark} (h : ms.map Mark.face = stars a) :
    ms = fence a := by
  have hall : ∀ (cs : List Char), (∀ c ∈ cs, c = '*') → ∀ ms : List Mark, ms.map Mark.face = cs →
      ms = cs.map .char := by
    intro cs
    induction cs with
    | nil =>
        intro _ ms hms
        exact List.map_eq_nil_iff.1 hms
    | cons c cs ih =>
        intro hcs ms hms
        obtain ⟨m, rest, rfl, hm, hrest⟩ := List.map_eq_cons_iff.1 hms
        have hc : c = '*' := hcs c List.mem_cons_self
        rw [ih (fun x hx => hcs x (List.mem_cons_of_mem c hx)) rest hrest,
          face_star (hm.trans hc), hc]
        rfl
  refine hall (stars a) ?_ ms h
  cases a <;> simp [stars]

/-- A pair is a group between its markers. -/
theorem pairs_shape {a : Emphasis} {prev : Option Mark} {c : Mark} {rest group : List Mark}
    {n : Nat} (h : pairs a prev c rest = some (group, n)) :
    ∃ after, c :: rest = fence a ++ group ++ fence a ++ after ∧
      n + 1 = (fence a ++ group ++ fence a).length := by
  obtain ⟨⟨g, k⟩, hfound, hgroup⟩ := Option.map_eq_some_iff.1 h
  obtain ⟨hg, rfl⟩ := Prod.mk.inj hgroup
  obtain ⟨after, hshape, hlen⟩ := patternOf_shape hfound
  have hfaces : (c :: rest).map Mark.face = stars a ++ g ++ stars a ++ after := hshape
  obtain ⟨front, last, hsplit, hfront, hlast⟩ := List.map_eq_append_iff.1 hfaces
  obtain ⟨front', shut, rfl, hfront', hshut⟩ := List.map_eq_append_iff.1 hfront
  obtain ⟨opn, inner, rfl, hopen, hinner⟩ := List.map_eq_append_iff.1 hfront'
  obtain rfl := faces_stars hopen
  obtain rfl := faces_stars hshut
  have hwidth : inner.length = g.length := by rw [← hinner, List.length_map]
  have hinnerGroup : inner = group := by
    rw [← hg, ← hwidth]
    have hrest : rest = (fence a).tail ++ inner ++ fence a ++ last := by
      have htail := congrArg List.tail hsplit
      cases a <;> exact htail
    rw [hrest]
    cases a <;> simp [fence, stars]
  subst hinnerGroup
  refine ⟨last, hsplit, ?_⟩
  rw [hlen]
  simp [fence, hwidth]

theorem pairs_within (a : Emphasis) : (pairs a).Within := by
  intro prev c rest group n h
  obtain ⟨after, hshape, hlen⟩ := pairs_shape h
  have hall := congrArg List.length hshape
  rw [List.length_append, ← hlen, List.length_cons] at hall
  omega

theorem pairs_covers {a : Emphasis} {prev : Option Mark} {c : Mark} {xs rest group : List Mark}
    (h : pairs a prev c (xs ++ rest) = some (group, xs.length)) :
    fence a ++ group ++ fence a = c :: xs := by
  obtain ⟨after, hshape, hlen⟩ := pairs_shape h
  have hsplit : (c :: xs) ++ rest = (fence a ++ group ++ fence a) ++ after := hshape
  exact (List.append_inj hsplit hlen).1.symm

/-- The pairs, written as they were, make up the marks again. -/
theorem pairs_source (a : Emphasis) (ms : List Mark) :
    (pieces (pairs a) none 0 ms).flatMap
      (replacement (fun group => fence a ++ group ++ fence a) fun m => [m]) = ms :=
  pieces_source (pairs_within a) (fun _ _ _ _ _ h => pairs_covers h) none ms

/-! ## What a mark is written as -/

/-- A character the patterns pass over and do not look around for. -/
def Quiet (c : Char) : Prop :=
  isLineEnd c = false ∧ isTrimmed c = false ∧ isStarOrWord c = false

theorem Quiet.ne_star {c : Char} (h : Quiet c) : c ≠ '*' := by
  rintro rfl
  exact absurd h.2.2 (by decide)

/-- A way to write a mark that a pattern takes for its face. -/
inductive Shows (c : Char) : List Char → Prop where
  | same : Shows c [c]
  | wide {first last : Char} {mid : List Char} (hface : Quiet c) (hfirst : Quiet first)
      (hlast : Quiet last) (hmid : ∀ x ∈ mid, x ≠ '*' ∧ isLineEnd x = false) :
      Shows c (first :: mid ++ [last])

theorem shows_html (m : Mark) : Shows m.face m.html := by
  have hangle : (Quiet '<' ∧ Quiet '>') ∧ Quiet '&' ∧ Quiet ';' := by
    unfold Quiet
    decide
  obtain ⟨⟨hlt, hgt⟩, hamp, hsemi⟩ := hangle
  have hentity : ∀ c mid, Quiet c →
      (mid.all fun x => decide (x ≠ '*' ∧ isLineEnd x = false)) = true →
      Shows c ('&' :: mid ++ [';']) :=
    fun c mid hc hmid => .wide hc hamp hsemi (List.all_iff_forall_prop.1 hmid)
  have htag : ∀ mid, (mid.all fun x => decide (x ≠ '*' ∧ isLineEnd x = false)) = true →
      Shows '>' ('<' :: mid ++ ['>']) :=
    fun mid hmid => .wide hgt hlt hgt (List.all_iff_forall_prop.1 hmid)
  cases m with
  | char c =>
      show Shows c (escapeChar c)
      unfold escapeChar
      split
      · exact hentity '&' ['a', 'm', 'p'] hamp (by decide)
      · exact hentity '<' ['l', 't'] hlt (by decide)
      · exact hentity '>' ['g', 't'] hgt (by decide)
      · exact .same
  | tag t =>
      cases t with
      | opens a =>
          cases a with
          | b => exact htag ['b'] (by decide)
          | i => exact htag ['i'] (by decide)
      | shuts a =>
          cases a with
          | b => exact htag ['/', 'b'] (by decide)
          | i => exact htag ['/', 'i'] (by decide)

section Shown

variable {r : Mark → List Char} {closed : Char → List Char → Bool}

/-- A test that no quiet character passes sees the face in front. -/
theorem head_shown {p : Char → Bool} (hp : ∀ c, Quiet c → p c = false)
    (hr : ∀ m : Mark, Shows m.face (r m)) (ms : List Mark) :
    (ms.flatMap r).head?.any p = (ms.map Mark.face).head?.any p := by
  cases ms with
  | nil => rfl
  | cons m ms =>
      rw [List.flatMap_cons, List.map_cons]
      have hm := hr m
      generalize r m = shown at hm
      cases hm with
      | same => rfl
      | wide hface hfirst =>
          show p _ = p _
          rw [hp _ hface, hp _ hfirst]

theorem last_shown {prev : Option Char} {m : Mark} (hm : Shows m.face (r m)) :
    (lastRead prev (r m)).any isStarOrWord = isStarOrWord m.face := by
  generalize r m = shown at hm
  cases hm with
  | same => rfl
  | wide hface _ hlast =>
      rw [lastRead_append, lastRead_cons, lastRead_nil, Option.any_some, hface.2.2, hlast.2.2]

theorem lastRead_shown (hr : ∀ m : Mark, Shows m.face (r m)) (ms : List Mark)
    {prev : Option Char} {prev' : Option Mark}
    (hprev : prev.any isStarOrWord = (prev'.map Mark.face).any isStarOrWord) :
    (lastRead prev (ms.flatMap r)).any isStarOrWord =
      ((lastRead prev' ms).map Mark.face).any isStarOrWord := by
  induction ms generalizing prev prev' with
  | nil => exact hprev
  | cons m ms ih =>
      rw [List.flatMap_cons, lastRead_append, lastRead_cons]
      exact ih (last_shown (hr m))

/-- An asterisk in front is seen as one. -/
theorem star_shown (hr : ∀ m : Mark, Shows m.face (r m)) (ms : List Mark) :
    (∃ rest, ms = .char '*' :: rest ∧ ms.flatMap r = '*' :: rest.flatMap r) ∨
      ((ms.flatMap r).head? ≠ some '*' ∧ (ms.map Mark.face).head? ≠ some '*') := by
  cases ms with
  | nil => exact .inr ⟨by simp, by simp⟩
  | cons m ms =>
      have hm := hr m
      generalize hshown : r m = shown at hm
      cases hm with
      | same =>
          by_cases hstar : m.face = '*'
          · refine .inl ⟨ms, by rw [face_star hstar], ?_⟩
            rw [List.flatMap_cons, hshown, hstar]
            rfl
          · refine .inr ⟨?_, ?_⟩
            · rw [List.flatMap_cons, hshown]
              simpa using hstar
            · simpa using hstar
      | wide hface hfirst =>
          refine .inr ⟨?_, ?_⟩
          · rw [List.flatMap_cons, hshown]
            simpa using hfirst.ne_star
          · simpa using hface.ne_star

/-- What ends a group: it looks at no more than the last character of the group, and only
    where an asterisk follows. -/
structure Closer (r : Mark → List Char) (closed : Char → List Char → Bool) : Prop where
  shown : ∀ (c c' : Char) (rest : List Mark), isTrimmed c = isTrimmed c' →
    closed c (rest.flatMap r) = closed c' (rest.map Mark.face)
  star : ∀ (c : Char) (rest : List Char), rest.head? ≠ some '*' → closed c rest = false

theorem closesItalic_closer (hr : ∀ m : Mark, Shows m.face (r m)) : Closer r closesItalic := by
  have hstar : ∀ c rest, rest.head? ≠ some '*' → closesItalic c rest = false := by
    intro c rest h
    unfold closesItalic
    split
    · exact absurd rfl h
    · rfl
  refine ⟨?_, hstar⟩
  intro c c' rest hc
  rcases star_shown hr rest with ⟨after, rfl, hshown⟩ | ⟨hshown, hfaces⟩
  · have hhead := head_shown (p := isStarOrWord) (fun c hc => hc.2.2) hr after
    rw [hshown, List.map_cons]
    show (!isTrimmed c && !_) = (!isTrimmed c' && !_)
    rw [hc, hhead]
  · rw [hstar c _ hshown, hstar c' _ hfaces]

theorem closesBold_star (c : Char) (rest : List Char) :
    closesBold c ('*' :: rest) = decide (rest.head? = some '*') := by
  cases rest with
  | nil => rfl
  | cons x rest =>
      by_cases hx : x = '*'
      · simp [closesBold, List.isPrefixOf, hx]
      · have hx' : ¬ '*' = x := fun h => hx h.symm
        simp [closesBold, List.isPrefixOf, hx, hx']

theorem closesBold_closer (hr : ∀ m : Mark, Shows m.face (r m)) : Closer r closesBold := by
  have hstar : ∀ (c : Char) (rest : List Char), rest.head? ≠ some '*' →
      closesBold c rest = false := by
    intro c rest h
    cases rest with
    | nil => rfl
    | cons x rest =>
        have hx : ¬ '*' = x := by
          rintro rfl
          exact h rfl
        simp [closesBold, List.isPrefixOf, hx]
  refine ⟨?_, hstar⟩
  intro c c' rest hc
  rcases star_shown hr rest with ⟨after, rfl, hshown⟩ | ⟨hshown, hfaces⟩
  · have hface : (Mark.char '*' :: after).map Mark.face = '*' :: after.map Mark.face := rfl
    rw [hshown, hface, closesBold_star, closesBold_star]
    rcases star_shown hr after with ⟨more, rfl, hmore⟩ | ⟨hmore, hfaces⟩
    · rw [hmore]
      rfl
    · simp only [hmore, hfaces]
  · rw [hstar c _ hshown, hstar c' _ hfaces]

/-- A group goes on over what is neither an asterisk nor a line's end. -/
theorem shortest_over (hstar : ∀ c rest, rest.head? ≠ some '*' → closed c rest = false)
    {xs : List Char} {x : Char} {rest : List Char}
    (hxs : ∀ y ∈ xs, y ≠ '*' ∧ isLineEnd y = false) (hx : x ≠ '*') :
    shortest closed (xs ++ x :: rest) = (shortest closed (x :: rest)).map (xs ++ ·) := by
  induction xs with
  | nil => simp
  | cons y xs ih =>
      obtain ⟨hy, hrest⟩ := List.forall_mem_cons.1 hxs
      have hhead : (xs ++ x :: rest).head? ≠ some '*' := by
        cases xs with
        | nil => simpa using hx
        | cons z xs => simpa using (hrest z List.mem_cons_self).1
      rw [List.cons_append, shortest, hy.2, hstar y _ hhead, ih hrest, Option.map_map]
      rfl

/-- The shortest group is the same whatever the marks are written as. -/
theorem shortest_shown (hr : ∀ m : Mark, Shows m.face (r m)) (hclosed : Closer r closed)
    (ms : List Mark) : shortest closed (ms.flatMap r) =
      (shortest closed (ms.map Mark.face)).map fun group =>
        (ms.take group.length).flatMap r := by
  induction ms with
  | nil => rfl
  | cons m ms ih =>
      have hm := hr m
      generalize hshown : r m = shown at hm
      -- behind the mark the group goes on as it does behind its face
      have hbehind : ∀ last : Char, isLineEnd last = isLineEnd m.face →
          isTrimmed last = isTrimmed m.face → shortest closed (last :: ms.flatMap r) =
            (shortest closed (m.face :: ms.map Mark.face)).map fun group =>
              last :: (ms.take (group.length - 1)).flatMap r := by
        intro last hend htrim
        rw [shortest, shortest, hend, hclosed.shown last m.face ms htrim, ih]
        split
        · rfl
        · split
          · simp
          · rw [Option.map_map, Option.map_map]
            rfl
      have hgroups : ∀ group ∈ shortest closed (m.face :: ms.map Mark.face), 0 < group.length := by
        intro group hgroup
        unfold shortest at hgroup
        split at hgroup
        · cases hgroup
        · split at hgroup
          · obtain rfl := Option.some.inj hgroup
            simp
          · obtain ⟨tail, -, rfl⟩ := Option.map_eq_some_iff.1 hgroup
            simp
      have htake : ∀ n, 0 < n →
          ((m :: ms).take n).flatMap r = shown ++ (ms.take (n - 1)).flatMap r := by
        intro n hn
        obtain ⟨k, rfl⟩ : ∃ k, n = k + 1 := ⟨n - 1, by omega⟩
        rw [List.take_succ_cons, List.flatMap_cons, hshown]
        rfl
      rw [List.flatMap_cons, hshown, List.map_cons]
      have hpart : ∀ f : List Char → List Char, (∀ group, 0 < group.length →
          f group = shown ++ (ms.take (group.length - 1)).flatMap r) →
          (shortest closed (m.face :: ms.map Mark.face)).map f =
            (shortest closed (m.face :: ms.map Mark.face)).map fun group =>
              ((m :: ms).take group.length).flatMap r := by
        intro f hf
        refine Option.map_congr fun group hgroup => ?_
        rw [hf group (hgroups group hgroup), htake group.length (hgroups group hgroup)]
      cases hm with
      | same =>
          rw [List.singleton_append, hbehind m.face rfl rfl]
          exact hpart _ fun group _ => rfl
      | @wide first last mid hface hfirst hlast hmid =>
          have hover : shortest closed ((first :: mid) ++ last :: ms.flatMap r) = _ :=
            shortest_over hclosed.star
              (List.forall_mem_cons.2 ⟨⟨hfirst.ne_star, hfirst.1⟩, hmid⟩) hlast.ne_star
          rw [List.append_assoc, List.singleton_append, hover,
            hbehind last (hlast.1.trans hface.1.symm) (hlast.2.1.trans hface.2.1.symm),
            Option.map_map]
          refine hpart _ fun group _ => ?_
          simp

theorem BOLD_star (prev : Option Char) (behind : List Char) : BOLD prev '*' ('*' :: behind) =
    (shortest closesBold behind).map fun group => (group, group.length + 3) := rfl

theorem BOLD_single {prev : Option Char} {rest : List Char} (h : rest.head? ≠ some '*') :
    BOLD prev '*' rest = none := by
  unfold BOLD
  split
  · exact absurd rfl h
  · rfl

theorem star_written (hr : ∀ m : Mark, Shows m.face (r m)) : r (.char '*') = ['*'] := by
  have hm := hr (.char '*')
  generalize r (.char '*') = shown at hm
  cases hm with
  | same => rfl
  | wide hface => exact absurd rfl hface.ne_star

theorem starless (hr : ∀ m : Mark, Shows m.face (r m)) {m : Mark} (h : m ≠ .char '*') :
    ∀ c ∈ r m, c ≠ '*' := by
  have hface : m.face ≠ '*' := fun hstar => h (face_star hstar)
  have hm := hr m
  generalize r m = shown at hm
  intro c hc
  cases hm with
  | same =>
      rw [List.mem_singleton.1 hc]
      exact hface
  | wide _ hfirst hlast hmid =>
      rcases List.mem_append.1 hc with hfront | hend
      · rcases List.mem_cons.1 hfront with rfl | hin
        · exact hfirst.ne_star
        · exact (hmid c hin).1
      · rw [List.mem_singleton.1 hend]
        exact hlast.ne_star

/-- How far a pair reaches, as it is written. -/
theorem pairs_reach (hr : ∀ m : Mark, Shows m.face (r m)) {a : Emphasis} {prev : Option Mark}
    {ms group : List Mark} {n : Nat} (h : pairs a prev (.char '*') ms = some (group, n)) :
    ((ms.take n).flatMap r).length + 1 =
      (stars a).length + (group.flatMap r).length + (stars a).length := by
  have hstar : r (.char '*') = ['*'] := star_written hr
  have hfence : (fence a).flatMap r = stars a := by
    cases a with
    | b =>
        show r _ ++ (r _ ++ []) = _
        rw [hstar]
        rfl
    | i =>
        show r _ ++ [] = _
        rw [hstar]
        rfl
  obtain ⟨after, hshape, hlen⟩ := pairs_shape h
  have htake : .char '*' :: ms.take n = fence a ++ group ++ fence a := by
    rw [← List.take_succ_cons, hshape, hlen, List.take_left]
  have hreach := congrArg (fun ms => (ms.flatMap r).length) htake
  rw [List.flatMap_cons, List.flatMap_append, List.flatMap_append, hfence, hstar] at hreach
  simpa [Nat.add_comm, Nat.add_assoc] using hreach

/-- A pattern finds among what the marks are written as the pairs it finds among the marks. -/
theorem patternOf_shown (hr : ∀ m : Mark, Shows m.face (r m)) {a : Emphasis} {prev : Option Char}
    {prev' : Option Mark} (hprev : prev.any isStarOrWord = (prev'.map Mark.face).any isStarOrWord)
    (ms : List Mark) : patternOf a prev '*' (ms.flatMap r) =
      (pairs a prev' (.char '*') ms).map fun found =>
        (found.1.flatMap r, ((ms.take found.2).flatMap r).length) := by
  have hsame : patternOf a prev '*' (ms.flatMap r) =
      (pairs a prev' (.char '*') ms).map fun found =>
        (found.1.flatMap r, (found.1.flatMap r).length + 2 * (stars a).length - 1) := by
    cases a with
    | b =>
        show BOLD prev '*' (ms.flatMap r) =
          ((BOLD (prev'.map Mark.face) '*' (ms.map Mark.face)).map _).map _
        rcases star_shown hr ms with ⟨after, rfl, hshown⟩ | ⟨hshown, hfaces⟩
        · have hface : (Mark.char '*' :: after).map Mark.face = '*' :: after.map Mark.face := rfl
          rw [hshown, hface, BOLD_star, BOLD_star, shortest_shown hr (closesBold_closer hr),
            Option.map_map, Option.map_map, Option.map_map]
          rfl
        · rw [BOLD_single hshown, BOLD_single hfaces]
          rfl
    | i =>
        show ITALIC prev '*' (ms.flatMap r) =
          ((ITALIC (prev'.map Mark.face) '*' (ms.map Mark.face)).map _).map _
        have htrim := head_shown (p := isTrimmed) (fun c hc => hc.2.1) hr ms
        unfold ITALIC
        rw [hprev, htrim]
        split
        · rw [shortest_shown hr (closesItalic_closer hr), Option.map_map, Option.map_map,
            Option.map_map]
          rfl
        · rfl
  rw [hsame]
  refine Option.map_congr fun found hfound => ?_
  obtain ⟨group, n⟩ := found
  have hreach := pairs_reach hr hfound
  show (group.flatMap r, (group.flatMap r).length + 2 * (stars a).length - 1) =
    (group.flatMap r, ((ms.take n).flatMap r).length)
  rw [show (group.flatMap r).length + 2 * (stars a).length - 1 = ((ms.take n).flatMap r).length by
    omega]

/-- The pieces of what the marks are written as are the pieces of the marks, so written. -/
theorem pieces_shown (hr : ∀ m : Mark, Shows m.face (r m)) (a : Emphasis) (prev' : Option Mark)
    (ms : List Mark) (prev : Option Char)
    (hprev : prev.any isStarOrWord = (prev'.map Mark.face).any isStarOrWord) :
    pieces (patternOf a) prev 0 (ms.flatMap r) =
      (pieces (pairs a) prev' 0 ms).flatMap
        (replacement (fun group => [.inr (group.flatMap r)]) fun m => (r m).map .inl) := by
  have hstar : r (.char '*') = ['*'] := star_written hr
  induction prev', ms using scan_induction (pairs_within a) generalizing prev with
  | hnil prev' => simp
  | hplain prev' m rest hnone ih =>
      have hlast : (lastRead prev (r m)).any isStarOrWord =
          ((some m).map Mark.face).any isStarOrWord := last_shown (hr m)
      rw [pieces_unmatched hnone, List.flatMap_cons, List.flatMap_cons, ← ih _ hlast]
      by_cases hm : m = .char '*'
      · subst hm
        have hmiss : patternOf a prev '*' (rest.flatMap r) = none := by
          rw [patternOf_shown hr hprev, hnone]
          rfl
        show _ = (r (.char '*')).map Sum.inl ++ _
        rw [hstar, List.singleton_append, pieces_unmatched hmiss]
        rfl
      · exact pieces_plain fun p c after hc => patternOf_star (starless hr hm c hc)
  | hmatch prev' m xs rest group hmatch ih =>
      have hm : m = .char '*' := by
        obtain ⟨after, hshape, -⟩ := pairs_shape hmatch
        cases a with
        | b => exact (List.cons.inj hshape).1
        | i => exact (List.cons.inj hshape).1
      subst hm
      have hfound := patternOf_shown (a := a) hr hprev (xs ++ rest)
      rw [hmatch, Option.map_some, List.take_left, List.flatMap_append] at hfound
      have hlast : (lastRead (some '*') (xs.flatMap r)).any isStarOrWord =
          ((lastRead (some (Mark.char '*')) xs).map Mark.face).any isStarOrWord :=
        lastRead_shown hr xs rfl
      rw [pieces_matched hmatch, List.flatMap_cons, ← ih _ hlast, List.cons_append,
        List.flatMap_cons, List.flatMap_append, hstar]
      exact pieces_matched hfound

end Shown

/-! ## A line with its pairs marked -/

/-- The bold pairs of a line, and then the italic ones. -/
def bodyMarks (body : List Char) : List Mark := mark .i (mark .b (body.map .char))

theorem replaceAll_shown {r : Mark → List Char} (hr : ∀ m : Mark, Shows m.face (r m))
    (a : Emphasis) (f : List Char → List Char) (ms : List Mark) :
    replaceAll (patternOf a) f (ms.flatMap r) =
      (pieces (pairs a) none 0 ms).flatMap (replacement (fun group => f (group.flatMap r)) r) := by
  show List.flatMap _ (pieces (patternOf a) none 0 (ms.flatMap r)) = _
  rw [pieces_shown hr a none ms none rfl, List.flatMap_assoc]
  congr 1
  funext piece
  cases piece with
  | inl m =>
      show ((r m).map Sum.inl).flatMap _ = r m
      rw [List.flatMap_map]
      exact List.flatMap_singleton' (r m)
  | inr group => exact List.append_nil _

/-- A pattern wraps in the HTML what it wraps among the marks. -/
theorem mark_html (a : Emphasis) (ms : List Mark) :
    replaceAll (patternOf a)
        (fun group => Tag.html (.opens a) ++ group ++ Tag.html (.shuts a)) (ms.flatMap Mark.html) =
      (mark a ms).flatMap Mark.html := by
  rw [replaceAll_shown shows_html]
  unfold mark replaceAll
  rw [List.flatMap_assoc]
  congr 1
  funext piece
  cases piece with
  | inl m => simp [replacement]
  | inr group => simp [replacement, tagged, Mark.html]

theorem escapeHtml_marks (s : List Char) : escapeHtml s = (s.map .char).flatMap Mark.html := by
  rw [List.flatMap_map]
  rfl

theorem renderBody_html (body : List Char) :
    renderBody body = (bodyMarks body).flatMap Mark.html := by
  unfold renderBody bolded bodyMarks
  rw [escapeHtml_marks, ← mark_html, ← mark_html]
  rfl

section Pieces

variable {a : Emphasis} {ms : List Mark} {ps : List (Mark ⊕ List Mark)}

/-- The marks of the pieces, as they were. -/
def whole (a : Emphasis) (ps : List (Mark ⊕ List Mark)) : List Mark :=
  ps.flatMap (replacement (fun group => fence a ++ group ++ fence a) fun m => [m])

/-- The marks of the pieces, with tags for the pairs. -/
def wrapped (a : Emphasis) (ps : List (Mark ⊕ List Mark)) : List Mark :=
  ps.flatMap (replacement (tagged a) fun m => [m])

theorem tagsOf_append (ms ms' : List Mark) : tagsOf (ms ++ ms') = tagsOf ms ++ tagsOf ms' :=
  List.filterMap_append

theorem tagsOf_fence (a : Emphasis) : tagsOf (fence a) = [] := by
  cases a <;> rfl

theorem source_append (ms ms' : List Mark) : (ms ++ ms').flatMap Mark.source =
    ms.flatMap Mark.source ++ ms'.flatMap Mark.source :=
  List.flatMap_append

theorem source_fence (a : Emphasis) : (fence a).flatMap Mark.source = stars a := by
  cases a <;> rfl

/-- Marking a pair changes nothing of the source. -/
theorem wrapped_source (a : Emphasis) (ps : List (Mark ⊕ List Mark)) :
    (wrapped a ps).flatMap Mark.source = (whole a ps).flatMap Mark.source := by
  unfold wrapped whole
  rw [List.flatMap_assoc, List.flatMap_assoc]
  congr 1
  funext piece
  cases piece with
  | inl m => rfl
  | inr group =>
      show (tagged a group).flatMap Mark.source = (fence a ++ group ++ fence a).flatMap Mark.source
      rw [source_append, source_append, source_fence]
      simp [tagged, Mark.source]

theorem mark_source (a : Emphasis) (ms : List Mark) :
    (mark a ms).flatMap Mark.source = ms.flatMap Mark.source := by
  have hwhole : whole a (pieces (pairs a) none 0 ms) = ms := pairs_source a ms
  show (wrapped a _).flatMap Mark.source = _
  rw [wrapped_source, hwhole]

/-- The line comes back when the tags are spelled as markers. -/
theorem bodyMarks_source (body : List Char) : (bodyMarks body).flatMap Mark.source = body := by
  unfold bodyMarks
  rw [mark_source, mark_source, List.flatMap_map]
  exact List.flatMap_singleton' body

theorem wrapped_cons (piece : Mark ⊕ List Mark) (ps : List (Mark ⊕ List Mark)) :
    wrapped a (piece :: ps) = wrapped a [piece] ++ wrapped a ps := by
  unfold wrapped
  rw [← List.flatMap_append]
  rfl

theorem whole_cons (piece : Mark ⊕ List Mark) (ps : List (Mark ⊕ List Mark)) :
    whole a (piece :: ps) = whole a [piece] ++ whole a ps := by
  unfold whole
  rw [← List.flatMap_append]
  rfl

theorem tagsOf_wrapped_pair (group : List Mark) :
    tagsOf (wrapped a [.inr group]) = .opens a :: tagsOf group ++ [.shuts a] := by
  have hpair : wrapped a [.inr group] = [.tag (.opens a)] ++ group ++ [.tag (.shuts a)] :=
    List.append_nil _
  rw [hpair, tagsOf_append, tagsOf_append]
  rfl

theorem tagsOf_whole_pair (group : List Mark) : tagsOf (whole a [.inr group]) = tagsOf group := by
  have hpair : whole a [.inr group] = fence a ++ group ++ fence a := List.append_nil _
  rw [hpair, tagsOf_append, tagsOf_append, tagsOf_fence, List.nil_append, List.append_nil]

/-- Tags around nested groups change nothing for who reads the tags. -/
theorem wrapped_closes (hgroups : ∀ group, .inr group ∈ ps → Nested (tagsOf group))
    (stack : List Emphasis) :
    closes stack (tagsOf (wrapped a ps)) = closes stack (tagsOf (whole a ps)) := by
  induction ps generalizing stack with
  | nil => rfl
  | cons piece ps ih =>
      have hrest := ih fun group hgroup => hgroups group (List.mem_cons_of_mem _ hgroup)
      have hpiece : closes stack (tagsOf (wrapped a [piece])) =
          closes stack (tagsOf (whole a [piece])) := by
        cases piece with
        | inl m => rfl
        | inr group =>
            have hgroup := hgroups group List.mem_cons_self
            have hpair : Nested (.opens a :: tagsOf group ++ [.shuts a]) := .pair a hgroup .nil
            rw [tagsOf_wrapped_pair, tagsOf_whole_pair, hpair.closes, hgroup.closes]
      rw [wrapped_cons, whole_cons, tagsOf_append, tagsOf_append, closes_append, closes_append,
        hpiece]
      congr 1
      funext rest
      exact hrest rest

/-- What stands in a piece was there. -/
theorem mem_whole {piece : Mark ⊕ List Mark} (hpiece : piece ∈ ps) {m : Mark}
    (hm : m ∈ whole a [piece]) : m ∈ whole a ps := by
  induction ps with
  | nil => cases hpiece
  | cons first ps ih =>
      rw [whole_cons, List.mem_append]
      rcases List.mem_cons.1 hpiece with rfl | hrest
      · exact .inl hm
      · exact .inr (ih hrest)

theorem mem_group {group : List Mark} (hgroup : .inr group ∈ ps) {m : Mark} (hm : m ∈ group) :
    m ∈ whole a ps := by
  refine mem_whole hgroup ?_
  have hpair : whole a [.inr group] = fence a ++ group ++ fence a := List.append_nil _
  rw [hpair]
  simp [hm]

theorem mem_tagsOf {t : Tag} : t ∈ tagsOf ms ↔ .tag t ∈ ms := by
  unfold tagsOf
  rw [List.mem_filterMap]
  constructor
  · rintro ⟨m, hm, ht⟩
    cases m with
    | char c => cases ht
    | tag t' =>
        obtain rfl := Option.some.inj ht
        exact hm
  · intro h
    exact ⟨.tag t, h, rfl⟩

/-- Tags of a name that was not there stay nested exactly when each stands around a nested
    group. -/
theorem wrapped_nested_iff (hopens : .tag (.opens a) ∉ whole a ps)
    (hshuts : .tag (.shuts a) ∉ whole a ps) (hnested : Nested (tagsOf (whole a ps))) :
    Nested (tagsOf (wrapped a ps)) ↔ ∀ group, .inr group ∈ ps → Nested (tagsOf group) := by
  constructor
  · intro h group hgroup
    obtain ⟨front, back, hps⟩ := List.append_of_mem hgroup
    have hsplit : tagsOf (wrapped a ps) = tagsOf (wrapped a front) ++
        (.opens a :: tagsOf group ++ .shuts a :: tagsOf (wrapped a back)) := by
      have hfront : wrapped a ps = wrapped a front ++ wrapped a (.inr group :: back) := by
        rw [hps]
        exact List.flatMap_append
      rw [hfront, tagsOf_append, wrapped_cons, tagsOf_append, tagsOf_wrapped_pair]
      simp
    rw [nested_iff, hsplit, closes_append] at h
    obtain ⟨stack, -, hread⟩ := Option.bind_eq_some_iff.1 h
    refine nested_of_closes ?_ ?_ hread
    · intro hin
      exact hopens (mem_group hgroup (mem_tagsOf.1 hin))
    · intro hin
      exact hshuts (mem_group hgroup (mem_tagsOf.1 hin))
  · intro hgroups
    rw [nested_iff, wrapped_closes hgroups]
    exact hnested.closes []

theorem mem_matchAll {group : List Mark} :
    group ∈ matchAll (pairs a) ms ↔ .inr group ∈ pieces (pairs a) none 0 ms := by
  unfold matchAll
  rw [List.mem_filterMap]
  constructor
  · rintro ⟨piece, hpiece, hgroup⟩
    cases piece with
    | inl m => cases hgroup
    | inr found =>
        obtain rfl := Option.some.inj hgroup
        exact hpiece
  · intro h
    exact ⟨.inr group, h, rfl⟩

theorem mark_nested_iff (hopens : .tag (.opens a) ∉ ms) (hshuts : .tag (.shuts a) ∉ ms)
    (hnested : Nested (tagsOf ms)) : Nested (tagsOf (mark a ms)) ↔
      ∀ group ∈ matchAll (pairs a) ms, Nested (tagsOf group) := by
  have hwhole : whole a (pieces (pairs a) none 0 ms) = ms := pairs_source a ms
  have hiff := wrapped_nested_iff (a := a)
    (hwhole.symm ▸ hopens) (hwhole.symm ▸ hshuts) (hwhole.symm ▸ hnested)
  simp only [mem_matchAll]
  exact hiff

/-- A tag was there, or is one of those put in. -/
theorem mem_mark {m : Mark} (h : m ∈ mark a ms) :
    m ∈ ms ∨ m = .tag (.opens a) ∨ m = .tag (.shuts a) := by
  have hwhole : whole a (pieces (pairs a) none 0 ms) = ms := pairs_source a ms
  obtain ⟨piece, hpiece, hm⟩ := List.mem_flatMap.1 h
  cases piece with
  | inl m' =>
      obtain rfl : m = m' := List.mem_singleton.1 hm
      left
      rw [← hwhole]
      exact mem_whole hpiece List.mem_cons_self
  | inr group =>
      rcases List.mem_append.1 hm with hfront | hend
      · rcases List.mem_cons.1 hfront with rfl | hin
        · exact .inr (.inl rfl)
        · left
          rw [← hwhole]
          exact mem_group hpiece hin
      · exact .inr (.inr (List.mem_singleton.1 hend))

end Pieces

section Lines

variable {s body : List Char}

theorem tag_notMem_chars (t : Tag) (s : List Char) : .tag t ∉ s.map Mark.char := by
  intro h
  obtain ⟨c, -, hc⟩ := List.mem_map.1 h
  cases hc

theorem tagsOf_chars (s : List Char) : tagsOf (s.map Mark.char) = [] := by
  rw [List.eq_nil_iff_forall_not_mem]
  intro t ht
  exact tag_notMem_chars t s (mem_tagsOf.1 ht)

/-- A bold pair holds no tags. -/
theorem bold_groups {group : List Mark} (h : group ∈ matchAll (pairs .b) (s.map .char)) :
    ∀ m ∈ group, ∃ c, m = .char c := by
  intro m hm
  have hin : m ∈ whole .b (pieces (pairs .b) none 0 (s.map Mark.char)) :=
    mem_group (mem_matchAll.1 h) hm
  have hwhole : whole .b (pieces (pairs .b) none 0 (s.map Mark.char)) = s.map Mark.char :=
    pairs_source .b (s.map .char)
  rw [hwhole] at hin
  obtain ⟨c, -, rfl⟩ := List.mem_map.1 hin
  exact ⟨c, rfl⟩

theorem bold_nested (s : List Char) : Nested (tagsOf (mark .b (s.map .char))) := by
  refine (mark_nested_iff (tag_notMem_chars _ s) (tag_notMem_chars _ s) ?_).2 ?_
  · rw [tagsOf_chars]
    exact .nil
  · intro group hgroup
    have hnone : tagsOf group = [] := by
      rw [List.eq_nil_iff_forall_not_mem]
      intro t ht
      obtain ⟨c, hc⟩ := bold_groups hgroup _ (mem_tagsOf.1 ht)
      cases hc
    rw [hnone]
    exact .nil

/-- A line is nested exactly when each of its italic pairs holds whole bolds. -/
theorem bodyMarks_nested_iff (body : List Char) : Nested (tagsOf (bodyMarks body)) ↔
    ∀ group ∈ matchAll (pairs .i) (mark .b (body.map .char)), Nested (tagsOf group) := by
  refine mark_nested_iff ?_ ?_ (bold_nested body)
  · intro h
    rcases mem_mark h with hin | hin | hin
    · exact tag_notMem_chars _ body hin
    · cases hin
    · cases hin
  · intro h
    rcases mem_mark h with hin | hin | hin
    · exact tag_notMem_chars _ body hin
    · cases hin
    · cases hin

/-- A heading keeps none of the bold pairs in it. -/
theorem stripEmphasis_text (s : List Char) :
    stripEmphasis s = textOf (mark .b (s.map .char)) := by
  have hs : s = (s.map Mark.char).flatMap fun m => [m.face] := by
    rw [List.flatMap_map]
    exact (List.flatMap_singleton' s).symm
  have hstrip : stripEmphasis s = replaceAll (patternOf .b) (fun group => group)
      ((s.map Mark.char).flatMap fun m => [m.face]) := by
    rw [← hs]
    rfl
  have hwhole : whole .b (pieces (pairs .b) none 0 (s.map Mark.char)) = s.map Mark.char :=
    pairs_source .b (s.map .char)
  have hface : ∀ ms : List Mark, (∀ m ∈ ms, m ∈ s.map Mark.char) →
      ms.flatMap (fun m => [m.face]) = textOf ms := by
    intro ms hms
    refine List.flatMap_congr fun m hm => ?_
    obtain ⟨c, -, rfl⟩ := List.mem_map.1 (hms m hm)
    rfl
  rw [hstrip, replaceAll_shown fun m => .same]
  unfold mark replaceAll textOf
  rw [List.flatMap_assoc]
  refine List.flatMap_congr fun piece hpiece => ?_
  cases piece with
  | inl m =>
      have hm : m ∈ s.map Mark.char := hwhole ▸ mem_whole hpiece List.mem_cons_self
      obtain ⟨c, -, rfl⟩ := List.mem_map.1 hm
      rfl
  | inr group =>
      show group.flatMap (fun m => [m.face]) = textOf (tagged .b group)
      rw [hface group fun m hm => hwhole ▸ mem_group hpiece hm]
      simp [textOf, tagged, Mark.bare]

end Lines

end Markdown

end Paayatam
