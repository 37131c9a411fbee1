/-
  Paayatam.Telegram.LightMarkup

  What `renderLightMarkdown` writes, read back: its tags, its lines and its text.

  The output is always marks written in HTML, so it has no other angle brackets
  and its text is the input's without the markers that became tags.  Its tags are
  nested on every line exactly when each italic pair holds whole bolds
  (`renders_well_iff`); a pair that takes in one end of a bold is the one thing
  the renderer does not look for.
-/

import Paayatam.Lib.Fields
import Paayatam.Telegram.Emphasis

namespace Paayatam

open Lib

namespace Markdown

/-! ## Reading HTML -/

/-- The tags Telegram is sent. -/
def TAGS : List Tag := [.opens .b, .shuts .b, .opens .i, .shuts .i]

def TAG : Pattern Char Tag := fun _ c rest =>
  TAGS.findSome? fun t =>
    if (Tag.html t).isPrefixOf (c :: rest) then some (t, (Tag.html t).length - 1) else none

/-- The tags of a text, in order. -/
def readTags (out : List Char) : List Tag := matchAll TAG out

def stripTags (out : List Char) : List Char := replaceAll TAG (fun _ => []) out

def ENTITIES : List Char := ['&', '<', '>']

def ENTITY : Pattern Char Char := fun _ c rest =>
  ENTITIES.findSome? fun e =>
    if (escapeChar e).isPrefixOf (c :: rest) then some (e, (escapeChar e).length - 1) else none

def unescapeHtml (out : List Char) : List Char := replaceAll ENTITY (fun c => [c]) out

/-- What a reader of tags makes of a mark. -/
def Mark.readAs : Mark → List (Char ⊕ Tag)
  | .char c => (escapeChar c).map .inl
  | .tag t => [.inr t]

section Reading

variable {ms : List Mark} {s : List Char}

theorem plain_of_all {e : List Char} {x : Char}
    (h : (e.all fun x => decide (x ≠ '<' ∧ x ≠ '>')) = true) (hx : x ∈ e) : x ≠ '<' ∧ x ≠ '>' :=
  List.all_iff_forall_prop.1 h x hx

theorem escapeChar_plain {c x : Char} (h : x ∈ escapeChar c) : x ≠ '<' ∧ x ≠ '>' := by
  unfold escapeChar at h
  split at h
  · exact plain_of_all (by decide) h
  · exact plain_of_all (by decide) h
  · exact plain_of_all (by decide) h
  · next _ hlt hgt =>
      obtain rfl := List.mem_singleton.1 h
      exact ⟨hlt, hgt⟩

theorem html_head (t : Tag) : Tag.html t = '<' :: (Tag.html t).tail := by
  cases t with
  | opens a => cases a <;> rfl
  | shuts a => cases a <;> rfl

theorem TAG_plain {prev : Option Char} {c : Char} {rest : List Char} (h : c ≠ '<') :
    TAG prev c rest = none := by
  refine List.findSome?_eq_none_iff.2 fun t _ => if_neg ?_
  rw [html_head, List.isPrefixOf_cons_cons, beq_false_of_ne (Ne.symm h), Bool.false_and]
  exact Bool.false_ne_true

theorem TAG_html {prev : Option Char} (t : Tag) (rest : List Char) :
    TAG prev '<' ((Tag.html t).tail ++ rest) = some (t, (Tag.html t).tail.length) := by
  cases t with
  | opens a => cases a <;> rfl
  | shuts a => cases a <;> rfl

/-- The pieces of HTML are the characters of its text, escaped, and its tags. -/
theorem pieces_html (ms : List Mark) (prev : Option Char) :
    pieces TAG prev 0 (ms.flatMap Mark.html) = ms.flatMap Mark.readAs := by
  induction ms generalizing prev with
  | nil => simp
  | cons m ms ih =>
      rw [List.flatMap_cons, List.flatMap_cons]
      cases m with
      | char c =>
          show pieces TAG prev 0 (escapeChar c ++ _) = (escapeChar c).map Sum.inl ++ _
          rw [pieces_plain fun p x rest hx => TAG_plain (escapeChar_plain hx).1, ih]
      | tag t =>
          show pieces TAG prev 0 (Tag.html t ++ _) = Sum.inr t :: _
          rw [html_head, pieces_matched (TAG_html t _), ih]
          rfl

theorem readTags_html (ms : List Mark) : readTags (ms.flatMap Mark.html) = tagsOf ms := by
  unfold readTags matchAll
  rw [pieces_html]
  induction ms with
  | nil => rfl
  | cons m ms ih =>
      rw [List.flatMap_cons, List.filterMap_append, ih]
      cases m with
      | char c =>
          have hnone :
              ((escapeChar c).map (Sum.inl : Char → Char ⊕ Tag)).filterMap Sum.getRight? = [] := by
            rw [List.filterMap_map]
            exact List.filterMap_eq_nil_iff.2 fun x _ => rfl
          show ((escapeChar c).map Sum.inl).filterMap Sum.getRight? ++ _ = tagsOf ms
          rw [hnone, List.nil_append]
      | tag t => rfl

theorem stripTags_html (ms : List Mark) :
    stripTags (ms.flatMap Mark.html) = escapeHtml (textOf ms) := by
  unfold stripTags replaceAll escapeHtml textOf
  rw [pieces_html, List.flatMap_assoc, List.flatMap_assoc]
  congr 1
  funext m
  cases m with
  | char c =>
      show ((escapeChar c).map Sum.inl).flatMap _ = escapeChar c ++ []
      rw [List.flatMap_map, List.append_nil]
      exact List.flatMap_singleton' (escapeChar c)
  | tag t => rfl

theorem mem_ENTITIES {c : Char} : c ∈ ENTITIES ↔ c = '&' ∨ c = '<' ∨ c = '>' := by
  simp [ENTITIES]

theorem escapeChar_head {c : Char} (h : c ∈ ENTITIES) :
    escapeChar c = '&' :: (escapeChar c).tail := by
  rcases mem_ENTITIES.1 h with rfl | rfl | rfl <;> rfl

theorem escapeChar_self {c : Char} (h : c ∉ ENTITIES) : escapeChar c = [c] := by
  rw [mem_ENTITIES, not_or, not_or] at h
  unfold escapeChar
  split
  · exact absurd rfl h.1
  · exact absurd rfl h.2.1
  · exact absurd rfl h.2.2
  · rfl

theorem ENTITY_plain {prev : Option Char} {c : Char} {rest : List Char} (h : c ≠ '&') :
    ENTITY prev c rest = none := by
  refine List.findSome?_eq_none_iff.2 fun e he => if_neg ?_
  rw [escapeChar_head he, List.isPrefixOf_cons_cons, beq_false_of_ne (Ne.symm h), Bool.false_and]
  exact Bool.false_ne_true

theorem ENTITY_escape {prev : Option Char} {c : Char} (rest : List Char) (h : c ∈ ENTITIES) :
    ENTITY prev '&' ((escapeChar c).tail ++ rest) = some (c, (escapeChar c).tail.length) := by
  rcases mem_ENTITIES.1 h with rfl | rfl | rfl <;> rfl

/-- Unescaping gives back what was escaped. -/
theorem unescapeHtml_escapeHtml (s : List Char) : unescapeHtml (escapeHtml s) = s := by
  have hread : ∀ prev, (pieces ENTITY prev 0 (escapeHtml s)).flatMap
      (replacement (fun c => [c]) fun c => [c]) = s := by
    induction s with
    | nil =>
        intro prev
        simp [escapeHtml]
    | cons c s ih =>
        intro prev
        show List.flatMap _ (pieces ENTITY prev 0 (escapeChar c ++ escapeHtml s)) = _
        by_cases hc : c ∈ ENTITIES
        · rw [escapeChar_head hc, pieces_matched (ENTITY_escape _ hc), List.flatMap_cons, ih]
          rfl
        · have hamp : c ≠ '&' := by
            rintro rfl
            exact hc List.mem_cons_self
          rw [escapeChar_self hc, List.singleton_append, pieces_unmatched (ENTITY_plain hamp),
            List.flatMap_cons, ih]
          rfl
  exact hread none

/-- No angle bracket is left in an escaped text. -/
theorem escapeHtml_plain {x : Char} (h : x ∈ escapeHtml s) : x ≠ '<' ∧ x ≠ '>' := by
  obtain ⟨c, -, hc⟩ := List.mem_flatMap.1 h
  exact escapeChar_plain hc

end Reading

/-! ## The document -/

/-- The marks of a rendered line. -/
def lineMarks (line : List Char) : List Mark :=
  match headingText line with
  | some heading => tagged .b ((textOf (mark .b (heading.map .char))).map .char)
  | none => bodyMarks (bodyOf line)

theorem renderLine_html (line : List Char) :
    renderLine line = (lineMarks line).flatMap Mark.html := by
  unfold renderLine lineMarks
  cases headingText line with
  | none => exact renderBody_html (bodyOf line)
  | some heading =>
      simp only [stripEmphasis_text, escapeHtml_marks]
      simp [tagged, Mark.html, Tag.html]

def Mark.isBlank : Mark → Bool
  | .char c => isTrimmed c
  | .tag _ => false

def trimMarks (ms : List Mark) : List Mark :=
  ((ms.dropWhile Mark.isBlank).reverse.dropWhile Mark.isBlank).reverse

def collapseMarks : Nat → List Mark → List Mark
  | _, [] => []
  | kept, m :: rest =>
    if m = .char '\n' then
      if 2 ≤ kept then collapseMarks kept rest else m :: collapseMarks (kept + 1) rest
    else m :: collapseMarks 0 rest

/-- The lines' marks, with the blank space between and around them that is kept. -/
def layout (lines : List (List Mark)) : List Mark :=
  trimMarks (collapseMarks 0 ([.char '\n'].intercalate lines))

section Layout

variable {ms : List Mark} {lines : List (List Mark)}

theorem html_newline {m : Mark} (h : '\n' ∈ m.html) : m = .char '\n' := by
  cases m with
  | char c =>
      have hchar : '\n' ∈ escapeChar c := h
      unfold escapeChar at hchar
      split at hchar
      · exact absurd hchar (by decide)
      · exact absurd hchar (by decide)
      · exact absurd hchar (by decide)
      · rw [List.mem_singleton.1 hchar]
  | tag t =>
      have hall : ∀ a : Emphasis, '\n' ∉ Tag.html (.opens a) ∧ '\n' ∉ Tag.html (.shuts a) := by
        intro a
        cases a <;> decide
      cases t with
      | opens a => exact absurd h (hall a).1
      | shuts a => exact absurd h (hall a).2

theorem collapseBlank_over {xs rest : List Char} (hxs : xs ≠ []) (hnewline : '\n' ∉ xs)
    (kept : Nat) : collapseBlank kept (xs ++ rest) = xs ++ collapseBlank 0 rest := by
  induction xs generalizing kept with
  | nil => exact absurd rfl hxs
  | cons x xs ih =>
      rw [List.mem_cons, not_or] at hnewline
      have hx : ¬ x = '\n' := fun h => hnewline.1 h.symm
      rw [List.cons_append, collapseBlank, if_neg hx, List.cons_append]
      congr 1
      cases xs with
      | nil => rfl
      | cons y xs => exact ih (by simp) hnewline.2 0

theorem collapseBlank_html (kept : Nat) (ms : List Mark) :
    collapseBlank kept (ms.flatMap Mark.html) = (collapseMarks kept ms).flatMap Mark.html := by
  induction ms generalizing kept with
  | nil => rfl
  | cons m ms ih =>
      rw [List.flatMap_cons, collapseMarks]
      by_cases hm : m = .char '\n'
      · subst hm
        show collapseBlank kept ('\n' :: ms.flatMap Mark.html) = _
        rw [collapseBlank, if_pos rfl, if_pos rfl]
        split
        · exact ih kept
        · rw [List.flatMap_cons, ih]
          rfl
      · have hne : m.html ≠ [] := by
          have hshown := shows_html m
          generalize m.html = shown at hshown
          cases hshown <;> simp
        rw [collapseBlank_over hne (fun h => hm (html_newline h)), if_neg hm, List.flatMap_cons, ih]

/-- Dropping blanks drops the blank marks, if a mark is blank by its first character. -/
theorem dropWhile_written {r : Mark → List Char}
    (hblank : ∀ m : Mark, m.isBlank = true → ∃ c, r m = [c] ∧ isTrimmed c = true)
    (hother : ∀ m : Mark, m.isBlank = false → ∃ c rest, r m = c :: rest ∧ isTrimmed c = false)
    (ms : List Mark) :
    (ms.flatMap r).dropWhile isTrimmed = (ms.dropWhile Mark.isBlank).flatMap r := by
  induction ms with
  | nil => rfl
  | cons m ms ih =>
      rw [List.flatMap_cons]
      cases hm : m.isBlank with
      | true =>
          obtain ⟨c, hc, htrim⟩ := hblank m hm
          rw [hc, List.singleton_append, List.dropWhile_cons_of_pos htrim,
            List.dropWhile_cons_of_pos hm]
          exact ih
      | false =>
          obtain ⟨c, rest, hc, htrim⟩ := hother m hm
          rw [hc, List.cons_append, List.dropWhile_cons_of_neg (by simp [htrim]),
            List.dropWhile_cons_of_neg (by simp [hm]), List.flatMap_cons, hc, List.cons_append]

theorem html_blank {m : Mark} (h : m.isBlank = true) : ∃ c, m.html = [c] ∧ isTrimmed c = true := by
  cases m with
  | char c =>
      refine ⟨c, ?_, h⟩
      show escapeChar c = [c]
      unfold escapeChar
      split
      · exact absurd h (by decide)
      · exact absurd h (by decide)
      · exact absurd h (by decide)
      · rfl
  | tag t => cases h

theorem html_first {m : Mark} (h : m.isBlank = false) :
    ∃ c rest, m.html = c :: rest ∧ isTrimmed c = false := by
  have hface : isTrimmed m.face = false := by
    cases m with
    | char c => exact h
    | tag t => rfl
  have hshown := shows_html m
  generalize m.html = shown at hshown
  cases hshown with
  | same => exact ⟨m.face, [], rfl, hface⟩
  | wide _ hfirst => exact ⟨_, _, rfl, hfirst.2.1⟩

theorem html_last {m : Mark} (h : m.isBlank = false) :
    ∃ c rest, m.html.reverse = c :: rest ∧ isTrimmed c = false := by
  have hface : isTrimmed m.face = false := by
    cases m with
    | char c => exact h
    | tag t => rfl
  have hshown := shows_html m
  generalize m.html = shown at hshown
  cases hshown with
  | same => exact ⟨m.face, [], rfl, hface⟩
  | @wide first last mid _ _ hlast _ =>
      exact ⟨last, (first :: mid).reverse, List.reverse_concat, hlast.2.1⟩

theorem trimChars_html (ms : List Mark) :
    trimChars (ms.flatMap Mark.html) = (trimMarks ms).flatMap Mark.html := by
  unfold trimChars trimMarks
  rw [dropWhile_written (fun m => html_blank) (fun m => html_first), List.reverse_flatMap,
    dropWhile_written (r := List.reverse ∘ Mark.html) ?_ (fun m => html_last)]
  · exact List.flatMap_reverse.symm
  · intro m hm
    obtain ⟨c, hc, htrim⟩ := html_blank hm
    exact ⟨c, by simp [hc], htrim⟩

theorem intercalate_html (lines : List (List Mark)) :
    ['\n'].intercalate (lines.map fun ms => ms.flatMap Mark.html) =
      ([.char '\n'].intercalate lines).flatMap Mark.html := by
  induction lines with
  | nil => rfl
  | cons ms lines ih =>
      cases lines with
      | nil => simp
      | cons next lines =>
          rw [List.map_cons, List.map_cons, List.intercalate_cons_cons,
            List.intercalate_cons_cons, List.flatMap_append, List.flatMap_append, ← ih]
          rfl

theorem flatten_html (markdown : List Char) : flatten markdown =
    (layout ((keptLines markdown).map lineMarks)).flatMap Mark.html := by
  unfold flatten layout
  have hlines : (keptLines markdown).map renderLine =
      ((keptLines markdown).map lineMarks).map fun ms => ms.flatMap Mark.html := by
    rw [List.map_map]
    exact List.map_congr_left fun line _ => renderLine_html line
  rw [hlines, intercalate_html, collapseBlank_html, trimChars_html]

end Layout

/-! ## Tags line by line -/

/-- Reads the tags with a stack that must be empty at every line's end. -/
def balanced : List Emphasis → List Mark → Prop
  | stack, [] => stack = []
  | stack, .char c :: ms => if c = '\n' then stack = [] ∧ balanced [] ms else balanced stack ms
  | stack, .tag t :: ms => ∃ stack', closes stack [t] = some stack' ∧ balanced stack' ms

section Balance

variable {ms line rest : List Mark} {stack : List Emphasis} {lines : List (List Mark)}

theorem balanced_nil : balanced stack [] ↔ stack = [] := Iff.rfl

theorem balanced_newline : balanced stack (.char '\n' :: ms) ↔ stack = [] ∧ balanced [] ms :=
  iff_of_eq (if_pos rfl)

theorem balanced_char {c : Char} (h : c ≠ '\n') :
    balanced stack (.char c :: ms) ↔ balanced stack ms := iff_of_eq (if_neg h)

theorem balanced_tag {t : Tag} :
    balanced stack (.tag t :: ms) ↔ ∃ stack', closes stack [t] = some stack' ∧ balanced stack' ms :=
  Iff.rfl

theorem balanced_line (hline : .char '\n' ∉ line) :
    balanced stack (line ++ rest) ↔
      ∃ stack', closes stack (tagsOf line) = some stack' ∧ balanced stack' rest := by
  induction line generalizing stack with
  | nil =>
      rw [List.nil_append, tagsOf, List.filterMap_nil, closes_nil]
      simp
  | cons m line ih =>
      rw [List.mem_cons, not_or] at hline
      cases m with
      | char c =>
          have hc : ¬ c = '\n' := by
            rintro rfl
            exact hline.1 rfl
          rw [List.cons_append, balanced_char hc]
          exact ih hline.2
      | tag t =>
          have hread : closes stack (tagsOf (.tag t :: line)) =
              (closes stack [t]).bind fun s => closes s (tagsOf line) := by
            rw [← closes_append]
            rfl
          rw [List.cons_append, balanced_tag, hread]
          constructor
          · rintro ⟨mid, hstep, hrest⟩
            obtain ⟨stack', hline', hrest'⟩ := (ih hline.2).1 hrest
            exact ⟨stack', by rw [hstep, Option.bind_some, hline'], hrest'⟩
          · rintro ⟨stack', hboth, hrest⟩
            obtain ⟨mid, hstep, hline'⟩ := Option.bind_eq_some_iff.1 hboth
            exact ⟨mid, hstep, (ih hline.2).2 ⟨stack', hline', hrest⟩⟩

/-- Lines are balanced exactly when each is nested. -/
theorem balanced_lines (hlines : ∀ line ∈ lines, .char '\n' ∉ line) :
    balanced [] ([.char '\n'].intercalate lines) ↔ ∀ line ∈ lines, Nested (tagsOf line) := by
  induction lines with
  | nil => simp [balanced_nil]
  | cons line lines ih =>
      obtain ⟨hline, hrest⟩ := List.forall_mem_cons.1 hlines
      rw [List.forall_mem_cons, ← ih hrest, nested_iff]
      cases lines with
      | nil =>
          rw [List.intercalate_singleton, List.intercalate_nil, ← List.append_nil line,
            balanced_line hline, List.append_nil]
          simp [balanced_nil]
      | cons next lines =>
          rw [List.intercalate_cons_cons, List.append_assoc, balanced_line hline]
          constructor
          · rintro ⟨stack', hread, rfl, hnext⟩
            exact ⟨hread, hnext⟩
          · rintro ⟨hread, hnext⟩
            exact ⟨[], hread, rfl, hnext⟩

theorem balanced_collapse (kept : Nat) (hkept : 0 < kept → stack = []) (ms : List Mark) :
    balanced stack (collapseMarks kept ms) ↔ balanced stack ms := by
  induction ms generalizing stack kept with
  | nil => rfl
  | cons m ms ih =>
      rw [collapseMarks]
      by_cases hm : m = .char '\n'
      · subst hm
        rw [if_pos rfl, balanced_newline]
        split
        · next htwo =>
            obtain rfl := hkept (by omega)
            rw [ih kept fun _ => rfl]
            simp
        · rw [balanced_newline, ih (kept + 1) fun _ => rfl]
      · rw [if_neg hm]
        cases m with
        | char c =>
            have hc : ¬ c = '\n' := by
              rintro rfl
              exact hm rfl
            rw [balanced_char hc, balanced_char hc]
            exact ih 0 fun h => absurd h (by omega)
        | tag t =>
            rw [balanced_tag, balanced_tag]
            exact exists_congr fun stack' => and_congr_right fun _ =>
              ih 0 fun h => absurd h (by omega)

/-- Blank marks in front carry no tags. -/
theorem balanced_dropWhile (ms : List Mark) :
    balanced [] (ms.dropWhile Mark.isBlank) ↔ balanced [] ms := by
  induction ms with
  | nil => rfl
  | cons m ms ih =>
      cases hm : m.isBlank with
      | false => rw [List.dropWhile_cons_of_neg (by simp [hm])]
      | true =>
          rw [List.dropWhile_cons_of_pos hm, ih]
          cases m with
          | tag t => cases hm
          | char c =>
              by_cases hc : c = '\n'
              · simp [hc, balanced_newline]
              · exact (balanced_char hc).symm

theorem balanced_blanks (hrest : ∀ m ∈ rest, m.isBlank = true) (ms : List Mark) :
    balanced stack (ms ++ rest) ↔ balanced stack ms := by
  induction ms generalizing stack with
  | nil =>
      rw [List.nil_append]
      induction rest generalizing stack with
      | nil => rfl
      | cons m rest ih =>
          obtain ⟨hm, htail⟩ := List.forall_mem_cons.1 hrest
          cases m with
          | tag t => cases hm
          | char c =>
              by_cases hc : c = '\n'
              · rw [hc, balanced_newline, ih htail]
                simp [balanced_nil]
              · rw [balanced_char hc]
                exact ih htail
  | cons m ms ih =>
      cases m with
      | char c =>
          rw [List.cons_append]
          by_cases hc : c = '\n'
          · rw [hc, balanced_newline, balanced_newline, ih]
          · rw [balanced_char hc, balanced_char hc]
            exact ih
      | tag t =>
          rw [List.cons_append, balanced_tag, balanced_tag]
          exact exists_congr fun stack' => and_congr_right fun _ => ih

theorem balanced_trim (ms : List Mark) : balanced [] (trimMarks ms) ↔ balanced [] ms := by
  have hsplit : ms.dropWhile Mark.isBlank = trimMarks ms ++
      (((ms.dropWhile Mark.isBlank).reverse).takeWhile Mark.isBlank).reverse := by
    unfold trimMarks
    rw [← List.reverse_append, List.takeWhile_append_dropWhile, List.reverse_reverse]
  have hblank : ∀ m ∈ (((ms.dropWhile Mark.isBlank).reverse).takeWhile Mark.isBlank).reverse,
      m.isBlank = true := fun m hm =>
    List.all_eq_true.1 List.all_takeWhile m (List.mem_reverse.1 hm)
  rw [← balanced_dropWhile ms, hsplit]
  exact (balanced_blanks hblank (trimMarks ms)).symm

theorem balanced_layout (hlines : ∀ line ∈ lines, .char '\n' ∉ line) :
    balanced [] (layout lines) ↔ ∀ line ∈ lines, Nested (tagsOf line) := by
  unfold layout
  rw [balanced_trim, balanced_collapse 0 fun _ => rfl, balanced_lines hlines]

/-- The lines of HTML are nested exactly when its marks are balanced. -/
theorem html_lines_iff (ms : List Mark) :
    (∀ line ∈ (ms.flatMap Mark.html).splitOn '\n', Nested (readTags line)) ↔ balanced [] ms := by
  have hparts : ∀ part ∈ ms.splitOn (Mark.char '\n'), Mark.char '\n' ∉ part := by
    intro part hpart
    exact not_mem_of_mem_splitOn hpart
  have hjoin : [Mark.char '\n'].intercalate (ms.splitOn (.char '\n')) = ms :=
    List.intercalate_splitOn (Mark.char '\n')
  have hhtml : ∀ part ∈ (ms.splitOn (.char '\n')).map (fun part => part.flatMap Mark.html),
      '\n' ∉ part := by
    intro out hout
    obtain ⟨part, hpart, rfl⟩ := List.mem_map.1 hout
    intro hin
    obtain ⟨m, hm, hnewline⟩ := List.mem_flatMap.1 hin
    exact hparts part hpart (html_newline hnewline ▸ hm)
  have hsplit : (ms.flatMap Mark.html).splitOn '\n' =
      (ms.splitOn (.char '\n')).map fun part => part.flatMap Mark.html := by
    conv => lhs; rw [← hjoin]
    rw [← intercalate_html]
    exact List.splitOn_intercalate '\n' hhtml (by simp)
  conv => rhs; rw [← hjoin]
  rw [hsplit, balanced_lines hparts, List.forall_mem_map]
  simp only [readTags_html]

end Balance

/-! ## Rendered lines -/

section Rendered

variable {line : List Char} {c : Char}

theorem mem_trimChars {s : List Char} (h : c ∈ trimChars s) : c ∈ s := by
  have hback := List.mem_reverse.1 h
  have hfront := List.mem_reverse.1 ((List.dropWhile_sublist _).mem hback)
  exact (List.dropWhile_sublist _).mem hfront

theorem mem_behindMarker {rest text : List Char} (h : behindMarker rest = some text)
    (hc : c ∈ text) : c ∈ rest := by
  unfold behindMarker at h
  simp only at h
  split at h
  · obtain rfl := Option.some.inj h
    exact (List.dropWhile_sublist _).mem hc
  · cases h

theorem mem_headingText {heading : List Char} (h : headingText line = some heading)
    (hc : c ∈ heading) : c ∈ line := by
  unfold headingText at h
  simp only at h
  split at h
  · exact mem_trimChars ((List.dropWhile_sublist _).mem (mem_behindMarker h hc))
  · cases h

theorem mem_bodyOf (hc : c ∈ bodyOf line) : c = '•' ∨ c = ' ' ∨ c ∈ line := by
  unfold bodyOf at hc
  split at hc
  · next text htext =>
      rcases List.mem_cons.1 hc with rfl | hc
      · exact .inl rfl
      · rcases List.mem_cons.1 hc with rfl | hc
        · exact .inr (.inl rfl)
        · refine .inr (.inr ?_)
          unfold bulletText at htext
          split at htext
          · next marker rest hline =>
              split at htext
              · refine mem_trimChars ?_
                rw [hline]
                exact List.mem_cons_of_mem marker (mem_behindMarker htext hc)
              · cases htext
          · cases htext
  · exact .inr (.inr hc)

/-- A character of the marks is one of their source. -/
theorem mem_source {ms : List Mark} (h : .char c ∈ ms) : c ∈ ms.flatMap Mark.source :=
  List.mem_flatMap.2 ⟨.char c, h, List.mem_singleton.2 rfl⟩

theorem lineMarks_newline (hline : '\n' ∉ line) : .char '\n' ∉ lineMarks line := by
  intro h
  unfold lineMarks at h
  split at h
  · next heading hheading =>
      have htext : '\n' ∈ textOf (mark .b (heading.map .char)) := by
        simpa [tagged] using h
      obtain ⟨m, hm, hc⟩ := List.mem_flatMap.1 htext
      cases m with
      | tag t => cases hc
      | char c =>
          obtain rfl : '\n' = c := List.mem_singleton.1 hc
          have hsource := mem_source hm
          rw [mark_source, List.flatMap_map] at hsource
          rw [show (heading.flatMap fun c => (Mark.char c).source) = heading from
            List.flatMap_singleton' heading] at hsource
          exact hline (mem_headingText hheading hsource)
  · have hsource := mem_source h
    rw [bodyMarks_source] at hsource
    rcases mem_bodyOf hsource with hc | hc | hc
    · exact absurd hc (by decide)
    · exact absurd hc (by decide)
    · exact hline hc

end Rendered

/-- Marks that come from a line: spelled with markers for their tags they give it back.  A
    heading's marker is a bold around its text. -/
def MarksOf (line : List Char) (marks : List Mark) : Prop :=
  match headingText line with
  | some heading => ∃ inner : List Mark, inner.flatMap Mark.source = heading ∧
      marks = tagged .b ((textOf inner).map .char)
  | none => marks.flatMap Mark.source = bodyOf line

theorem lineMarks_marksOf (line : List Char) : MarksOf line (lineMarks line) := by
  unfold MarksOf lineMarks
  cases headingText line with
  | none => exact bodyMarks_source (bodyOf line)
  | some heading =>
      refine ⟨mark .b (heading.map .char), ?_, rfl⟩
      rw [mark_source, List.flatMap_map]
      exact List.flatMap_singleton' heading

/-- The output has no angle brackets but its tags', these are nested on every line, and what it
    says is the input without the markers its tags stand for. -/
structure RendersWell (markdown : String) : Prop where
  plain : ∀ x ∈ stripTags (renderLightMarkdown markdown).toList, x ≠ '<' ∧ x ≠ '>'
  nested : ∀ line ∈ (renderLightMarkdown markdown).toList.splitOn '\n', Nested (readTags line)
  text : ∃ lines, List.Forall₂ MarksOf (keptLines markdown.toList) lines ∧
    (renderLightMarkdown markdown).toList = (layout lines).flatMap Mark.html ∧
    unescapeHtml (stripTags (renderLightMarkdown markdown).toList) = textOf (layout lines)

/-- Each italic pair of a line, its bold pairs marked, holds both ends of a bold or neither. -/
def HoldsWholeBolds (line : List Char) : Prop :=
  ∀ group ∈ matchAll (pairs .i) (mark .b ((bodyOf line).map .char)), Nested (tagsOf group)

theorem lineMarks_nested_iff (line : List Char) : Nested (tagsOf (lineMarks line)) ↔
    (headingText line = none → HoldsWholeBolds line) := by
  unfold lineMarks
  split
  · next heading hheading =>
      refine iff_of_true ?_ fun h => ?_
      · have htags : tagsOf (tagged .b ((textOf (mark .b (heading.map .char))).map .char)) =
            Lib.Bracket.opens .b :: [] ++ .shuts .b :: [] := by
          unfold tagged
          rw [tagsOf_append, ← List.singleton_append, tagsOf_append, tagsOf_chars]
          rfl
        rw [htags]
        exact .pair Emphasis.b .nil .nil
      · rw [hheading] at h
        cases h
  · next hnone =>
      rw [bodyMarks_nested_iff]
      exact ⟨fun h _ => h, fun h => h hnone⟩

end Markdown

end Paayatam
