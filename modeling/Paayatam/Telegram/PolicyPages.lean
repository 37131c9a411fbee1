/-
  Paayatam.Telegram.PolicyPages

  `paginatePolicy`: a document as the pages it is read in.

  Sections are packed into pages, a section longer than a page is cut between
  its lines, and a line longer than a page between its words.  What is read on
  the pages are the words of what was rendered, each once and in order
  (`paginatePolicy_carries`), on pages within the budget unless one word alone
  is longer; no other way to cut the packed blocks takes fewer pages
  (`allPages_fewest`).
-/

import Paayatam.Lib.Packing
import Paayatam.Lib.Words
import Paayatam.Telegram.LightMarkup

namespace Paayatam

open Lib

namespace Markdown

/-! ## Pages -/

/-- The last page a `pl:` button can name. -/
def MAX_POLICY_PAGE : Nat := 35

/-- `.length`, in UTF-16 code units. -/
def unitsOf (s : List Char) : Nat := (s.map fun c => if 0x10000 ≤ c.toNat then 2 else 1).sum

/-- `replace(/\r\n/g, '\n')`. -/
def unixLines : List Char → List Char
  | [] => []
  | '\r' :: '\n' :: rest => '\n' :: unixLines rest
  | c :: rest => c :: unixLines rest

/-- `/^##\s/` of the trimmed line. -/
def opensSection (line : List Char) : Bool :=
  match trimChars line with
  | '#' :: '#' :: c :: _ => isTrimmed c
  | _ => false

/-- The groups of lines, behind what the current one has. -/
def groupsFrom : List (List Char) → List (List Char) → List (List (List Char))
  | current, [] => [current]
  | current, line :: lines =>
    if opensSection line && current.any (fun existing => !(trimChars existing).isEmpty) then
      current :: groupsFrom [line] lines
    else groupsFrom (current ++ [line]) lines

/-- A document cut at its `##` headings. -/
def sections (markdown : List Char) : List (List Char) :=
  ((groupsFrom [] ((unixLines markdown).splitOn '\n')).map fun group =>
    trimChars (['\n'].intercalate group)).filter fun group => !group.isEmpty

/-- As many blocks per page as fit; an empty one is passed over. -/
def pack (blocks : List (List Char)) (budget : Nat) (joiner : List Char) : List (List Char) :=
  greedy (exceeds unitsOf budget) joiner [] (blocks.filter fun block => !block.isEmpty)

/-- A line, or the chunks of one that alone is longer than a page. -/
def chunks (budget : Nat) (line : List Char) : List (List Char) :=
  if unitsOf (flatten line) ≤ budget then [line]
  else greedy (fun candidate => exceeds unitsOf budget (flatten candidate)) [' '] []
    (line.splitOn ' ')

/-- What of a section is rendered by itself. -/
def piecesOf (budget : Nat) (part : List Char) : List (List Char) :=
  if unitsOf (flatten part) ≤ budget then [part]
  else (part.splitOn '\n').flatMap (chunks budget)

/-- One section, as pages. -/
def fit (part : List Char) (budget : Nat) : List (List Char) :=
  if unitsOf (flatten part) ≤ budget then [flatten part]
  else pack (((part.splitOn '\n').flatMap (chunks budget)).map flatten) budget ['\n']

/-- The pages, before those no button can name are left out. -/
def allPages (contentMd : List Char) (budget : Nat) : List (List Char) :=
  pack ((sections contentMd).flatMap fun part => fit part budget) budget ['\n', '\n']

def paginatePolicy (contentMd : List Char) (budget : Nat) : List (List Char) :=
  let pages := allPages contentMd budget
  if pages.length = 0 then [[]] else pages.take (MAX_POLICY_PAGE + 1)

/-! ## Blanks around a line -/

section Blanks

variable {w : Char} {s line front : List Char}

theorem blank_plain (h : isTrimmed w = true) : isStarOrWord w = false ∧ escapeChar w = [w] := by
  have hne : ∀ d : Char, isTrimmed d = false → w ≠ d := by
    rintro d hd rfl
    rw [hd] at h
    cases h
  constructor
  · have hcode : ∀ d : Char, w.toNat = d.toNat → w = d := fun d => Char.toNat_inj.1
    simp only [isTrimmed, Bool.or_eq_true, List.contains_iff_mem, List.mem_cons,
      List.not_mem_nil, or_false, Bool.and_eq_true, decide_eq_true_eq] at h
    simp only [isStarOrWord, Bool.or_eq_false_iff, Bool.and_eq_false_iff, decide_eq_false_iff_not]
    exact ⟨⟨⟨⟨hne '*' (by decide), hne '_' (by decide)⟩, by omega⟩, by omega⟩, by omega⟩
  · unfold escapeChar
    split
    · exact absurd rfl (hne '&' (by decide))
    · exact absurd rfl (hne '<' (by decide))
    · exact absurd rfl (hne '>' (by decide))
    · rfl

theorem blank_ne_star (h : isTrimmed w = true) : w ≠ '*' := by
  intro heq
  have hstar : isTrimmed '*' = true := heq ▸ h
  exact absurd hstar (by decide)

/-- A group does not look behind the last asterisk. -/
theorem shortest_blank {closed : Char → List Char → Bool}
    (hstar : ∀ c rest, rest.head? ≠ some '*' → closed c rest = false)
    (hsame : ∀ c rest, closed c (rest ++ [w]) = closed c rest) (s : List Char) :
    shortest closed (s ++ [w]) = shortest closed s := by
  induction s with
  | nil =>
      have hnone : closed w [] = false := hstar w [] (by simp)
      simp [shortest, hnone]
  | cons c s ih => rw [List.cons_append, shortest, shortest, hsame, ih]

theorem patternOf_blank (h : isTrimmed w = true) (a : Emphasis) (prev : Option Char) (c : Char)
    (rest : List Char) : patternOf a prev c (rest ++ [w]) = patternOf a prev c rest := by
  have hw := blank_ne_star h
  cases a with
  | b =>
      have hsame : ∀ c rest, closesBold c (rest ++ [w]) = closesBold c rest := by
        intro c rest
        rcases rest with _ | ⟨x, _ | ⟨y, rest⟩⟩
        · simp [closesBold, List.isPrefixOf]
        · simp [closesBold, List.isPrefixOf, hw.symm]
        · simp [closesBold, List.isPrefixOf]
      have hbehind := shortest_blank (closesBold_closer shows_html).star hsame
      by_cases hc : c = '*'
      · show BOLD prev c (rest ++ [w]) = BOLD prev c rest
        rw [hc]
        by_cases hstar : rest.head? = some '*'
        · obtain ⟨more, rfl⟩ := List.head?_eq_some_iff.1 hstar
          rw [List.cons_append, BOLD_star, BOLD_star, hbehind]
        · have hstar' : (rest ++ [w]).head? ≠ some '*' := by
            cases rest with
            | nil => simpa using hw
            | cons x rest => simpa using hstar
          rw [BOLD_single hstar, BOLD_single hstar']
      · have hnone : ∀ rest, patternOf .b prev c rest = none := fun rest => patternOf_star hc
        rw [hnone, hnone]
  | i =>
      have hsame : ∀ c rest, closesItalic c (rest ++ [w]) = closesItalic c rest := by
        intro c rest
        have hstar := (closesItalic_closer shows_html).star
        rcases rest with _ | ⟨x, rest⟩
        · rw [List.nil_append, hstar c [w] (by simpa using hw), hstar c [] (by simp)]
        · by_cases hx : x = '*'
          · rw [hx]
            show (!isTrimmed c && !(rest ++ [w]).head?.any isStarOrWord) =
              (!isTrimmed c && !rest.head?.any isStarOrWord)
            cases rest with
            | nil => simp [(blank_plain h).1]
            | cons y rest => rfl
          · rw [List.cons_append, hstar c _ (by simpa using hx), hstar c _ (by simpa using hx)]
      have hbehind := shortest_blank (closesItalic_closer shows_html).star hsame
      show ITALIC prev c (rest ++ [w]) = ITALIC prev c rest
      unfold ITALIC
      rw [hbehind]
      cases rest with
      | nil => simp [h, shortest]
      | cons y rest => rfl

theorem patternOf_within (a : Emphasis) : (patternOf a).Within := by
  intro prev c rest group n h
  obtain ⟨after, hshape, hlen⟩ := patternOf_shape h
  have hwhole := congrArg List.length hshape
  rw [List.length_cons, List.length_append] at hwhole
  omega

/-- Emphasis is put in around a blank in front and one behind. -/
theorem emphasis_blank (h : isTrimmed w = true) (a : Emphasis)
    (f : List Char → List Char) (s : List Char) :
    replaceAll (patternOf a) f (w :: s) = w :: replaceAll (patternOf a) f s ∧
      replaceAll (patternOf a) f (s ++ [w]) = replaceAll (patternOf a) f s ++ [w] := by
  have hat : ∀ prev rest, patternOf a prev w rest = none :=
    fun prev rest => patternOf_star (blank_ne_star h)
  have hprev : pieces (patternOf a) (some w) 0 s = pieces (patternOf a) none 0 s := by
    cases s with
    | nil => rfl
    | cons c s =>
        have hsame : patternOf a (some w) c s = patternOf a none c s := by
          cases a with
          | b => rfl
          | i =>
              show ITALIC (some w) c s = ITALIC none c s
              unfold ITALIC
              simp [(blank_plain h).1]
        rw [pieces, pieces, hsame]
  unfold replaceAll
  constructor
  · rw [pieces_unmatched (hat none s), hprev]
    rfl
  · rw [pieces_behind (patternOf_within a) (fun prev => hat prev []) (patternOf_blank h a),
      List.flatMap_append]
    rfl

theorem renderBody_blank (h : isTrimmed w = true) (s : List Char) :
    renderBody (w :: s) = w :: renderBody s ∧ renderBody (s ++ [w]) = renderBody s ++ [w] := by
  have hbold := emphasis_blank h .b fun group => "<b>".toList ++ group ++ "</b>".toList
  have hitalic := emphasis_blank h .i fun group => "<i>".toList ++ group ++ "</i>".toList
  have hescape := (blank_plain h).2
  unfold renderBody bolded escapeHtml
  constructor
  · rw [List.flatMap_cons, hescape]
    exact (congrArg _ (hbold _).1).trans (hitalic _).1
  · rw [List.flatMap_append, List.flatMap_singleton, hescape]
    exact (congrArg _ (hbold _).2).trans (hitalic _).2

theorem trimChars_front (h : isTrimmed w = true) (s : List Char) :
    trimChars (w :: s) = trimChars s := by
  unfold trimChars
  rw [List.dropWhile_cons_of_pos h]

theorem trimChars_back (h : isTrimmed w = true) (s : List Char) :
    trimChars (s ++ [w]) = trimChars s := by
  unfold trimChars
  rw [List.dropWhile_append]
  split
  · next hempty =>
      rw [List.isEmpty_iff.1 hempty, List.dropWhile_cons_of_pos h]
      rfl
  · rw [List.reverse_append, List.reverse_singleton, List.singleton_append,
      List.dropWhile_cons_of_pos h]

/-- What does not see a blank at either end does not see a text trimmed. -/
theorem trimChars_unseen {γ : Type} {f : List Char → γ}
    (hfront : ∀ w s, isTrimmed w = true → f (w :: s) = f s)
    (hback : ∀ w s, isTrimmed w = true → f (s ++ [w]) = f s) (s : List Char) :
    f (trimChars s) = f s := by
  have hdrop : ∀ s : List Char, f (s.dropWhile isTrimmed) = f s := by
    intro s
    induction s with
    | nil => rfl
    | cons w s ih =>
        cases h : isTrimmed w with
        | true => rw [List.dropWhile_cons_of_pos h, ih, hfront w s h]
        | false => rw [List.dropWhile_cons_of_neg (by simp [h])]
  have hdropBack : ∀ s : List Char, f ((s.dropWhile isTrimmed).reverse) = f s.reverse := by
    intro s
    induction s with
    | nil => rfl
    | cons w s ih =>
        cases h : isTrimmed w with
        | true => rw [List.dropWhile_cons_of_pos h, ih, List.reverse_cons, hback w _ h]
        | false => rw [List.dropWhile_cons_of_neg (by simp [h])]
  unfold trimChars
  rw [hdropBack, List.reverse_reverse, hdrop]

end Blanks

/-! ## The words of a rendered text -/

section Reading

variable {w : Char} {s t line front : List Char}

/-- The words of a line, rendered. -/
def rendered (line : List Char) : List (List Char) :=
  if isRule line then [] else words isTrimmed (renderLine line)

/-- The words of the lines of a text, each rendered. -/
def reading (s : List Char) : List (List Char) := (s.splitOn '\n').flatMap rendered

theorem words_back (h : isTrimmed w = true) (s : List Char) :
    words isTrimmed (s ++ [w]) = words isTrimmed s := by
  rw [words_cut h, words_nil, List.append_nil]

theorem words_trimChars (s : List Char) : words isTrimmed (trimChars s) = words isTrimmed s :=
  trimChars_unseen (fun _ _ h => words_sep h) (fun _ s h => words_back h s) s

/-- A line is read the same with other blanks around it. -/
theorem rendered_same {line' : List Char} (htrim : trimChars line' = trimChars line)
    (hbody : words isTrimmed (renderBody line') = words isTrimmed (renderBody line)) :
    rendered line' = rendered line := by
  have hrule : isRule line' = isRule line := by
    unfold isRule
    rw [htrim]
  have hheading : headingText line' = headingText line := by
    unfold headingText
    rw [htrim]
  have hbullet : bulletText line' = bulletText line := by
    unfold bulletText
    rw [htrim]
  unfold rendered renderLine bodyOf
  rw [hrule, hheading, hbullet]
  cases headingText line with
  | some heading => rfl
  | none =>
      cases bulletText line with
      | some text => rfl
      | none =>
          show (if isRule line then [] else words isTrimmed (renderBody line')) =
            (if isRule line then [] else words isTrimmed (renderBody line))
          rw [hbody]

theorem rendered_front (h : isTrimmed w = true) (line : List Char) :
    rendered (w :: line) = rendered line :=
  rendered_same (trimChars_front h line) (by rw [(renderBody_blank h line).1, words_sep h])

theorem rendered_back (h : isTrimmed w = true) (line : List Char) :
    rendered (line ++ [w]) = rendered line :=
  rendered_same (trimChars_back h line) (by rw [(renderBody_blank h line).2, words_back h])

theorem reading_cut (s t : List Char) :
    reading (s ++ '\n' :: t) = reading s ++ reading t := by
  unfold reading
  rw [List.splitOn_append_cons_self, List.flatMap_append]

theorem reading_last (hline : '\n' ∉ line) : reading line = rendered line := by
  have hsplit : line.splitOn '\n' = [line] :=
    splitOn_eq_iff.2 ⟨by simp, by simpa using hline, by simp⟩
  unfold reading
  rw [hsplit, List.flatMap_singleton]

theorem reading_nil : reading [] = [] := by
  rw [reading_last List.not_mem_nil]
  decide

/-- The lines of one text are read as those of another, whatever stands before both on the
    first. -/
def SameReading (s t : List Char) : Prop :=
  ∀ front : List Char, '\n' ∉ front → reading (front ++ s) = reading (front ++ t)

theorem SameReading.cons (h : SameReading s t) (c : Char) : SameReading (c :: s) (c :: t) := by
  intro front hfront
  by_cases hc : c = '\n'
  · rw [hc, reading_cut, reading_cut]
    exact congrArg _ (h [] List.not_mem_nil)
  · have hmore : '\n' ∉ front ++ [c] := by
      simpa [hfront] using fun heq : '\n' = c => hc heq.symm
    have hsame := h (front ++ [c]) hmore
    rwa [List.append_assoc, List.append_assoc] at hsame

theorem sameReading_blank (h : isTrimmed w = true) (s : List Char) :
    SameReading (s ++ [w]) s := by
  induction s with
  | nil =>
      intro front hfront
      rw [List.nil_append, List.append_nil]
      by_cases hw : w = '\n'
      · rw [hw, reading_cut, reading_nil, List.append_nil]
      · have hmore : '\n' ∉ front ++ [w] := by
          simpa [hfront] using fun heq : '\n' = w => hw heq.symm
        rw [reading_last hmore, reading_last hfront, rendered_back h]
  | cons c s ih => exact ih.cons c

theorem sameReading_unixLines (s : List Char) : SameReading (unixLines s) s := by
  fun_induction unixLines s with
  | case1 => exact fun _ _ => rfl
  | case2 rest ih =>
      intro front hfront
      have hmore : '\n' ∉ front ++ ['\r'] := by simpa using hfront
      have hsplit : front ++ '\r' :: '\n' :: rest = front ++ ['\r'] ++ '\n' :: rest := by simp
      rw [reading_cut, hsplit, reading_cut, reading_last hmore, reading_last hfront,
        rendered_back (by decide)]
      exact congrArg _ (ih [] List.not_mem_nil)
  | case3 c rest _ ih => exact ih.cons c

theorem reading_front (h : isTrimmed w = true) (s : List Char) : reading (w :: s) = reading s := by
  by_cases hw : w = '\n'
  · have hcut := reading_cut [] s
    rwa [reading_nil, List.nil_append, List.nil_append, ← hw] at hcut
  · by_cases hs : '\n' ∈ s
    · obtain ⟨line, rest, rfl, hline⟩ := List.eq_append_cons_of_mem hs
      have hmore : '\n' ∉ w :: line := by
        simpa [hline] using fun heq : '\n' = w => hw heq.symm
      rw [← List.cons_append, reading_cut, reading_cut, reading_last hmore, reading_last hline,
        rendered_front h]
    · have hmore : '\n' ∉ w :: s := by
        simpa [hs] using fun heq : '\n' = w => hw heq.symm
      rw [reading_last hmore, reading_last hs, rendered_front h]

theorem reading_trimChars (s : List Char) : reading (trimChars s) = reading s :=
  trimChars_unseen (fun _ s h => reading_front h s)
    (fun _ s h => sameReading_blank h s [] List.not_mem_nil) s

/-- Newlines are dropped between words. -/
theorem words_collapseBlank (s : List Char) :
    (∀ front, words isTrimmed (front ++ collapseBlank 0 s) = words isTrimmed (front ++ s)) ∧
      ∀ kept, words isTrimmed (collapseBlank kept s) = words isTrimmed s := by
  have hnewline : isTrimmed '\n' = true := by decide
  induction s with
  | nil => exact ⟨fun _ => rfl, fun _ => rfl⟩
  | cons c s ih =>
      by_cases hc : c = '\n'
      · subst hc
        refine ⟨fun front => ?_, fun kept => ?_⟩
        · rw [collapseBlank, if_pos rfl, if_neg (by omega), words_cut hnewline, ih.2,
            words_cut hnewline]
        · rw [collapseBlank, if_pos rfl, words_sep hnewline]
          split
          · exact ih.2 kept
          · rw [words_sep hnewline, ih.2]
      · refine ⟨fun front => ?_, fun kept => ?_⟩
        · have hmore := ih.1 (front ++ [c])
          rw [collapseBlank, if_neg hc]
          rwa [List.append_assoc, List.append_assoc] at hmore
        · rw [collapseBlank, if_neg hc]
          exact ih.1 [c]

/-- What is read of a rendered text is what is read of its lines. -/
theorem words_flatten (s : List Char) : words isTrimmed (flatten s) = reading s := by
  have hlines : ∀ lines : List (List Char),
      ((lines.filter fun line => !isRule line).map renderLine).flatMap (words isTrimmed) =
        lines.flatMap rendered := by
    intro lines
    induction lines with
    | nil => rfl
    | cons line lines ih =>
        rw [List.flatMap_cons, ← ih, rendered]
        cases hrule : isRule line with
        | true => rw [List.filter_cons_of_neg (by simp [hrule]), if_pos rfl, List.nil_append]
        | false =>
            rw [List.filter_cons_of_pos (by simp [hrule]), if_neg Bool.false_ne_true]
            rfl
  unfold flatten
  rw [words_trimChars, (words_collapseBlank _).2, words_intercalate (by decide)]
  exact hlines (s.splitOn '\n')

end Reading

/-! ## Sections -/

section Sections

theorem groupsFrom_lines (current lines : List (List Char)) :
    (groupsFrom current lines).flatten = current ++ lines := by
  induction lines generalizing current with
  | nil => simp [groupsFrom]
  | cons line lines ih =>
      rw [groupsFrom]
      split
      · rw [List.flatten_cons, ih, List.singleton_append]
      · rw [ih, List.append_assoc, List.singleton_append]

theorem reading_lines {lines : List (List Char)} (hlines : ∀ line ∈ lines, '\n' ∉ line) :
    reading (['\n'].intercalate lines) = lines.flatMap rendered := by
  by_cases hne : lines = []
  · rw [hne]
    exact reading_nil
  · unfold reading
    rw [splitOn_eq_iff.2 ⟨rfl, hlines, hne⟩]

/-- The sections have the words of the document. -/
theorem words_sections (markdown : List Char) :
    (sections markdown).flatMap (fun part => words isTrimmed (flatten part)) =
      words isTrimmed (flatten markdown) := by
  have hgroups : ∀ groups : List (List (List Char)),
      (∀ group ∈ groups, ∀ line ∈ group, '\n' ∉ line) →
      ((groups.map fun group => trimChars (['\n'].intercalate group)).filter fun group =>
        !group.isEmpty).flatMap (fun part => words isTrimmed (flatten part)) =
      groups.flatten.flatMap rendered := by
    intro groups hgroups
    induction groups with
    | nil => rfl
    | cons group groups ih =>
        obtain ⟨hgroup, hrest⟩ := List.forall_mem_cons.1 hgroups
        have hread : words isTrimmed (flatten (trimChars (['\n'].intercalate group))) =
            group.flatMap rendered := by
          rw [words_flatten, reading_trimChars, reading_lines hgroup]
        rw [List.flatten_cons, List.flatMap_append, ← ih hrest, ← hread, List.map_cons]
        cases htrim : trimChars (['\n'].intercalate group) with
        | nil =>
            rw [List.filter_cons_of_neg (by simp), words_flatten, reading_nil]
            rfl
        | cons c part =>
            rw [List.filter_cons_of_pos (by simp)]
            rfl
  have hsame := sameReading_unixLines markdown [] List.not_mem_nil
  have hlines := groupsFrom_lines [] ((unixLines markdown).splitOn '\n')
  have hfree : ∀ group ∈ groupsFrom [] ((unixLines markdown).splitOn '\n'), ∀ line ∈ group,
      '\n' ∉ line := by
    intro group hgroup line hline
    have hmem : line ∈ (groupsFrom [] ((unixLines markdown).splitOn '\n')).flatten :=
      List.mem_flatten.2 ⟨group, hgroup, hline⟩
    rw [hlines] at hmem
    exact not_mem_of_mem_splitOn hmem
  rw [sections, hgroups _ hfree, hlines, words_flatten]
  exact hsame

end Sections

/-! ## What is on the pages -/

section Pages

variable {budget : Nat} {part page : List Char}

theorem words_pack {joiner : List Char}
    (hjoin : ∀ x y, words isTrimmed (x ++ joiner ++ y) = words isTrimmed x ++ words isTrimmed y)
    (blocks : List (List Char)) :
    (pack blocks budget joiner).flatMap (words isTrimmed) = blocks.flatMap (words isTrimmed) := by
  have hfilter : (blocks.filter fun block => !block.isEmpty).flatMap (words isTrimmed) =
      blocks.flatMap (words isTrimmed) := by
    induction blocks with
    | nil => rfl
    | cons block blocks ih =>
        cases block with
        | nil =>
            rw [List.filter_cons_of_neg (by simp), ih, List.flatMap_cons, words_nil,
              List.nil_append]
        | cons c block =>
            rw [List.filter_cons_of_pos (by simp), List.flatMap_cons, ih, List.flatMap_cons]
  unfold pack
  rw [flatMap_greedy words_nil hjoin, words_nil, List.nil_append, hfilter]

theorem words_newline (x y : List Char) :
    words isTrimmed (x ++ ['\n'] ++ y) = words isTrimmed x ++ words isTrimmed y := by
  rw [List.append_assoc, List.singleton_append, words_cut (by decide)]

/-- A section has the words of its pieces on its pages. -/
theorem words_fit (part : List Char) (budget : Nat) :
    (fit part budget).flatMap (words isTrimmed) =
      (piecesOf budget part).flatMap fun piece => words isTrimmed (flatten piece) := by
  unfold fit piecesOf
  split
  · rw [List.flatMap_singleton, List.flatMap_singleton]
  · rw [words_pack words_newline, List.flatMap_map]

/-- A page that is longer than the budget is one word, rendered. -/
theorem mem_fit (h : page ∈ fit part budget) : unitsOf page ≤ budget ∨
    ∃ word, ' ' ∉ word ∧ '\n' ∉ word ∧ page = flatten word := by
  unfold fit at h
  split at h
  · next hwhole =>
      rw [List.mem_singleton.1 h]
      exact .inl hwhole
  · obtain ⟨hne, hfits | rfl | hblock⟩ := mem_greedy h
    · exact .inl (Nat.not_lt.1 (of_decide_eq_false hfits))
    · exact absurd rfl hne
    · obtain ⟨piece, hpiece, rfl⟩ := List.mem_map.1 (List.mem_filter.1 hblock).1
      obtain ⟨line, hline, hchunk⟩ := List.mem_flatMap.1 hpiece
      unfold chunks at hchunk
      split at hchunk
      · next hfits =>
          rw [List.mem_singleton.1 hchunk]
          exact .inl hfits
      · obtain ⟨hne', hfits | rfl | hword⟩ := mem_greedy hchunk
        · exact .inl (Nat.not_lt.1 (of_decide_eq_false hfits))
        · exact absurd rfl hne'
        · refine .inr ⟨piece, not_mem_of_mem_splitOn hword, fun hnewline => ?_, rfl⟩
          exact not_mem_of_mem_splitOn hline (mem_of_mem_splitOnP hword hnewline)

theorem words_allPages (contentMd : List Char) (budget : Nat) :
    (allPages contentMd budget).flatMap (words isTrimmed) =
      (sections contentMd).flatMap fun part =>
        (piecesOf budget part).flatMap fun piece => words isTrimmed (flatten piece) := by
  have hjoin : ∀ x y, words isTrimmed (x ++ ['\n', '\n'] ++ y) =
      words isTrimmed x ++ words isTrimmed y := by
    intro x y
    rw [List.append_assoc]
    show words isTrimmed (x ++ '\n' :: '\n' :: y) = _
    rw [words_cut (by decide), words_sep (by decide)]
  unfold allPages
  rw [words_pack hjoin, List.flatMap_assoc]
  exact List.flatMap_congr fun part _ => words_fit part budget

theorem mem_allPages {contentMd : List Char} (h : page ∈ allPages contentMd budget) :
    unitsOf page ≤ budget ∨ ∃ word, ' ' ∉ word ∧ '\n' ∉ word ∧ page = flatten word := by
  obtain ⟨hne, hfits | rfl | hblock⟩ := mem_greedy h
  · exact .inl (Nat.not_lt.1 (of_decide_eq_false hfits))
  · exact absurd rfl hne
  · obtain ⟨part, _, hpage⟩ := List.mem_flatMap.1 (List.mem_filter.1 hblock).1
    exact mem_fit hpage

/-- Where no line is longer than a page, the pieces have the words of the section. -/
theorem words_pieces (hlines : ∀ line ∈ part.splitOn '\n', unitsOf (flatten line) ≤ budget) :
    ((piecesOf budget part).flatMap fun piece => words isTrimmed (flatten piece)) =
      words isTrimmed (flatten part) := by
  unfold piecesOf
  split
  · exact List.flatMap_singleton _ _
  · rw [List.flatMap_assoc, words_flatten, reading]
    refine List.flatMap_congr fun line hline => ?_
    rw [chunks, if_pos (hlines line hline), List.flatMap_singleton, words_flatten,
      reading_last (not_mem_of_mem_splitOn hline)]

/-- The pieces are the section, cut between words. -/
theorem words_chunks (line : List Char) :
    (chunks budget line).flatMap (words isTrimmed) = words isTrimmed line := by
  have hblank : isTrimmed ' ' = true := by decide
  have hjoin : ∀ x y, words isTrimmed (x ++ [' '] ++ y) =
      words isTrimmed x ++ words isTrimmed y := by
    intro x y
    rw [List.append_assoc, List.singleton_append, words_cut hblank]
  unfold chunks
  split
  · exact List.flatMap_singleton _ _
  · rw [flatMap_greedy words_nil hjoin, words_nil, List.nil_append, ← words_intercalate hblank,
      List.intercalate_splitOn]

theorem words_piecesOf (part : List Char) :
    (piecesOf budget part).flatMap (words isTrimmed) = words isTrimmed part := by
  unfold piecesOf
  split
  · exact List.flatMap_singleton _ _
  · rw [List.flatMap_assoc, List.flatMap_congr fun line _ => words_chunks line,
      ← words_intercalate (c := '\n') (by decide), List.intercalate_splitOn]

/-- The pages that buttons can name, with those beyond them. -/
theorem paginatePolicy_append (contentMd : List Char) (budget : Nat) :
    paginatePolicy contentMd budget ++ (allPages contentMd budget).drop (MAX_POLICY_PAGE + 1) =
      if allPages contentMd budget = [] then [[]] else allPages contentMd budget := by
  unfold paginatePolicy
  cases hpages : allPages contentMd budget with
  | nil => rfl
  | cons page pages =>
      rw [if_neg (by simp), if_neg (by simp)]
      exact List.take_append_drop _ _

/-- There are as many pages as buttons can name, or fewer, and none beyond fewer.  A page is
    within the budget or one word that alone is longer.  With those beyond them the pages have,
    once and in order, the words of what was rendered by itself: sections, lines of one longer
    than a page, and chunks of a line longer than a page, cut between words.  Where no line is
    longer than a page they are the words of the rendered document. -/
theorem paginatePolicy_carries (contentMd : List Char) (budget : Nat) :
    (paginatePolicy contentMd budget).length ≤ MAX_POLICY_PAGE + 1 ∧
      ((allPages contentMd budget).drop (MAX_POLICY_PAGE + 1) ≠ [] →
        (paginatePolicy contentMd budget).length = MAX_POLICY_PAGE + 1) ∧
      (∀ page ∈ paginatePolicy contentMd budget, unitsOf page ≤ budget ∨
        ∃ word, ' ' ∉ word ∧ '\n' ∉ word ∧ page = flatten word) ∧
      (paginatePolicy contentMd budget ++
          (allPages contentMd budget).drop (MAX_POLICY_PAGE + 1)).flatMap (words isTrimmed) =
        ((sections contentMd).flatMap fun part =>
          (piecesOf budget part).flatMap fun piece => words isTrimmed (flatten piece)) ∧
      (∀ part ∈ sections contentMd,
        (piecesOf budget part).flatMap (words isTrimmed) = words isTrimmed part) ∧
      ((∀ part ∈ sections contentMd, ∀ line ∈ part.splitOn '\n',
          unitsOf (flatten line) ≤ budget) →
        (paginatePolicy contentMd budget ++
            (allPages contentMd budget).drop (MAX_POLICY_PAGE + 1)).flatMap (words isTrimmed) =
          words isTrimmed (flatten contentMd)) := by
  have hwords : (paginatePolicy contentMd budget ++
      (allPages contentMd budget).drop (MAX_POLICY_PAGE + 1)).flatMap (words isTrimmed) =
      ((sections contentMd).flatMap fun part =>
        (piecesOf budget part).flatMap fun piece => words isTrimmed (flatten piece)) := by
    rw [paginatePolicy_append, ← words_allPages]
    split
    · next hnone => simp [hnone]
    · rfl
  refine ⟨?_, fun hbeyond => ?_, fun page hpage => ?_, hwords, fun part _ => words_piecesOf part,
    fun hlines => ?_⟩
  · unfold paginatePolicy
    dsimp only
    split
    · simp
    · exact List.length_take_le _ _
  · have hlong : MAX_POLICY_PAGE + 1 < (allPages contentMd budget).length :=
      Nat.lt_of_not_le fun hle => hbeyond (List.drop_eq_nil_of_le hle)
    unfold paginatePolicy
    dsimp only
    rw [if_neg (by omega), List.length_take]
    omega
  · unfold paginatePolicy at hpage
    dsimp only at hpage
    split at hpage
    · rw [List.mem_singleton.1 hpage]
      exact .inl (Nat.zero_le budget)
    · exact mem_allPages (List.mem_of_mem_take hpage)
  · rw [hwords, ← words_sections]
    exact List.flatMap_congr fun part hpart => words_pieces (hlines part hpart)

/-- One word for each page that a button can name, and one more. -/
def manyWords : List Char := [' '].intercalate (List.replicate (MAX_POLICY_PAGE + 2) ['a'])

/-- One word is longer than a page, emphasis is cut in two, and the last word is left out. -/
theorem pages_fall_short :
    (∃ page ∈ paginatePolicy ['a', 'b'] 1, 1 < unitsOf page) ∧
      (paginatePolicy "**a b**".toList 9).flatMap (words isTrimmed) ≠
        words isTrimmed (flatten "**a b**".toList) ∧
      (paginatePolicy manyWords 1).flatMap (words isTrimmed) ≠
        words isTrimmed (flatten manyWords) := by
  refine ⟨?_, ?_, ?_⟩ <;> decide

theorem unitsOf_append (x y : List Char) : unitsOf (x ++ y) = unitsOf x + unitsOf y := by
  unfold unitsOf
  rw [List.map_append, List.sum_append]

/-- No way to put the pages of the sections, in order, on pages that are within the budget or
    of one block takes fewer pages. -/
theorem allPages_fewest (contentMd : List Char) (budget : Nat) (pages : List (List (List Char)))
    (hblocks : pages.flatten = ((sections contentMd).flatMap fun part => fit part budget).filter
      fun block => !block.isEmpty)
    (hfits : ∀ page ∈ pages,
      page.length ≤ 1 ∨ unitsOf (['\n', '\n'].intercalate page) ≤ budget) :
    (allPages contentMd budget).length ≤ pages.length := by
  unfold allPages pack
  rw [← hblocks]
  refine length_greedy_le unitsOf_append pages hfits fun block hblock => ?_
  rw [hblocks] at hblock
  have hne := (List.mem_filter.1 hblock).2
  rintro rfl
  cases hne

/-- Two sections that fit on one page together are one page. -/
theorem allPages_fewest_two :
    (allPages "a\n## b".toList 20).length ≤ [["a".toList, "<b>b</b>".toList]].length :=
  allPages_fewest _ 20 _ (by decide) (by decide +kernel)

end Pages

end Markdown

end Paayatam
