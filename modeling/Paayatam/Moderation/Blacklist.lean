/-
  Paayatam.Moderation.Blacklist

  `BlacklistService.match`: which rules of the blacklist a text meets.

  A text is judged by its tokens, its stretches of letters and digits, and a term
  by its parts, what stands between its spaces.  The two cuts agree on a term
  that is one token, and only there does an EXACT rule do what it is for
  (`matches_itself_iff`).
-/

import Mathlib.Data.List.Infix
import Paayatam.Moderation.NormalWords

namespace Paayatam

open Lib

namespace Normalizer

inductive BlacklistPatternType where
  | EXACT | SUBSTRING | REGEX
  deriving DecidableEq

inductive BlacklistSeverity where
  | BLOCK | FLAG
  deriving DecidableEq

structure BlacklistRule where
  id : String
  termRaw : List Char
  termNormalized : List Char
  patternType : BlacklistPatternType
  severity : BlacklistSeverity
  category : Option String

structure BlacklistMatch where
  termId : String
  termRaw : List Char
  patternType : BlacklistPatternType
  severity : BlacklistSeverity
  category : Option String
  deriving DecidableEq

def toMatch (rule : BlacklistRule) : BlacklistMatch where
  termId := rule.id
  termRaw := rule.termRaw
  patternType := rule.patternType
  severity := rule.severity
  category := rule.category

/-- The longest text a pattern is tried on, in UTF-16 units. -/
def MAX_REGEX_SUBJECT_LENGTH : Nat := 4000

/-- `new RegExp(pattern, 'u').test(subject)`, nothing when it throws. -/
abbrev RegexTest := List Char → List Char → Option Bool

def regexMatches (regex : RegexTest) (rule : BlacklistRule) (normalized : List Char) : Bool :=
  if MAX_REGEX_SUBJECT_LENGTH < utf16Length (String.ofList normalized) then false
  else (regex rule.termNormalized normalized).getD false

/-- `part.length === 0 || tokens.has(part)` for every part of the term. -/
def exactMatches (rule : BlacklistRule) (tokens : List (List Char)) : Bool :=
  (rule.termNormalized.splitOn ' ').all fun part => part.length = 0 || tokens.contains part

def ruleMatches (regex : RegexTest) (rule : BlacklistRule) (normalized : List Char)
    (tokens : List (List Char)) : Bool :=
  match rule.patternType with
  | .EXACT => exactMatches rule tokens
  | .SUBSTRING => decide (rule.termNormalized <:+: normalized)
  | .REGEX => regexMatches regex rule normalized

/-- `match`. -/
def matchRules (u : Unicode) (regex : RegexTest) (rawText : List Char)
    (rules : List BlacklistRule) : List BlacklistMatch :=
  let normalized := normalize u rawText
  (rules.filter fun rule => ruleMatches regex rule normalized (tokenize u normalized)).map toMatch

/-! ## What a rule is for -/

/-- The term stands in the text as a whole, with spaces around it or nothing. -/
def StandsIn (term text : List Char) : Prop :=
  ∃ front back, text = front ++ term ++ back ∧
    (front = [] ∨ ∃ before, front = before ++ [' ']) ∧ (back = [] ∨ ∃ behind, back = ' ' :: behind)

/-- A text that has the term standing in it is reported. -/
def MatchesItself (u : Unicode) (regex : RegexTest) (rule : BlacklistRule) : Prop :=
  ∀ text rules, StandsIn rule.termRaw text → rule ∈ rules →
    toMatch rule ∈ matchRules u regex text rules

/-- A reported text has the term's tokens one after the other. -/
def MatchesOnlyItself (u : Unicode) (regex : RegexTest) (rule : BlacklistRule) : Prop :=
  ∀ text, toMatch rule ∈ matchRules u regex text [rule] →
    tokenize u rule.termNormalized <:+: tokenize u (normalize u text)

section Matching

variable {u : Unicode} {regex : RegexTest} {rule : BlacklistRule}

/-- A rule is reported as it would be alone. -/
theorem matchRules_single {text : List Char} : toMatch rule ∈ matchRules u regex text [rule] ↔
    ruleMatches regex rule (normalize u text) (tokenize u (normalize u text)) = true := by
  unfold matchRules
  cases h : ruleMatches regex rule (normalize u text) (tokenize u (normalize u text)) with
  | true => simp [h]
  | false => simp [h]

theorem matchRules_mem {text : List Char} {rules : List BlacklistRule} (hrule : rule ∈ rules)
    (h : ruleMatches regex rule (normalize u text) (tokenize u (normalize u text)) = true) :
    toMatch rule ∈ matchRules u regex text rules :=
  List.mem_map_of_mem (List.mem_filter.2 ⟨hrule, h⟩)

theorem exactMatches_iff {tokens : List (List Char)} : exactMatches rule tokens = true ↔
    ∀ part ∈ rule.termNormalized.splitOn ' ', part ≠ [] → part ∈ tokens := by
  unfold exactMatches
  rw [List.all_eq_true]
  refine forall_congr' fun part => forall_congr' fun _ => ?_
  rw [Bool.or_eq_true, decide_eq_true_eq, List.length_eq_zero_iff, List.contains_iff_mem]
  exact Decidable.or_iff_not_imp_left

/-- The tokens of a text are letters and digits. -/
theorem mem_tokenize {normalized token : List Char} (h : token ∈ tokenize u normalized) :
    token ≠ [] ∧ ∀ c ∈ token, u.isLetterOrNumber c = true := by
  obtain ⟨hne, hfree⟩ := mem_words h
  exact ⟨hne, fun c hc => by simpa using hfree c hc⟩

theorem tokenize_self {token : List Char} (hne : token ≠ [])
    (h : ∀ c ∈ token, u.isLetterOrNumber c = true) : tokenize u token = [token] :=
  words_self (fun c hc => by simp [h c hc]) hne

theorem tokenize_joined (hu : u.Lawful) (ws : List (List Char)) :
    tokenize u (joined ws) = ws.flatMap (tokenize u) :=
  words_intercalate (by simp [hu.space_apart])

/-- The words of a text around a term. -/
theorem standsIn_words (hu : u.Lawful) {term text : List Char} (h : StandsIn term text) :
    ∃ front back, readWords u text = front ++ readWords u term ++ back := by
  obtain ⟨front, back, rfl, hfront, hback⟩ := h
  have hterm : ∃ behind, readWords u (term ++ back) = readWords u term ++ behind := by
    rcases hback with rfl | ⟨behind, rfl⟩
    · exact ⟨[], by simp⟩
    · exact ⟨readWords u behind, readWords_cut hu (by decide) term behind⟩
  obtain ⟨behind, hbehind⟩ := hterm
  rcases hfront with rfl | ⟨before, rfl⟩
  · exact ⟨[], behind, by simpa using hbehind⟩
  · refine ⟨readWords u before, behind, ?_⟩
    have hsplit : before ++ [' '] ++ term ++ back = before ++ ' ' :: (term ++ back) := by simp
    rw [hsplit, readWords_cut hu (by decide), hbehind, List.append_assoc]

theorem joined_back (xs ys : List (List Char)) : joined ys <:+ joined (xs ++ ys) := by
  induction xs with
  | nil => exact List.suffix_rfl
  | cons x xs ih =>
      rw [List.cons_append]
      cases hrest : xs ++ ys with
      | nil =>
          obtain ⟨-, rfl⟩ := List.append_eq_nil_iff.1 hrest
          exact List.nil_suffix
      | cons next rest =>
          rw [joined_split]
          rw [hrest] at ih
          exact ih.trans (List.suffix_append_of_suffix (List.suffix_cons ' ' _))

theorem joined_front (xs ys : List (List Char)) : joined xs <+: joined (xs ++ ys) := by
  induction xs with
  | nil => exact List.nil_prefix
  | cons x xs ih =>
      cases xs with
      | nil =>
          cases ys with
          | nil => exact List.prefix_rfl
          | cons y ys =>
              rw [List.singleton_append, joined_split]
              simp [joined]
      | cons next xs =>
          rw [List.cons_append, List.cons_append, joined_split, joined_split,
            List.prefix_append_right_inj, List.cons_prefix_cons]
          exact ⟨rfl, ih⟩

/-- A term that stands in a text stands in it normalized. -/
theorem normalize_infix (hu : u.Lawful) {term text : List Char} (h : StandsIn term text) :
    normalize u term <:+: normalize u text := by
  obtain ⟨front, back, hwords⟩ := standsIn_words hu h
  rw [normalize_eq hu, normalize_eq hu, hwords, List.map_append, List.map_append]
  exact (joined_back _ _).isInfix.trans (joined_front _ _).isInfix

/-- A term that is one token is one of the tokens of a text it stands in. -/
theorem token_of_standsIn (hu : u.Lawful) {term text : List Char}
    (hne : normalize u term ≠ []) (hln : ∀ c ∈ normalize u term, u.isLetterOrNumber c = true)
    (h : StandsIn term text) : normalize u term ∈ tokenize u (normalize u text) := by
  obtain ⟨front, back, hwords⟩ := standsIn_words hu h
  have hone : normalize u term ∈ (readWords u term).map (finish u) := by
    have hspace : ' ' ∉ normalize u term := by
      intro hin
      have happart := hln ' ' hin
      rw [hu.space_apart] at happart
      cases happart
    rw [normalize_eq hu] at hne hspace ⊢
    generalize (readWords u term).map (finish u) = ws at hne hspace ⊢
    cases ws with
    | nil => exact absurd rfl hne
    | cons w ws =>
        cases ws with
        | nil => simp [joined]
        | cons next ws =>
            refine absurd ?_ hspace
            rw [joined_split]
            simp
  rw [normalize_eq hu text, tokenize_joined hu, List.mem_flatMap]
  refine ⟨normalize u term, ?_, ?_⟩
  · rw [hwords, List.map_append, List.map_append]
    simp [hone]
  · rw [tokenize_self hne hln]
    exact List.mem_singleton.2 rfl

/-- Words of letters and digits are the tokens of their text. -/
theorem tokenize_words (hu : u.Lawful) {ws : List (List Char)}
    (hws : ∀ w ∈ ws, w ≠ [] ∧ ∀ c ∈ w, u.isLetterOrNumber c = true) :
    tokenize u (joined ws) = ws :=
  words_join (by simp [hu.space_apart]) fun w hw =>
    ⟨(hws w hw).1, fun c hc => by simp [(hws w hw).2 c hc]⟩

/-- A reported text without its own tokens in order: for a term of several tokens there is one. -/
theorem reported_apart (fs : List (List Char)) (hlen : 2 ≤ fs.length) :
    ¬ (fs <:+: fs.reverse ∧ ((∀ f ∈ fs, f ∈ fs.tail) → fs <:+: fs.tail)) := by
  rintro ⟨hreverse, htail⟩
  have hsame : fs = fs.reverse := hreverse.eq_of_length (by simp)
  have hcovered : ∀ f ∈ fs, f ∈ fs.tail := by
    cases fs with
    | nil => simp
    | cons f fs =>
        have hlast : f ∈ fs := by
          rw [List.reverse_cons] at hsame
          cases fs with
          | nil => simp at hlen
          | cons g fs =>
              have hend := congrArg List.getLast? hsame
              rw [List.getLast?_append, List.getLast?_cons_cons] at hend
              exact List.mem_of_getLast? (by simpa using hend)
        exact List.forall_mem_cons.2 ⟨hlast, fun g hg => hg⟩
  have hshort := (htail hcovered).length_le
  rw [List.length_tail] at hshort
  omega

/-- An EXACT rule whose term is a list of words matches a text that has the words, in any
    order. -/
theorem exact_words {ws : List (List Char)} {tokens : List (List Char)} (hne : ws ≠ [])
    (hws : ∀ w ∈ ws, IsWord w) (hterm : rule.termNormalized = joined ws) :
    exactMatches rule tokens = true ↔ ∀ w ∈ ws, w ∈ tokens := by
  have hparts : rule.termNormalized.splitOn ' ' = ws := by
    rw [hterm]
    exact List.splitOn_intercalate ' ' (fun w hw => (hws w hw).2) hne
  rw [exactMatches_iff, hparts]
  exact ⟨fun h w hw => h w hw (hws w hw).1, fun h w hw _ => h w hw⟩

theorem mem_joined {w : List Char} {ws : List (List Char)} (hw : w ∈ ws) {c : Char} (hc : c ∈ w) :
    c ∈ joined ws := by
  obtain ⟨front, back, rfl⟩ := List.append_of_mem hw
  have hin : joined (w :: back) <:+: joined (front ++ w :: back) := (joined_back _ _).isInfix
  have hfirst : joined [w] <:+: joined ([w] ++ back) := (joined_front _ _).isInfix
  refine (hfirst.trans hin).subset ?_
  simpa [joined] using hc

/-- A term without spaces is its only part. -/
theorem exact_token {tokens : List (List Char)} (hne : rule.termNormalized ≠ [])
    (hspace : ' ' ∉ rule.termNormalized) :
    exactMatches rule tokens = true ↔ rule.termNormalized ∈ tokens := by
  rw [exactMatches_iff, List.splitOn_eq_singleton hspace]
  simp [hne]

/-- An EXACT rule that matches its own term has a term of letters and digits. -/
theorem exact_tokens (htype : rule.patternType = .EXACT) (hself : MatchesItself u regex rule) :
    ∀ c ∈ rule.termNormalized, c = ' ' ∨ u.isLetterOrNumber c = true := by
  intro c hc
  by_cases hspace : c = ' '
  · exact .inl hspace
  · right
    have hstands : StandsIn rule.termRaw rule.termRaw := ⟨[], [], by simp, .inl rfl, .inl rfl⟩
    have hreported := matchRules_single.1 (hself rule.termRaw [rule] hstands (by simp))
    unfold ruleMatches at hreported
    rw [htype] at hreported
    have hparts := exactMatches_iff.1 hreported
    have hin : c ∈ joined (rule.termNormalized.splitOn ' ') := by
      have hjoin : joined (rule.termNormalized.splitOn ' ') = rule.termNormalized :=
        List.intercalate_splitOn ' '
      rw [hjoin]
      exact hc
    rcases mem_joined_cases hin with heq | ⟨part, hpart, hcpart⟩
    · exact absurd heq hspace
    · exact (mem_tokenize (hparts part hpart (List.ne_nil_of_mem hcpart))).2 c hcpart

/-- An EXACT rule that is reported only for its tokens in order has one word at most. -/
theorem exact_single (hu : u.Lawful) (hterm : rule.termNormalized = normalize u rule.termRaw)
    (htype : rule.patternType = .EXACT)
    (hln : ∀ c ∈ rule.termNormalized, c = ' ' ∨ u.isLetterOrNumber c = true)
    (honly : MatchesOnlyItself u regex rule) : (readWords u rule.termRaw).length ≤ 1 := by
  by_contra hmany
  obtain ⟨qs, hqs⟩ := readWords_pieces hu [] rule.termRaw (by simp)
  rw [List.nil_append] at hqs
  have hfs : rule.termNormalized = joined ((readWords u rule.termRaw).map (finish u)) := by
    rw [hterm, normalize_eq hu]
  have hwords : ∀ f ∈ (readWords u rule.termRaw).map (finish u), IsWord f := by
    rw [List.forall_mem_map]
    exact fun w hw => finish_word hu (readWords_word hw)
  have htokens : ∀ f ∈ (readWords u rule.termRaw).map (finish u),
      f ≠ [] ∧ ∀ c ∈ f, u.isLetterOrNumber c = true := by
    intro f hf
    refine ⟨(hwords f hf).1, fun c hc => ?_⟩
    rcases hln c (hfs ▸ mem_joined hf hc) with rfl | hletter
    · exact absurd hc (hwords f hf).2
    · exact hletter
  -- a text made of stretches of the term, one for each word of `vs`
  have htext : ∀ rs vs : List (List Char), rs ≠ [] → rs.map (readWords u) = vs.map (fun v => [v]) →
      (∀ v ∈ vs, v ∈ readWords u rule.termRaw) →
      (∀ f ∈ (readWords u rule.termRaw).map (finish u), f ∈ vs.map (finish u)) →
        (readWords u rule.termRaw).map (finish u) <:+: vs.map (finish u) := by
    intro rs vs hrs hread hvs hall
    have hnormal : normalize u (joined rs) = joined (vs.map (finish u)) := by
      rw [normalize_eq hu, readWords_joined hu hrs, List.flatMap_def, hread, ← List.flatMap_def,
        List.flatMap_singleton']
    have htokenize : tokenize u (normalize u (joined rs)) = vs.map (finish u) := by
      rw [hnormal]
      refine tokenize_words hu ?_
      rw [List.forall_mem_map]
      exact fun v hv => htokens (finish u v) (List.mem_map_of_mem (hvs v hv))
    have hreported : toMatch rule ∈ matchRules u regex (joined rs) [rule] := by
      refine matchRules_single.2 ?_
      unfold ruleMatches
      rw [htype, htokenize]
      refine (exact_words ?_ hwords hfs).2 hall
      intro hnil
      rw [List.map_eq_nil_iff.1 hnil] at hmany
      exact hmany (Nat.zero_le 1)
    have hinfix := honly (joined rs) hreported
    rwa [htokenize, hfs, tokenize_words hu htokens] at hinfix
  have hlen : qs.length = (readWords u rule.termRaw).length := by
    have hmaps := congrArg List.length hqs
    rwa [List.length_map, List.length_map] at hmaps
  refine reported_apart ((readWords u rule.termRaw).map (finish u))
    (by rw [List.length_map]; omega) ⟨?_, fun htail => ?_⟩
  · rw [← List.map_reverse]
    refine htext qs.reverse _ ?_ ?_ (fun v hv => List.mem_reverse.1 hv) ?_
    · intro hnil
      rw [List.reverse_eq_nil_iff.1 hnil] at hlen
      exact hmany (hlen ▸ Nat.zero_le 1)
    · rw [List.map_reverse, hqs, List.map_reverse]
    · intro f hf
      rw [List.map_reverse, List.mem_reverse]
      exact hf
  · rw [← List.map_tail] at htail ⊢
    refine htext qs.tail _ ?_ ?_ (fun v hv => List.mem_of_mem_tail hv) htail
    · intro hnil
      have hshort := congrArg List.length hnil
      rw [List.length_tail, List.length_nil] at hshort
      omega
    · rw [List.map_tail, hqs, List.map_tail]

theorem matches_itself_iff (hu : u.Lawful)
    (hterm : rule.termNormalized = normalize u rule.termRaw) (hne : rule.termNormalized ≠ [])
    (htype : rule.patternType ≠ .REGEX) :
    (MatchesItself u regex rule ∧
        (rule.patternType = .EXACT → MatchesOnlyItself u regex rule)) ↔
      (rule.patternType = .EXACT → ∀ c ∈ rule.termNormalized, u.isLetterOrNumber c = true) := by
  constructor
  · rintro ⟨hself, honly⟩ hexact c hc
    have hln := exact_tokens hexact hself
    have hone := exact_single hu hterm hexact hln (honly hexact)
    rcases hln c hc with rfl | hletter
    · -- one word has no space in it
      rw [hterm, normalize_eq hu] at hc
      have hfinished : ∀ f ∈ (readWords u rule.termRaw).map (finish u), IsWord f := by
        rw [List.forall_mem_map]
        exact fun w hw => finish_word hu (readWords_word hw)
      rw [← List.length_map (f := finish u)] at hone
      generalize (readWords u rule.termRaw).map (finish u) = fs at hc hone hfinished
      cases fs with
      | nil => cases hc
      | cons f fs =>
          rw [List.length_cons] at hone
          obtain rfl : fs = [] := List.length_eq_zero_iff.1 (by omega)
          have hin : ' ' ∈ f := by simpa [joined] using hc
          exact absurd hin (hfinished f List.mem_cons_self).2
    · exact hletter
  · intro hcond
    have hspace : rule.patternType = .EXACT → ' ' ∉ rule.termNormalized := by
      intro hexact hin
      have happart := hcond hexact ' ' hin
      rw [hu.space_apart] at happart
      cases happart
    refine ⟨fun text rules hstands hrule => matchRules_mem hrule ?_, fun hexact text h => ?_⟩
    · unfold ruleMatches
      cases hkind : rule.patternType with
      | EXACT =>
          have htoken := token_of_standsIn hu (hterm ▸ hne) (hterm ▸ hcond hkind) hstands
          rw [← hterm] at htoken
          exact (exact_token hne (hspace hkind)).2 htoken
      | SUBSTRING =>
          have hinfix := normalize_infix hu hstands
          rw [← hterm] at hinfix
          exact decide_eq_true hinfix
      | REGEX => exact absurd hkind htype
    · have hreported := matchRules_single.1 h
      unfold ruleMatches at hreported
      rw [hexact] at hreported
      have htoken := (exact_token hne (hspace hexact)).1 hreported
      rw [tokenize_self hne (hcond hexact)]
      obtain ⟨front, back, htokens⟩ := List.append_of_mem htoken
      exact ⟨front, back, by rw [htokens]; simp⟩

end Matching

def exactRule (term : String) : BlacklistRule where
  id := "term"
  termRaw := term.toList
  termNormalized := normalize plainUnicode term.toList
  patternType := .EXACT
  severity := .FLAG
  category := none

/-- A term with a full stop is never found, not even in itself. -/
theorem dotted_term_never_matches : ¬ ∀ (u : Unicode) (regex : RegexTest) (rule : BlacklistRule),
    u.Lawful → rule.termNormalized = normalize u rule.termRaw → rule.termNormalized ≠ [] →
      rule.patternType ≠ .REGEX → MatchesItself u regex rule ∧
        (rule.patternType = .EXACT → MatchesOnlyItself u regex rule) := by
  intro h
  obtain ⟨hself, -⟩ := h plainUnicode (fun _ _ => none) (exactRule "t.me") plainUnicode_lawful rfl
    (by decide) (by decide)
  have hstands : StandsIn (exactRule "t.me").termRaw "t.me".toList :=
    ⟨[], [], by simp [exactRule], .inl rfl, .inl rfl⟩
  have hreported := hself "t.me".toList [exactRule "t.me"] hstands (by simp)
  exact absurd hreported (by decide)

/-- A term that is one word is found exactly where it stands. -/
theorem matches_itself_word :
    (MatchesItself plainUnicode (fun _ _ => none) (exactRule "Poker") ∧
        ((exactRule "Poker").patternType = .EXACT →
          MatchesOnlyItself plainUnicode (fun _ _ => none) (exactRule "Poker"))) ↔
      ((exactRule "Poker").patternType = .EXACT →
        ∀ c ∈ (exactRule "Poker").termNormalized, plainUnicode.isLetterOrNumber c = true) :=
  matches_itself_iff plainUnicode_lawful rfl (by decide) (by decide)

end Normalizer

end Paayatam
