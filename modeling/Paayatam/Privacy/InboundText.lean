/-
  Paayatam.Privacy.InboundText

  What `sanitizeInbound` keeps of a text, and what it writes down.

  The text that goes on shows no contact detail, whatever the entities are, and
  each piece that was masked is recorded as it stood.  Sanitized again, the text
  shows nothing to mask; it stays as it is unless a placeholder the sender had
  spread became one beside another.
-/

import Paayatam.Privacy.Sanitized

namespace Paayatam

open Lib

namespace Sanitizer

/-! ## The symbols of a sanitized text -/

theorem toNat_latin {n : Nat} (h : n ≤ 57) : (Char.ofNat n).toNat = n := by
  have valid : n.isValidChar := .inl (by omega)
  rw [Char.ofNat, dif_pos valid]
  rfl

theorem normalizeDigit_latin {c : Char} (h : c.toNat < 0x660) : normalizeDigit c = c := by
  rw [normalizeDigit, if_neg (by omega), if_neg (by omega)]

/-- A digit is normalized once. -/
theorem normalizeDigit_twice (c : Char) : normalizeDigit (normalizeDigit c) = normalizeDigit c := by
  by_cases extended : 0x6f0 ≤ c.toNat ∧ c.toNat ≤ 0x6f9
  · have digit : normalizeDigit c = Char.ofNat (c.toNat - 0x6f0 + 48) := by
      rw [normalizeDigit, if_pos extended]
    rw [digit, normalizeDigit_latin]
    rw [toNat_latin (by omega)]
    omega
  · by_cases arabic : 0x660 ≤ c.toNat ∧ c.toNat ≤ 0x669
    · have digit : normalizeDigit c = Char.ofNat (c.toNat - 0x660 + 48) := by
        rw [normalizeDigit, if_neg extended, if_pos arabic]
      rw [digit, normalizeDigit_latin]
      rw [toNat_latin (by omega)]
      omega
    · have plain : normalizeDigit c = c := by
        rw [normalizeDigit, if_neg extended, if_neg arabic]
      rw [plain, plain]

/-- Only a Latin digit is what another symbol is normalized to. -/
theorem eq_of_normalizeDigit {c d : Char} (h : normalizeDigit c = d) (hd : d.isDigit = false) :
    c = d := by
  have digit : ∀ k, k ≤ 9 → (Char.ofNat (k + 48)).isDigit = true := by
    intro k small
    have value : (Char.ofNat (k + 48)).val.toNat = k + 48 := toNat_latin (by omega)
    simp only [Char.isDigit, Bool.and_eq_true, decide_eq_true_eq, ge_iff_le,
      UInt32.le_iff_toNat_le, value]
    show 48 ≤ k + 48 ∧ k + 48 ≤ 57
    omega
  unfold normalizeDigit at h
  split at h
  · rw [← h, digit _ (by omega)] at hd
    cases hd
  · split at h
    · rw [← h, digit _ (by omega)] at hd
      cases hd
    · exact h

/-- A step adds no symbols but those of the placeholder. -/
theorem mem_mask {r : Regex Char} {text : List Char} {c : Char} (h : c ∈ mask r text) :
    c ∈ text ∨ c ∈ REDACTION_PLACEHOLDER := by
  rcases (masked_replaceAll r.pattern_within (fun _ => REDACTION_PLACEHOLDER) text).mem h with
    mem | ⟨_, mem⟩
  · exact .inl mem
  · exact .inr mem

theorem mem_maskAll {rules : List (RedactionKind × Regex Char)} {text : List Char} {c : Char}
    (h : c ∈ (maskAll rules text).1) : c ∈ text ∨ c ∈ REDACTION_PLACEHOLDER := by
  induction rules generalizing text with
  | nil => exact .inl h
  | cons rule rules ih =>
    rcases ih h with mem | mem
    · exact mem_mask mem
    · exact .inr mem

theorem mem_collapse {text : List Char} {c : Char} (h : c ∈ collapse text) :
    c ∈ text ∨ c ∈ REDACTION_PLACEHOLDER := by
  have blank : ∀ d ∈ [' '], d ∈ REDACTION_PLACEHOLDER := by
    intro d mem
    rw [List.mem_singleton.1 mem]
    exact List.mem_of_elem_eq_true rfl
  have ⟨p, q, whole, _⟩ := trimmed_split (squeeze (joinPlaceholders text))
  have mem : c ∈ squeeze (joinPlaceholders text) := by
    rw [whole]
    exact List.mem_append_left q (List.mem_append_right p h)
  rcases (squeezed (joinPlaceholders text)).mem mem with mem | ⟨_, mem⟩
  · rcases (joined text).mem mem with mem | ⟨_, mem⟩
    · exact .inl mem
    · rcases List.mem_append.1 mem with mem | mem
      · exact .inr mem
      · exact .inr (blank c mem)
  · exact .inr (blank c mem)

theorem normalizeDigits_sanitized (text : List Char) :
    normalizeDigits (collapse (maskAll TEXT_RULES (normalizeDigits text)).1) =
      collapse (maskAll TEXT_RULES (normalizeDigits text)).1 := by
  have letters : (REDACTION_PLACEHOLDER.all fun c => normalizeDigit c == c) = true := by decide
  refine (List.map_congr_left fun c mem => ?_).trans (List.map_id _)
  have outside : c ∈ REDACTION_PLACEHOLDER → normalizeDigit c = c := fun mem =>
    eq_of_beq (List.all_eq_true.1 letters c mem)
  rcases mem_collapse mem with mem | mem
  · rcases mem_maskAll mem with mem | mem
    · obtain ⟨d, _, rfl⟩ := List.mem_map.1 mem
      exact normalizeDigit_twice d
    · exact outside mem
  · exact outside mem

theorem maskAll_of_not_occurs {rules : List (RedactionKind × Regex Char)} {text : List Char}
    (h : ∀ rule ∈ rules, ¬rule.2.Occurs text) : maskAll rules text = (text, []) := by
  induction rules with
  | nil => rfl
  | cons rule rules ih =>
    have ⟨first, others⟩ := List.forall_mem_cons.1 h
    have unmatched := Regex.pieces_of_not_occurs first
    have same : mask rule.2 text = text := replaceAll_of_unmatched unmatched _
    have nothing : masked rule text = [] := by
      rw [masked, matchAll_of_unmatched unmatched, List.map_nil]
    rw [maskAll, same, ih others, nothing]
    rfl

/-! ## What is recorded -/

/-- One expression after another reads the text; what it takes is recorded once, as
    it stood, and a placeholder is put for it. -/
inductive Recorded : List (RedactionKind × Regex Char) → List Char → List Char →
    List Redaction → Prop where
  | nil (text : List Char) : Recorded [] text text []
  | cons {rule : RedactionKind × Regex Char} {rules : List (RedactionKind × Regex Char)}
      {text out : List Char} {redactions : List Redaction} {ps : List (Char ⊕ List Char)}
      (read : ReadAs rule.2.pattern none text ps)
      (rest : Recorded rules
        (ps.flatMap (replacement (fun _ => REDACTION_PLACEHOLDER) fun c => [c])) out redactions) :
      Recorded (rule :: rules) text out
        ((ps.filterMap Sum.getRight?).map (fun w => ⟨rule.1, w⟩) ++ redactions)

theorem recorded_maskAll (rules : List (RedactionKind × Regex Char)) (text : List Char) :
    Recorded rules text (maskAll rules text).1 (maskAll rules text).2 := by
  induction rules generalizing text with
  | nil => exact .nil text
  | cons rule rules ih =>
    exact .cons (readAs_pieces rule.2.pattern_within
      (fun _ _ _ _ _ found => (Regex.takes_of_pattern found).1) none text) (ih _)

/-! ## Spread placeholders of the sender -/

/-- Somewhere a placeholder is written with more than one blank inside. -/
def HoldsSpread (text : List Char) : Prop :=
  ∃ a g b, text = a ++ (FRONT ++ (g ++ BACK) ++ b) ∧ 2 ≤ g.length ∧ ∀ c ∈ g, isBlank c = true

theorem SpreadBeside.holds {text : List Char} (h : SpreadBeside text) : HoldsSpread text := by
  obtain ⟨a, q, gap, q', b, split, ⟨g, rfl, hg⟩, ⟨g', rfl, hg'⟩, _, odd⟩ := h
  rcases hg with rfl | ⟨two, blank⟩
  · rcases hg' with rfl | ⟨two, blank⟩
    · exact absurd ⟨placeholder_eq.symm, placeholder_eq.symm⟩ odd
    · exact ⟨a ++ (FRONT ++ ([' '] ++ BACK) ++ gap), g', b, by rw [split]; simp, two, blank⟩
  · exact ⟨a, g, gap ++ (FRONT ++ (g' ++ BACK) ++ b), by rw [split], two, blank⟩

/-- Masking spreads no placeholder. -/
theorem HoldsSpread.of_mask {r : Regex Char} {text : List Char} (h : HoldsSpread (mask r text)) :
    HoldsSpread text := by
  obtain ⟨a, g, b, split, two, blank⟩ := h
  obtain ⟨tail, start, once⟩ := lookalike_cons lookalike_placeholder
  have like : Lookalike (FRONT ++ (g ++ BACK)) := ⟨g, rfl, .inr ⟨two, blank⟩⟩
  obtain ⟨t, first, inside⟩ := lookalike_cons like
  have here : mask r text = a ++ '«' :: (t ++ b) := by
    rw [split, first, List.cons_append]
  have once' : ∀ (_ : List Char) (x y : List Char), REDACTION_PLACEHOLDER = x ++ '«' :: y →
      x = [] := by
    intro _ x y same
    cases x with
    | nil => rfl
    | cons e x =>
      rw [start] at same
      refine absurd ?_ once
      rw [(List.cons.inj same).2]
      exact List.mem_append_right x List.mem_cons_self
  obtain ⟨a₀, s₁, rfl, h₁, _⟩ := (masked_replaceAll r.pattern_within
    (fun _ => REDACTION_PLACEHOLDER) text).suffix here once'
  generalize whole : '«' :: (t ++ b) = out at h₁
  cases h₁ with
  | nil => cases whole
  | keep unseen rest =>
    obtain ⟨rfl, rfl⟩ := List.cons.inj whole
    obtain ⟨s', rfl, _⟩ := rest.kept (fun _ => ⟨tail, start⟩) inside
    refine ⟨a₀, g, s', ?_, two, blank⟩
    rw [first, List.cons_append]
  | @mask _ c xs s out piece found rest =>
    have same : FRONT ++ (g ++ BACK) = REDACTION_PLACEHOLDER := by
      refine eq_of_lookalike like (t := b) ?_
      rw [first, List.cons_append, whole]
      exact List.prefix_append _ _
    have size := congrArg List.length same
    rw [placeholder_eq, List.length_append, List.length_append, List.length_append,
      List.length_append, List.length_singleton] at size
    omega

theorem HoldsSpread.of_maskAll {rules : List (RedactionKind × Regex Char)} {text : List Char}
    (h : HoldsSpread (maskAll rules text).1) : HoldsSpread text := by
  induction rules generalizing text with
  | nil => exact h
  | cons rule rules ih => exact (ih h).of_mask

theorem HoldsSpread.of_normalizeDigits {text : List Char} (h : HoldsSpread (normalizeDigits text)) :
    HoldsSpread text := by
  obtain ⟨a, g, b, split, two, blank⟩ := h
  obtain ⟨a₀, rest, rfl, rfl, whole⟩ := List.map_eq_append_iff.1 split
  obtain ⟨q, b₀, rfl, same, rfl⟩ := List.map_eq_append_iff.1 whole
  have letters : ∀ c ∈ FRONT ++ (g ++ BACK), c.isDigit = false := by
    have halves : ((FRONT ++ BACK).all fun c => !c.isDigit) = true := by decide
    have half : ∀ c ∈ FRONT ++ BACK, c.isDigit = false := fun c mem => by
      simpa using List.all_eq_true.1 halves c mem
    intro c mem
    rcases List.mem_append.1 mem with mem | mem
    · exact half c (List.mem_append_left BACK mem)
    · rcases List.mem_append.1 mem with mem | mem
      · rcases Bool.or_eq_true_iff.1 (blank c mem) with same | same
        · rw [eq_of_beq same]
          rfl
        · rw [eq_of_beq same]
          rfl
      · exact half c (List.mem_append_right FRONT mem)
  have plain : q = FRONT ++ (g ++ BACK) := by
    rw [← same]
    refine (List.map_id q).symm.trans (List.map_congr_left fun c mem => ?_)
    have digit : (normalizeDigit c).isDigit = false :=
      letters _ (same ▸ List.mem_map_of_mem mem)
    exact eq_of_normalizeDigit rfl digit
  exact ⟨a₀, g, b₀, by rw [plain], two, blank⟩

/-! ## Sanitizing -/

theorem sanitizeInbound_text (message : InboundTextMessage) :
    (sanitizeInbound message none).text =
      collapse (maskAll TEXT_RULES (normalizeDigits message.text)).1 := by
  simp only [sanitizeInbound, Option.getD_none, if_true]

theorem sanitizeInbound_redactions (message : InboundTextMessage) :
    (sanitizeInbound message none).redactions =
      message.entities.filterMap entityRedaction ++
        (maskAll TEXT_RULES (normalizeDigits message.text)).2 := by
  simp only [sanitizeInbound, Option.getD_none, if_true]

theorem sanitized_not_occurs (message : InboundTextMessage) :
    ∀ rule ∈ TEXT_RULES, ¬rule.2.Occurs (sanitizeInbound message none).text := by
  rw [sanitizeInbound_text]
  exact (hidden_maskAll (normalizeDigits message.text)).collapse.not_occurs

/-- The second time there is nothing to normalize and nothing to mask. -/
theorem maskAll_sanitized (message : InboundTextMessage) :
    maskAll TEXT_RULES (normalizeDigits (sanitizeInbound message none).text) =
      ((sanitizeInbound message none).text, []) := by
  have settled : normalizeDigits (sanitizeInbound message none).text =
      (sanitizeInbound message none).text := by
    rw [sanitizeInbound_text]
    exact normalizeDigits_sanitized message.text
  rw [settled]
  exact maskAll_of_not_occurs (sanitized_not_occurs message)

theorem sanitized_again (message : InboundTextMessage) :
    (sanitizeInbound ⟨(sanitizeInbound message none).text, []⟩ none).text =
      collapse (sanitizeInbound message none).text := by
  rw [sanitizeInbound_text, maskAll_sanitized]

theorem nothing_recorded_again (message : InboundTextMessage) :
    (sanitizeInbound ⟨(sanitizeInbound message none).text, []⟩ none).redactions = [] := by
  rw [sanitizeInbound_redactions, maskAll_sanitized, List.filterMap_nil, List.append_nil]

/-- For every message, the text that goes on holds no contact detail and does not
    depend on the entities; the redactions are those of the entities and every
    piece the expressions took, once.  Sanitizing the text again finds nothing, and
    leaves it as it is just when no spread placeholder is beside another in what
    masking left; a text in which the sender spread none has no such place. -/
theorem sanitizeInbound_again (message : InboundTextMessage) :
    (∀ rule ∈ TEXT_RULES, ¬rule.2.Occurs (sanitizeInbound message none).text) ∧
      (∀ entities, (sanitizeInbound { message with entities } none).text =
        (sanitizeInbound message none).text) ∧
      (∃ masked redactions, Recorded TEXT_RULES (normalizeDigits message.text) masked redactions ∧
        (sanitizeInbound message none).text = collapse masked ∧
        (sanitizeInbound message none).redactions =
          message.entities.filterMap entityRedaction ++ redactions) ∧
      (sanitizeInbound ⟨(sanitizeInbound message none).text, []⟩ none).redactions = [] ∧
      ((sanitizeInbound ⟨(sanitizeInbound message none).text, []⟩ none).text =
          (sanitizeInbound message none).text ↔
        ¬SpreadBeside (maskAll TEXT_RULES (normalizeDigits message.text)).1) ∧
      (¬HoldsSpread message.text →
        ¬SpreadBeside (maskAll TEXT_RULES (normalizeDigits message.text)).1) := by
  refine ⟨sanitized_not_occurs message, fun entities => ?_, ⟨_, _, recorded_maskAll TEXT_RULES _,
    sanitizeInbound_text message, sanitizeInbound_redactions message⟩,
    nothing_recorded_again message, ?_, fun plain beside => ?_⟩
  · rw [sanitizeInbound_text, sanitizeInbound_text]
  · rw [sanitized_again, sanitizeInbound_text]
    exact collapse_collapse_iff (maskAll TEXT_RULES (normalizeDigits message.text)).1
  · exact plain beside.holds.of_maskAll.of_normalizeDigits

/-- Two placeholders the sender had spread are two the first time, and one the
    second. -/
theorem spread_sanitized_twice :
    let message : InboundTextMessage := ⟨"«حذف  شد» «حذف  شد»".toList, []⟩
    let out := sanitizeInbound message none
    out.text = "«حذف شد» «حذف شد»".toList ∧
      (sanitizeInbound ⟨out.text, []⟩ none).text = "«حذف شد»".toList ∧
      (sanitizeInbound ⟨out.text, []⟩ none).text ≠ out.text := by
  decide

end Sanitizer

end Paayatam
