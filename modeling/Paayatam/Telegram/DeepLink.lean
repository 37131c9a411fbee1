/-
  Paayatam.Telegram.DeepLink

  What a `/start` payload asks for.  One field carries the links of channel posts
  and shares, the tags of ads and the referral codes; the bot routes on its shape
  and records where the account came from before anything is looked up.
-/

import Paayatam.Telegram.Callbacks
import Paayatam.Economy.Referral
import Mathlib.Data.List.TakeWhile

namespace Paayatam.DeepLink

open Callbacks

/-! ## Event links -/

inductive StartAction where
  | event
  | join
  | host

def StartAction.word : StartAction → Data
  | .event => "event".toList
  | .join => "join".toList
  | .host => "host".toList

def START_ACTIONS : List StartAction := [.event, .join, .host]

structure StartLink where
  action : StartAction
  id : Data

/-- `[A-Za-z0-9_-]`. -/
def isPayloadChar (c : Char) : Bool :=
  c.isDigit || ('a' ≤ c && c ≤ 'z') || ('A' ≤ c && c ≤ 'Z') || c == '_' || c == '-'

/-- `START_PAYLOAD`, Telegram's own rule for `start`. -/
def isStartPayload (payload : Data) : Bool :=
  payload.all isPayloadChar && decide (1 ≤ payload.length) && decide (payload.length ≤ 64)

def encodeStartPayload (action : StartAction) (publicId : Data) : Option Data :=
  let payload := action.word ++ '_' :: publicId
  if isStartPayload payload then some payload else none

/-- The action stands before the first underscore, the id behind it. -/
def parseStartPayload (payload : Data) : Option StartLink :=
  match payload.dropWhile (· != '_') with
  | [] => none
  | _ :: id =>
    match START_ACTIONS.find? (fun a => a.word == payload.takeWhile (· != '_')) with
    | none => none
    | some action => if isPublicId id then some ⟨action, id⟩ else none

/-! ## Campaign links -/

section Campaigns

-- `String.prototype.toLowerCase`
variable (lower : Data → Data)

def CAMPAIGN_START_PREFIX : Data := "src_".toList

def CAMPAIGN_TAG_MAX_LENGTH : Nat := 60

/-- `[a-z0-9_-]`. -/
def isTagChar (c : Char) : Bool := c.isDigit || ('a' ≤ c && c ≤ 'z') || c == '_' || c == '-'

/-- `String.prototype.trim`. -/
def trimmed (s : Data) : Data := (trim (String.ofList s)).toList

def normalizeCampaignTag (raw : Data) : Option Data :=
  let tag := lower (trimmed raw)
  if tag.all isTagChar && decide (1 ≤ tag.length) &&
      decide (tag.length ≤ CAMPAIGN_TAG_MAX_LENGTH) then some tag
  else none

def encodeCampaignPayload (tag : Data) : Option Data :=
  (normalizeCampaignTag lower tag).map (CAMPAIGN_START_PREFIX ++ ·)

def parseCampaignTag (payload : Data) : Option Data :=
  if CAMPAIGN_START_PREFIX.isPrefixOf (lower payload) then
    normalizeCampaignTag lower (payload.drop CAMPAIGN_START_PREFIX.length)
  else none

end Campaigns

/-! ## Referral codes -/

def CODE_ALPHABET : Data := "ABCDEFGHJKMNPQRSTUVWXYZ23456789".toList

def CODE_LENGTH : Nat := 8

/-- One draw of `randomInt` for each character. -/
def generateCode (draws : List (Fin CODE_ALPHABET.length)) : Data := draws.map CODE_ALPHABET.get

/-- `/^ref[_-]/i`, cut off. -/
def stripReferralPrefix : Data → Data
  | r :: e :: f :: mark :: rest =>
    if (r = 'r' ∨ r = 'R') ∧ (e = 'e' ∨ e = 'E') ∧ (f = 'f' ∨ f = 'F') ∧
        (mark = '_' ∨ mark = '-') then rest
    else r :: e :: f :: mark :: rest
  | payload => payload

def isReferralCodeShape (env : ReferralEnv) (raw : Data) : Bool :=
  let code := (normalizeCode env (String.ofList raw)).toList
  code.all CODE_ALPHABET.contains && decide (code.length = CODE_LENGTH)

/-! ## Where an account came from, and what opens -/

inductive AcquisitionSource where
  | DIRECT
  | CAMPAIGN
  | REFERRAL
  | EVENT_LINK
  | OTHER

structure Acquisition where
  source : AcquisitionSource
  ref : Option Data

/-- What `onStart` does first with a payload. -/
inductive Opening where
  | link (link : StartLink)
  | claim (rawCode : Data)
  | welcome

section Routing

variable (lower : Data → Data) (env : ReferralEnv)

/-- The campaign first, because its prefix is unambiguous. -/
def acquisitionFor : Option Data → Acquisition
  | none => ⟨.DIRECT, none⟩
  | some payload =>
    if trimmed payload = [] then ⟨.DIRECT, none⟩
    else
      match parseCampaignTag lower payload with
      | some tag => ⟨.CAMPAIGN, some tag⟩
      | none =>
        match parseStartPayload payload with
        | some link => ⟨.EVENT_LINK, some link.id⟩
        | none =>
          if isReferralCodeShape env (stripReferralPrefix payload) then ⟨.REFERRAL, none⟩
          else ⟨.OTHER, if isStartPayload payload then some payload else none⟩

/-- A link is tried before the campaign, and a claim is made of the rest. -/
def onStart : Option Data → Opening
  | none => .welcome
  | some payload =>
    match parseStartPayload payload with
    | some link => .link link
    | none =>
      if parseCampaignTag lower payload = none then .claim (stripReferralPrefix payload)
      else .welcome

end Routing

/-! ## Payload characters -/

variable {c : Char} {p id : Data} {a : StartAction} {l : StartLink}

theorem payloadChar_range (h : isPayloadChar c = true) : 45 ≤ c.toNat ∧ c.toNat ≤ 122 := by
  have hbetween : ∀ lo hi : Char, 45 ≤ lo.toNat → hi.toNat ≤ 122 → lo ≤ c → c ≤ hi →
      45 ≤ c.toNat ∧ c.toNat ≤ 122 := fun _ _ hlo hhi h₁ h₂ =>
    ⟨Nat.le_trans hlo (UInt32.le_iff_toNat_le.1 h₁), Nat.le_trans (UInt32.le_iff_toNat_le.1 h₂) hhi⟩
  simp only [isPayloadChar, Bool.or_eq_true, Bool.and_eq_true, decide_eq_true_eq,
    beq_iff_eq] at h
  rcases h with (((h | h) | h) | rfl) | rfl
  · simp only [Char.isDigit, Bool.and_eq_true, decide_eq_true_eq] at h
    exact hbetween '0' '9' (by decide) (by decide) h.1 h.2
  · exact hbetween 'a' 'z' (by decide) (by decide) h.1 h.2
  · exact hbetween 'A' 'Z' (by decide) (by decide) h.1 h.2
  · decide
  · decide

theorem not_trimmed_of_payloadChar (h : isPayloadChar c = true) : isTrimmed c = false := by
  obtain ⟨hlow, hhigh⟩ := payloadChar_range h
  simp only [isTrimmed, List.contains_eq_mem, List.mem_cons, List.not_mem_nil, or_false,
    Bool.or_eq_false_iff, decide_eq_false_iff_not, Bool.and_eq_false_iff]
  omega

theorem trimmed_payload (h : p.all isPayloadChar = true) : trimmed p = p := by
  have hkeep : ∀ q : Data, (∀ c ∈ q, isPayloadChar c = true) → q.dropWhile isTrimmed = q := by
    intro q hq
    cases q with
    | nil => rfl
    | cons c q =>
        exact List.dropWhile_cons_of_neg
          (Bool.not_eq_true _ ▸ not_trimmed_of_payloadChar (hq c (List.mem_cons_self ..)))
  have hp := List.all_eq_true.1 h
  rw [trimmed, trim, String.toList_ofList, String.toList_ofList, hkeep p hp,
    hkeep p.reverse fun c hc => hp c (List.mem_reverse.1 hc), List.reverse_reverse]

theorem payload_ascii (h : p.all isPayloadChar = true) : ∀ c ∈ p, c.toNat < 128 := fun c hc =>
  Nat.lt_of_le_of_lt (payloadChar_range (List.all_eq_true.1 h c hc)).2 (by decide)

/-! ## Reading a link -/

theorem payloadChar_of_id (h : isPublicId id = true) : id.all isPayloadChar = true := by
  refine List.all_eq_true.2 fun c hc => ?_
  have hchar := List.all_eq_true.1 (publicId_chars h).1 c hc
  simp only [isHexDigit, Bool.or_eq_true, Bool.and_eq_true, decide_eq_true_eq] at hchar
  simp only [isPayloadChar, Bool.or_eq_true, Bool.and_eq_true, decide_eq_true_eq]
  rcases hchar with ((hdigit | hlow) | hhigh) | hdash
  · exact .inl (.inl (.inl (.inl hdigit)))
  · exact .inl (.inl (.inl (.inr ⟨hlow.1, Char.le_trans hlow.2 (by decide)⟩)))
  · exact .inl (.inl (.inr ⟨hhigh.1, Char.le_trans hhigh.2 (by decide)⟩))
  · exact .inr hdash

theorem payloadChar_of_link (h : isPublicId id = true) :
    (a.word ++ '_' :: id).all isPayloadChar = true := by
  rw [List.all_append, List.all_cons, payloadChar_of_id h]
  cases a <;> decide

theorem encodeStartPayload_eq (h : isPublicId id = true) :
    encodeStartPayload a id = some (a.word ++ '_' :: id) ∧
      isStartPayload (a.word ++ '_' :: id) = true := by
  have hlength : (a.word ++ '_' :: id).length = a.word.length + 37 := by
    rw [List.length_append, List.length_cons, (publicId_chars h).2]
  have hword : a.word.length ≤ 5 := by cases a <;> decide
  have hok : isStartPayload (a.word ++ '_' :: id) = true := by
    rw [isStartPayload, payloadChar_of_link h, hlength, Bool.true_and, Bool.and_eq_true,
      decide_eq_true_eq, decide_eq_true_eq]
    omega
  exact ⟨if_pos hok, hok⟩

theorem parseStartPayload_word (h : isPublicId id = true) :
    parseStartPayload (a.word ++ '_' :: id) = some ⟨a, id⟩ := by
  cases a with
  | event => exact if_pos h
  | join => exact if_pos h
  | host => exact if_pos h

theorem eq_of_parseStartPayload (h : parseStartPayload p = some l) :
    p = l.action.word ++ '_' :: l.id ∧ isPublicId l.id = true := by
  unfold parseStartPayload at h
  split at h
  · cases h
  · next c id hbehind =>
      split at h
      · cases h
      · next action hfind =>
          split at h
          · next hid =>
              cases h
              have hword := List.find?_some hfind
              rw [beq_iff_eq] at hword
              have hmark : (c != '_') = false := by
                have hhead := List.head?_dropWhile_not (· != '_') p
                rw [hbehind] at hhead
                simpa using hhead
              have hc : c = '_' := by simpa using hmark
              refine ⟨?_, hid⟩
              have hsplit := List.takeWhile_append_dropWhile (p := (· != '_')) (l := p)
              rw [hbehind, hc] at hsplit
              rw [hword, hsplit]
          · cases h

/-- A payload is read as a link exactly when it is that link, written. -/
theorem parseStartPayload_iff :
    parseStartPayload p = some l ↔
      isPublicId l.id = true ∧ encodeStartPayload l.action l.id = some p := by
  constructor
  · intro h
    obtain ⟨rfl, hid⟩ := eq_of_parseStartPayload h
    exact ⟨hid, (encodeStartPayload_eq hid).1⟩
  · rintro ⟨hid, henc⟩
    rw [(encodeStartPayload_eq hid).1] at henc
    rw [← Option.some.inj henc]
    exact parseStartPayload_word hid

/-! ## Telling the three apart -/

section Shapes

variable {lower : Data → Data} {env : ReferralEnv} {tag code : Data}

/-- On ASCII the platform's two cases are Lean's. -/
structure AsciiCase (lower : Data → Data) (env : ReferralEnv) : Prop where
  lower : ∀ s, (∀ c ∈ s, c.toNat < 128) → lower s = s.map Char.toLower
  upper : ∀ s : String, (∀ c ∈ s.toList, c.toNat < 128) →
    (env.toUpperCase s).toList = s.toList.map Char.toUpper

theorem parseCampaignTag_link (ascii : AsciiCase lower env)
    (h : parseStartPayload p = some l) : parseCampaignTag lower p = none := by
  obtain ⟨rfl, hid⟩ := eq_of_parseStartPayload h
  rw [parseCampaignTag, ascii.lower _ (payload_ascii (payloadChar_of_link hid))]
  obtain ⟨action, id⟩ := l
  cases action <;> rfl

theorem trimmed_link (h : parseStartPayload p = some l) : trimmed p ≠ [] := by
  obtain ⟨rfl, hid⟩ := eq_of_parseStartPayload h
  rw [trimmed_payload (payloadChar_of_link hid)]
  exact List.append_ne_nil_of_right_ne_nil _ (List.cons_ne_nil _ _)

/-- A blank payload is no code. -/
theorem isReferralCodeShape_blank (ascii : AsciiCase lower env)
    (h : trimmed p = []) : isReferralCodeShape env p = false := by
  have hblank : trim (String.ofList p) = "" := String.toList_eq_nil_iff.1 h
  have hupper : (env.toUpperCase "").toList = [] := ascii.upper "" (by simp)
  rw [isReferralCodeShape, normalizeCode, hblank, hupper]
  rfl

theorem trimmed_cons_ne_nil (h : isTrimmed c = false) : trimmed (c :: p) ≠ [] := by
  intro hblank
  rw [trimmed, trim, String.toList_ofList, String.toList_ofList, List.reverse_eq_nil_iff,
    List.dropWhile_cons_of_neg (by simp [h])] at hblank
  have hall := List.dropWhile_eq_nil_iff.1 hblank c (List.mem_reverse.2 (List.mem_cons_self ..))
  rw [h] at hall
  cases hall

theorem strip_blank (h : trimmed p = []) : stripReferralPrefix p = p := by
  unfold stripReferralPrefix
  split
  · next r e f mark rest =>
      refine if_neg fun hprefix => trimmed_cons_ne_nil ?_ h
      rcases hprefix.1 with rfl | rfl <;> decide
  · rfl

theorem payloadChar_of_tagChar (h : isTagChar c = true) : isPayloadChar c = true := by
  simp only [isTagChar, Bool.or_eq_true] at h
  simp only [isPayloadChar, Bool.or_eq_true]
  rcases h with ((hdigit | hlow) | hline) | hdash
  · exact .inl (.inl (.inl (.inl hdigit)))
  · exact .inl (.inl (.inl (.inr hlow)))
  · exact .inl (.inr hline)
  · exact .inr hdash

theorem toLower_tagChar (h : isTagChar c = true) : c.toLower = c := by
  refine dif_neg fun hupper => ?_
  have hlow : 'A'.toNat ≤ c.toNat := UInt32.le_iff_toNat_le.1 hupper.1
  have hhigh : c.toNat ≤ 'Z'.toNat := UInt32.le_iff_toNat_le.1 hupper.2
  simp only [isTagChar, Bool.or_eq_true, Bool.and_eq_true, decide_eq_true_eq, beq_iff_eq] at h
  rcases h with ((hdigit | hletter) | rfl) | rfl
  · simp only [Char.isDigit, Bool.and_eq_true, decide_eq_true_eq] at hdigit
    exact absurd (Nat.le_trans hlow (UInt32.le_iff_toNat_le.1 hdigit.2)) (by decide)
  · exact absurd (Nat.le_trans (UInt32.le_iff_toNat_le.1 hletter.1) hhigh) (by decide)
  · exact absurd hhigh (by decide)
  · exact absurd hlow (by decide)

theorem normalizeCampaignTag_some {raw : Data} (h : normalizeCampaignTag lower raw = some tag) :
    tag.all isTagChar = true ∧ 1 ≤ tag.length ∧ tag.length ≤ CAMPAIGN_TAG_MAX_LENGTH := by
  obtain ⟨hok, htag⟩ := Option.ite_none_right_eq_some.1 h
  rw [Option.some.inj htag] at hok
  simpa [and_assoc] using hok

/-- A stored tag is stored as it is. -/
theorem normalizeCampaignTag_self (ascii : AsciiCase lower env)
    (htag : tag.all isTagChar = true) (hpos : 1 ≤ tag.length)
    (hle : tag.length ≤ CAMPAIGN_TAG_MAX_LENGTH) : normalizeCampaignTag lower tag = some tag := by
  have hchars := List.all_eq_true.1 htag
  have hpayload : tag.all isPayloadChar = true :=
    List.all_eq_true.2 fun c hc => payloadChar_of_tagChar (hchars c hc)
  have hlower : lower (trimmed tag) = tag := by
    rw [trimmed_payload hpayload, ascii.lower tag (payload_ascii hpayload)]
    exact (List.map_congr_left fun c hc => toLower_tagChar (hchars c hc)).trans (List.map_id _)
  simp [normalizeCampaignTag, hlower, htag, hpos, hle]

/-- A campaign link is read back, and is no other link. -/
theorem campaign_arrives (ascii : AsciiCase lower env)
    (h : encodeCampaignPayload lower tag = some p) :
    isStartPayload p = true ∧ onStart lower (some p) = .welcome ∧
      ∃ stored, normalizeCampaignTag lower tag = some stored ∧
        acquisitionFor lower env (some p) = ⟨.CAMPAIGN, some stored⟩ := by
  obtain ⟨stored, hstored, rfl⟩ := Option.map_eq_some_iff.1 h
  obtain ⟨htag, hpos, hle⟩ := normalizeCampaignTag_some hstored
  have hpayload : (CAMPAIGN_START_PREFIX ++ stored).all isPayloadChar = true := by
    rw [List.all_append, show CAMPAIGN_START_PREFIX.all isPayloadChar = true by decide,
      Bool.true_and]
    exact List.all_eq_true.2 fun c hc => payloadChar_of_tagChar (List.all_eq_true.1 htag c hc)
  have hcampaign : parseCampaignTag lower (CAMPAIGN_START_PREFIX ++ stored) = some stored := by
    rw [parseCampaignTag, ascii.lower _ (payload_ascii hpayload), List.drop_left,
      normalizeCampaignTag_self ascii htag hpos hle]
    rfl
  have hlink : parseStartPayload (CAMPAIGN_START_PREFIX ++ stored) = none := rfl
  have hblank : trimmed (CAMPAIGN_START_PREFIX ++ stored) ≠ [] := by
    rw [trimmed_payload hpayload]
    exact List.append_ne_nil_of_right_ne_nil _ (List.ne_nil_of_length_pos hpos)
  refine ⟨?_, by simp [onStart, hlink, hcampaign], stored, hstored, ?_⟩
  · have hlength : (CAMPAIGN_START_PREFIX ++ stored).length = 4 + stored.length :=
      List.length_append
    rw [CAMPAIGN_TAG_MAX_LENGTH] at hle
    rw [isStartPayload, hpayload, hlength, Bool.true_and, Bool.and_eq_true, decide_eq_true_eq,
      decide_eq_true_eq]
    omega
  · simp [acquisitionFor, hblank, hcampaign]

/-- Nothing of a code is changed by reading it. -/
theorem codeChar {c : Char} (h : c ∈ CODE_ALPHABET) :
    c.toUpper = c ∧ c.toLower ≠ '_' ∧ c ≠ '-' ∧ c ≠ '_' ∧ isPayloadChar c = true := by
  have hall : (CODE_ALPHABET.all fun c => c.toUpper == c && c.toLower != '_' && c != '-' &&
      c != '_' && isPayloadChar c) = true := by decide
  simpa [and_assoc] using List.all_eq_true.1 hall c h

theorem normalizeCode_self (ascii : AsciiCase lower env)
    (h : ∀ c ∈ code, c ∈ CODE_ALPHABET) :
    normalizeCode env (String.ofList code) = String.ofList code := by
  have hpayload : code.all isPayloadChar = true :=
    List.all_eq_true.2 fun c hc => (codeChar (h c hc)).2.2.2.2
  have htrim : trim (String.ofList code) = String.ofList code := by
    rw [← String.ofList_toList (s := trim _)]
    exact congrArg String.ofList (trimmed_payload hpayload)
  have hupper : (env.toUpperCase (String.ofList code)).toList = code := by
    rw [ascii.upper _ (by simpa using payload_ascii hpayload), String.toList_ofList]
    exact (List.map_congr_left fun c hc => (codeChar (h c hc)).1).trans (List.map_id _)
  rw [normalizeCode, htrim, hupper, List.filter_eq_self.2]
  intro c hc
  obtain ⟨-, -, hdash, -, hchar⟩ := codeChar (h c hc)
  simp [not_trimmed_of_payloadChar hchar, hdash]

/-- An invitation is claimed as the code it was made of, with a prefix or without. -/
theorem code_arrives (ascii : AsciiCase lower env)
    (h : ∀ c ∈ code, c ∈ CODE_ALPHABET) (hlength : code.length = CODE_LENGTH) {q : Data}
    (hq : q = [] ∨ q = "ref_".toList ∨ q = "ref-".toList) :
    onStart lower (some (q ++ code)) = .claim code ∧
      acquisitionFor lower env (some (q ++ code)) = ⟨.REFERRAL, none⟩ := by
  have hcode : code.all isPayloadChar = true :=
    List.all_eq_true.2 fun c hc => (codeChar (h c hc)).2.2.2.2
  have hline : '_' ∉ code := fun hmem => (codeChar (h _ hmem)).2.2.2.1 rfl
  have hpayload : (q ++ code).all isPayloadChar = true := by
    rw [List.all_append, hcode, Bool.and_true]
    rcases hq with rfl | rfl | rfl <;> decide
  have hshape : isReferralCodeShape env code = true := by
    rw [isReferralCodeShape, normalizeCode_self ascii h, String.toList_ofList]
    simpa [hlength] using h
  have hblank : trimmed (q ++ code) ≠ [] := by
    rw [trimmed_payload hpayload]
    exact List.append_ne_nil_of_right_ne_nil _ (List.ne_nil_of_length_pos (by rw [hlength]; decide))
  have hstrip : stripReferralPrefix (q ++ code) = code := by
    rcases hq with rfl | rfl | rfl
    · rw [List.nil_append]
      unfold stripReferralPrefix
      split
      · next r e f mark rest =>
          obtain ⟨-, -, hdash, hline, -⟩ := codeChar (h mark (by simp))
          exact if_neg fun hmark => hmark.2.2.2.elim hline hdash
      · rfl
    · rfl
    · rfl
  have hcampaign : parseCampaignTag lower (q ++ code) = none := by
    rw [parseCampaignTag, ascii.lower _ (payload_ascii hpayload)]
    refine if_neg fun hprefix => ?_
    rcases hq with rfl | rfl | rfl
    · have hmark : '_' ∈ code.map Char.toLower :=
        (List.isPrefixOf_iff_prefix.1 hprefix).subset (by decide)
      obtain ⟨c, hc, hlower⟩ := List.mem_map.1 hmark
      exact (codeChar (h c hc)).2.1 hlower
    · exact absurd hprefix Bool.false_ne_true
    · exact absurd hprefix Bool.false_ne_true
  have hlink : parseStartPayload (q ++ code) = none := by
    refine Option.eq_none_iff_forall_ne_some.2 fun l hl => ?_
    obtain ⟨heq, -⟩ := eq_of_parseStartPayload hl
    obtain ⟨action, id⟩ := l
    rcases hq with rfl | rfl | rfl
    · rw [List.nil_append] at heq
      exact hline (heq ▸ List.mem_append_right _ (List.mem_cons_self ..))
    · cases action <;> simp [StartAction.word] at heq
    · cases action <;> simp [StartAction.word] at heq
  exact ⟨by simp [onStart, hlink, hcampaign, hstrip],
    by simp [acquisitionFor, hblank, hcampaign, hlink, hstrip, hshape]⟩

/-- Every payload the product makes is one Telegram carries, opens what it was made for
    and is recorded as that. -/
theorem made_payloads_arrive (ascii : AsciiCase lower env) :
    (∀ action id, isPublicId id = true →
      ∃ p, encodeStartPayload action id = some p ∧ isStartPayload p = true ∧
        onStart lower (some p) = .link ⟨action, id⟩ ∧
        acquisitionFor lower env (some p) = ⟨.EVENT_LINK, some id⟩) ∧
    (∀ tag p, encodeCampaignPayload lower tag = some p →
      isStartPayload p = true ∧ onStart lower (some p) = .welcome ∧
        ∃ stored, normalizeCampaignTag lower tag = some stored ∧
          acquisitionFor lower env (some p) = ⟨.CAMPAIGN, some stored⟩) ∧
    ∀ draws, draws.length = CODE_LENGTH →
      ∀ q, q = [] ∨ q = "ref_".toList ∨ q = "ref-".toList →
        onStart lower (some (q ++ generateCode draws)) = .claim (generateCode draws) ∧
        acquisitionFor lower env (some (q ++ generateCode draws)) = ⟨.REFERRAL, none⟩ := by
  refine ⟨fun action id hid => ?_, fun tag p h => campaign_arrives ascii h, ?_⟩
  · have hlink := parseStartPayload_word (a := action) hid
    have hopen : onStart lower (some (action.word ++ '_' :: id)) = .link ⟨action, id⟩ := by
      simp only [onStart, hlink]
    have hrecorded : acquisitionFor lower env (some (action.word ++ '_' :: id)) =
        ⟨.EVENT_LINK, some id⟩ := by
      simp only [acquisitionFor, hlink, parseCampaignTag_link ascii hlink,
        if_neg (trimmed_link hlink)]
    exact ⟨_, (encodeStartPayload_eq hid).1, (encodeStartPayload_eq hid).2, hopen, hrecorded⟩
  · intro draws hlength q hq
    refine code_arrives ascii (fun c hc => ?_) ((List.length_map _).trans hlength) hq
    obtain ⟨i, -, rfl⟩ := List.mem_map.1 hc
    exact List.get_mem _ i

/-- What the bot opens and where the account is said to come from agree. -/
theorem opening_recorded (ascii : AsciiCase lower env) (payload : Option Data) :
    match onStart lower payload with
    | .link link => acquisitionFor lower env payload = ⟨.EVENT_LINK, some link.id⟩
    | .claim rawCode =>
      (acquisitionFor lower env payload).source ≠ .CAMPAIGN ∧
      (acquisitionFor lower env payload).source ≠ .EVENT_LINK ∧
      ((acquisitionFor lower env payload).source = .REFERRAL ↔
        isReferralCodeShape env rawCode = true)
    | .welcome =>
      (acquisitionFor lower env payload).source = .DIRECT ∨
      (acquisitionFor lower env payload).source = .CAMPAIGN := by
  cases payload with
  | none => exact .inl rfl
  | some p =>
    cases hlink : parseStartPayload p with
    | some link =>
        simp only [onStart, acquisitionFor, hlink, parseCampaignTag_link ascii hlink,
          if_neg (trimmed_link hlink)]
    | none =>
      by_cases hblank : trimmed p = []
      · cases htag : parseCampaignTag lower p <;>
          simp [onStart, acquisitionFor, hlink, htag, hblank, strip_blank hblank,
            isReferralCodeShape_blank ascii hblank]
      · cases htag : parseCampaignTag lower p with
        | some tag => simp [onStart, acquisitionFor, hlink, htag, hblank]
        | none =>
            by_cases hcode : isReferralCodeShape env (stripReferralPrefix p) = true <;>
              simp [onStart, acquisitionFor, hlink, htag, hblank, hcode]

end Shapes

theorem asciiCase_demo : AsciiCase (List.map Char.toLower) (demoReferralEnv 0) where
  lower _ _ := rfl
  upper _ _ := String.toList_map

theorem made_payloads_arrive_code :
    acquisitionFor (List.map Char.toLower) (demoReferralEnv 0) (some "ref-AAAAAAAA".toList) =
      ⟨.REFERRAL, none⟩ :=
  ((made_payloads_arrive asciiCase_demo).2.2 (.replicate 8 ⟨0, by decide⟩) rfl _
    (.inr (.inr rfl))).2

theorem opening_recorded_tag :
    (acquisitionFor (List.map Char.toLower) (demoReferralEnv 0) (some "src_TgAds".toList)).source
        = .DIRECT ∨
      (acquisitionFor (List.map Char.toLower) (demoReferralEnv 0) (some "src_TgAds".toList)).source
        = .CAMPAIGN :=
  opening_recorded asciiCase_demo (some "src_TgAds".toList)

end Paayatam.DeepLink
