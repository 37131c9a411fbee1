/-
  Paayatam.Conversation.Fields

  Which questions of a wizard a form has answered, and from which of its fields.

  A step is settled when the form need not answer it, or has.  In every wizard an
  answer clears nothing an earlier step asked for, and an earlier step neither
  begins nor ceases to apply: no step writes what an earlier one reads.
-/

import Paayatam.Conversation.Wizards
import Mathlib.Data.List.Forall2

namespace Paayatam

namespace Conversation

namespace Completeness

/-! ## Complete forms -/

/-- The form holds what an accepted answer to the step wrote; a `multi` step has something
    chosen. -/
def Answered (step : WizardStep) (form : Form) : Prop :=
  if step.ui = .multi then step.selectedOf form ≠ []
  else ∃ input before patch, step.accept input before = .ok patch ∧
    (∃ key value, (key, some value) ∈ patch) ∧
      ∀ key value, (key, some value) ∈ patch → form key = some value

/-- The step is optional, does not apply, or is answered. -/
def Settled (step : WizardStep) (form : Form) : Prop :=
  step.optional = false → step.applies form = true → Answered step form

/-- Every applicable step that is not optional has an accepted answer in the form. -/
def Complete (definition : WizardDefinition) (form : Form) : Prop :=
  ∀ step ∈ definition.steps, Settled step form

def AgesOrdered (form : Form) : Prop :=
  ∀ minAge maxAge, form.number "minAge" = some minAge → form.number "maxAge" = some maxAge →
    minAge ≤ maxAge

/-- The rules of a form as a whole. -/
def CrossRules : ConversationKind → Form → Prop
  | .CREATE_EVENT, form => AgesOrdered form
  | _, _ => True

/-! ## The fields of a step -/

/-- The fields a step's answer and condition are read from, and those its answers write. -/
structure StepFields where
  key : String
  reads : List String
  writes : List String

/-- What the fields of a step say of it. -/
structure Covers (step : WizardStep) (fields : StepFields) : Prop where
  key : step.key = fields.key
  /-- Whether the step is settled is a matter of the fields it reads. -/
  reads : ∀ form edited : Form, (∀ k ∈ fields.reads, edited k = form k) →
    Settled step form → Settled step edited
  writes : ∀ input form patch, step.accept input form = .ok patch →
    ∀ k ∈ patch.map (·.1), k ∈ fields.writes
  /-- An accepted answer settles the step. -/
  answers : step.ui ≠ .multi → ∀ input form patch, step.accept input form = .ok patch →
    Settled step (answered form patch)
  /-- Only a `multi` step has anything chosen. -/
  selects : step.ui ≠ .multi → ∀ form, step.selectedOf form = []

/-- The fields that the machine itself writes. -/
def MACHINE_FIELDS : List String := [TOUCHED_KEY, "wantsDetails"]

/-- No step writes what an earlier one reads, and the machine what any reads. -/
structure Ordered (fields : List StepFields) : Prop where
  later : fields.Pairwise fun f g => ∀ k ∈ f.reads, k ∉ g.writes
  machine : ∀ f ∈ fields, ∀ k ∈ f.reads, k ∉ MACHINE_FIELDS

/-- Each accepted answer is one value in one field, and clears others. -/
def WritesOne (accept : WizardInput → Form → StepResult) (field : String)
    (cleared : List String) : Prop :=
  ∀ input form patch, accept input form = .ok patch →
    ∃ value, patch = (field, some value) :: cleared.map fun key => (key, none)

section Fields

variable {step : WizardStep} {form edited : Form} {patch : FormPatch} {field : String}
  {cleared reads writes : List String}

theorem settled_of_optional (h : step.optional = true) : Settled step form := by
  intro hrequired
  rw [h] at hrequired
  cases hrequired

theorem answered_other {k : String} (hk : k ∉ patch.map (·.1)) (ht : k ≠ TOUCHED_KEY) :
    answered form patch k = form k := by
  refine Form.merge_of_not_mem ?_
  rw [List.map_append, List.mem_append, not_or]
  exact ⟨hk, by simpa using ht⟩

theorem writes_of_one {accept : WizardInput → Form → StepResult}
    (h : WritesOne accept field cleared) {input : WizardInput}
    (ha : accept input form = .ok patch) : ∀ k ∈ patch.map (·.1), k ∈ field :: cleared := by
  obtain ⟨value, rfl⟩ := h input form patch ha
  intro k hk
  simpa using hk

section Steps

variable {key : String} {ui : StepUi} {applies : Form → Bool} {selectedOf : Form → List String}
  {accept : WizardInput → Form → StepResult}

/-- An optional step is always settled. -/
theorem covers_optional (hw : ∀ input form patch, accept input form = .ok patch →
      ∀ k ∈ patch.map (·.1), k ∈ writes)
    (hselect : ui ≠ .multi → ∀ form, selectedOf form = []) :
    Covers ⟨key, ui, applies, true, selectedOf, accept⟩ ⟨key, [], writes⟩ :=
  ⟨rfl, fun _ _ _ _ => settled_of_optional rfl, hw, fun _ _ _ _ _ => settled_of_optional rfl,
    hselect⟩

theorem covers_optional_one (h : WritesOne accept field cleared)
    (hselect : ui ≠ .multi → ∀ form, selectedOf form = []) :
    Covers ⟨key, ui, applies, true, selectedOf, accept⟩ ⟨key, [], field :: cleared⟩ :=
  covers_optional (fun _ _ _ ha => writes_of_one h ha) hselect

/-- A step that is not `multi`, with one field for its answer. -/
theorem covers_one (h : WritesOne accept field cleared) (hui : ui ≠ .multi)
    (hselect : ∀ form, selectedOf form = [])
    (happlies : ∀ form edited : Form, (∀ k ∈ reads, edited k = form k) →
      applies edited = applies form) :
    Covers ⟨key, ui, applies, false, selectedOf, accept⟩
      ⟨key, field :: reads, field :: cleared⟩ := by
  refine ⟨rfl, fun form edited hsame hsettled hrequired hap => ?_,
    fun input form patch ha => writes_of_one h ha, fun _ input form patch ha _ _ => ?_,
    fun _ => hselect⟩
  · have hap' : applies form = true := by
      rw [← happlies form edited fun k hk => hsame k (List.mem_cons_of_mem _ hk)]
      exact hap
    have hanswered := hsettled hrequired hap'
    unfold Answered at hanswered ⊢
    rw [if_neg hui] at hanswered ⊢
    obtain ⟨input, before, patch, ha, hsome, hin⟩ := hanswered
    refine ⟨input, before, patch, ha, hsome, fun key value hmem => ?_⟩
    obtain ⟨value', rfl⟩ := h input before patch ha
    have hkey : key = field ∧ value = value' := by simpa using hmem
    rw [hkey.1, hsame field List.mem_cons_self]
    exact hin _ _ (hkey.1 ▸ hmem)
  · unfold Answered
    rw [if_neg hui]
    obtain ⟨value, rfl⟩ := h input form patch ha
    refine ⟨input, form, _, ha, ⟨field, value, List.mem_cons_self⟩, fun key value' hmem => ?_⟩
    obtain ⟨rfl, rfl⟩ : key = field ∧ value' = value := by simpa using hmem
    simp [answered, Form.merge]

/-- A `multi` step that wants something chosen. -/
theorem covers_multi (h : WritesOne accept field cleared)
    (hselected : ∀ form edited : Form, edited field = form field →
      selectedOf edited = selectedOf form)
    (happlies : ∀ form edited : Form, (∀ k ∈ reads, edited k = form k) →
      applies edited = applies form) :
    Covers ⟨key, .multi, applies, false, selectedOf, accept⟩
      ⟨key, field :: reads, field :: cleared⟩ := by
  refine ⟨rfl, fun form edited hsame hsettled hrequired hap => ?_,
    fun input form patch ha => writes_of_one h ha, fun hui => absurd rfl hui,
    fun hui => absurd rfl hui⟩
  have hap' : applies form = true := by
    rw [← happlies form edited fun k hk => hsame k (List.mem_cons_of_mem _ hk)]
    exact hap
  have hanswered := hsettled hrequired hap'
  unfold Answered at hanswered ⊢
  rw [if_pos rfl] at hanswered ⊢
  show selectedOf edited ≠ []
  rw [hselected form edited (hsame field List.mem_cons_self)]
  exact hanswered

theorem applies_always (form edited : Form) (_ : ∀ k ∈ ([] : List String), edited k = form k) :
    (fun _ : Form => true) edited = (fun _ : Form => true) form :=
  rfl

end Steps

end Fields

/-! ## What each accept writes -/

section Accepts

variable {field what : String} {cleared : List String}

theorem textInto_writes {min max : Nat} :
    WritesOne (fun input _ => textInto field min max what input) field [] := by
  intro input form patch h
  change textInto field min max what input = .ok patch at h
  unfold textInto at h
  split at h
  · exact ⟨_, (StepResult.ok.inj h).symm⟩
  · cases h

theorem integerInto_writes {min max : Int} :
    WritesOne (fun input _ => integerInto field cleared min max what input) field cleared := by
  intro input form patch h
  change integerInto field cleared min max what input = .ok patch at h
  unfold integerInto at h
  split at h
  · exact ⟨_, (StepResult.ok.inj h).symm⟩
  · cases h

theorem idInto_writes {error : String → String} :
    WritesOne (fun input _ => idInto field cleared error input) field cleared := by
  intro input form patch h
  change idInto field cleared error input = .ok patch at h
  unfold idInto at h
  split at h
  · exact ⟨_, (StepResult.ok.inj h).symm⟩
  · cases h

theorem oneOf_writes {values : List String} {error : String → String} :
    WritesOne (fun input _ => oneOf values field cleared error input) field cleared := by
  intro input form patch h
  change oneOf values field cleared error input = .ok patch at h
  unfold oneOf at h
  split at h
  · exact ⟨_, (StepResult.ok.inj h).symm⟩
  · cases h

theorem plainText_writes {min max : Nat} {notText tooShort tooLong : String} :
    WritesOne (fun input _ => plainText field min max notText tooShort tooLong input) field [] := by
  intro input form patch h
  change plainText field min max notText tooShort tooLong input = .ok patch at h
  unfold plainText at h
  split at h
  · cases h
  · extract_lets value at h
    split at h
    · cases h
    · split at h
      · cases h
      · exact ⟨_, (StepResult.ok.inj h).symm⟩

theorem textNotPhoto_writes {photo : String} {rest : WizardInput → StepResult}
    (h : WritesOne (fun input _ => rest input) field cleared) :
    WritesOne (fun input _ => textNotPhoto photo rest input) field cleared := by
  intro input form patch ha
  change textNotPhoto photo rest input = .ok patch at ha
  unfold textNotPhoto at ha
  split at ha
  · cases ha
  · exact h input form patch ha

theorem acceptCapacity_writes : WritesOne (fun input _ => acceptCapacity input) "capacity" [] := by
  intro input form patch h
  change acceptCapacity input = .ok patch at h
  unfold acceptCapacity at h
  split at h
  · exact ⟨_, (StepResult.ok.inj h).symm⟩
  · exact integerInto_writes input form patch h

theorem acceptDuration_writes :
    WritesOne (fun input _ => acceptDuration input) "durationHours" [] := by
  intro input form patch h
  change acceptDuration input = .ok patch at h
  unfold acceptDuration at h
  split at h
  · exact ⟨_, (StepResult.ok.inj h).symm⟩
  · cases h

theorem acceptName_writes : WritesOne (fun input _ => acceptName input) "displayName" [] := by
  intro input form patch h
  change acceptName input = .ok patch at h
  unfold acceptName at h
  split at h
  · cases h
  · split at h
    · exact ⟨_, (StepResult.ok.inj h).symm⟩
    · cases h

theorem acceptBirth_writes : WritesOne (fun input _ => acceptBirth input) "birthYear" [] := by
  intro input form patch h
  change acceptBirth input = .ok patch at h
  unfold acceptBirth at h
  split at h
  · exact ⟨_, (StepResult.ok.inj h).symm⟩
  · cases h

theorem acceptDistrict_writes (input : WizardInput) (_ : Form) (patch : FormPatch)
    (h : acceptDistrict input = .ok patch) :
    ∀ k ∈ patch.map (·.1), k ∈ ["districtLabel", "districtId"] := by
  unfold acceptDistrict at h
  split at h
  · split at h
    · obtain rfl := StepResult.ok.inj h
      simp
    · cases h
  · unfold idInto at h
    split at h
    · obtain rfl := StepResult.ok.inj h
      simp
    · cases h

theorem acceptMaxAge_writes : WritesOne acceptMaxAge "maxAge" [] := by
  intro input form patch h
  unfold acceptMaxAge at h
  split at h
  · cases h
  · split at h
    · split at h
      · cases h
      · exact ⟨_, (StepResult.ok.inj h).symm⟩
    · exact ⟨_, (StepResult.ok.inj h).symm⟩

theorem acceptLink_writes : WritesOne (fun input _ => acceptLink input) "externalLink" [] := by
  intro input form patch h
  change acceptLink input = .ok patch at h
  unfold acceptLink at h
  extract_lets value at h
  split at h
  · exact ⟨_, (StepResult.ok.inj h).symm⟩
  · cases h

theorem acceptInterest_writes : WritesOne acceptInterest "interestIds" [] := by
  intro input form patch h
  unfold acceptInterest at h
  split at h
  · cases h
  · split at h
    · extract_lets current next at h
      exact ⟨_, (StepResult.ok.inj h).symm⟩
    · cases h

theorem acceptReviewTag_writes : WritesOne acceptReviewTag "tags" [] := by
  intro input form patch h
  unfold acceptReviewTag at h
  split at h
  · cases h
  · split at h
    · extract_lets current at h
      split at h
      · exact ⟨_, (StepResult.ok.inj h).symm⟩
      · split at h
        · cases h
        · exact ⟨_, (StepResult.ok.inj h).symm⟩
    · cases h

theorem acceptScreenshot_writes : WritesOne acceptScreenshot "screenshotFileIds" [] := by
  intro input form patch h
  unfold acceptScreenshot at h
  split at h
  · cases h
  · extract_lets existing at h
    split at h
    · cases h
    · split at h
      · exact ⟨_, (StepResult.ok.inj h).symm⟩
      · exact ⟨_, (StepResult.ok.inj h).symm⟩

end Accepts

/-! ## The wizards -/

/-- The fields of a step whose answer is one field. -/
def oneField (key field : String) (reads cleared : List String) : StepFields :=
  ⟨key, field :: reads, field :: cleared⟩

def optionalFields (key : String) (writes : List String) : StepFields := ⟨key, [], writes⟩

def createEventFields : List StepFields :=
  [oneField "title" "title" [] [],
   oneField "desc" "description" [] [],
   oneField "cat" "categoryId" [] [],
   oneField "prov" "provinceId" [] ["cityId", "districtId", "districtLabel"],
   oneField "city" "cityId" [] ["districtId", "districtLabel"],
   optionalFields "dist" ["districtLabel", "districtId"],
   oneField "day" "day" [] [],
   oneField "hour" "hour" [] ["startMinute"],
   oneField "dur" "durationHours" [] [],
   oneField "cap" "capacity" [] [],
   oneField "cost" "costType" [] ["costAmount"],
   oneField "amount" "costAmount" ["costType"] [],
   optionalFields "gender" ["genderPreference"],
   optionalFields "minage" ["minAge"],
   optionalFields "maxage" ["maxAge"],
   optionalFields "rules" ["rules"],
   optionalFields "link" ["externalLink"]]

theorem day_writes : WritesOne (fun input _ =>
    if isIsoDay input.value then .ok [("day", some (.string input.value))]
    else .refused ("روز رو از تقویم زیر انتخاب کن. تاریخ رو دستی ننویس؛ " ++
      "اگه ماه دیگه‌ای می‌خوای، «ماه بعد» رو بزن.")) "day" [] := by
  intro input form patch h
  by_cases hday : isIsoDay input.value = true
  · exact ⟨_, (StepResult.ok.inj ((if_pos hday).symm.trans h)).symm⟩
  · cases (if_neg hday).symm.trans h

theorem amount_applies (form edited : Form) (h : ∀ k ∈ ["costType"], edited k = form k) :
    (decide (edited.string "costType" = some "FIXED") ||
      decide (edited.string "costType" = some "APPROX")) =
    (decide (form.string "costType" = some "FIXED") ||
      decide (form.string "costType" = some "APPROX")) := by
  have hcost : edited.string "costType" = form.string "costType" := by
    rw [Form.string, h "costType" List.mem_cons_self]
    rfl
  rw [hcost]

theorem createEvent_covers : List.Forall₂ Covers createEventSteps createEventFields := by
  unfold createEventSteps createEventFields
  repeat' apply List.Forall₂.cons
  · exact covers_one textInto_writes nofun (fun _ => rfl) applies_always
  · exact covers_one textInto_writes nofun (fun _ => rfl) applies_always
  · exact covers_one idInto_writes nofun (fun _ => rfl) applies_always
  · exact covers_one idInto_writes nofun (fun _ => rfl) applies_always
  · exact covers_one idInto_writes nofun (fun _ => rfl) applies_always
  · exact covers_optional acceptDistrict_writes fun _ _ => rfl
  · exact covers_one day_writes nofun (fun _ => rfl) applies_always
  · exact covers_one integerInto_writes nofun (fun _ => rfl) applies_always
  · exact covers_one acceptDuration_writes nofun (fun _ => rfl) applies_always
  · exact covers_one acceptCapacity_writes nofun (fun _ => rfl) applies_always
  · exact covers_one oneOf_writes nofun (fun _ => rfl) applies_always
  · exact covers_one integerInto_writes nofun (fun _ => rfl) amount_applies
  · exact covers_optional_one oneOf_writes fun _ _ => rfl
  · exact covers_optional_one integerInto_writes fun _ _ => rfl
  · exact covers_optional_one acceptMaxAge_writes fun _ _ => rfl
  · exact covers_optional_one textInto_writes fun _ _ => rfl
  · exact covers_optional_one acceptLink_writes fun _ _ => rfl
  · exact .nil

/-- The fields that scope an edit of the profile. -/
def PROFILE_SCOPE : List String := ["onlyInterests", "field"]

def editProfileFields : List StepFields :=
  [oneField "name" "displayName" PROFILE_SCOPE [],
   oneField "gender" "gender" PROFILE_SCOPE [],
   oneField "birth" "birthYear" PROFILE_SCOPE [],
   oneField "prov" "provinceId" PROFILE_SCOPE ["cityId", "districtId"],
   oneField "city" "cityId" PROFILE_SCOPE ["districtId"],
   optionalFields "bio" ["bio"],
   oneField "tags" "interestIds" PROFILE_SCOPE []]

theorem scopedTo_reads (field : String) (form edited : Form)
    (h : ∀ k ∈ PROFILE_SCOPE, edited k = form k) : scopedTo field edited = scopedTo field form := by
  unfold scopedTo Form.isTrue
  rw [h "onlyInterests" (by simp [PROFILE_SCOPE]), h "field" (by simp [PROFILE_SCOPE])]

theorem unscoped_reads (form edited : Form) (h : ∀ k ∈ PROFILE_SCOPE, edited k = form k) :
    (!edited.isTrue "onlyInterests" && (edited "field").isNone) =
      (!form.isTrue "onlyInterests" && (form "field").isNone) := by
  unfold Form.isTrue
  rw [h "onlyInterests" (by simp [PROFILE_SCOPE]), h "field" (by simp [PROFILE_SCOPE])]

theorem strings_reads (field : String) (form edited : Form) (h : edited field = form field) :
    edited.strings field = form.strings field := by
  unfold Form.strings
  rw [h]

theorem editProfile_covers : List.Forall₂ Covers editProfileSteps editProfileFields := by
  unfold editProfileSteps editProfileFields
  repeat' apply List.Forall₂.cons
  · exact covers_one acceptName_writes nofun (fun _ => rfl) (scopedTo_reads "name")
  · exact covers_one oneOf_writes nofun (fun _ => rfl) unscoped_reads
  · exact covers_one acceptBirth_writes nofun (fun _ => rfl) (scopedTo_reads "birth")
  · exact covers_one idInto_writes nofun (fun _ => rfl) (scopedTo_reads "loc")
  · exact covers_one idInto_writes nofun (fun _ => rfl) (scopedTo_reads "loc")
  · exact covers_optional_one textInto_writes fun _ _ => rfl
  · exact covers_multi acceptInterest_writes (strings_reads "interestIds") (scopedTo_reads "tags")
  · exact .nil

theorem agree_writes : WritesOne (fun input _ =>
    if input.action = some "agree" then .ok [("accepted", some (.flag true))]
    else .refused "برای ادامه، دکمهٔ «می‌پذیرم» رو بزن.") "accepted" [] := by
  intro input form patch h
  by_cases hagree : input.action = some "agree"
  · exact ⟨_, (StepResult.ok.inj ((if_pos hagree).symm.trans h)).symm⟩
  · cases (if_neg hagree).symm.trans h

theorem falsePositive_writes : WritesOne (fun input _ =>
    if input.value = "yes" ∨ input.value = "no" then
      .ok [("falsePositive", some (.flag (input.value == "yes")))]
    else .refused "یکی از دو گزینه را انتخاب کنید.") "falsePositive" [] := by
  intro input form patch h
  by_cases hvalue : input.value = "yes" ∨ input.value = "no"
  · exact ⟨_, (StepResult.ok.inj ((if_pos hvalue).symm.trans h)).symm⟩
  · cases (if_neg hvalue).symm.trans h

theorem asksFalsePositive_reads (form edited : Form)
    (h : ∀ k ∈ ["decision", "trigger"], edited k = form k) :
    asksFalsePositive edited = asksFalsePositive form := by
  unfold asksFalsePositive Form.string
  rw [h "decision" (by simp), h "trigger" (by simp)]

/-- The fields of the wizard of each kind. -/
def fieldsOf : ConversationKind → List StepFields
  | .CREATE_EVENT => createEventFields
  | .EDIT_PROFILE => editProfileFields
  | .WRITE_REVIEW => [optionalFields "tag" ["tags"], optionalFields "comment" ["comment"]]
  | .FILE_REPORT => [oneField "why" "reason" [] [], optionalFields "note" ["description"]]
  | .ACCEPT_POLICIES => [oneField "review" "accepted" [] []]
  | .ADMIN_CASE =>
    [oneField "verdict" "decision" [] ["falsePositive"],
     oneField "falsepos" "falsePositive" ["decision", "trigger"] [],
     oneField "note" "note" [] []]
  | .REDEEM_CODE => [oneField "code" "code" [] []]
  | .BUG_REPORT =>
    [oneField "what" "description" [] [], optionalFields "shots" ["screenshotFileIds"]]
  | .DIRECT_MESSAGE => [oneField "body" "body" [] []]
  | .NO_SHOW_CLAIM => [oneField "statement" "statement" [] []]
  | .COMPLETE_PROFILE | .EDIT_EVENT => []

theorem fieldsOf_ordered (kind : ConversationKind) : Ordered (fieldsOf kind) := by
  cases kind <;> exact ⟨by decide, by decide +kernel⟩

theorem fieldsOf_covers {kind : ConversationKind} {definition : WizardDefinition}
    (h : WIZARDS kind = some definition) :
    List.Forall₂ Covers definition.steps (fieldsOf kind) := by
  cases kind with
  | COMPLETE_PROFILE | EDIT_EVENT => cases h
  | CREATE_EVENT =>
      obtain rfl := Option.some.inj h
      exact createEvent_covers
  | EDIT_PROFILE =>
      obtain rfl := Option.some.inj h
      exact editProfile_covers
  | WRITE_REVIEW =>
      obtain rfl := Option.some.inj h
      exact .cons (covers_optional_one acceptReviewTag_writes fun hui => absurd rfl hui) <|
        .cons (covers_optional_one plainText_writes fun _ _ => rfl) .nil
  | FILE_REPORT =>
      obtain rfl := Option.some.inj h
      exact .cons (covers_one oneOf_writes nofun (fun _ => rfl) applies_always) <|
        .cons (covers_optional_one plainText_writes fun _ _ => rfl) .nil
  | ACCEPT_POLICIES =>
      obtain rfl := Option.some.inj h
      exact .cons (covers_one agree_writes nofun (fun _ => rfl) applies_always) .nil
  | ADMIN_CASE =>
      obtain rfl := Option.some.inj h
      exact .cons (covers_one oneOf_writes nofun (fun _ => rfl) applies_always) <|
        .cons (covers_one falsePositive_writes nofun (fun _ => rfl) asksFalsePositive_reads) <|
        .cons (covers_one plainText_writes nofun (fun _ => rfl) applies_always) .nil
  | REDEEM_CODE =>
      obtain rfl := Option.some.inj h
      exact .cons (covers_one plainText_writes nofun (fun _ => rfl) applies_always) .nil
  | BUG_REPORT =>
      obtain rfl := Option.some.inj h
      exact .cons (covers_one plainText_writes nofun (fun _ => rfl) applies_always) <|
        .cons (covers_optional_one acceptScreenshot_writes fun _ _ => rfl) .nil
  | DIRECT_MESSAGE | NO_SHOW_CLAIM =>
      obtain rfl := Option.some.inj h
      exact .cons (covers_one (textNotPhoto_writes plainText_writes) nofun (fun _ => rfl)
        applies_always) .nil

end Completeness

end Conversation

end Paayatam
