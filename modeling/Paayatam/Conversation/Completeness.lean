/-
  Paayatam.Conversation.Completeness

  A draft over any sequence of updates: what its summary and its submission show.

  Whoever stands at a step has settled those before it, and moving on settles the
  step itself.  Three taps take a short cut past the order of the steps: «confirm»
  submits from wherever the draft stands, «details» goes on without asking for an
  answer to the current step, and a draft may be opened on its summary.
-/

import Paayatam.Conversation.Fields
import Paayatam.Lib.System

namespace Paayatam

open Lib

namespace Conversation

namespace Completeness

/-! ## One user's draft -/

/-- The row of the user, if there is one. -/
abbrev FormDraft := Option ConversationRow

inductive DraftMove where
  | start (now updateId : Int) (kind : ConversationKind) (targetPublicId : Option String)
      (initialForm : FormPatch)
  | startAtSummary (now updateId : Int) (kind : ConversationKind)
      (targetPublicId : Option String) (initialForm : FormPatch)
  | update (now updateId : Int) (input : WizardInput)
  /-- Cancelled elsewhere, or expired. -/
  | clear

/-- The row after a handler's write. -/
def stored (now updateId : Int) (row : ConversationRow) : ConversationWrite → FormDraft
  | .nothing => some row
  | .save snapshot => some (savedRow now updateId snapshot)
  | .clear => none

def exec (draft : FormDraft) : DraftMove → Option FormDraft
  | .start now updateId kind target initialForm =>
    (start WIZARDS kind target initialForm).map fun r => some (savedRow now updateId r.1)
  | .startAtSummary now updateId kind target initialForm =>
    (startAtSummary WIZARDS kind target initialForm).map fun r => some (savedRow now updateId r.1)
  | .update now updateId input =>
    draft.map fun row => stored now updateId row (handle WIZARDS row updateId input).1
  | .clear => some none

def Step (draft : FormDraft) (m : DraftMove) (draft' : FormDraft) : Prop :=
  exec draft m = some draft'

/-- No draft yet. -/
def Init (draft : FormDraft) : Prop := draft = none

/-- «confirm» is pressed once the current step and those after it are settled, «details» once the
    current one is, and a new minimum age is not above the maximum already given. -/
structure TapsInOrder (definition : WizardDefinition) (step : WizardStep) (input : WizardInput)
    (snapshot : ConversationSnapshot) : Prop where
  confirm : input.action = some "confirm" →
    ∀ later ∈ stepsFrom definition snapshot.step, Settled later snapshot.form
  details : input.action = some "details" → Settled step snapshot.form
  ages : snapshot.kind = .CREATE_EVENT → step.key = "minage" → ∀ minAge maxAge,
    acceptInteger input 18 120 "سن" = .ok minAge →
      snapshot.form.number "maxAge" = some maxAge → minAge ≤ maxAge

/-- The taps come in order, and drafts are opened with what they are opened for. -/
def FillsInOrder (draft : FormDraft) : DraftMove → Prop
  | .start _ _ kind _ initialForm => ∀ definition, WIZARDS kind = some definition →
      CrossRules kind (startForm definition initialForm)
  | .startAtSummary _ _ kind _ initialForm => ∀ definition, WIZARDS kind = some definition →
      Complete definition (startForm definition initialForm) ∧
        CrossRules kind (startForm definition initialForm)
  | .update _ _ input => ∀ row definition step, draft = some row →
      WIZARDS row.snapshot.kind = some definition →
      stepByKey definition row.snapshot.step = some step →
        TapsInOrder definition step input row.snapshot
  | .clear => True

/-- A summary or a submission that `handle` answers shows a complete form. -/
def ShowsComplete (x : FormDraft × DraftMove × FormDraft) : Prop :=
  ∀ row now updateId input snapshot, x.1 = some row → x.2.1 = .update now updateId input →
    ((handle WIZARDS row updateId input).2 = .summary snapshot ∨
      (handle WIZARDS row updateId input).2 = .submit snapshot) →
    ∃ definition, WIZARDS snapshot.kind = some definition ∧ Complete definition snapshot.form ∧
      CrossRules snapshot.kind snapshot.form

/-! ## The order of the steps -/

section Order

variable {definition : WizardDefinition} {key : String} {step other : WizardStep} {form : Form}

theorem mem_of_before (h : step ∈ stepsBefore definition key) : step ∈ definition.steps :=
  (List.takeWhile_prefix _).subset h

/-- The steps before a step, the step, and those after it. -/
theorem steps_split (h : stepByKey definition key = some step) : step.key = key ∧ ∃ rest,
    definition.steps = stepsBefore definition key ++ step :: rest ∧
      stepsFrom definition key = step :: rest := by
  obtain ⟨hkey, before, rest, hsteps, hbefore⟩ := List.find?_eq_some_iff_append.1 h
  have hne : ∀ t ∈ before, (t.key != key) = true := hbefore
  have hend : (step.key != key) = false := by simpa [bne] using hkey
  have htake : stepsBefore definition key = before := by
    rw [stepsBefore, hsteps, List.takeWhile_append_of_pos hne, List.takeWhile_cons, hend]
    simp
  have hdrop : stepsFrom definition key = step :: rest := by
    rw [stepsFrom, hsteps, List.dropWhile_append_of_pos hne, List.dropWhile_cons, hend]
    simp
  exact ⟨by simpa using hkey, rest, by rw [htake, hsteps], hdrop⟩

/-- What is taken up to an element comes before it. -/
theorem mem_of_mem_takeWhile {α : Type} {p : α → Bool} {a x : α} {front back : List α}
    (hp : p x = false) (h : a ∈ (front ++ x :: back).takeWhile p) : a ∈ front := by
  induction front with
  | nil => simp [hp] at h
  | cons b front ih =>
      rw [List.cons_append, List.takeWhile_cons] at h
      split at h
      · rcases List.mem_cons.1 h with rfl | h
        · exact List.mem_cons_self
        · exact List.mem_cons_of_mem _ (ih h)
      · cases h

/-- The steps before the next one: those before this one, this one, and some that do not
    apply. -/
theorem before_next (h : stepByKey definition key = some step)
    (hnext : nextStep definition key form = some other) {t : WizardStep}
    (ht : t ∈ stepsBefore definition other.key) :
    t ∈ stepsBefore definition key ∨ t = step ∨ t.applies form = false := by
  obtain ⟨-, rest, hsteps, hfrom⟩ := steps_split h
  rw [nextStep, hfrom] at hnext
  obtain ⟨-, skipped, back, hrest, hskipped⟩ := List.find?_eq_some_iff_append.1 hnext
  have hrest' : rest = skipped ++ other :: back := hrest
  rw [stepsBefore, hsteps, hrest', ← List.cons_append, ← List.append_assoc] at ht
  have hmem := mem_of_mem_takeWhile (x := other) (by simp) ht
  rcases List.mem_append.1 hmem with hbefore | hmem
  · exact .inl hbefore
  · rcases List.mem_cons.1 hmem with rfl | hmem
    · exact .inr (.inl rfl)
    · exact .inr (.inr (by simpa using hskipped t hmem))

/-- With no step to follow, those after this one do not apply. -/
theorem rest_of_last (h : stepByKey definition key = some step)
    (hnext : nextStep definition key form = none) {t : WizardStep} (ht : t ∈ definition.steps) :
    t ∈ stepsBefore definition key ∨ t = step ∨ t.applies form = false := by
  obtain ⟨-, rest, hsteps, hfrom⟩ := steps_split h
  rw [nextStep, hfrom] at hnext
  rw [hsteps] at ht
  rcases List.mem_append.1 ht with hbefore | ht
  · exact .inl hbefore
  · rcases List.mem_cons.1 ht with rfl | ht
    · exact .inr (.inl rfl)
    · exact .inr (.inr (by simpa using List.find?_eq_none.1 hnext t ht))

/-- Going back leaves no step behind. -/
theorem before_previous (hprevious : previousStep definition key form = some other)
    {t : WizardStep} (ht : t ∈ stepsBefore definition other.key) :
    t ∈ stepsBefore definition key := by
  unfold previousStep at hprevious
  split at hprevious
  · have hmem : other ∈ stepsBefore definition key :=
      List.mem_reverse.1 (List.mem_of_find?_eq_some hprevious)
    obtain ⟨front, back, hbefore⟩ := List.append_of_mem hmem
    have hprefix : stepsBefore definition key ++ stepsFrom definition key = definition.steps :=
      List.takeWhile_append_dropWhile
    rw [stepsBefore, ← hprefix, hbefore, List.append_assoc, List.cons_append] at ht
    rw [hbefore]
    exact List.mem_append_left _ (mem_of_mem_takeWhile (x := other) (by simp) ht)
  · cases hprevious

end Order

/-! ## What answers leave alone -/

section Frame

variable {kind : ConversationKind} {definition : WizardDefinition} {step t : WizardStep}
  {form : Form} {patch : FormPatch} {input : WizardInput}

theorem exists_fields {steps : List WizardStep} {fields : List StepFields}
    (h : List.Forall₂ Covers steps fields) (ht : t ∈ steps) : ∃ f ∈ fields, Covers t f := by
  induction h with
  | nil => cases ht
  | @cons _ f _ _ hcovers _ ih =>
      rcases List.mem_cons.1 ht with rfl | ht
      · exact ⟨f, List.mem_cons_self, hcovers⟩
      · obtain ⟨g, hg, hcg⟩ := ih ht
        exact ⟨g, List.mem_cons_of_mem _ hg, hcg⟩

/-- What a step leaves of the steps before it. -/
def Spares (t s : WizardStep) : Prop :=
  ∀ input form patch, s.accept input form = .ok patch →
    Settled t form → Settled t (answered form patch)

theorem spares_of_covers {steps : List WizardStep} {fields : List StepFields}
    (h : List.Forall₂ Covers steps fields) (ho : Ordered fields) : steps.Pairwise Spares := by
  induction h with
  | nil => exact .nil
  | @cons t f steps fields hcovers hrest ih =>
      obtain ⟨hfirst, hlater⟩ := List.pairwise_cons.1 ho.later
      refine .cons (fun s hs input form patch ha => ?_)
        (ih ⟨hlater, fun g hg => ho.machine g (List.mem_cons_of_mem _ hg)⟩)
      obtain ⟨g, hg, hcg⟩ := exists_fields hrest hs
      refine hcovers.reads form _ fun k hk => answered_other (fun hin => ?_) fun he => ?_
      · exact hfirst g hg k hk (hcg.writes input form patch ha k hin)
      · exact ho.machine f List.mem_cons_self k hk (by simp [he, MACHINE_FIELDS])

/-- What the machine writes of its own accord settles and unsettles nothing. -/
theorem settled_merge (hw : WIZARDS kind = some definition) (ht : t ∈ definition.steps)
    (hpatch : ∀ k ∈ patch.map (·.1), k ∈ MACHINE_FIELDS) (h : Settled t form) :
    Settled t (form.merge patch) := by
  obtain ⟨f, hf, hcovers⟩ := exists_fields (fieldsOf_covers hw) ht
  exact hcovers.reads form _ (fun k hk => Form.merge_of_not_mem fun hin =>
    (fieldsOf_ordered kind).machine f hf k hk (hpatch k hin)) h

/-- An answer, or a skip, leaves the steps before it settled. -/
theorem settled_before (hw : WIZARDS kind = some definition)
    (hstep : stepByKey definition step.key = some step)
    (ha : apply step input form = .ok patch) (ht : t ∈ stepsBefore definition step.key)
    (h : Settled t form) : Settled t (answered form patch) := by
  unfold apply at ha
  split at ha
  · split at ha
    · obtain rfl := StepResult.ok.inj ha
      exact settled_merge hw (mem_of_before ht) (by simp [MACHINE_FIELDS]) h
    · cases ha
  · obtain ⟨-, rest, hsteps, -⟩ := steps_split hstep
    have hpairs := spares_of_covers (fieldsOf_covers hw) (fieldsOf_ordered kind)
    rw [hsteps] at hpairs
    exact (List.pairwise_append.1 hpairs).2.2 t ht step List.mem_cons_self input form patch ha h

/-- An answer, or a skip, settles its own step, unless the step keeps the floor. -/
theorem settled_self (hw : WIZARDS kind = some definition) (hmem : step ∈ definition.steps)
    (hui : step.ui ≠ .multi) (ha : apply step input form = .ok patch) :
    Settled step (answered form patch) := by
  unfold apply at ha
  split at ha
  · split at ha
    · next hoptional => exact settled_of_optional hoptional
    · cases ha
  · obtain ⟨f, -, hcovers⟩ := exists_fields (fieldsOf_covers hw) hmem
    exact hcovers.answers hui input form patch ha

theorem number_merge {k : String} (hk : k ∉ patch.map (·.1)) (ht : k ≠ TOUCHED_KEY) :
    (answered form patch).number k = form.number k := by
  rw [Form.number, answered_other hk ht]
  rfl

end Frame

/-! ## The ages -/

section Ages

variable {step : WizardStep} {form : Form} {patch : FormPatch} {input : WizardInput}

theorem agesOrdered_congr {form' : Form} (h : AgesOrdered form)
    (hmin : form'.number "minAge" = form.number "minAge")
    (hmax : form'.number "maxAge" = form.number "maxAge") : AgesOrdered form' := by
  intro minAge maxAge hlo hhi
  rw [hmin] at hlo
  rw [hmax] at hhi
  exact h minAge maxAge hlo hhi

/-- The fields of the ages are written at their own steps only. -/
theorem ages_written : ∀ f ∈ createEventFields, ("minAge" ∈ f.writes → f.key = "minage") ∧
    ("maxAge" ∈ f.writes → f.key = "maxage") := by
  decide

theorem number_answered_self {field : String} {value : Int} {rest : FormPatch} :
    (answered form ((field, some (.number value)) :: rest)).number field = some value := by
  simp [answered, Form.merge, Form.number]

/-- An accepted maximum is not below the minimum. -/
theorem acceptMaxAge_ordered (h : acceptMaxAge input form = .ok patch) :
    ∃ value, patch = [("maxAge", some (.number value))] ∧
      ∀ minAge, form.number "minAge" = some minAge → minAge ≤ value := by
  unfold acceptMaxAge at h
  split at h
  · cases h
  · next value _ =>
      split at h
      · next minAge hmin =>
          split at h
          · cases h
          · next hle =>
              refine ⟨value, (StepResult.ok.inj h).symm, fun lo hlo => ?_⟩
              obtain rfl : minAge = lo := Option.some.inj (hmin.symm.trans hlo)
              omega
      · next hnone =>
          refine ⟨value, (StepResult.ok.inj h).symm, fun lo hlo => ?_⟩
          rw [hnone] at hlo
          cases hlo

/-- What the steps of the ages accept. -/
theorem accept_of_ages (hmem : step ∈ createEventSteps) :
    (step.key = "minage" → ∀ input form,
      step.accept input form = integerInto "minAge" [] 18 120 "سن" input) ∧
    (step.key = "maxage" → step.accept = acceptMaxAge) := by
  simp only [createEventSteps, List.mem_cons, List.not_mem_nil, or_false] at hmem
  rcases hmem with rfl | rfl | rfl | rfl | rfl | rfl | rfl | rfl | rfl | rfl | rfl | rfl | rfl |
    rfl | rfl | rfl | rfl
  case inr.inr.inr.inr.inr.inr.inr.inr.inr.inr.inr.inr.inr.inl =>
    refine ⟨fun _ input form => ?_, fun h => absurd h (by decide)⟩
    dsimp only
  case inr.inr.inr.inr.inr.inr.inr.inr.inr.inr.inr.inr.inr.inr.inl =>
    refine ⟨fun h => absurd h (by decide), fun _ => ?_⟩
    dsimp only
  all_goals exact ⟨fun h => absurd h (by decide), fun h => absurd h (by decide)⟩

/-- An answer keeps the ages in order; a new minimum, below the maximum already given. -/
theorem ages_answered (hmem : step ∈ createEventSteps) (ha : apply step input form = .ok patch)
    (hages : step.key = "minage" → ∀ minAge maxAge,
      acceptInteger input 18 120 "سن" = .ok minAge → form.number "maxAge" = some maxAge →
        minAge ≤ maxAge) (h : AgesOrdered form) : AgesOrdered (answered form patch) := by
  unfold apply at ha
  split at ha
  · split at ha
    · obtain rfl := StepResult.ok.inj ha
      exact agesOrdered_congr h (number_merge (by simp) (by decide))
        (number_merge (by simp) (by decide))
    · cases ha
  · by_cases hmin : step.key = "minage"
    · -- the minimum
      rw [(accept_of_ages hmem).1 hmin, integerInto] at ha
      split at ha
      · next value hvalue =>
          obtain rfl := StepResult.ok.inj ha
          intro minAge maxAge hlo hhi
          rw [number_answered_self] at hlo
          obtain rfl := Option.some.inj hlo
          rw [number_merge (by simp) (by decide)] at hhi
          exact hages hmin value maxAge hvalue hhi
      · cases ha
    · by_cases hmax : step.key = "maxage"
      · -- the maximum
        rw [(accept_of_ages hmem).2 hmax] at ha
        obtain ⟨value, rfl, hordered⟩ := acceptMaxAge_ordered ha
        intro minAge maxAge hlo hhi
        rw [number_answered_self] at hhi
        obtain rfl := Option.some.inj hhi
        rw [number_merge (by simp) (by decide)] at hlo
        exact hordered minAge hlo
      · obtain ⟨f, hf, hcovers⟩ := exists_fields createEvent_covers hmem
        have hwritten := ages_written f hf
        rw [← hcovers.key] at hwritten
        have hkeys := hcovers.writes input form patch ha
        exact agesOrdered_congr h
          (number_merge (fun hin => hmin (hwritten.1 (hkeys _ hin))) (by decide))
          (number_merge (fun hin => hmax (hwritten.2 (hkeys _ hin))) (by decide))

end Ages

/-! ## One update -/

/-- Where a draft stands: the steps before its own are settled, and its rules hold. -/
structure Stands (definition : WizardDefinition) (snapshot : ConversationSnapshot) : Prop where
  before : ∀ t ∈ stepsBefore definition snapshot.step, Settled t snapshot.form
  rules : CrossRules snapshot.kind snapshot.form

/-- A handler saves drafts that stand, and shows summaries that are complete. -/
structure HandledWell (definition : WizardDefinition) (kind : ConversationKind)
    (r : ConversationWrite × ConversationOutcome) : Prop where
  saved : ∀ snapshot, r.1 = .save snapshot → snapshot.kind = kind ∧ Stands definition snapshot
  shown : ∀ snapshot, r.2 = .summary snapshot ∨ r.2 = .submit snapshot →
    snapshot.kind = kind ∧ Complete definition snapshot.form ∧ CrossRules kind snapshot.form

section Handle

variable {definition : WizardDefinition} {step : WizardStep} {snapshot : ConversationSnapshot}
  {input : WizardInput} {form : Form} {patch : FormPatch} {kind : ConversationKind}

theorem settled_of_not_applies (h : step.applies form = false) : Settled step form := by
  intro _ happlies
  rw [h] at happlies
  cases happlies

theorem redraw_well (h : Stands definition snapshot) (error : Option String) :
    HandledWell definition snapshot.kind (redraw definition snapshot error) := by
  refine ⟨fun snapshot' hs => ?_, fun snapshot' hs => ?_⟩
  · obtain rfl := ConversationWrite.save.inj hs
    exact ⟨rfl, h⟩
  · rcases hs with hs | hs <;> cases hs

/-- Past a settled step, the next one that applies, or the summary. -/
theorem moveOn_well (h : Stands definition snapshot)
    (hstep : stepByKey definition snapshot.step = some step) (hself : Settled step snapshot.form) :
    HandledWell definition snapshot.kind (moveOn definition snapshot) := by
  unfold moveOn
  cases hnext : nextStep definition snapshot.step snapshot.form with
  | some following =>
      have hstands : Stands definition { snapshot with step := following.key } := by
        refine ⟨fun t ht => ?_, h.rules⟩
        rcases before_next hstep hnext ht with hbefore | rfl | hskipped
        · exact h.before t hbefore
        · exact hself
        · exact settled_of_not_applies hskipped
      exact redraw_well hstands none
  | none =>
      refine ⟨fun snapshot' hs => ?_, fun snapshot' hs => ?_⟩
      · obtain rfl := ConversationWrite.save.inj hs
        exact ⟨rfl, h⟩
      · have hs' : snapshot = snapshot' := by
          rcases hs with hs | hs
          · exact ConversationOutcome.summary.inj hs
          · cases hs
        obtain rfl := hs'
        refine ⟨rfl, fun t ht => ?_, h.rules⟩
        rcases rest_of_last hstep hnext ht with hbefore | rfl | hrest
        · exact h.before t hbefore
        · exact hself
        · exact settled_of_not_applies hrest

theorem rules_answered (hw : WIZARDS kind = some definition) (hmem : step ∈ definition.steps)
    (ha : apply step input form = .ok patch)
    (hages : kind = .CREATE_EVENT → step.key = "minage" → ∀ minAge maxAge,
      acceptInteger input 18 120 "سن" = .ok minAge → form.number "maxAge" = some maxAge →
        minAge ≤ maxAge) (h : CrossRules kind form) : CrossRules kind (answered form patch) := by
  cases kind with
  | CREATE_EVENT =>
      obtain rfl := Option.some.inj hw
      exact ages_answered hmem ha (hages rfl) h
  | _ => trivial

theorem rules_details (h : CrossRules kind form) :
    CrossRules kind (form.merge [("wantsDetails", some (.flag true))]) := by
  cases kind with
  | CREATE_EVENT =>
      refine agesOrdered_congr h ?_ ?_
      · rw [Form.number, Form.merge_of_not_mem (by simp)]
        rfl
      · rw [Form.number, Form.merge_of_not_mem (by simp)]
        rfl
  | _ => trivial

/-- «بازگشت» goes to a step with fewer before it. -/
theorem handleBack_well (hstep : stepByKey definition snapshot.step = some step)
    (h : Stands definition snapshot) :
    HandledWell definition snapshot.kind (handleBack definition step snapshot) := by
  obtain ⟨hkey, -⟩ := steps_split hstep
  have hstands : Stands definition { snapshot with
      step := ((previousStep definition step.key snapshot.form).getD step).key } := by
    refine ⟨fun t ht => h.before t ?_, h.rules⟩
    cases hprevious : previousStep definition step.key snapshot.form with
    | some other =>
        rw [hprevious] at ht
        rw [← hkey]
        exact before_previous hprevious ht
    | none =>
        rw [hprevious] at ht
        rw [← hkey]
        exact ht
  exact redraw_well hstands none

theorem handleDone_well (hw : WIZARDS snapshot.kind = some definition)
    (hstep : stepByKey definition snapshot.step = some step) (h : Stands definition snapshot) :
    HandledWell definition snapshot.kind (handleDone definition step snapshot) := by
  unfold handleDone
  split
  · exact redraw_well h _
  · next hchosen =>
      refine moveOn_well h hstep fun hrequired _ => ?_
      have hselected : step.selectedOf snapshot.form ≠ [] := fun he => hchosen ⟨hrequired, he⟩
      obtain ⟨f, -, hcovers⟩ := exists_fields (fieldsOf_covers hw) (List.mem_of_find?_eq_some hstep)
      unfold Answered
      split
      · exact hselected
      · next hui => exact absurd (hcovers.selects hui _) hselected

theorem handleDetails_well (hw : WIZARDS snapshot.kind = some definition)
    (hstep : stepByKey definition snapshot.step = some step) (h : Stands definition snapshot)
    (hself : Settled step snapshot.form) :
    HandledWell definition snapshot.kind (handleDetails definition step snapshot) := by
  obtain ⟨hkey, -⟩ := steps_split hstep
  have hmerge : ∀ t ∈ definition.steps, Settled t snapshot.form →
      Settled t (snapshot.form.merge [("wantsDetails", some (.flag true))]) := fun t ht =>
    settled_merge hw ht (by simp [MACHINE_FIELDS])
  have hstands : Stands definition { snapshot with
      form := snapshot.form.merge [("wantsDetails", some (.flag true))] } :=
    ⟨fun t ht => hmerge t (mem_of_before ht) (h.before t ht), rules_details h.rules⟩
  have hwell := moveOn_well hstands hstep (hmerge step (List.mem_of_find?_eq_some hstep) hself)
  unfold moveOn at hwell
  unfold handleDetails
  dsimp only at hwell ⊢
  rw [hkey]
  split at hwell
  · exact ⟨nofun, hwell.shown⟩
  · exact hwell

theorem handleAnswer_well (hw : WIZARDS snapshot.kind = some definition)
    (hstep : stepByKey definition snapshot.step = some step) (h : Stands definition snapshot)
    (htaps : TapsInOrder definition step input snapshot) :
    HandledWell definition snapshot.kind (handleAnswer definition step input snapshot) := by
  obtain ⟨hkey, -⟩ := steps_split hstep
  have hmem : step ∈ definition.steps := List.mem_of_find?_eq_some hstep
  unfold handleAnswer
  split
  · exact redraw_well h _
  · next patch ha =>
      have hstep' : stepByKey definition step.key = some step := hkey ▸ hstep
      have hstands : Stands definition { snapshot with form := answered snapshot.form patch } := by
        refine ⟨fun t ht => ?_, rules_answered hw hmem ha htaps.ages h.rules⟩
        rw [← hkey] at ht
        exact settled_before hw hstep' ha ht (h.before t (hkey ▸ ht))
      dsimp only
      split
      · exact redraw_well hstands none
      · next hui => exact moveOn_well hstands hstep (settled_self hw hmem hui ha)

theorem handleStep_well (hw : WIZARDS snapshot.kind = some definition)
    (hstep : stepByKey definition snapshot.step = some step) (h : Stands definition snapshot)
    (htaps : TapsInOrder definition step input snapshot) :
    HandledWell definition snapshot.kind (handleStep definition step input snapshot) := by
  unfold handleStep
  split
  · exact ⟨nofun, fun _ hs => by rcases hs with hs | hs <;> cases hs⟩
  split
  · exact handleBack_well hstep h
  split
  · exact redraw_well h none
  split
  · next hconfirm =>
      refine ⟨fun snapshot' hs => ?_, fun snapshot' hs => ?_⟩
      · obtain rfl := ConversationWrite.save.inj hs
        exact ⟨rfl, h⟩
      · have hs' : snapshot = snapshot' := by
          rcases hs with hs | hs
          · cases hs
          · exact ConversationOutcome.submit.inj hs
        obtain rfl := hs'
        obtain ⟨-, rest, hsteps, hfrom⟩ := steps_split hstep
        refine ⟨rfl, fun t ht => ?_, h.rules⟩
        rw [hsteps] at ht
        rcases List.mem_append.1 ht with hbefore | hlater
        · exact h.before t hbefore
        · exact htaps.confirm hconfirm t (hfrom ▸ hlater)
  split
  · exact handleDone_well hw hstep h
  split
  · next hdetails => exact handleDetails_well hw hstep h (htaps.details hdetails)
  split
  · exact redraw_well h none
  · exact handleAnswer_well hw hstep h htaps

end Handle

/-! ## Runs -/

section Runs

variable {draft draft' : FormDraft} {m : DraftMove}

/-- A draft of a wizard stands where it is. -/
def DraftStands (draft : FormDraft) : Prop :=
  ∀ row definition, draft = some row → WIZARDS row.snapshot.kind = some definition →
    Stands definition row.snapshot

theorem start_stands {kind : ConversationKind} {target : Option String} {initialForm : FormPatch}
    {r : ConversationSnapshot × ConversationOutcome} {definition : WizardDefinition}
    (hs : start WIZARDS kind target initialForm = some r) (hw : WIZARDS r.1.kind = some definition)
    (hrules : ∀ definition, WIZARDS kind = some definition →
      CrossRules kind (startForm definition initialForm)) : Stands definition r.1 := by
  unfold start at hs
  split at hs
  · cases hs
  · next known hknown =>
      dsimp only at hs
      split at hs
      · cases hs
      · next step hfirst =>
          obtain rfl := Option.some.inj hs
          obtain rfl := Option.some.inj (hknown.symm.trans hw)
          refine ⟨fun t ht => ?_, hrules _ hknown⟩
          -- the steps before the first one do not apply
          obtain ⟨-, front, back, hsteps, hfront⟩ := List.find?_eq_some_iff_append.1 hfirst
          rw [stepsBefore, hsteps] at ht
          have hmem := mem_of_mem_takeWhile (x := step) (by simp) ht
          exact settled_of_not_applies (by simpa using hfront t hmem)

theorem startAtSummary_stands {kind : ConversationKind} {target : Option String}
    {initialForm : FormPatch} {r : ConversationSnapshot × ConversationOutcome}
    {definition : WizardDefinition} (hs : startAtSummary WIZARDS kind target initialForm = some r)
    (hw : WIZARDS r.1.kind = some definition)
    (hform : ∀ definition, WIZARDS kind = some definition →
      Complete definition (startForm definition initialForm) ∧
        CrossRules kind (startForm definition initialForm)) : Stands definition r.1 := by
  unfold startAtSummary at hs
  split at hs
  · cases hs
  · next known hknown =>
      dsimp only at hs
      split at hs
      · cases hs
      · obtain rfl := Option.some.inj hs
        obtain rfl := Option.some.inj (hknown.symm.trans hw)
        obtain ⟨hcomplete, hrules⟩ := hform _ hknown
        exact ⟨fun t ht => hcomplete t (mem_of_before ht), hrules⟩

/-- What `handle` does with the row it reads. -/
theorem handle_well {row : ConversationRow} (updateId : Int) {input : WizardInput}
    (h : DraftStands (some row))
    (hg : ∀ definition step, WIZARDS row.snapshot.kind = some definition →
      stepByKey definition row.snapshot.step = some step →
        TapsInOrder definition step input row.snapshot) :
    (∃ definition, WIZARDS row.snapshot.kind = some definition ∧
      HandledWell definition row.snapshot.kind (handle WIZARDS row updateId input)) ∨
    ((∀ snapshot, (handle WIZARDS row updateId input).1 ≠ .save snapshot) ∧
      ∀ snapshot, (handle WIZARDS row updateId input).2 ≠ .summary snapshot ∧
        (handle WIZARDS row updateId input).2 ≠ .submit snapshot) := by
  unfold handle
  split
  · exact .inr ⟨nofun, fun _ => ⟨nofun, nofun⟩⟩
  · split
    · exact .inr ⟨nofun, fun _ => ⟨nofun, nofun⟩⟩
    · next definition hw =>
        split
        · exact .inr ⟨nofun, fun _ => ⟨nofun, nofun⟩⟩
        · next step hstep =>
            exact .inl ⟨definition, hw,
              handleStep_well hw hstep (h row definition rfl hw) (hg definition step hw hstep)⟩

theorem draftStands_step (h : DraftStands draft) (hg : FillsInOrder draft m)
    (hs : Step draft m draft') : DraftStands draft' := by
  unfold Step exec at hs
  cases m with
  | start now updateId kind target initialForm =>
      obtain ⟨r, hr, rfl⟩ := Option.map_eq_some_iff.1 hs
      intro row definition hrow hw
      obtain rfl := Option.some.inj hrow
      exact start_stands hr hw hg
  | startAtSummary now updateId kind target initialForm =>
      obtain ⟨r, hr, rfl⟩ := Option.map_eq_some_iff.1 hs
      intro row definition hrow hw
      obtain rfl := Option.some.inj hrow
      exact startAtSummary_stands hr hw hg
  | update now updateId input =>
      obtain ⟨row, rfl, rfl⟩ := Option.map_eq_some_iff.1 hs
      intro row' definition hrow' hw'
      rcases handle_well updateId h fun d s => hg row d s rfl with
        ⟨known, hw, hwell⟩ | ⟨hnothing, -⟩
      · cases hwrite : (handle WIZARDS row updateId input).1 with
        | nothing =>
            rw [hwrite] at hrow'
            exact h row' definition hrow' hw'
        | save snapshot =>
            rw [hwrite] at hrow'
            obtain rfl := Option.some.inj hrow'
            obtain ⟨hkind, hstands⟩ := hwell.saved snapshot hwrite
            have hw'' : WIZARDS snapshot.kind = some definition := hw'
            rw [hkind, hw] at hw''
            exact Option.some.inj hw'' ▸ hstands
        | clear =>
            rw [hwrite] at hrow'
            cases hrow'
      · cases hwrite : (handle WIZARDS row updateId input).1 with
        | nothing =>
            rw [hwrite] at hrow'
            exact h row' definition hrow' hw'
        | save snapshot => exact absurd hwrite (hnothing snapshot)
        | clear =>
            rw [hwrite] at hrow'
            cases hrow'
  | clear =>
      obtain rfl := Option.some.inj hs
      intro row definition hrow
      cases hrow

/-- In every run whose taps come in order, each summary and each submission that `handle`
    answers shows a complete form. -/
theorem summaries_complete {tr : List (FormDraft × DraftMove × FormDraft)}
    (h : Run Init Step FillsInOrder tr draft) : ∀ x ∈ tr, ShowsComplete x :=
  h.steps (P := fun draft m draft' => ShowsComplete (draft, m, draft'))
    fun draft m draft' hdraft hg hs => by
      have hstands : DraftStands draft := hdraft.invariant (I := DraftStands)
        (fun _ he row _ hrow => by rw [he] at hrow; cases hrow)
        fun _ _ _ hI hg hs => draftStands_step hI hg hs
      rintro row now updateId input snapshot hrow rfl hshown
      obtain rfl : draft = some row := hrow
      rcases handle_well updateId hstands fun d s => hg row d s rfl with
        ⟨definition, hw, hwell⟩ | ⟨-, hnothing⟩
      · obtain ⟨hkind, hcomplete, hrules⟩ := hwell.shown snapshot hshown
        rw [hkind]
        exact ⟨definition, hw, hcomplete, hrules⟩
      · rcases hshown with hshown | hshown
        · exact absurd hshown (hnothing snapshot).1
        · exact absurd hshown (hnothing snapshot).2

end Runs

/-- Only optional steps are left at a «confirm» or a «details», and no ages are given. -/
def optionalLeft (draft : FormDraft) : DraftMove → Bool
  | .start _ _ kind _ _ => decide (kind ≠ .CREATE_EVENT)
  | .startAtSummary _ _ _ _ _ => false
  | .update _ _ input =>
    match draft with
    | none => true
    | some row =>
      decide (row.snapshot.kind ≠ .CREATE_EVENT) && decide (input.action ≠ some "details") &&
        (decide (input.action ≠ some "confirm") ||
          (WIZARDS row.snapshot.kind).all fun definition =>
            (stepsFrom definition row.snapshot.step).all fun t => t.optional)
  | .clear => true

theorem fillsInOrder_of (draft : FormDraft) (m : DraftMove) (h : optionalLeft draft m = true) :
    FillsInOrder draft m := by
  cases m with
  | start now updateId kind target initialForm =>
      intro definition _
      have hkind : kind ≠ .CREATE_EVENT := of_decide_eq_true h
      cases kind <;> trivial
  | startAtSummary now updateId kind target initialForm => cases h
  | update now updateId input =>
      rintro row definition step rfl hw hstep
      simp only [optionalLeft, Bool.and_eq_true, Bool.or_eq_true, decide_eq_true_eq, hw,
        Option.all_some, List.all_eq_true] at h
      obtain ⟨⟨hkind, hdetails⟩, hconfirm⟩ := h
      refine ⟨fun he t ht => ?_, fun he => absurd he hdetails, fun he => absurd he hkind⟩
      rcases hconfirm with hne | hoptional
      · exact absurd he hne
      · exact settled_of_optional (hoptional t ht)
  | clear => trivial

/-- A report: a reason, back and another one, no note, and the submission. -/
def reportMoves : List DraftMove :=
  [.start 0 1 .FILE_REPORT (some "7") [], .update 0 2 ⟨.callback, some "why", "SPAM"⟩,
    .update 0 3 ⟨.callback, some "back", ""⟩, .update 0 4 ⟨.callback, some "why", "SCAM"⟩,
    .update 0 5 ⟨.callback, some "skip", ""⟩, .update 0 6 ⟨.callback, some "confirm", ""⟩]

theorem summaries_complete_report :
    ∃ (tr : List (FormDraft × DraftMove × FormDraft)) (row : ConversationRow),
      (∀ x ∈ tr, ShowsComplete x) ∧ tr.length = 6 ∧
        row.snapshot.form "reason" = some (.string "SCAM") := by
  have hplay : guardList exec optionalLeft none reportMoves = true ∧
      (traceList exec none reportMoves).length = 6 ∧
      (runList exec none reportMoves).any (fun draft => draft.any fun row =>
        decide (row.snapshot.form "reason" = some (.string "SCAM"))) = true := by
    decide
  obtain ⟨draft, hdraft, hrow⟩ := (Option.any_eq_true _ _).1 hplay.2.2
  obtain ⟨row, -, hreason⟩ := (Option.any_eq_true _ _).1 hrow
  have hrun : Run Init Step FillsInOrder (traceList exec none reportMoves) draft :=
    run_of_runList (I := Init) (g := optionalLeft) (fun _ _ _ h => h) fillsInOrder_of
      (.start rfl) hplay.1 hdraft
  exact ⟨_, row, summaries_complete hrun, hplay.2.1, of_decide_eq_true hreason⟩

/-- The draft of an event, at its first question. -/
def freshDraft : ConversationRow :=
  savedRow 0 1 ⟨.CREATE_EVENT, "title", Form.empty, none, none⟩

/-- «confirm» on the first question submits an event without a title. -/
theorem empty_form_submitted :
    Reachable Init Step (some freshDraft) ∧
    ∃ snapshot, (handle WIZARDS freshDraft 2 ⟨.callback, some "confirm", ""⟩).2 = .submit snapshot ∧
      WIZARDS snapshot.kind = some createEventWizard ∧
      ¬ Complete createEventWizard snapshot.form := by
  refine ⟨.next (i := .start 0 1 .CREATE_EVENT none []) (.start rfl) trivial rfl,
    freshDraft.snapshot, rfl, rfl, fun hcomplete => ?_⟩
  have htitle := hcomplete _ List.mem_cons_self rfl rfl
  unfold Answered at htitle
  rw [if_neg nofun] at htitle
  obtain ⟨_, _, _, -, ⟨key, value, hmem⟩, hin⟩ := htitle
  cases hin key value hmem

end Completeness

end Conversation

end Paayatam
