/-
  Paayatam.Conversation.Wizard

  The step machine behind every bot form (`wizard.ts`), and what
  `ConversationService.handle` does with one update.

  A form is a JavaScript object: what it has under each key, if anything.  What
  a step draws (its prompt and its options) is left out; what it accepts, and
  whether it applies, is a function of the form.
-/

import Paayatam.Types
import Paayatam.Env

namespace Paayatam

namespace Conversation

/-! ## Forms -/

/-- What a form may hold under a key. -/
inductive FormValue where
  | string (s : String)
  | number (n : Int)
  | flag (b : Bool)
  | strings (l : List String)
  deriving DecidableEq

/-- A form: its value under each key, `undefined` where there is none. -/
abbrev Form := String → Option FormValue

/-- A patch may name a key and clear it. -/
abbrev FormPatch := List (String × Option FormValue)

namespace Form

def empty : Form := fun _ => none

/-- `{ ...form, ...patch }`. -/
def merge (form : Form) (patch : FormPatch) : Form := fun key =>
  match patch.lookup key with
  | some value => value
  | none => form key

def string (form : Form) (key : String) : Option String :=
  match form key with
  | some (.string s) => some s
  | _ => none

def number (form : Form) (key : String) : Option Int :=
  match form key with
  | some (.number n) => some n
  | _ => none

def isTrue (form : Form) (key : String) : Bool := decide (form key = some (.flag true))

/-- `form[key] ?? []`, of an array. -/
def strings (form : Form) (key : String) : List String :=
  match form key with
  | some (.strings l) => l
  | _ => []

variable {form : Form} {patch : FormPatch} {key : String}

/-- A key the patch does not name keeps its value. -/
theorem merge_of_not_mem (h : key ∉ patch.map (·.1)) : form.merge patch key = form key := by
  have hnone : patch.lookup key = none := by
    rw [List.lookup_eq_none_iff]
    intro p hp
    have hne : ¬ key = p.1 := fun he => h (he ▸ List.mem_map_of_mem hp)
    simpa using hne
  simp [merge, hnone]

@[simp] theorem merge_nil : form.merge [] = form := rfl

end Form

/-- Where the machine records which fields the user answered. -/
def TOUCHED_KEY : String := "_touched"

/-- The set of fields in `_touched`, with the keys of a patch. -/
def touchedWith (form : Form) (patch : FormPatch) : List String :=
  (patch.map (·.1)).foldl (fun touched key => if key ∈ touched then touched else touched ++ [key])
    (form.strings TOUCHED_KEY)

/-- The form after an accepted answer. -/
def answered (form : Form) (patch : FormPatch) : Form :=
  form.merge (patch ++ [(TOUCHED_KEY, some (.strings (touchedWith form patch)))])

/-! ## Steps -/

inductive InputKind where
  | callback
  | text
  | photo
  deriving DecidableEq

/-- What arrived: a tapped button, typed text, or a photo. -/
structure WizardInput where
  kind : InputKind
  /-- The action a callback named. -/
  action : Option String := none
  value : String
  deriving DecidableEq

inductive StepResult where
  | ok (patch : FormPatch)
  | refused (error : String)

inductive StepUi where
  | text
  | choice
  | multi
  | calendar
  | time
  | confirm
  deriving DecidableEq

structure WizardStep where
  key : String
  ui : StepUi
  /-- `when`: whether the step applies at all. -/
  applies : Form → Bool := fun _ => true
  /-- Answerable with «رد کردن», leaving the field unset. -/
  optional : Bool := false
  /-- Which options of a `multi` step are chosen. -/
  selectedOf : Form → List String := fun _ => []
  accept : WizardInput → Form → StepResult

structure WizardDefinition where
  steps : List WizardStep
  empty : Form

/-- The step with this key. -/
def stepByKey (definition : WizardDefinition) (key : String) : Option WizardStep :=
  definition.steps.find? fun step => step.key == key

/-- The steps from the one with this key on, that one first. -/
def stepsFrom (definition : WizardDefinition) (key : String) : List WizardStep :=
  definition.steps.dropWhile fun step => step.key != key

/-- The steps before the one with this key. -/
def stepsBefore (definition : WizardDefinition) (key : String) : List WizardStep :=
  definition.steps.takeWhile fun step => step.key != key

/-- The step after `key` that applies to this form. -/
def nextStep (definition : WizardDefinition) (key : String) (form : Form) : Option WizardStep :=
  ((stepsFrom definition key).drop 1).find? fun step => step.applies form

/-- The applicable step before `key`; nothing for a key of no step. -/
def previousStep (definition : WizardDefinition) (key : String) (form : Form) :
    Option WizardStep :=
  if (stepByKey definition key).isSome then
    (stepsBefore definition key).reverse.find? fun step => step.applies form
  else none

def firstStep (definition : WizardDefinition) (form : Form) : Option WizardStep :=
  definition.steps.find? fun step => step.applies form

def lastStep (definition : WizardDefinition) (form : Form) : Option WizardStep :=
  definition.steps.reverse.find? fun step => step.applies form

/-- Which of the applicable steps this is, and how many there are. -/
def progressOf (definition : WizardDefinition) (key : String) (form : Form) : Nat × Nat :=
  let applicable := definition.steps.filter fun step => step.applies form
  match applicable.findIdx? fun step => step.key == key with
  | some index => (index + 1, applicable.length)
  | none => (0, applicable.length)

/-- Hand an answer to a step. -/
def apply (step : WizardStep) (input : WizardInput) (form : Form) : StepResult :=
  if input.action = some "skip" then
    if step.optional then .ok [] else .refused "از این مرحله نمیشه گذشت."
  else step.accept input form

/-! ## One update -/

def WIZARD_CONTROLS : List String :=
  ["back", "skip", "cancel", "confirm", "goto", "page", "agree", "recheck", "details", "done"]

def isWizardControl (action : String) : Bool := decide (action ∈ WIZARD_CONTROLS)

inductive ConversationKind where
  | ACCEPT_POLICIES
  | COMPLETE_PROFILE
  | EDIT_PROFILE
  | CREATE_EVENT
  | EDIT_EVENT
  | WRITE_REVIEW
  | FILE_REPORT
  | ADMIN_CASE
  | REDEEM_CODE
  | BUG_REPORT
  | DIRECT_MESSAGE
  | NO_SHOW_CLAIM
  deriving DecidableEq

structure ConversationSnapshot where
  kind : ConversationKind
  step : String
  form : Form
  lastMessageId : Option Int
  targetPublicId : Option String

/-- What the caller should draw next. -/
inductive ConversationOutcome where
  | step (key : String) (snapshot : ConversationSnapshot) (error : Option String)
      (position total : Nat)
  | summary (snapshot : ConversationSnapshot)
  | submit (snapshot : ConversationSnapshot)
  | cancelled
  | redelivery (snapshot : ConversationSnapshot)

/-- What a handler writes: nothing, the whole row, or its deletion. -/
inductive ConversationWrite where
  | nothing
  | save (snapshot : ConversationSnapshot)
  | clear

/-- The registry of wizards. -/
abbrev Wizards := ConversationKind → Option WizardDefinition

/-- Draw this step of the snapshot, and store the snapshot. -/
def redraw (definition : WizardDefinition) (snapshot : ConversationSnapshot)
    (error : Option String) : ConversationWrite × ConversationOutcome :=
  let progress := progressOf definition snapshot.step snapshot.form
  (.save snapshot, .step snapshot.step snapshot error progress.1 progress.2)

/-- Move to the step after the current one, or to the summary when there is none. -/
def moveOn (definition : WizardDefinition) (snapshot : ConversationSnapshot) :
    ConversationWrite × ConversationOutcome :=
  match nextStep definition snapshot.step snapshot.form with
  | none => (.save snapshot, .summary snapshot)
  | some following => redraw definition { snapshot with step := following.key } none

/-- «بازگشت». -/
def handleBack (definition : WizardDefinition) (step : WizardStep)
    (snapshot : ConversationSnapshot) : ConversationWrite × ConversationOutcome :=
  let target := (previousStep definition step.key snapshot.form).getD step
  redraw definition { snapshot with step := target.key } none

/-- «تمام»: the selection of a `multi` step is finished. -/
def handleDone (definition : WizardDefinition) (step : WizardStep)
    (snapshot : ConversationSnapshot) : ConversationWrite × ConversationOutcome :=
  if step.optional = false ∧ step.selectedOf snapshot.form = [] then
    redraw definition snapshot (some "دست‌کم یکی رو انتخاب کن.")
  else moveOn definition snapshot

/-- «افزودن جزئیات بیشتر». -/
def handleDetails (definition : WizardDefinition) (step : WizardStep)
    (snapshot : ConversationSnapshot) : ConversationWrite × ConversationOutcome :=
  let opened := { snapshot with
    form := snapshot.form.merge [("wantsDetails", some (.flag true))] }
  match nextStep definition step.key opened.form with
  -- the summary is drawn, and nothing is stored
  | none => (.nothing, .summary opened)
  | some following => redraw definition { opened with step := following.key } none

/-- An answer to the current step. -/
def handleAnswer (definition : WizardDefinition) (step : WizardStep) (input : WizardInput)
    (snapshot : ConversationSnapshot) : ConversationWrite × ConversationOutcome :=
  match apply step input snapshot.form with
  | .refused error => redraw definition snapshot (some error)
  | .ok patch =>
    let next := { snapshot with form := answered snapshot.form patch }
    -- a multi step keeps the floor
    if step.ui = .multi then redraw definition next none else moveOn definition next

/-- An update to the step of the snapshot, past the checks of `handle`. -/
def handleStep (definition : WizardDefinition) (step : WizardStep) (input : WizardInput)
    (snapshot : ConversationSnapshot) : ConversationWrite × ConversationOutcome :=
  if input.action = some "cancel" then (.clear, .cancelled)
  else if input.action = some "back" then handleBack definition step snapshot
  else if input.action = some "page" ∨ input.action = some "goto" then
    redraw definition snapshot none
  else if input.action = some "confirm" then (.save snapshot, .submit snapshot)
  else if input.action = some "done" then handleDone definition step snapshot
  else if input.action = some "details" then handleDetails definition step snapshot
  -- a tap from a keyboard the conversation has moved past
  else if input.kind = .callback ∧
      input.action.any (fun action => !isWizardControl action && action != step.key) then
    redraw definition snapshot none
  else handleAnswer definition step input snapshot

/-- `conversation_state`, the row of one user. -/
structure ConversationRow where
  snapshot : ConversationSnapshot
  lastUpdateId : Int
  expiresAt : Int

/-- `handle`, from the row it has read to what it writes and answers. -/
def handle (wizards : Wizards) (row : ConversationRow) (updateId : Int) (input : WizardInput) :
    ConversationWrite × ConversationOutcome :=
  if updateId ≤ row.lastUpdateId then (.nothing, .redelivery row.snapshot)
  else
    match wizards row.snapshot.kind with
    | none => (.clear, .cancelled)
    | some definition =>
      match stepByKey definition row.snapshot.step with
      | none => (.clear, .cancelled)
      | some step => handleStep definition step input row.snapshot

def DRAFT_TTL_MS : Int := 7 * 86400000

/-- The row that `save` upserts. -/
def savedRow (now : Int) (updateId : Int) (snapshot : ConversationSnapshot) : ConversationRow where
  snapshot := snapshot
  lastUpdateId := updateId
  expiresAt := now + DRAFT_TTL_MS

/-- The form `start` and `startAtSummary` begin with. -/
def startForm (definition : WizardDefinition) (initialForm : FormPatch) : Form :=
  definition.empty.merge initialForm

/-- `start`: the snapshot it stores; it throws without a wizard or a first step. -/
def start (wizards : Wizards) (kind : ConversationKind) (targetPublicId : Option String)
    (initialForm : FormPatch) : Option (ConversationSnapshot × ConversationOutcome) :=
  match wizards kind with
  | none => none
  | some definition =>
    let form := startForm definition initialForm
    match firstStep definition form with
    | none => none
    | some step =>
      let snapshot : ConversationSnapshot :=
        { kind, step := step.key, form, lastMessageId := none, targetPublicId }
      let progress := progressOf definition step.key form
      some (snapshot, .step step.key snapshot none progress.1 progress.2)

/-- `startAtSummary`: every question answered by the caller. -/
def startAtSummary (wizards : Wizards) (kind : ConversationKind) (targetPublicId : Option String)
    (initialForm : FormPatch) : Option (ConversationSnapshot × ConversationOutcome) :=
  match wizards kind with
  | none => none
  | some definition =>
    let form := startForm definition initialForm
    match lastStep definition form with
    | none => none
    | some step =>
      let snapshot : ConversationSnapshot :=
        { kind, step := step.key, form, lastMessageId := none, targetPublicId }
      some (snapshot, .summary snapshot)

end Conversation

end Paayatam
