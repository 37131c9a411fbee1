/-
  Paayatam.Booking.EventEdits

  A host's edits while other edits go on.

  An edit that leaves the capacity alone reads the event without its lock,
  decides everything from that row, and writes by id: the columns it was sent,
  the ones it settled together with them, and nothing else.  It is a worker
  here, with a read and a write of its own.  An edit of the capacity holds the
  lock from its read on, and a new event is seen by nobody before it commits;
  each of those is one step.

  `Sees` is what the calls of a run have in common: the catalogue they see, or
  nothing at all.
-/

import Paayatam.Booking.EventCreation
import Paayatam.Lib.Threads

namespace Paayatam

open Lib

/-! ## What is decided -/

/-- `categoryTouched`: the category, its label or the city moves. -/
def categoryTouched (input : UpdateEventInput) (existing : EventRow) : Bool :=
  input.categoryId.isSome || input.customCategoryLabel.isSome ||
    input.cityId.getD existing.cityId != existing.cityId

/-- Some part of the place was sent. -/
def locationTouched (input : UpdateEventInput) : Bool :=
  input.cityId.isSome || input.districtId.isSome || input.districtLabel.isSome

/-- The text an edit scans: what it was sent, over what it read. -/
def editContent (input : UpdateEventInput) (existing : EventRow) (edit : EventEdit) :
    EventContent where
  title := input.title.getD existing.title
  description := input.description.getD existing.description
  customCategoryLabel := input.customCategoryLabel <|> existing.customCategoryLabel
  districtLabel := (edit.location.map (·.2.2)).getD existing.districtLabel

/-- Everything an accepted edit decided from the row it read. -/
structure Decided (env : Env) (host : UserId) (input : UpdateEventInput) (v : Option Nat)
    (existing : EventRow) (plan : UpdatePlan) : Prop where
  own : existing.hostUserId = host
  version : ∀ n ∈ v, n = existing.version
  schedule : input.startsAt.getD existing.startsAt < input.endsAt.getD existing.endsAt
  title : plan.edit.title = input.title
  description : plan.edit.description = input.description
  startsAt : plan.edit.startsAt = input.startsAt
  endsAt : plan.edit.endsAt = input.endsAt
  capacity : plan.edit.capacity = input.capacity
  genderPreference : plan.edit.genderPreference = input.genderPreference
  minAge : plan.edit.minAge = input.minAge
  maxAge : plan.edit.maxAge = input.maxAge
  location : planLocation env input existing = .ok plan.edit.location
  category : planCategory env input existing
    ((plan.edit.location.map (·.1)).getD existing.cityId) = .ok plan.edit.category
  scanned : plan.scanned = if contentChanged input existing then
    some (env.scanEventContent (editContent input existing plan.edit)) else none
  outcome : plan.edit.outcome = plan.scanned.map outcomeFor

theorem planUpdate_decided {env : Env} {host : UserId} {input : UpdateEventInput} {v : Option Nat}
    {ev : EventRow} {plan : UpdatePlan} (h : planUpdate env host input v ev = .ok plan) :
    Decided env host input v ev plan := by
  simp only [planUpdate, require_bind_eq_ok] at h
  obtain ⟨hown, hversion, -, h⟩ := h
  obtain ⟨_, hschedule, h⟩ := except_bind_eq_ok.1 h
  have hsane : input.startsAt.getD ev.startsAt < input.endsAt.getD ev.endsAt := by
    simp only [assertScheduleSane, require_bind_eq_ok] at hschedule
    exact hschedule.1
  rw [require_bind_eq_ok] at h
  obtain ⟨-, h⟩ := h
  obtain ⟨loc, hloc, h⟩ := except_bind_eq_ok.1 h
  obtain ⟨cat, hcat, h⟩ := except_bind_eq_ok.1 h
  split at h
  · next hchanged =>
      obtain ⟨_, -, h⟩ := except_bind_eq_ok.1 h
      obtain rfl := Except.ok.inj h
      exact ⟨hown.2, hversion, hsane, rfl, rfl, rfl, rfl, rfl, rfl, rfl, rfl, hloc, hcat,
        (if_pos hchanged).symm, rfl⟩
  · next hchanged =>
      obtain rfl := Except.ok.inj h
      exact ⟨hown.2, hversion, hsane, rfl, rfl, rfl, rfl, rfl, rfl, rfl, rfl, hloc, hcat,
        (if_neg hchanged).symm, rfl⟩

namespace Decided

variable {env : Env} {host : UserId} {input : UpdateEventInput} {v : Option Nat}
  {existing : EventRow} {plan : UpdatePlan}

/-- The place is written as one answer, or left alone. -/
theorem location_cases (h : Decided env host input v existing plan) :
    (locationTouched input = false ∧ plan.edit.location = none) ∨
      (locationTouched input = true ∧ plan.edit.location =
        some (input.cityId.getD existing.cityId,
          resolveNeighbourhood input.districtId
            (input.districtLabel.getD existing.districtLabel))) := by
  have hplan := h.location
  unfold planLocation at hplan
  unfold locationTouched
  split at hplan
  · next htouched =>
      obtain ⟨⟨city, district⟩, hresolve, hplan⟩ := except_bind_eq_ok.1 hplan
      obtain ⟨rfl, rfl⟩ := resolveLocation_spec hresolve
      exact .inr ⟨htouched, (Except.ok.inj hplan).symm⟩
  · next htouched => exact .inl ⟨by simpa using htouched, (Except.ok.inj hplan).symm⟩

/-- The city an edit settles on is the one it was sent, or the one it read. -/
theorem effectiveCity (h : Decided env host input v existing plan) :
    (plan.edit.location.map (·.1)).getD existing.cityId = input.cityId.getD existing.cityId := by
  rcases h.location_cases with ⟨htouched, hloc⟩ | ⟨-, hloc⟩
  · have hcity : input.cityId = none := by
      simp only [locationTouched, Bool.or_eq_false_iff] at htouched
      simpa using htouched.1.1
    rw [hloc, hcity]
    rfl
  · rw [hloc]
    rfl

/-- The category and its label are written together, or left alone. -/
theorem category_cases (h : Decided env host input v existing plan) :
    (categoryTouched input existing = false ∧ plan.edit.category = none) ∨
      (categoryTouched input existing = true ∧ ∃ l, plan.edit.category =
          some (input.categoryId.getD existing.categoryId, l) ∧
        l = ((input.customCategoryLabel <|> existing.customCategoryLabel).map trim).filter
          (· ≠ "") ∧
        Offered env.catalog (input.categoryId.getD existing.categoryId) l
          (input.cityId.getD existing.cityId)) := by
  have hplan := h.category
  rw [h.effectiveCity] at hplan
  unfold planCategory at hplan
  unfold categoryTouched
  split at hplan
  · next htouched =>
      obtain ⟨⟨k, l⟩, hresolve, hplan⟩ := except_bind_eq_ok.1 hplan
      obtain ⟨rfl, hl, hoffered⟩ := resolveCategory_spec hresolve
      exact .inr ⟨htouched, l, (Except.ok.inj hplan).symm, hl, hoffered⟩
  · next htouched => exact .inl ⟨by simpa using htouched, (Except.ok.inj hplan).symm⟩

end Decided

/-! ## The system -/

/-- An edit between its read and its write, with what it decided from the row it read. -/
structure EditWork (Sees : Env → Prop) where
  env : Env
  sees : Sees env
  host : UserId
  input : UpdateEventInput
  expectedVersion : Option Nat
  read : EventRow
  plan : UpdatePlan
  planned : planUpdate env host input expectedVersion read = .ok plan

/-- The committed rows, and the edit each worker has in flight. -/
abbrev EditWorld (Sees : Env → Prop) := Threads Nat Db (Option (EditWork Sees))

inductive EditMove (Sees : Env → Prop) where
  | create (env : Env) (sees : Sees env) (host : UserId) (input : CreateEventInput) (seeded : Bool)
      (newId : EventId)
  /-- An edit of the capacity, under the lock from its read to its write. -/
  | edit (env : Env) (sees : Sees env) (host : UserId) (e : EventId) (input : UpdateEventInput)
      (expectedVersion : Option Nat)
  /-- Worker `i` reads the event `e`, checks its edit and scans it. -/
  | read (i : Nat) (env : Env) (sees : Sees env) (host : UserId) (e : EventId)
      (input : UpdateEventInput) (expectedVersion : Option Nat)
  /-- Worker `i` writes, and commits or fails. -/
  | write (i : Nat)

/-- The steps of a run. -/
abbrev EditTrace (Sees : Env → Prop) := List (EditWorld Sees × EditMove Sees × EditWorld Sees)

variable {Sees : Env → Prop}

namespace EditWork

/-- An edit that passes its checks on the row it reads. -/
def start (env : Env) (sees : Sees env) (host : UserId) (input : UpdateEventInput)
    (expectedVersion : Option Nat) (read : EventRow) : Option (EditWork Sees) :=
  match h : planUpdate env host input expectedVersion read with
  | .ok plan => some ⟨env, sees, host, input, expectedVersion, read, plan, h⟩
  | .error _ => none

/-- What is left of the transaction after its read. -/
def finish (f : EditWork Sees) : Act Unit :=
  finishUpdate f.env f.host f.input f.expectedVersion f.read

/-- What the edit leaves of the row it finds. -/
def leaves (f : EditWork Sees) (found : EventRow) : EventRow := f.plan.edit.apply found

theorem decided (f : EditWork Sees) :
    Decided f.env f.host f.input f.expectedVersion f.read f.plan :=
  planUpdate_decided f.planned

/-- The label the edit leaves: the one it found, or the one it settled on. -/
theorem leaves_label (f : EditWork Sees) (found : EventRow) :
    (f.leaves found).customCategoryLabel =
      if categoryTouched f.input f.read then
        ((f.input.customCategoryLabel <|> f.read.customCategoryLabel).map trim).filter (· ≠ "")
      else found.customCategoryLabel := by
  unfold leaves EventEdit.apply
  rcases f.decided.category_cases with ⟨htouched, hcat⟩ | ⟨htouched, l, hcat, rfl, -⟩
  · rw [if_neg (by simp [htouched]), hcat]
    rfl
  · rw [if_pos htouched, hcat]
    rfl

/-- The neighbourhood the edit leaves. -/
theorem leaves_districtLabel (f : EditWork Sees) (found : EventRow) :
    (f.leaves found).districtLabel =
      if locationTouched f.input then
        (resolveNeighbourhood f.input.districtId
          (f.input.districtLabel.getD f.read.districtLabel)).2
      else found.districtLabel := by
  unfold leaves EventEdit.apply
  rcases f.decided.location_cases with ⟨htouched, hloc⟩ | ⟨htouched, hloc⟩
  · rw [if_neg (by simp [htouched]), hloc]
    rfl
  · rw [if_pos htouched, hloc]
    rfl

/-- An edit leaves tidy labels tidy. -/
theorem tidy_leaves (f : EditWork Sees) {found : EventRow}
    (hlabel : Tidy found.customCategoryLabel) (hdistrict : Tidy found.districtLabel) :
    Tidy (f.leaves found).customCategoryLabel ∧ Tidy (f.leaves found).districtLabel := by
  rw [leaves_label, leaves_districtLabel]
  constructor
  · split
    · exact tidy_trimmed _
    · exact hlabel
  · split
    · exact tidy_resolveNeighbourhood _ _
    · exact hdistrict

theorem leaves_title (f : EditWork Sees) (found : EventRow) :
    (f.leaves found).title = f.input.title.getD found.title := by
  rw [leaves, EventEdit.apply, f.decided.title]

theorem leaves_description (f : EditWork Sees) (found : EventRow) :
    (f.leaves found).description = f.input.description.getD found.description := by
  rw [leaves, EventEdit.apply, f.decided.description]

theorem leaves_status (f : EditWork Sees) (found : EventRow) :
    (f.leaves found).status = ((f.plan.scanned.map outcomeFor).map (·.status)).getD found.status := by
  rw [leaves, EventEdit.apply, f.decided.outcome]

theorem start_eq_some {env : Env} {sees : Sees env} {host : UserId} {input : UpdateEventInput}
    {v : Option Nat} {row : EventRow} {f : EditWork Sees}
    (h : start env sees host input v row = some f) :
    f.env = env ∧ f.host = host ∧ f.input = input ∧ f.expectedVersion = v ∧ f.read = row := by
  unfold start at h
  split at h
  · obtain rfl := Option.some.inj h
    exact ⟨rfl, rfl, rfl, rfl, rfl⟩
  · cases h

theorem start_of_plan {env : Env} {sees : Sees env} {host : UserId} {input : UpdateEventInput}
    {v : Option Nat} {row : EventRow} {plan : UpdatePlan}
    (h : planUpdate env host input v row = .ok plan) :
    start env sees host input v row = some ⟨env, sees, host, input, v, row, plan, h⟩ := by
  unfold start
  split
  · next h' =>
      obtain rfl := Except.ok.inj (h.symm.trans h')
      rfl
  · next h' =>
      rw [h] at h'
      cases h'

/-- A committed write puts the edit on the row as it is found. -/
theorem finish_spec {f : EditWork Sees} {s s' : Db} (h : Runs f.finish s () s') :
    ∃ found, found.id = f.read.id ∧ s.events.Rewrites found f.leaves s'.events := by
  obtain ⟨plan, found, t, hplan, hfound, ht, hs, -⟩ := finishUpdate_spec h
  obtain rfl := Except.ok.inj (f.planned.symm.trans hplan)
  have hid : found.id = f.read.id := Table.key_of_find? hfound
  refine ⟨found, hid, ?_⟩
  rw [hs]
  exact ht

end EditWork

namespace EditWorld

def exec (w : EditWorld Sees) : EditMove Sees → Option (EditWorld Sees)
  | .create env _ host input seeded newId =>
    some { w with shared := commit (create env host input seeded newId) w.shared }
  | .edit env _ host e input v =>
    if input.capacity.isSome then
      some { w with shared := commit (update env host e input v) w.shared }
    else none
  | .read i env sees host e input v =>
    match w.locals i, w.shared.events.find? e with
    | none, some row =>
      if input.capacity = none then
        (EditWork.start env sees host input v row).map fun f => w.set i w.shared (some f)
      else none
    | _, _ => none
  | .write i =>
    match w.locals i with
    | some f => some (w.set i (commit f.finish w.shared) none)
    | none => none

def Step (w : EditWorld Sees) (m : EditMove Sees) (w' : EditWorld Sees) : Prop := w.exec m = some w'

/-- No event yet, and no edit in flight. -/
def Init (w : EditWorld Sees) : Prop := w.shared.events.rows = [] ∧ ∀ i, w.locals i = none

def initial : EditWorld Sees where
  shared := fundedHost
  locals _ := none

theorem init_initial : (initial : EditWorld Sees).Init :=
  ⟨fundedHost_events, fun _ => rfl⟩

/-- The committed events. -/
def events (w : EditWorld Sees) : Table EventRow := w.shared.events

/-- The edit a move is to write. -/
def edits (w : EditWorld Sees) : EditMove Sees → Option (EditWork Sees)
  | .edit env sees host e input v =>
    (w.events.find? e).bind fun row => EditWork.start env sees host input v row
  | .write i => w.locals i
  | _ => none

end EditWorld

/-! ## One step -/

/-- What one move does to the events. -/
inductive EditTurn (w : EditWorld Sees) (m : EditMove Sees) (w' : EditWorld Sees) : Prop
  | still (h : w'.events = w.events)
      (hfails : ∀ f ∈ w.edits m, commits f.finish w.shared = false)
  | created {env : Env} {sees : Sees env} {host : UserId} {input : CreateEventInput}
      {seeded : Bool} {e : EventId} {content : EventContent} {ev : EventRow}
      (hm : m = .create env sees host input seeded e) (hsane : input.startsAt < input.endsAt)
      (hev : CreatedAs env host input seeded e content ev)
      (hrows : w'.events.rows = w.events.rows ++ [ev])
  | edited {f : EditWork Sees} {found : EventRow} (hm : w.edits m = some f)
      (hid : found.id = f.read.id) (hfound : f.read = found ∨ ∃ i, m = .write i)
      (hcommits : commits f.finish w.shared = true)
      (hwrites : w.events.Rewrites found f.leaves w'.events)

theorem commit_of_fails {σ ε α : Type} {m : Tx σ ε α} {s : σ} (h : commits m s = false) :
    commit m s = s := by
  rcases commit_cases m s with ⟨a, hrun⟩ | hsame
  · rw [commits_of_runs hrun] at h
    cases h
  · exact hsame

/-- An edit in one piece is its read and its write. -/
theorem runs_update {env : Env} {host : UserId} {e : EventId} {input : UpdateEventInput}
    {v : Option Nat} {s s' : Db} : Runs (update env host e input v) s () s' ↔
      ∃ row, s.events.find? e = some row ∧ Runs (finishUpdate env host input v row) s () s' := by
  simp only [update, runs_findRow_bind, runs_orThrow_bind]
  rfl

theorem EditWorld.step_turn {w w' : EditWorld Sees} {m : EditMove Sees} (hs : w.Step m w') :
    EditTurn w m w' := by
  cases m with
  | create env sees host input seeded e =>
      have hw' := Option.some.inj hs
      have hshared : w'.shared = commit (create env host input seeded e) w.shared := by rw [← hw']
      rcases commit_cases (create env host input seeded e) w.shared with ⟨r, hrun⟩ | hsame
      · rw [← hshared] at hrun
        obtain ⟨hsane, ev, content, hev, hrows⟩ := create_spec hrun
        exact .created rfl hsane hev hrows
      · exact .still (by rw [events, hshared, hsame]; rfl) (by simp [edits])
  | edit env sees host e input v =>
      simp only [Step, exec] at hs
      split at hs
      · have hw' := Option.some.inj hs
        have hshared : w'.shared = commit (update env host e input v) w.shared := by rw [← hw']
        by_cases hcommits : commits (update env host e input v) w.shared = true
        · obtain ⟨u, hrun⟩ := runs_of_commits hcommits
          rw [← hshared] at hrun
          obtain ⟨row, hrow, hfinish⟩ := runs_update.1 hrun
          obtain ⟨plan, _, _, hplan, -⟩ := finishUpdate_spec hfinish
          have hedits : w.edits (.edit env sees host e input v) =
              some ⟨env, sees, host, input, v, row, plan, hplan⟩ := by
            rw [edits, events, hrow]
            exact EditWork.start_of_plan hplan
          have hrun' : Runs (EditWork.finish ⟨env, sees, host, input, v, row, plan, hplan⟩)
              w.shared () w'.shared := hfinish
          obtain ⟨found, hid, hwrites⟩ := EditWork.finish_spec hrun'
          have hsame : row = found :=
            Table.eq_of_key (Table.mem_of_find? hrow) hwrites.mem hid.symm
          exact .edited hedits hid (.inl hsame) (commits_of_runs hrun') hwrites
        · have hfails : commits (update env host e input v) w.shared = false := by
            simpa using hcommits
          refine .still (by rw [events, hshared, commit_of_fails hfails]; rfl) fun f hf => ?_
          by_contra hfinish
          obtain ⟨u, hrun⟩ := runs_of_commits (eq_true_of_ne_false hfinish)
          simp only [edits, Option.mem_def, Option.bind_eq_some_iff] at hf
          obtain ⟨row, hrow, hstart⟩ := hf
          obtain ⟨henv, hhost, hinput, hv, hread⟩ := EditWork.start_eq_some hstart
          rw [EditWork.finish, henv, hhost, hinput, hv, hread] at hrun
          exact hcommits (commits_of_runs (runs_update.2 ⟨row, hrow, hrun⟩))
      · cases hs
  | read i env sees host e input v =>
      simp only [Step, exec] at hs
      split at hs
      · split at hs
        · obtain ⟨f, -, hw'⟩ := Option.map_eq_some_iff.1 hs
          exact .still (by rw [← hw']; rfl) (by simp [edits])
        · cases hs
      · cases hs
  | write i =>
      simp only [Step, exec] at hs
      split at hs
      · next f hf =>
          have hw' := Option.some.inj hs
          have hshared : w'.shared = commit f.finish w.shared := by rw [← hw']; rfl
          by_cases hcommits : commits f.finish w.shared = true
          · obtain ⟨u, hrun⟩ := runs_of_commits hcommits
            rw [← hshared] at hrun
            obtain ⟨found, hid, hwrites⟩ := EditWork.finish_spec hrun
            exact .edited hf hid (.inr ⟨i, rfl⟩) (commits_of_runs hrun) hwrites
          · have hfails : commits f.finish w.shared = false := by simpa using hcommits
            refine .still (by rw [events, hshared, commit_of_fails hfails]; rfl) fun f' hf' => ?_
            obtain rfl := Option.some.inj (hf.symm.trans hf')
            exact hfails
      · cases hs

end Paayatam
