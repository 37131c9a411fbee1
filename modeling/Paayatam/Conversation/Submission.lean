/-
  Paayatam.Conversation.Submission

  «ثبت» on a CREATE_EVENT draft, from the button to the event.

  The conversation hands out a submit on every confirm; the event is created
  and charged in a transaction of its own; the draft is cleared only then, by a
  third statement.  Nothing ties the event to the draft it came from.
-/

import Paayatam.Conversation.Updates
import Paayatam.Booking.World

namespace Paayatam

open Lib

namespace Conversation

/-! ## The request -/

/-- What the request needs beside the form: the rows that ids name, and the clock of Tehran. -/
structure RequestReader where
  rowId : String → Nat
  /-- The instant of a day, an hour and a minute. -/
  zonedTimeToUtc : String → Int → Int → Instant

def genderPreferenceOf : String → Option GenderPreference
  | "MALE_ONLY" => some .MALE_ONLY
  | "FEMALE_ONLY" => some .FEMALE_ONLY
  | _ => none

/-- The form as a request, or nothing while a required field is missing. -/
def toCreateEventRequest (reader : RequestReader) (form : Form) : Option CreateEventInput := do
  let title ← form.string "title"
  let description ← form.string "description"
  let categoryId ← form.string "categoryId"
  let cityId ← form.string "cityId"
  let capacity ← form.number "capacity"
  let _ ← form.string "costType"
  let hour ← form.number "hour"
  let day ← form.string "day"
  if isIsoDay day then
    let startsAt := reader.zonedTimeToUtc day hour ((form.number "startMinute").getD 0)
    some
      { title, description, categoryId := reader.rowId categoryId, customCategoryLabel := none
        cityId := reader.rowId cityId
        districtId := (form.string "districtId").map reader.rowId
        districtLabel := form.string "districtLabel"
        startsAt, endsAt := startsAt + (form.number "durationHours").getD 2 * 3600000, capacity
        genderPreference := (form.string "genderPreference").bind genderPreferenceOf
        minAge := form.number "minAge", maxAge := form.number "maxAge" }
  else none

/-! ## The system -/

inductive SubmitPhase where
  /-- Between the read of `handle` and its write. -/
  | handling (update : DraftUpdate) (read : ConversationRow)
  /-- `handle` answered submit; the event is not created yet. -/
  | confirmed (form : Form)
  /-- The event is created; the draft is not cleared yet. -/
  | created

/-- A call in progress, and the draft it works on. -/
structure SubmitCall where
  draft : Nat
  phase : SubmitPhase

structure SubmitShared where
  /-- The conversation of the user, and which draft it is. -/
  row : Option (ConversationRow × Nat)
  db : Db
  /-- How many drafts have been started. -/
  drafts : Nat
  /-- The events created, each with its draft. -/
  created : List (Nat × EventId)

abbrev SubmitWorld := Threads Nat SubmitShared (Option SubmitCall)

inductive SubmitMove where
  | receive (i : Nat) (update : DraftUpdate)
  | write (i : Nat)
  /-- Call `i` creates the event, or is refused. -/
  | create (i : Nat) (env : Env) (newId : EventId)
  /-- Call `i` clears the conversation. -/
  | finish (i : Nat)
  /-- The process of call `i` dies. -/
  | crash (i : Nat)
  | start (now updateId : Int) (kind : ConversationKind) (targetPublicId : Option String)
      (initialForm : FormPatch) (onSummary : Bool)
  /-- The sweep of expired drafts, or the end of another form. -/
  | clear
  /-- What other services do to the database. -/
  | elsewhere (db : Db)

variable (wizards : Wizards) (reader : RequestReader) (user : UserId)

namespace SubmitWorld

/-- The form a confirmed CREATE_EVENT draft is created from. -/
def submitted : ConversationOutcome → Option Form
  | .submit snapshot => if snapshot.kind = .CREATE_EVENT then some snapshot.form else none
  | _ => none

def exec (w : SubmitWorld) : SubmitMove → Option SubmitWorld
  | .receive i update =>
    match w.locals i, w.shared.row with
    | some _, _ => none
    | none, none => some w
    | none, some (row, draft) =>
      match (handle wizards row update.updateId update.input).1 with
      | .nothing => some w
      | _ => some (w.set i w.shared (some ⟨draft, .handling update row⟩))
  | .write i =>
    match w.locals i with
    | some ⟨draft, .handling update read⟩ =>
      match handle wizards read update.updateId update.input with
      | (.save snapshot, outcome) => some (w.set i
          { w.shared with row := some (savedRow update.now update.updateId snapshot, draft) }
          ((submitted outcome).map fun form => ⟨draft, .confirmed form⟩))
      | (.clear, _) => some (w.set i { w.shared with row := none } none)
      | (.nothing, _) => some (w.set i w.shared none)
    | _ => none
  | .create i env newId =>
    match w.locals i with
    | some ⟨draft, .confirmed form⟩ =>
      match toCreateEventRequest reader form with
      | none => some (w.set i w.shared none)
      | some input =>
        match (Paayatam.create env user input false newId).run w.shared.db with
        | .ok (eventId, db) => some (w.set i
            { w.shared with db, created := w.shared.created ++ [(draft, eventId)] }
            (some ⟨draft, .created⟩))
        | .error _ => some (w.set i w.shared none)
    | _ => none
  | .finish i =>
    match w.locals i with
    | some ⟨_, .created⟩ => some (w.set i { w.shared with row := none } none)
    | _ => none
  | .crash i => (w.locals i).map fun _ => w.set i w.shared none
  | .start now updateId kind targetPublicId initialForm onSummary =>
    match DraftWorld.started wizards kind targetPublicId initialForm onSummary with
    | none => some w
    | some (snapshot, _) => some { w with shared := { w.shared with
        row := some (savedRow now updateId snapshot, w.shared.drafts)
        drafts := w.shared.drafts + 1 } }
  | .clear => some { w with shared := { w.shared with row := none } }
  | .elsewhere db => some { w with shared := { w.shared with db } }

def Step (w : SubmitWorld) (m : SubmitMove) (w' : SubmitWorld) : Prop :=
  w.exec wizards reader user m = some w'

/-- No draft yet, and nobody at work. -/
def Init (w : SubmitWorld) : Prop :=
  w.shared.row = none ∧ w.shared.created = [] ∧ ∀ i, w.locals i = none

def initial (db : Db) : SubmitWorld where
  shared := ⟨none, db, 0, []⟩
  locals _ := none

theorem init_initial (db : Db) : (initial db).Init := ⟨rfl, rfl, fun _ => rfl⟩

end SubmitWorld

def SubmitCall.HasCreated (c : SubmitCall) : Prop := c.phase = .created

/-- An update is taken up only when the one before is done with, its submission included, and
    no process dies between the event and the end of its draft. -/
def SubmitsInTurn (w : SubmitWorld) : SubmitMove → Prop
  | .receive _ _ => ∀ j, w.locals j = none
  | .crash i => ∀ c ∈ w.locals i, ¬ c.HasCreated
  | _ => True

/-! ## One event for each draft -/

/-- The drafts that an event was created from. -/
def SubmitShared.spent (s : SubmitShared) : List Nat := s.created.map (·.1)

structure SpentOnce (w : SubmitWorld) : Prop where
  once : w.shared.spent.Nodup
  known : ∀ d ∈ w.shared.spent, d < w.shared.drafts
  rowKnown : ∀ r ∈ w.shared.row, r.2 < w.shared.drafts
  /-- A spent draft is still stored only while the call that spent it is about to clear it. -/
  cleared : ∀ r ∈ w.shared.row, r.2 ∈ w.shared.spent → ∃ i, ∃ c ∈ w.locals i, c.HasCreated
  alone : ∀ i j, ∀ c ∈ w.locals i, ∀ d ∈ w.locals j, i = j
  /-- A call that has created nothing yet works on a draft that is not spent. -/
  unspent : ∀ i, ∀ c ∈ w.locals i, ¬ c.HasCreated →
    c.draft ∉ w.shared.spent ∧ c.draft < w.shared.drafts

section Steps

variable {wizards} {reader} {user} {w w' : SubmitWorld} {i : Nat} {c : SubmitCall}
  {shared : SubmitShared}

/-- The only call at work ends, or goes on with the same draft. -/
theorem SpentOnce.set (h : SpentOnce w) (hl : w.locals i = some c) {l : Option SubmitCall}
    (honce : shared.spent.Nodup) (hknown : ∀ d ∈ shared.spent, d < shared.drafts)
    (hrow : ∀ r ∈ shared.row, r.2 < shared.drafts)
    (hcleared : ∀ r ∈ shared.row, r.2 ∈ shared.spent → ∃ c ∈ l, c.HasCreated)
    (hunspent : ∀ c ∈ l, ¬ c.HasCreated → c.draft ∉ shared.spent ∧ c.draft < shared.drafts) :
    SpentOnce (w.set i shared l) := by
  -- whoever is at work is call `i`
  have hothers : ∀ j, ∀ d ∈ (w.set i shared l).locals j, j = i ∧ d ∈ l := by
    intro j d hd
    by_cases hj : j = i
    · subst hj
      exact ⟨rfl, by simpa using hd⟩
    · rw [Threads.set_locals_ne hj] at hd
      exact absurd (h.alone j i d hd c hl) hj
  refine ⟨honce, hknown, hrow, fun r hr hspent => ?_, fun j k d hd e he => ?_,
    fun j d hd => hunspent d (hothers j d hd).2⟩
  · obtain ⟨d, hd, hcreated⟩ := hcleared r hr hspent
    exact ⟨i, d, by simpa using hd, hcreated⟩
  · rw [(hothers j d hd).1, (hothers k e he).1]

/-- The only call at work ends without having created. -/
theorem SpentOnce.leave (h : SpentOnce w) (hl : w.locals i = some c) (hc : ¬ c.HasCreated) :
    SpentOnce (w.set i w.shared none) := by
  refine h.set hl h.once h.known h.rowKnown (fun r hr hspent => ?_) (by simp)
  obtain ⟨j, d, hd, hcreated⟩ := h.cleared r hr hspent
  obtain rfl := h.alone j i d hd c hl
  obtain rfl := Option.some.inj (hl.symm.trans hd)
  exact absurd hcreated hc

theorem SpentOnce.step (h : SpentOnce w) {m : SubmitMove} (hg : SubmitsInTurn w m)
    (hs : SubmitWorld.Step wizards reader user w m w') : SpentOnce w' := by
  unfold SubmitWorld.Step SubmitWorld.exec at hs
  cases m with
  | receive i update =>
      have hidle : ∀ j, w.locals j = none := hg
      simp only [hidle i] at hs
      split at hs
      · cases hs
      · obtain rfl := Option.some.inj hs
        exact h
      · next row draft _ hrow =>
          split at hs
          · obtain rfl := Option.some.inj hs
            exact h
          · obtain rfl := Option.some.inj hs
            -- nobody is about to clear, so the stored draft is not spent
            have hunspent : draft ∉ w.shared.spent := by
              intro hspent
              obtain ⟨j, d, hd, -⟩ := h.cleared _ hrow hspent
              rw [hidle j] at hd
              cases hd
            have hothers : ∀ j, ∀ d ∈ (w.set i w.shared
                (some ⟨draft, .handling update row⟩)).locals j, j = i ∧ d.draft = draft := by
              intro j d hd
              by_cases hj : j = i
              · subst hj
                rw [Threads.set_locals_self] at hd
                obtain rfl := Option.some.inj hd
                exact ⟨rfl, rfl⟩
              · rw [Threads.set_locals_ne hj, hidle j] at hd
                cases hd
            refine ⟨h.once, h.known, h.rowKnown, fun r hr hspent => ?_,
              fun j k d hd e he => ?_, fun j d hd _ => ?_⟩
            · obtain rfl := Option.some.inj (hrow.symm.trans hr)
              exact absurd hspent hunspent
            · rw [(hothers j d hd).1, (hothers k e he).1]
            · rw [(hothers j d hd).2]
              exact ⟨hunspent, h.rowKnown _ hrow⟩
  | write i =>
      match hl : w.locals i with
      | none => simp [hl] at hs
      | some ⟨draft, .confirmed form⟩ => simp [hl] at hs
      | some ⟨draft, .created⟩ => simp [hl] at hs
      | some ⟨draft, .handling update read⟩ =>
          simp only [hl] at hs
          have hphase : ¬ SubmitCall.HasCreated ⟨draft, .handling update read⟩ := nofun
          obtain ⟨hunspent, hknown⟩ := h.unspent i _ hl hphase
          split at hs
          · next snapshot outcome _ =>
              obtain rfl := Option.some.inj hs
              refine h.set hl h.once h.known ?_ ?_ ?_
              · rintro r ⟨⟩
                exact hknown
              · rintro r ⟨⟩ hspent
                exact absurd hspent hunspent
              · intro c hc _
                obtain ⟨form, -, rfl⟩ := Option.map_eq_some_iff.1 hc
                exact ⟨hunspent, hknown⟩
          · obtain rfl := Option.some.inj hs
            exact h.set hl h.once h.known (by simp) (by simp) (by simp)
          · obtain rfl := Option.some.inj hs
            exact h.leave hl hphase
  | create i env newId =>
      match hl : w.locals i with
      | none => simp [hl] at hs
      | some ⟨draft, .handling update read⟩ => simp [hl] at hs
      | some ⟨draft, .created⟩ => simp [hl] at hs
      | some ⟨draft, .confirmed form⟩ =>
          simp only [hl] at hs
          have hphase : ¬ SubmitCall.HasCreated ⟨draft, .confirmed form⟩ := nofun
          obtain ⟨hunspent, hknown⟩ := h.unspent i _ hl hphase
          split at hs
          · obtain rfl := Option.some.inj hs
            exact h.leave hl hphase
          · split at hs
            · next eventId db _ =>
                obtain rfl := Option.some.inj hs
                have hspent : (w.shared.created ++ [(draft, eventId)]).map (·.1) =
                    w.shared.spent ++ [draft] := by
                  rw [List.map_append]
                  rfl
                refine h.set hl ?_ ?_ h.rowKnown (fun _ _ _ => ⟨_, rfl, rfl⟩) ?_
                · show ((w.shared.created ++ [(draft, eventId)]).map (·.1)).Nodup
                  rw [hspent]
                  exact List.nodup_append.2 ⟨h.once, List.nodup_singleton _, fun a ha b hb he =>
                    hunspent (List.mem_singleton.1 hb ▸ he ▸ ha)⟩
                · intro d hd
                  have hd' : d ∈ w.shared.spent ++ [draft] := hspent ▸ hd
                  rcases List.mem_append.1 hd' with hold | hnew
                  · exact h.known d hold
                  · rw [List.mem_singleton.1 hnew]
                    exact hknown
                · rintro c ⟨⟩ hc
                  exact absurd rfl hc
            · obtain rfl := Option.some.inj hs
              exact h.leave hl hphase
  | finish i =>
      match hl : w.locals i with
      | none => simp [hl] at hs
      | some ⟨draft, .handling update read⟩ => simp [hl] at hs
      | some ⟨draft, .confirmed form⟩ => simp [hl] at hs
      | some ⟨draft, .created⟩ =>
          simp only [hl] at hs
          obtain rfl := Option.some.inj hs
          exact h.set hl h.once h.known (by simp) (by simp) (by simp)
  | crash i =>
      obtain ⟨c, hl, rfl⟩ := Option.map_eq_some_iff.1 hs
      exact h.leave hl (hg c hl)
  | start now updateId kind targetPublicId initialForm onSummary =>
      cases hstart : DraftWorld.started wizards kind targetPublicId initialForm onSummary with
      | none =>
          simp only [hstart] at hs
          obtain rfl := Option.some.inj hs
          exact h
      | some started =>
          simp only [hstart] at hs
          obtain rfl := Option.some.inj hs
          refine ⟨h.once, fun d hd => Nat.lt_succ_of_lt (h.known d hd), ?_, ?_, h.alone,
            fun j c hc hphase => ⟨(h.unspent j c hc hphase).1,
              Nat.lt_succ_of_lt (h.unspent j c hc hphase).2⟩⟩
          · rintro r ⟨⟩
            exact Nat.lt_succ_self _
          · -- a new draft is not spent
            rintro r ⟨⟩ hspent
            exact absurd (h.known _ hspent) (Nat.lt_irrefl _)
  | clear =>
      obtain rfl := Option.some.inj hs
      exact ⟨h.once, h.known, by simp, by simp, h.alone, h.unspent⟩
  | elsewhere db =>
      obtain rfl := Option.some.inj hs
      exact ⟨h.once, h.known, h.rowKnown, h.cleared, h.alone, h.unspent⟩

theorem spentOnce_init (h : w.Init) : SpentOnce w := by
  obtain ⟨hrow, hcreated, hidle⟩ := h
  have hspent : w.shared.spent = [] := by rw [SubmitShared.spent, hcreated, List.map_nil]
  exact ⟨by rw [hspent]; exact List.nodup_nil, by simp [hspent], by simp [hrow], by simp [hrow],
    by simp [hidle], by simp [hidle]⟩

/-- One draft is submitted at most once, where every update is done with, its event and the end
    of its draft included, before the next one of the user is taken up. -/
theorem one_event_per_draft
    (h : Reach SubmitWorld.Init (SubmitWorld.Step wizards reader user) SubmitsInTurn w) :
    (w.shared.created.map (·.1)).Nodup :=
  (h.invariant (I := SpentOnce) (fun _ h => spentOnce_init h)
    fun _ _ _ hI hg hs => hI.step hg hs).once

end Steps

/-! ## Two taps on «ثبت» -/

/-- The moves of call `0`, each update taken up when the one before is done with, and those of
    nobody. -/
def firstSubmits (w : SubmitWorld) : SubmitMove → Bool
  | .receive i _ => decide (i = 0) && (w.locals 0).isNone
  | .write i | .create i _ _ | .finish i => decide (i = 0)
  | .crash _ => false
  | .start _ _ _ _ _ _ | .clear | .elsewhere _ => true

theorem others_of_firstSubmits {wizards : Wizards} {reader : RequestReader} {user : UserId}
    {w w' : SubmitWorld} {m : SubmitMove} (hm : firstSubmits w m = true)
    (hw : ∀ j, j ≠ 0 → w.locals j = none) (h : SubmitWorld.Step wizards reader user w m w') :
    ∀ j, j ≠ 0 → w'.locals j = none := by
  intro j hj
  unfold SubmitWorld.Step SubmitWorld.exec at h
  cases m with
  | receive i update | write i | create i env newId | finish i =>
      have hi : j ≠ i := by
        simp only [firstSubmits, Bool.and_eq_true, decide_eq_true_eq] at hm
        omega
      simp only at h
      repeat' split at h
      all_goals first
        | (obtain rfl := Option.some.inj h; simpa [hi] using hw j hj)
        | cases h
  | crash i => cases hm
  | start now updateId kind targetPublicId initialForm onSummary =>
      simp only at h
      split at h <;> (obtain rfl := Option.some.inj h; exact hw j hj)
  | clear | elsewhere db =>
      obtain rfl := Option.some.inj h
      exact hw j hj

theorem submitsInTurn_of_firstSubmits {w : SubmitWorld} {m : SubmitMove}
    (hm : firstSubmits w m = true) (hw : ∀ j, j ≠ 0 → w.locals j = none) : SubmitsInTurn w m := by
  cases m with
  | receive i update =>
      simp only [firstSubmits, Bool.and_eq_true] at hm
      intro j
      by_cases hj : j = 0
      · rw [hj]
        exact Option.isNone_iff_eq_none.1 hm.2
      · exact hw j hj
  | crash i => cases hm
  | write i | create i env newId | finish i | clear | elsewhere db => trivial
  | start now updateId kind targetPublicId initialForm onSummary => trivial

/-- A suggestion, as its link fills the form in. -/
def suggestionForm : FormPatch :=
  [("title", some (.string "Board games")), ("description", some (.string "An evening of games.")),
   ("categoryId", some (.string "0199aa11-2b3c-7d4e-8f90-1a2b3c4d5e6f")),
   ("cityId", some (.string "0199aa11-2b3c-7d4e-8f90-1a2b3c4d5e60")),
   ("day", some (.string "2026-01-05")), ("hour", some (.number 18)),
   ("durationHours", some (.number 3)), ("capacity", some (.number 4)),
   ("costType", some (.string "FREE"))]

/-- The 5th of January 2026 in Tehran, at UTC+3:30; one city and one category. -/
def demoReader : RequestReader where
  rowId _ := 1
  zonedTimeToUtc _ hour minute := (20458 * 24 * 60 + hour * 60 + minute - 210) * 60000

def confirmTap (updateId : Int) : DraftUpdate where
  now := 0
  updateId := updateId
  input := { kind := .callback, action := some "confirm", value := "" }

/-- The day before, with a host who has 100 coins. -/
def eveEnv : Env := demoEnv (20457 * 24)

def fundedDb : Db := commit (applyCoins eveEnv (onboardingReward 1 100).input) Db.initial

def startSuggestion : SubmitMove := .start 0 10 .CREATE_EVENT none suggestionForm true

/-- A confirm, its redelivery, and a second tap on the button. -/
def confirmsInTurn : List SubmitMove :=
  [startSuggestion, .receive 0 (confirmTap 11), .write 0, .create 0 eveEnv 7, .finish 0,
    .receive 0 (confirmTap 11), .receive 0 (confirmTap 12)]

theorem one_event_per_draft_inTurn : ∃ w : SubmitWorld,
    (w.shared.created.map (·.1)).Nodup ∧ w.shared.created = [(0, 7)] := by
  have hplay : guardList (SubmitWorld.exec WIZARDS demoReader 1) firstSubmits (.initial fundedDb)
        confirmsInTurn = true ∧
      (runList (SubmitWorld.exec WIZARDS demoReader 1) (.initial fundedDb) confirmsInTurn).any
        (fun w => decide (w.shared.created = [(0, 7)])) = true := by
    decide
  obtain ⟨w, hw, hcreated⟩ := (Option.any_eq_true _ _).1 hplay.2
  have hreach : Reach SubmitWorld.Init (SubmitWorld.Step WIZARDS demoReader 1)
      (fun w m => firstSubmits w m = true) w :=
    reach_of_runList (g := firstSubmits) (fun _ _ _ h => h) (fun _ _ h => h)
    (.start (SubmitWorld.init_initial fundedDb)) hplay.1 hw
  have hturns : Reach SubmitWorld.Init (SubmitWorld.Step WIZARDS demoReader 1) SubmitsInTurn w :=
    hreach.mono_of (J := fun w => ∀ j, j ≠ 0 → w.locals j = none) (fun _ h j _ => h.2.2 j)
      (fun _ _ _ hJ hg hs => others_of_firstSubmits hg hJ hs)
      fun _ _ _ hJ hg _ => submitsInTurn_of_firstSubmits hg hJ
  exact ⟨w, one_event_per_draft hturns, of_decide_eq_true hcreated⟩

/-- A double tap, taken up at once. -/
def confirmsAtOnce : List SubmitMove :=
  [startSuggestion, .receive 0 (confirmTap 11), .write 0, .receive 1 (confirmTap 12), .write 1,
    .create 0 eveEnv 7, .create 1 eveEnv 8, .finish 0, .finish 1]

/-- One draft, two events, and the host is charged for both. -/
theorem draft_submitted_twice : ∃ w,
    Reachable SubmitWorld.Init (SubmitWorld.Step WIZARDS demoReader 1) w ∧
    w.shared.created = [(0, 7), (0, 8)] ∧
    (w.shared.db.coinLedger.rows.filter fun l => decide (l.type = .EVENT_CREATE_SPEND)).length = 2 := by
  have hplay : (runList (SubmitWorld.exec WIZARDS demoReader 1) (.initial fundedDb)
      confirmsAtOnce).any (fun w => decide (w.shared.created = [(0, 7), (0, 8)] ∧
        (w.shared.db.coinLedger.rows.filter fun l =>
          decide (l.type = .EVENT_CREATE_SPEND)).length = 2)) = true := by
    decide
  obtain ⟨w, hw, htwice⟩ := (Option.any_eq_true _ _).1 hplay
  exact ⟨w, reachable_of_runList (fun _ _ _ h => h) (.start (SubmitWorld.init_initial fundedDb)) hw,
    of_decide_eq_true htwice⟩

end Conversation

end Paayatam
