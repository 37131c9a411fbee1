/-
  Paayatam.Conversation.Updates

  The conversation of one user, and the updates that reach it.

  `handle` reads the row, decides, and upserts the whole row in a statement of
  its own; nothing is locked in between, and another update, a command that
  starts a form, or the sweep of expired drafts may come at any moment.  The
  message a form is drawn on is left out: it is neither an answer nor an id.
-/

import Paayatam.Conversation.Wizards
import Paayatam.Lib.System
import Paayatam.Lib.Threads

namespace Paayatam

open Lib

namespace Conversation

/-! ## The system -/

/-- An update for `handle`. -/
structure DraftUpdate where
  now : Int
  updateId : Int
  input : WizardInput
  deriving DecidableEq

/-- A call of `handle` between its read and its write. -/
structure HandleCall where
  update : DraftUpdate
  /-- The row it read. -/
  read : ConversationRow

structure DraftShared where
  row : Option ConversationRow
  /-- The row as `start` wrote it. -/
  begun : Option ConversationRow
  /-- The updates written since, in the order they were written. -/
  applied : List DraftUpdate

abbrev DraftWorld := Threads Nat DraftShared (Option HandleCall)

inductive DraftMove where
  /-- Call `i` reads the row for an update. -/
  | receive (i : Nat) (update : DraftUpdate)
  /-- Call `i` writes what it decided. -/
  | write (i : Nat)
  /-- The process of call `i` dies. -/
  | crash (i : Nat)
  /-- A command starts a form, on its first step or on its summary. -/
  | start (now updateId : Int) (kind : ConversationKind) (targetPublicId : Option String)
      (initialForm : FormPatch) (onSummary : Bool)
  /-- The caller clears the form. -/
  | clear
  /-- The sweep of expired drafts. -/
  | purge (now : Int)

/-- The id of the update that a move begins to process. -/
def DraftMove.updateId : DraftMove → Option Int
  | .receive _ update => some update.updateId
  | .start _ updateId _ _ _ _ => some updateId
  | _ => none

variable (wizards : Wizards)

/-- The row after an update is handled with nothing else at work. -/
def ConversationRow.after (row : ConversationRow) (update : DraftUpdate) : ConversationRow :=
  match (handle wizards row update.updateId update.input).1 with
  | .save snapshot => savedRow update.now update.updateId snapshot
  | _ => row

/-- The row that the updates applied so far lead to, one after the other. -/
def DraftShared.expected (s : DraftShared) : Option ConversationRow :=
  s.begun.map fun row => s.applied.foldl (ConversationRow.after wizards) row

namespace DraftWorld

def started (kind : ConversationKind) (targetPublicId : Option String) (initialForm : FormPatch)
    (onSummary : Bool) : Option (ConversationSnapshot × ConversationOutcome) :=
  if onSummary then startAtSummary wizards kind targetPublicId initialForm
  else Conversation.start wizards kind targetPublicId initialForm

def exec (w : DraftWorld) : DraftMove → Option DraftWorld
  | .receive i update =>
    match w.locals i, w.shared.row with
    | some _, _ => none
    | none, none => some w
    | none, some row =>
      match (handle wizards row update.updateId update.input).1 with
      | .nothing => some w
      | _ => some (w.set i w.shared (some ⟨update, row⟩))
  | .write i =>
    match w.locals i with
    | none => none
    | some call =>
      match (handle wizards call.read call.update.updateId call.update.input).1 with
      | .save snapshot => some (w.set i { w.shared with
          row := some (savedRow call.update.now call.update.updateId snapshot)
          applied := w.shared.applied ++ [call.update] } none)
      | .clear => some (w.set i { w.shared with row := none } none)
      | .nothing => some (w.set i w.shared none)
  | .crash i => (w.locals i).map fun _ => w.set i w.shared none
  | .start now updateId kind targetPublicId initialForm onSummary =>
    match started wizards kind targetPublicId initialForm onSummary with
    | none => some w
    | some (snapshot, _) =>
      let row := savedRow now updateId snapshot
      some { w with shared := ⟨some row, some row, []⟩ }
  | .clear => some { w with shared := { w.shared with row := none } }
  | .purge now => some { w with shared := { w.shared with
      row := w.shared.row.filter fun row => decide (now < row.expiresAt) } }

def Step (w : DraftWorld) (m : DraftMove) (w' : DraftWorld) : Prop :=
  w.exec wizards m = some w'

/-- No conversation, and nobody at work. -/
def Init (w : DraftWorld) : Prop := w.shared.row = none ∧ ∀ i, w.locals i = none

def initial : DraftWorld where
  shared := ⟨none, none, []⟩
  locals _ := none

theorem init_initial : initial.Init := ⟨rfl, fun _ => rfl⟩

end DraftWorld

/-- The updates of the user come one after the other: an update is taken up only while no other
    is, and a form is started by an update the conversation has not seen. -/
def OneAtATime (w : DraftWorld) : DraftMove → Prop
  | .receive _ _ => ∀ j, w.locals j = none
  | .start _ updateId _ _ _ _ =>
    (∀ j, w.locals j = none) ∧ ∀ row ∈ w.shared.row, row.lastUpdateId < updateId
  | _ => True

/-- What a step does to the updates of the conversation. -/
structure UpdatesKept (x : DraftWorld × DraftMove × DraftWorld) : Prop where
  /-- An update whose id is not above the stored one changes nothing. -/
  redelivered : ∀ updateId ∈ x.2.1.updateId, ∀ row ∈ x.1.shared.row,
    updateId ≤ row.lastUpdateId → x.2.2 = x.1
  /-- The row is what every update written since the start makes of it, so no answer is lost. -/
  nothingLost : ∀ row ∈ x.2.2.shared.row, x.2.2.shared.expected wizards = some row
  /-- The stored id never decreases. -/
  forward : ∀ row ∈ x.1.shared.row, ∀ row' ∈ x.2.2.shared.row,
    row.lastUpdateId ≤ row'.lastUpdateId

/-! ## One update at a time -/

/-- A call holds the row that everything written so far leads to. -/
def HandleCall.Holds (shared : DraftShared) (call : HandleCall) : Prop :=
  shared.expected wizards = some call.read ∧ call.read.lastUpdateId < call.update.updateId

/-- The invariant: the row is the expected one, and one call is at work at most. -/
abbrev DraftKept : DraftWorld → Prop :=
  Threads.Holds (fun shared => ∀ row ∈ shared.row, shared.expected wizards = some row)
    (fun shared call => ∀ c ∈ call, c.Holds wizards shared)
    fun a b => ¬ (a.isSome = true ∧ b.isSome = true)

section Steps

variable {wizards} {w w' : DraftWorld} {row : ConversationRow} {update : DraftUpdate} {i : Nat}

theorem draft_apart_symm (a b : Option HandleCall) (h : ¬ (a.isSome = true ∧ b.isSome = true)) :
    ¬ (b.isSome = true ∧ a.isSome = true) := fun hba => h ⟨hba.2, hba.1⟩

theorem handle_redelivery {input : WizardInput} {updateId : Int}
    (h : updateId ≤ row.lastUpdateId) :
    (handle wizards row updateId input).1 = .nothing := by
  rw [handle, if_pos h]

/-- A handler that writes has an update above the stored one. -/
theorem lt_of_handle {input : WizardInput} {updateId : Int}
    (h : (handle wizards row updateId input).1 ≠ .nothing) : row.lastUpdateId < updateId := by
  by_contra hle
  exact h (handle_redelivery (not_lt.1 hle))

/-- Appending an update to what is written. -/
theorem expected_append {s : DraftShared} {stored : Option ConversationRow}
    (h : s.expected wizards = some row) :
    ({ s with row := stored, applied := s.applied ++ [update] } : DraftShared).expected wizards =
      some (row.after wizards update) := by
  obtain ⟨b, hb, rfl⟩ := Option.map_eq_some_iff.1 h
  simp [DraftShared.expected, hb, List.foldl_append]

/-- Deleting the row leaves what is written as it was. -/
theorem DraftKept.deleted (h : DraftKept wizards w) {stored : Option ConversationRow}
    (hstored : ∀ row ∈ stored, row ∈ w.shared.row) :
    DraftKept wizards { w with shared := { w.shared with row := stored } } :=
  ⟨fun row hrow => h.shared row (hstored row hrow), h.own, h.apart⟩

theorem updatesKept_of_same {m : DraftMove} (hm : m.updateId = none)
    (hkept : ∀ row ∈ w'.shared.row, w'.shared.expected wizards = some row)
    (hsame : ∀ row ∈ w'.shared.row, row ∈ w.shared.row) : UpdatesKept wizards (w, m, w') := by
  refine ⟨fun updateId hid => ?_, hkept, fun row hrow row' hrow' => ?_⟩
  · rw [show (w, m, w').2.1.updateId = none from hm] at hid
    cases hid
  · have hold : row' ∈ w.shared.row := hsame row' hrow'
    obtain rfl := Option.some.inj (Eq.trans (Eq.symm hrow) hold)
    exact le_refl _

/-- The read of a call. -/
theorem DraftKept.receive (h : DraftKept wizards w) (hidle : ∀ j, w.locals j = none)
    (hrow : w.shared.row = some row)
    (hwrite : (handle wizards row update.updateId update.input).1 ≠ .nothing) :
    DraftKept wizards (w.set i w.shared (some ⟨update, row⟩)) := by
  refine h.set_local draft_apart_symm ?_ fun j _ => ?_
  · rintro c ⟨⟩
    exact ⟨h.shared row hrow, lt_of_handle hwrite⟩
  · rw [hidle j]
    rintro ⟨-, hsome⟩
    cases hsome

/-- The write of a call whose row is the expected one. -/
theorem DraftKept.write (h : DraftKept wizards w) {call : HandleCall}
    {snapshot : ConversationSnapshot} (hl : w.locals i = some call)
    (hsave : (handle wizards call.read call.update.updateId call.update.input).1 =
      .save snapshot) :
    DraftKept wizards (w.set i { w.shared with
      row := some (savedRow call.update.now call.update.updateId snapshot)
      applied := w.shared.applied ++ [call.update] } none) := by
  obtain ⟨hexpected, hlt⟩ := h.own i call hl
  have hafter : call.read.after wizards call.update =
      savedRow call.update.now call.update.updateId snapshot := by
    rw [ConversationRow.after, hsave]
  refine h.set draft_apart_symm ?_ (by simp) fun j hj => ⟨fun c hc => ?_, by simp⟩
  · rintro row ⟨⟩
    rw [expected_append hexpected, hafter]
  · -- nobody else is at work
    exact absurd ⟨by rw [hl]; rfl, by rw [show w.locals j = some c from hc]; rfl⟩
      (h.apart i j (Ne.symm hj))

theorem DraftKept.finish (h : DraftKept wizards w) {shared : DraftShared}
    (hshared : ∀ row ∈ shared.row, shared.expected wizards = some row)
    (hexpected : shared.expected wizards = w.shared.expected wizards) :
    DraftKept wizards (w.set i shared none) :=
  h.set draft_apart_symm hshared (by simp) fun j _ =>
    ⟨fun c hc => ⟨hexpected.trans (h.own j c hc).1, (h.own j c hc).2⟩, by simp⟩

theorem DraftKept.step (h : DraftKept wizards w) {m : DraftMove} (hg : OneAtATime w m)
    (hs : DraftWorld.Step wizards w m w') :
    DraftKept wizards w' ∧ UpdatesKept wizards (w, m, w') := by
  unfold DraftWorld.Step DraftWorld.exec at hs
  cases m with
  | receive i update =>
      have hstay : DraftKept wizards w ∧ UpdatesKept wizards (w, .receive i update, w) :=
        ⟨h, fun _ _ _ _ _ => rfl, h.shared, fun row hrow row' hrow' =>
          le_of_eq (congrArg _ (Option.some.inj (Eq.trans (Eq.symm hrow) hrow')))⟩
      have hidle : w.locals i = none := hg i
      simp only [hidle] at hs
      cases hrow : w.shared.row with
      | none =>
          simp only [hrow] at hs
          obtain rfl := Option.some.inj hs
          exact hstay
      | some row =>
          simp only [hrow] at hs
          by_cases hwrite : (handle wizards row update.updateId update.input).1 = .nothing
          · simp only [hwrite] at hs
            obtain rfl := Option.some.inj hs
            exact hstay
          · have hs' : some (w.set i w.shared (some ⟨update, row⟩)) = some w' := by
              split at hs
              · contradiction
              · exact hs
            obtain rfl := Option.some.inj hs'
            refine ⟨h.receive hg hrow hwrite, fun updateId hid row' hrow' hle => ?_, h.shared,
              hstay.2.forward⟩
            obtain rfl := Option.some.inj hid
            obtain rfl := Option.some.inj (hrow.symm.trans hrow')
            exact absurd (handle_redelivery hle) hwrite
  | write i =>
      cases hl : w.locals i with
      | none => simp [hl] at hs
      | some call =>
          simp only [hl] at hs
          obtain ⟨hexpected, hlt⟩ := h.own i call hl
          split at hs
          · next snapshot hsave =>
              obtain rfl := Option.some.inj hs
              have hkept := h.write hl hsave
              refine ⟨hkept, ⟨fun _ hid => (nomatch hid), hkept.shared, ?_⟩⟩
              rintro row hrow row' ⟨⟩
              obtain rfl := Option.some.inj (hexpected.symm.trans (h.shared row hrow))
              exact le_of_lt hlt
          · obtain rfl := Option.some.inj hs
            exact ⟨h.finish (by simp) rfl, updatesKept_of_same rfl (by simp) (by simp)⟩
          · obtain rfl := Option.some.inj hs
            exact ⟨h.finish h.shared rfl, updatesKept_of_same rfl h.shared fun _ hrow => hrow⟩
  | crash i =>
      obtain ⟨call, hl, rfl⟩ := Option.map_eq_some_iff.1 hs
      exact ⟨h.finish h.shared rfl, updatesKept_of_same rfl h.shared fun _ hrow => hrow⟩
  | start now updateId kind targetPublicId initialForm onSummary =>
      obtain ⟨hidle, hnew⟩ := hg
      have hseen : ∀ id ∈ (DraftMove.start now updateId kind targetPublicId initialForm
          onSummary).updateId, ∀ row ∈ w.shared.row, ¬ id ≤ row.lastUpdateId := by
        rintro id ⟨⟩ row hrow
        exact not_le.2 (hnew row hrow)
      cases hstart : DraftWorld.started wizards kind targetPublicId initialForm onSummary with
      | none =>
          simp only [hstart] at hs
          obtain rfl := Option.some.inj hs
          exact ⟨h, fun id hid row hrow hle => absurd hle (hseen id hid row hrow), h.shared,
            fun row hrow row' hrow' =>
              le_of_eq (congrArg _ (Option.some.inj (Eq.trans (Eq.symm hrow) hrow')))⟩
      | some started =>
          obtain ⟨snapshot, outcome⟩ := started
          simp only [hstart] at hs
          obtain rfl := Option.some.inj hs
          have hbegun : ∀ row ∈ some (savedRow now updateId snapshot),
              DraftShared.expected wizards ⟨some (savedRow now updateId snapshot),
                some (savedRow now updateId snapshot), []⟩ = some row := by
            rintro row ⟨⟩
            rfl
          refine ⟨⟨hbegun, fun j c hc => ?_, h.apart⟩,
            ⟨fun id hid row hrow hle => absurd hle (hseen id hid row hrow), hbegun, ?_⟩⟩
          · have hnone : w.locals j = some c := hc
            rw [hidle j] at hnone
            cases hnone
          · rintro row hrow row' ⟨⟩
            exact le_of_lt (hnew row hrow)
  | clear =>
      obtain rfl := Option.some.inj hs
      exact ⟨h.deleted (by simp), updatesKept_of_same rfl (by simp) (by simp)⟩
  | purge now =>
      obtain rfl := Option.some.inj hs
      have hsame : ∀ row ∈ w.shared.row.filter fun row => decide (now < row.expiresAt),
          row ∈ w.shared.row := fun row hrow => (Option.mem_filter_iff.1 hrow).1
      exact ⟨h.deleted hsame,
        updatesKept_of_same rfl (fun row hrow => h.shared row (hsame row hrow)) hsame⟩

theorem draftKept_init (h : w.Init) : DraftKept wizards w := by
  obtain ⟨hrow, hidle⟩ := h
  exact ⟨by simp [hrow], by simp [hidle], by simp [hidle]⟩

/-- Each update is applied once and none is lost, where the updates of a user are taken up one
    after the other and a form is started by an update above the stored one: an update that is
    not above it changes nothing, the row is what all the updates written since the start make
    of it, and the stored id never decreases. -/
theorem updates_kept {tr : List (DraftWorld × DraftMove × DraftWorld)} {w : DraftWorld}
    (h : Run DraftWorld.Init (DraftWorld.Step wizards) OneAtATime tr w) :
    ∀ x ∈ tr, UpdatesKept wizards x :=
  h.steps (P := fun w m w' => UpdatesKept wizards (w, m, w')) fun _ _ _ hw hg hs =>
    ((hw.invariant (I := DraftKept wizards) (fun _ h => draftKept_init h)
      fun _ _ _ hI hg hs => (hI.step hg hs).1).step hg hs).2

end Steps

/-! ## Two updates, one after the other and at once -/

/-- The moves of call `0`, each taken up when the one before is over, and those of nobody. -/
def firstAlone (w : DraftWorld) : DraftMove → Bool
  | .receive i _ => decide (i = 0) && (w.locals 0).isNone
  | .write i | .crash i => decide (i = 0)
  | .start _ updateId _ _ _ _ =>
    (w.locals 0).isNone && w.shared.row.all fun row => decide (row.lastUpdateId < updateId)
  | .clear | .purge _ => true

theorem others_of_firstAlone {wizards : Wizards} {w w' : DraftWorld} {m : DraftMove}
    (hm : firstAlone w m = true) (hw : ∀ j, j ≠ 0 → w.locals j = none)
    (h : DraftWorld.Step wizards w m w') : ∀ j, j ≠ 0 → w'.locals j = none := by
  intro j hj
  unfold DraftWorld.Step DraftWorld.exec at h
  cases m with
  | receive i update | write i | crash i =>
      have hi : j ≠ i := by
        simp only [firstAlone, Bool.and_eq_true, decide_eq_true_eq] at hm
        omega
      simp only at h
      repeat' split at h
      all_goals first
        | (obtain rfl := Option.some.inj h; simpa [hi] using hw j hj)
        | (obtain ⟨_, _, rfl⟩ := Option.map_eq_some_iff.1 h; simpa [hi] using hw j hj)
        | cases h
  | start now updateId kind targetPublicId initialForm onSummary =>
      simp only at h
      split at h <;> (obtain rfl := Option.some.inj h; exact hw j hj)
  | clear | purge now =>
      obtain rfl := Option.some.inj h
      exact hw j hj

theorem oneAtATime_of_firstAlone {w : DraftWorld} {m : DraftMove} (hm : firstAlone w m = true)
    (hw : ∀ j, j ≠ 0 → w.locals j = none) : OneAtATime w m := by
  have hall : (w.locals 0).isNone = true → ∀ j, w.locals j = none := by
    intro hfirst j
    by_cases hj : j = 0
    · rw [hj]
      exact Option.isNone_iff_eq_none.1 hfirst
    · exact hw j hj
  cases m with
  | receive i update =>
      simp only [firstAlone, Bool.and_eq_true] at hm
      exact hall hm.2
  | start now updateId kind targetPublicId initialForm onSummary =>
      simp only [firstAlone, Bool.and_eq_true] at hm
      refine ⟨hall hm.1, fun row hrow => ?_⟩
      have hrow' : w.shared.row = some row := hrow
      have hlt := hm.2
      rw [hrow'] at hlt
      exact of_decide_eq_true hlt
  | write i | crash i | clear | purge now => trivial

/-- A run of call `0` alone, from the start. -/
theorem run_firstAlone {moves : List DraftMove} {w : DraftWorld}
    (hguard : guardList (DraftWorld.exec WIZARDS) firstAlone .initial moves = true)
    (hw : runList (DraftWorld.exec WIZARDS) .initial moves = some w) :
    Run DraftWorld.Init (DraftWorld.Step WIZARDS) OneAtATime
      (traceList (DraftWorld.exec WIZARDS) .initial moves) w := by
  have hfirst := run_of_runList (G := fun w m => firstAlone w m = true) (g := firstAlone)
    (I := DraftWorld.Init) (fun _ _ _ h => h) (fun _ _ h => h) (.start DraftWorld.init_initial)
    hguard hw
  have hothers : ∀ w, Reach DraftWorld.Init (DraftWorld.Step WIZARDS)
      (fun w m => firstAlone w m = true) w → ∀ j, j ≠ 0 → w.locals j = none := fun w h =>
    h.invariant (I := fun w => ∀ j, j ≠ 0 → w.locals j = none) (fun _ h j _ => h.2 j)
      fun _ _ _ hI hg hs => others_of_firstAlone hg hI hs
  exact hfirst.guarded (G := OneAtATime) (hfirst.steps
    (P := fun w m _ => OneAtATime w m) fun w m _ hr hg _ => oneAtATime_of_firstAlone hg (hothers w hr))

/-- A tap on one of the tags of a review. -/
def tagTap (updateId : Int) (tag : String) : DraftUpdate where
  now := 0
  updateId := updateId
  input := { kind := .callback, action := some "tag", value := tag }

def reviewStart (updateId : Int) : DraftMove :=
  .start 0 updateId .WRITE_REVIEW (some "review") [] false

/-- Two tags, the second of them delivered twice. -/
def tagsInTurn : List DraftMove :=
  [reviewStart 10, .receive 0 (tagTap 11 "LATE"), .write 0, .receive 0 (tagTap 12 "FRIENDLY"),
    .write 0, .receive 0 (tagTap 12 "FRIENDLY")]

theorem updates_kept_inTurn : ∃ tr w,
    Run DraftWorld.Init (DraftWorld.Step WIZARDS) OneAtATime tr w ∧
    (∃ row ∈ w.shared.row, row.snapshot.form.strings "tags" = ["LATE", "FRIENDLY"] ∧
      row.lastUpdateId = 12) ∧ ∀ x ∈ tr, UpdatesKept WIZARDS x := by
  have hplay : guardList (DraftWorld.exec WIZARDS) firstAlone .initial tagsInTurn = true ∧
      (runList (DraftWorld.exec WIZARDS) .initial tagsInTurn).any (fun w => w.shared.row.any
        fun row => decide (row.snapshot.form.strings "tags" = ["LATE", "FRIENDLY"] ∧
          row.lastUpdateId = 12)) = true := by
    decide
  obtain ⟨w, hw, hend⟩ := (Option.any_eq_true _ _).1 hplay.2
  obtain ⟨row, hrow, hfinal⟩ := (Option.any_eq_true _ _).1 hend
  have hrun := run_firstAlone hplay.1 hw
  exact ⟨_, w, hrun, ⟨row, hrow, of_decide_eq_true hfinal⟩, updates_kept hrun⟩

/-- Two tags at once: both calls read the form before either writes it. -/
def tagsAtOnce : List DraftMove :=
  [reviewStart 10, .receive 0 (tagTap 11 "LATE"), .receive 1 (tagTap 12 "FRIENDLY"), .write 1,
    .write 0]

/-- Both answers are accepted and one of them is gone, and the stored id has decreased. -/
theorem answer_lost : ∃ tr w,
    Run DraftWorld.Init (DraftWorld.Step WIZARDS) (fun _ _ => True) tr w ∧
    w.shared.applied = [tagTap 12 "FRIENDLY", tagTap 11 "LATE"] ∧
    (∃ row ∈ w.shared.row, row.snapshot.form.strings "tags" = ["LATE"]) ∧
    ∃ x ∈ tr, ∃ row ∈ x.1.shared.row, ∃ row' ∈ x.2.2.shared.row,
      row'.lastUpdateId < row.lastUpdateId := by
  have hplay : (runList (DraftWorld.exec WIZARDS) .initial tagsAtOnce).any (fun w =>
      decide (w.shared.applied = [tagTap 12 "FRIENDLY", tagTap 11 "LATE"]) &&
        w.shared.row.any fun row =>
          decide (row.snapshot.form.strings "tags" = ["LATE"])) = true := by
    decide
  have hback : (traceList (DraftWorld.exec WIZARDS) .initial tagsAtOnce).any (fun x =>
      x.1.shared.row.any fun row => x.2.2.shared.row.any fun row' =>
        decide (row'.lastUpdateId < row.lastUpdateId)) = true := by
    decide
  obtain ⟨w, hw, hend⟩ := (Option.any_eq_true _ _).1 hplay
  obtain ⟨happlied, hlost⟩ := Bool.and_eq_true_iff.1 hend
  obtain ⟨row, hrow, htags⟩ := (Option.any_eq_true _ _).1 hlost
  obtain ⟨x, hx, hstep⟩ := List.any_eq_true.1 hback
  obtain ⟨old, hold, hnew⟩ := (Option.any_eq_true _ _).1 hstep
  obtain ⟨new, hnew, hlt⟩ := (Option.any_eq_true _ _).1 hnew
  have hrun := run_of_runList (G := fun _ _ => True) (g := fun _ _ => true) (I := DraftWorld.Init)
    (fun _ _ _ h => h) (fun _ _ _ => trivial) (.start DraftWorld.init_initial)
    (by decide) hw
  exact ⟨_, w, hrun, of_decide_eq_true happlied, ⟨row, hrow, of_decide_eq_true htags⟩,
    x, hx, old, hold, new, hnew, of_decide_eq_true hlt⟩

end Conversation

end Paayatam
