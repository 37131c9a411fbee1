/-
  Paayatam.Privacy.RetentionRuns

  The retention purge while messages are being written.

  A batch of direct messages goes in one transaction of two statements: the
  replies to them are unhooked, then they are deleted.  A reply is inserted in
  a transaction of its own, which holds the row it refers to until it ends; the
  deletion waits for that, and then finds a reply the first statement did not.
-/

import Paayatam.Privacy.Retention
import Paayatam.Lib.System

namespace Paayatam

open Lib

namespace Retention

/-- How far the purge has got. -/
inductive PurgeStage where
  | chats
  | messages
  | direct (pass : Nat)
  | picked (pass : Nat) (ids : List Nat)
  | unhooked (pass : Nat) (ids seen : List Nat)
  | rest
  | done
  | failed (fault : PurgeFault)
  deriving DecidableEq

/-- What is committed, and what the calls of `write` have inserted and not
    committed. -/
structure RetentionWorld (ι : Type) where
  db : RetentionDb
  stage : PurgeStage
  pending : List (ι × DirectRow)

inductive RetentionMove (ι : Type) where
  | purgeChats
  | purgeMessages
  | pick
  | unhook
  | delete
  | purgeRest
  /-- `directMessage.create`, with the foreign key checked. -/
  | insert (i : ι) (row : DirectRow)
  | commit (i : ι)
  | abort (i : ι)

namespace RetentionWorld

variable {ι : Type} [DecidableEq ι]

/-- A statement of the purge that may be refused. -/
def settle (w : RetentionWorld ι) (stage : PurgeStage) :
    Except PurgeFault RetentionDb → RetentionWorld ι
  | .ok db => { w with db, stage }
  | .error fault => { w with stage := .failed fault }

/-- The deletion of a batch, in the rows that are committed when it runs. -/
def deleteSeen (db : RetentionDb) (ids seen : List Nat) : Except PurgeFault RetentionDb := do
  let directMessages ← deleteBatch ids (unhookReplies seen db.directMessages)
  return { db with directMessages }

def exec (visits : Visits) (now : Instant) (w : RetentionWorld ι) :
    RetentionMove ι → Option (RetentionWorld ι)
  | .purgeChats =>
    match w.stage with
    | .chats => some (w.settle .messages ((Retention.purgeChats now w.db).map Prod.fst))
    | _ => none
  | .purgeMessages =>
    match w.stage with
    | .messages => some (w.settle (.direct 0) (.ok (purgeExpiredMessages now w.db)))
    | _ => none
  | .pick =>
    match w.stage with
    | .direct pass =>
      let ids := pickBatch visits pass (daysAgo now DIRECT_MESSAGE_DAYS) w.db.directMessages
      some { w with stage := if ids.length = 0 then .rest else .picked pass ids }
    | _ => none
  | .unhook =>
    match w.stage with
    | .picked pass ids =>
      some { w with stage := .unhooked pass ids (repliesTo ids w.db.directMessages) }
    | _ => none
  | .delete =>
    match w.stage with
    | .unhooked pass ids seen =>
      -- it waits for the transactions that hold one of the rows
      if w.pending.any fun p => p.2.parentId.any ids.contains then none
      else some (w.settle (if ids.length < DIRECT_PURGE_BATCH then .rest else .direct (pass + 1))
        (deleteSeen w.db ids seen))
    | _ => none
  | .purgeRest =>
    match w.stage with
    | .rest => some (w.settle .done (Retention.purgeRest now w.db))
    | _ => none
  | .insert i row =>
    if w.pending.any fun p => p.1 = i ∨ p.2.id = row.id then none
    else if row.parentId.all fun parent => (w.db.directMessages.find? parent).isSome then
      some { w with pending := (i, row) :: w.pending }
    else some w
  | .commit i =>
    match w.pending.find? fun p => p.1 = i with
    | some (_, row) =>
      match w.db.directMessages.insert row with
      | .ok directMessages =>
        some { w with
          db := { w.db with directMessages }
          pending := w.pending.filter fun p => p.1 ≠ i }
      | .error _ => none
    | none => none
  | .abort i => some { w with pending := w.pending.filter fun p => p.1 ≠ i }

def Step (visits : Visits) (now : Instant) (w : RetentionWorld ι) (m : RetentionMove ι)
    (w' : RetentionWorld ι) : Prop :=
  w.exec visits now m = some w'

/-- The purge is about to start; writes may be on their way. -/
def Init (w : RetentionWorld ι) : Prop := w.stage = .chats

/-- No reply to a message of the batch is committed between the two statements,
    and no message of a chat that stays names a participant of one that goes. -/
def Undisturbed (now : Instant) (w : RetentionWorld ι) : RetentionMove ι → Prop
  | .purgeChats => SendersApart now w.db
  | .commit i => ∀ pass ids seen, w.stage = .unhooked pass ids seen →
      ∀ row, (i, row) ∈ w.pending → row.parentId.any ids.contains = false
  | _ => True

end RetentionWorld

/-- Neither between the two statements nor refused. -/
def PurgeStage.calm : PurgeStage → Bool
  | .unhooked _ _ _ => false
  | .failed _ => false
  | _ => true

namespace RetentionWorld

variable {ι : Type} [DecidableEq ι] {visits : Visits} {now : Instant} {w w' : RetentionWorld ι}

/-- Between the two statements every committed reply to the batch is one that was
    unhooked, and no statement has been refused. -/
structure Hooked (w : RetentionWorld ι) : Prop where
  seen : ∀ pass ids seen, w.stage = .unhooked pass ids seen →
    ∀ r ∈ w.db.directMessages.rows, r.parentId.any ids.contains = true → r.id ∈ seen
  running : w.stage ≠ .failed .foreignKey

omit [DecidableEq ι] in
theorem Hooked.of_calm (h : w.stage.calm = true) : Hooked w := by
  refine ⟨fun pass ids seen stage => ?_, fun stage => ?_⟩
  · rw [stage] at h
    exact absurd h Bool.false_ne_true
  · rw [stage] at h
    exact absurd h Bool.false_ne_true

theorem deleteSeen_ok {db : RetentionDb} {ids seen : List Nat}
    (h : ∀ r ∈ db.directMessages.rows, r.parentId.any ids.contains = true → r.id ∈ seen) :
    ∃ after, deleteSeen db ids seen = .ok after := by
  rw [deleteSeen, deleteBatch_ok h]
  exact ⟨_, rfl⟩

theorem Hooked.step {m : RetentionMove ι} (h : Hooked w) (hg : w.Undisturbed now m)
    (hs : w.Step visits now m w') : Hooked w' := by
  rw [Step] at hs
  cases m with
  | purgeChats =>
    rw [exec] at hs
    split at hs
    · have ⟨messages, chats, ok⟩ := purgeChats_ok hg
      rw [ok] at hs
      cases hs
      exact .of_calm rfl
    · cases hs
  | purgeMessages =>
    rw [exec] at hs
    split at hs
    · cases hs
      exact .of_calm rfl
    · cases hs
  | pick =>
    rw [exec] at hs
    split at hs
    · cases hs
      refine .of_calm ?_
      dsimp only
      split <;> rfl
    · cases hs
  | unhook =>
    rw [exec] at hs
    split at hs
    · cases hs
      refine ⟨fun pass ids seen stage r stored replies => ?_, fun stage => ?_⟩
      · cases stage
        exact (mem_repliesTo stored).2 replies
      · cases stage
    · cases hs
  | delete =>
    rw [exec] at hs
    split at hs
    · rename_i pass ids seen stage
      split at hs
      · cases hs
      · have ⟨after, ok⟩ := deleteSeen_ok (h.seen pass ids seen stage)
        rw [ok] at hs
        cases hs
        refine .of_calm ?_
        show (if _ then PurgeStage.rest else .direct (pass + 1)).calm = true
        split <;> rfl
    · cases hs
  | purgeRest =>
    rw [exec] at hs
    split at hs
    · rw [purgeRest_ok] at hs
      cases hs
      exact .of_calm rfl
    · cases hs
  | insert i row =>
    rw [exec] at hs
    split at hs
    · cases hs
    · split at hs
      · cases hs
        exact ⟨h.seen, h.running⟩
      · cases hs
        exact h
  | commit i =>
    rw [exec] at hs
    split at hs
    · rename_i j row found
      split at hs
      · rename_i directMessages inserted
        cases hs
        refine ⟨fun pass ids seen stage r stored replies => ?_, h.running⟩
        have mine : (i, row) ∈ w.pending := by
          have same : j = i := by simpa using List.find?_some found
          exact same ▸ List.mem_of_find?_eq_some found
        have rows : directMessages.rows = w.db.directMessages.rows ++ [row] :=
          Table.insert_eq_ok.1 inserted
        rw [rows, List.mem_append, List.mem_singleton] at stored
        rcases stored with stored | rfl
        · exact h.seen pass ids seen stage r stored replies
        · rw [hg pass ids seen stage r mine] at replies
          exact absurd replies Bool.false_ne_true
      · cases hs
    · cases hs
  | abort i =>
    rw [exec] at hs
    cases hs
    exact ⟨h.seen, h.running⟩

theorem hooked (h : Reach Init (Step visits now) (Undisturbed now) w) : Hooked w := by
  refine h.invariant (fun w start => .of_calm ?_) fun w m w' hooked hg hs => hooked.step hg hs
  rw [show w.stage = .chats from start]
  rfl

/-! ## The purge alone is one of the runs -/

/-- Any number of statements of the purge, with nobody writing. -/
abbrev Runs (visits : Visits) (now : Instant) (w w' : RetentionWorld ι) : Prop :=
  Relation.ReflTransGen (fun w w' => ∃ m, w.Step visits now m w') w w'

theorem Runs.batches {fuel pass passes total : Nat} {db : RetentionDb} {t : Table DirectRow}
    (h : purgeBatches visits (daysAgo now DIRECT_MESSAGE_DAYS) fuel pass db.directMessages =
      .ok (t, total, passes)) :
    Runs visits now (ι := ι) ⟨db, .direct pass, []⟩
      ⟨{ db with directMessages := t }, .rest, []⟩ := by
  induction fuel generalizing pass passes total db with
  | zero => cases h
  | succ fuel ih =>
    rw [purgeBatches] at h
    have picks : Step (ι := ι) visits now ⟨db, .direct pass, []⟩ .pick
        ⟨db, if (pickBatch visits pass (daysAgo now DIRECT_MESSAGE_DAYS)
          db.directMessages).length = 0 then .rest else .picked pass
            (pickBatch visits pass (daysAgo now DIRECT_MESSAGE_DAYS) db.directMessages), []⟩ := rfl
    generalize pickBatch visits pass (daysAgo now DIRECT_MESSAGE_DAYS) db.directMessages = ids
      at h picks
    by_cases empty : ids.length = 0
    · rw [if_pos empty] at h picks
      cases h
      exact .single ⟨_, picks⟩
    · simp only [deleteBatch_unhooked, bind, Except.bind, pure, Except.pure, if_neg empty] at h
      rw [if_neg empty] at picks
      have unhooks : Step (ι := ι) visits now ⟨db, .picked pass ids, []⟩ .unhook
        ⟨db, .unhooked pass ids (repliesTo ids db.directMessages), []⟩ := rfl
      have deletes : Step (ι := ι) visits now
          ⟨db, .unhooked pass ids (repliesTo ids db.directMessages), []⟩ .delete
          ⟨{ db with directMessages := afterBatch ids db.directMessages },
            if ids.length < DIRECT_PURGE_BATCH then .rest else .direct (pass + 1), []⟩ := by
        simp only [Step, exec, deleteSeen, deleteBatch_unhooked]
        rfl
      have first : Runs (ι := ι) visits now ⟨db, .direct pass, []⟩
          ⟨{ db with directMessages := afterBatch ids db.directMessages },
            if ids.length < DIRECT_PURGE_BATCH then .rest else .direct (pass + 1), []⟩ :=
        .head ⟨_, picks⟩ (.head ⟨_, unhooks⟩ (.single ⟨_, deletes⟩))
      by_cases last : ids.length < DIRECT_PURGE_BATCH
      · rw [if_pos last] at h first
        cases h
        exact first
      · rw [if_neg last] at h first
        split at h
        · cases h
        · rename_i next run
          cases h
          exact first.trans (ih run)

/-- What the purge makes of a database, nobody writing, is what it makes of it
    statement by statement. -/
theorem Runs.purge {fuel passes : Nat} {db after : RetentionDb} {result : PurgeResult}
    (h : purge fuel visits now db = .ok (after, result, passes)) :
    Runs visits now (ι := ι) ⟨db, .chats, []⟩ ⟨after, .done, []⟩ := by
  by_cases apart : SendersApart now db
  · have ⟨messages, chats, first⟩ := purgeChats_ok apart
    have conversations : Step (ι := ι) visits now ⟨db, .chats, []⟩ .purgeChats
        ⟨withoutChats now db, .messages, []⟩ := by
      simp only [Step, exec, first]
      rfl
    have messages : Step (ι := ι) visits now ⟨withoutChats now db, .messages, []⟩ .purgeMessages
        ⟨purgeExpiredMessages now (withoutChats now db), .direct 0, []⟩ := rfl
    simp only [Retention.purge, first, bind, Except.bind, pure, Except.pure] at h
    split at h
    · cases h
    · rename_i batches run
      simp only [purgeRest_ok] at h
      cases h
      have rest : Step (ι := ι) visits now
          ⟨{ purgeExpiredMessages now (withoutChats now db) with directMessages := batches.1 },
            .rest, []⟩ .purgeRest
          ⟨withoutRest now { purgeExpiredMessages now (withoutChats now db) with
            directMessages := batches.1 }, .done, []⟩ := rfl
      have loop := Runs.batches (ι := ι) run
      exact .head ⟨_, conversations⟩ (.head ⟨_, messages⟩ (loop.tail ⟨_, rest⟩))
  · rw [purge_refused apart] at h
    cases h

end RetentionWorld

open RetentionWorld

/-- A purge that nobody overlaps removes just what is past its age or its expiry
    and clears just the links to what it removes, in as many passes as the expired
    messages fill or one more, exactly when no message of a chat that stays names a
    participant of one that goes; and while messages are being written, no
    statement of it is refused in any run in which no reply to a message of a
    batch is committed between the unhooking of its replies and its deletion. -/
theorem retention_purge (now : Instant) (db : RetentionDb) {ι : Type} [DecidableEq ι]
    (visits : Visits) (w : RetentionWorld ι)
    (h : Reach Init (Step visits now) (RetentionWorld.Undisturbed now) w) :
    ((∃ after result passes,
        (∀ fuel, expiredMessages now db / DIRECT_PURGE_BATCH < fuel →
          purge fuel visits now db = .ok (after, result, passes)) ∧
        Purged now db after ∧ passesFor (expiredMessages now db) passes) ↔
      SendersApart now db) ∧
    w.stage ≠ .failed .foreignKey := by
  refine ⟨⟨fun ⟨after, result, passes, runs, _⟩ => ?_, fun apart => purge_alone apart visits⟩,
    (hooked h).running⟩
  by_contra held
  have ran := runs _ (Nat.lt_succ_self _)
  rw [purge_refused held] at ran
  cases ran

/-- The rows in the order they are stored. -/
def asStored : Visits := ⟨fun _ rows => rows, fun _ _ => .refl _⟩

/-- A day after a question has come to the end of its 180 days. -/
def dayAfter : Instant := 181 * 24 * 3600000

/-- One question, and nothing else. -/
def oneQuestion : RetentionDb where
  chats := .empty
  chatMessages := .empty
  chatActions := .empty
  chatParticipants := .empty
  chatUnsealGrants := .empty
  directMessages := ⟨[⟨1, none, 0⟩], fun _ _ => rfl, List.pairwise_singleton _ _⟩
  notifications := .empty
  outboxEvents := .empty
  requestIdempotency := .empty
  botInteractions := .empty
  auditLog := .empty

def beforePurge : RetentionWorld Nat := ⟨oneQuestion, .chats, []⟩

theorem beforePurge_init : beforePurge.Init := rfl

/-- An answer to the question. -/
def answer : DirectRow := ⟨2, some 1, dayAfter⟩

/-- Whether a step is undisturbed, where there are no chat participants. -/
def isUndisturbed (w : RetentionWorld Nat) : RetentionMove Nat → Bool
  | .purgeChats => w.db.chatParticipants.rows.isEmpty
  | .commit _ =>
    match w.stage with
    | .unhooked _ ids _ => w.pending.all fun p => !p.2.parentId.any ids.contains
    | _ => true
  | _ => true

theorem undisturbed_of_isUndisturbed (now : Instant) (w : RetentionWorld Nat)
    (m : RetentionMove Nat) (h : isUndisturbed w m = true) : w.Undisturbed now m := by
  cases m with
  | purgeChats =>
    intro m _ _ p stored
    rw [List.isEmpty_iff.1 h] at stored
    exact absurd stored List.not_mem_nil
  | commit i =>
    intro pass ids seen stage row mem
    simp only [isUndisturbed, stage, List.all_eq_true] at h
    simpa using h _ mem
  | _ => trivial

/-- The answer is committed before the question is picked, and the purge goes on. -/
theorem retention_purge_answered : ∃ w : RetentionWorld Nat,
    w.stage = .rest ∧ w.db.directMessages.rows = [⟨2, none, dayAfter⟩] ∧
    ((∃ after result passes,
        (∀ fuel, expiredMessages dayAfter oneQuestion / DIRECT_PURGE_BATCH < fuel →
          purge fuel asStored dayAfter oneQuestion = .ok (after, result, passes)) ∧
        Purged dayAfter oneQuestion after ∧
        passesFor (expiredMessages dayAfter oneQuestion) passes) ↔
      SendersApart dayAfter oneQuestion) ∧
    w.stage ≠ .failed .foreignKey := by
  let moves : List (RetentionMove Nat) :=
    [.insert 0 answer, .purgeChats, .commit 0, .purgeMessages, .pick, .unhook, .delete]
  have ran : ((runList (exec asStored dayAfter) beforePurge moves).map fun w =>
      (w.stage, w.db.directMessages.rows)) = some (.rest, [⟨2, none, dayAfter⟩]) := by
    decide
  have ⟨w, run, ends⟩ := Option.map_eq_some_iff.1 ran
  have reached : Reach Init (Step asStored dayAfter) (RetentionWorld.Undisturbed dayAfter) w :=
    reach_of_runList (g := isUndisturbed) (fun _ _ _ step => step)
      (undisturbed_of_isUndisturbed dayAfter) (.start beforePurge_init) (by decide) run
  exact ⟨w, congrArg Prod.fst ends, congrArg Prod.snd ends,
    retention_purge dayAfter oneQuestion asStored w reached⟩

/-- A question and its answer in two chats of which only the first is past its
    expiry, the answer by a participant of the first. -/
def sharedSender : RetentionDb :=
  { oneQuestion with
    chats := ⟨[⟨1, some 0⟩, ⟨2, none⟩], fun _ _ => rfl, by decide⟩
    chatMessages := ⟨[⟨1, 2, some 1, none⟩], fun _ _ => rfl, List.pairwise_singleton _ _⟩
    chatParticipants := ⟨[⟨1, 1⟩], fun _ _ => rfl, List.pairwise_singleton _ _⟩ }

/-- The answer is on its way when the replies are unhooked and committed before
    the deletion, which is refused. -/
theorem deletion_refused :
    (∃ w : RetentionWorld Nat,
      Reachable Init (Step asStored dayAfter) w ∧ w.stage = .failed .foreignKey) ∧
    purge 1 asStored dayAfter sharedSender = .error .foreignKey := by
  let moves : List (RetentionMove Nat) :=
    [.purgeChats, .purgeMessages, .pick, .insert 0 answer, .unhook, .commit 0, .delete]
  have ran : ((runList (exec asStored dayAfter) beforePurge moves).map RetentionWorld.stage) =
      some (.failed .foreignKey) := by
    decide
  have ⟨w, run, ends⟩ := Option.map_eq_some_iff.1 ran
  refine ⟨⟨w, reachable_of_runList (fun _ _ _ step => step) (.start beforePurge_init) run, ends⟩, ?_⟩
  rfl

end Retention

end Paayatam
