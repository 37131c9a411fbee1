/-
  Paayatam.Privacy.Retention

  `RetentionService.purge`: what is past its age or its expiry goes, and nothing
  else.

  The store refuses to delete a row that another row still refers to, so what a
  statement leaves behind decides whether the next one fails.  The purge runs
  alone here; `RetentionRuns` lets replies come in between its statements.
-/

import Paayatam.Lib.Table
import Paayatam.Types

namespace Paayatam

open Lib

namespace Retention

/-! ## The tables -/

/-- `anonymous_chat`. -/
structure ChatRow where
  id : Nat
  retentionExpiresAt : Option Instant

/-- `chat_message`. -/
structure ChatMessageRow where
  id : Nat
  chatId : Nat
  senderParticipantId : Option Nat
  retentionExpiresAt : Option Instant

/-- A row of `chat_action`, `chat_participant` or `chat_unseal_grant`. -/
structure ChatDependentRow where
  id : Nat
  chatId : Nat

/-- `direct_message`. -/
structure DirectRow where
  id : Nat
  parentId : Option Nat
  createdAt : Instant
  deriving DecidableEq

/-- A row of `notification`, `bot_interaction` or `audit_log`. -/
structure DatedRow where
  id : Nat
  createdAt : Instant

/-- `outbox_event`. -/
structure OutboxRow where
  id : Nat
  processedAt : Option Instant
  createdAt : Instant

/-- `request_idempotency`. -/
structure IdempotencyRow where
  id : Nat
  expiresAt : Instant

instance : Row ChatRow Nat := ⟨ChatRow.id, fun _ => true, fun _ _ => false, fun _ _ => rfl⟩

instance : Row ChatMessageRow Nat :=
  ⟨ChatMessageRow.id, fun _ => true, fun _ _ => false, fun _ _ => rfl⟩

instance : Row ChatDependentRow Nat :=
  ⟨ChatDependentRow.id, fun _ => true, fun _ _ => false, fun _ _ => rfl⟩

instance : Row DirectRow Nat := ⟨DirectRow.id, fun _ => true, fun _ _ => false, fun _ _ => rfl⟩

instance : Row DatedRow Nat := ⟨DatedRow.id, fun _ => true, fun _ _ => false, fun _ _ => rfl⟩

instance : Row OutboxRow Nat := ⟨OutboxRow.id, fun _ => true, fun _ _ => false, fun _ _ => rfl⟩

instance : Row IdempotencyRow Nat :=
  ⟨IdempotencyRow.id, fun _ => true, fun _ _ => false, fun _ _ => rfl⟩

structure RetentionDb where
  chats : Table ChatRow
  chatMessages : Table ChatMessageRow
  chatActions : Table ChatDependentRow
  chatParticipants : Table ChatDependentRow
  chatUnsealGrants : Table ChatDependentRow
  directMessages : Table DirectRow
  notifications : Table DatedRow
  outboxEvents : Table OutboxRow
  requestIdempotency : Table IdempotencyRow
  botInteractions : Table DatedRow
  auditLog : Table DatedRow

/-- Why a statement of the purge fails. -/
inductive PurgeFault where
  | foreignKey
  | appendOnly
  | stillRunning
  deriving DecidableEq

structure PurgeResult where
  chatMessages : Nat
  chats : Nat
  directMessages : Nat
  notifications : Nat
  interactions : Nat
  auditRows : Nat
  outboxRows : Nat
  idempotencyKeys : Nat

/-! ## Statements -/

section Statements

variable {ρ : Type} [Row ρ Nat]

/-- `DELETE` of rows that others refer to with `RESTRICT`; `held` says of which
    keys a reference is left. -/
def deleteRestrict (t : Table ρ) (p : ρ → Bool) (held : Nat → Bool) :
    Except PurgeFault (Table ρ) :=
  if t.rows.any fun r => p r && held (Row.key r) then .error .foreignKey
  else .ok (t.deleteMany p)

/-- `DELETE` on a table whose trigger refuses it, unless the transaction has set
    `payetam.retention_purge`. -/
def deleteAppendOnly (retentionPurge : Bool) (t : Table ρ) (p : ρ → Bool) :
    Except PurgeFault (Table ρ) :=
  if !retentionPurge && t.rows.any p then .error .appendOnly else .ok (t.deleteMany p)

/-- The `count` of a `DELETE`. -/
def deletedCount (before after : Table ρ) : Nat := before.rows.length - after.rows.length

theorem deleteRestrict_ok {t : Table ρ} {p : ρ → Bool} {held : Nat → Bool}
    (h : ∀ r ∈ t.rows, p r → held (Row.key r) = false) :
    deleteRestrict t p held = .ok (t.deleteMany p) := by
  rw [deleteRestrict, if_neg]
  simp only [List.any_eq_true, Bool.and_eq_true, not_exists, not_and]
  intro r mem gone
  rw [h r mem gone]
  exact Bool.false_ne_true

theorem deleteRestrict_error {t : Table ρ} {p : ρ → Bool} {held : Nat → Bool} {r : ρ}
    (mem : r ∈ t.rows) (gone : p r) (h : held (Row.key r)) :
    deleteRestrict t p held = .error .foreignKey := by
  rw [deleteRestrict, if_pos]
  rw [List.any_eq_true]
  exact ⟨r, mem, by rw [gone, h]; rfl⟩

theorem deleteAppendOnly_purge (t : Table ρ) (p : ρ → Bool) :
    deleteAppendOnly true t p = .ok (t.deleteMany p) := rfl

end Statements

/-- `retention_expires_at <= now`. -/
def isPast (now : Instant) (stamp : Option Instant) : Bool := stamp.any fun t => t ≤ now

def daysAgo (now : Instant) (days : Int) : Instant := now - days * 24 * 3600000

def DIRECT_MESSAGE_DAYS : Int := 180

def NOTIFICATION_DAYS : Int := 180

def INTERACTION_DAYS : Int := 180

def AUDIT_DAYS : Int := 730

def OUTBOX_DAYS : Int := 7

/-- How many direct messages one purge transaction removes. -/
def DIRECT_PURGE_BATCH : Nat := 1000

/-! ## Chats -/

/-- A conversation and everything attached to it, innermost first: the tables,
    and how many messages and chats went. -/
def purgeChats (now : Instant) (db : RetentionDb) :
    Except PurgeFault (RetentionDb × Nat × Nat) :=
  let chatIds := (db.chats.rows.filter fun c => isPast now c.retentionExpiresAt).map ChatRow.id
  if chatIds.isEmpty then .ok (db, 0, 0)
  else do
    let inChats (chatId : Nat) : Bool := chatIds.contains chatId
    let messages := db.chatMessages.rows.countP fun m => inChats m.chatId
    let chatMessages := db.chatMessages.deleteMany fun m => inChats m.chatId
    let chatActions ← deleteAppendOnly true db.chatActions fun a => inChats a.chatId
    let chatParticipants ← deleteRestrict db.chatParticipants (fun p => inChats p.chatId)
      fun id => chatMessages.rows.any fun m => m.senderParticipantId == some id
    let chatUnsealGrants := db.chatUnsealGrants.deleteMany fun g => inChats g.chatId
    let chats ← deleteRestrict db.chats (fun c => inChats c.id) fun id =>
      chatMessages.rows.any (·.chatId == id) || chatActions.rows.any (·.chatId == id) ||
        chatParticipants.rows.any (·.chatId == id) ||
          chatUnsealGrants.rows.any (·.chatId == id)
    return ({ db with chats, chatMessages, chatActions, chatParticipants, chatUnsealGrants },
      messages, chatIds.length)

/-! ## Direct messages -/

/-- The replies to the messages `ids`, as one statement finds them. -/
def repliesTo (ids : List Nat) (t : Table DirectRow) : List Nat :=
  (t.rows.filter fun r => r.parentId.any ids.contains).map DirectRow.id

def DirectRow.unhook (seen : List Nat) (r : DirectRow) : DirectRow :=
  if seen.contains r.id then { r with parentId := none } else r

/-- `parent_id` of the rows `seen` becomes `null`. -/
def unhookReplies (seen : List Nat) (t : Table DirectRow) : Table DirectRow where
  rows := t.rows.map (DirectRow.unhook seen)
  valid _ _ := rfl
  distinct := by
    refine List.pairwise_map.2 (t.distinct.imp fun {a b} apart => ?_)
    have keys : ∀ r : DirectRow, (r.unhook seen).id = r.id := by
      intro r
      rw [DirectRow.unhook]
      split <;> rfl
    refine ⟨?_, rfl⟩
    show (a.unhook seen).id ≠ (b.unhook seen).id
    rw [keys, keys]
    exact apart.1

/-- The messages `ids` go; none of the rows that stay may refer to one. -/
def deleteBatch (ids : List Nat) (t : Table DirectRow) : Except PurgeFault (Table DirectRow) :=
  deleteRestrict t (fun r => ids.contains r.id) fun id =>
    t.rows.any fun r => !ids.contains r.id && r.parentId == some id

def isExpired (before : Instant) (r : DirectRow) : Bool := r.createdAt ≤ before

/-- In which order the store gives the rows that a query without `ORDER BY` asks
    for, at each query. -/
structure Visits where
  order : Nat → List DirectRow → List DirectRow
  perm : ∀ n rows, (order n rows).Perm rows

/-- The `findMany` of one pass. -/
def pickBatch (visits : Visits) (pass : Nat) (before : Instant) (t : Table DirectRow) :
    List Nat :=
  ((visits.order pass (t.rows.filter (isExpired before))).take DIRECT_PURGE_BATCH).map
    DirectRow.id

/-- The loop of `purgeDirectMessages`, from one of its passes on: the table, how
    many messages went, and how many passes it took. -/
def purgeBatches (visits : Visits) (before : Instant) :
    Nat → Nat → Table DirectRow → Except PurgeFault (Table DirectRow × Nat × Nat)
  | 0, _, _ => .error .stillRunning
  | fuel + 1, pass, t =>
    let ids := pickBatch visits pass before t
    if ids.length = 0 then .ok (t, 0, 1)
    else do
      let unhooked := unhookReplies (repliesTo ids t) t
      let count := unhooked.rows.countP fun r => ids.contains r.id
      let t' ← deleteBatch ids unhooked
      if ids.length < DIRECT_PURGE_BATCH then return (t', count, 1)
      else
        let (rest, total, passes) ← purgeBatches visits before fuel (pass + 1) t'
        return (rest, count + total, passes + 1)

/-! ## The whole purge -/

/-- The statements after the direct messages, one table each. -/
def purgeRest (now : Instant) (db : RetentionDb) : Except PurgeFault RetentionDb := do
  let notifications :=
    db.notifications.deleteMany fun r => r.createdAt ≤ daysAgo now NOTIFICATION_DAYS
  let outboxEvents := db.outboxEvents.deleteMany fun r =>
    isPast (daysAgo now OUTBOX_DAYS) r.processedAt
  let requestIdempotency := db.requestIdempotency.deleteMany fun r => r.expiresAt ≤ now
  let botInteractions :=
    db.botInteractions.deleteMany fun r => r.createdAt ≤ daysAgo now INTERACTION_DAYS
  let auditLog ←
    deleteAppendOnly true db.auditLog fun r => r.createdAt ≤ daysAgo now AUDIT_DAYS
  return { db with notifications, outboxEvents, requestIdempotency, botInteractions, auditLog }

/-- The counts a purge reports: of the messages and chats as they went, and of
    the other tables by what they lost. -/
def reported (chatMessages chats directMessages : Nat) (before after : RetentionDb) :
    PurgeResult where
  chatMessages := chatMessages
  chats := chats
  directMessages := directMessages
  notifications := deletedCount before.notifications after.notifications
  interactions := deletedCount before.botInteractions after.botInteractions
  auditRows := deletedCount before.auditLog after.auditLog
  outboxRows := deletedCount before.outboxEvents after.outboxEvents
  idempotencyKeys := deletedCount before.requestIdempotency after.requestIdempotency

/-- The chat messages with an expiry of their own. -/
def purgeExpiredMessages (now : Instant) (db : RetentionDb) : RetentionDb :=
  { db with chatMessages := db.chatMessages.deleteMany fun m => isPast now m.retentionExpiresAt }

/-- `purge`, with the passes of its batch loop counted. -/
def purge (fuel : Nat) (visits : Visits) (now : Instant) (db : RetentionDb) :
    Except PurgeFault (RetentionDb × PurgeResult × Nat) := do
  let (db₁, messages, chats) ← purgeChats now db
  let db₂ := purgeExpiredMessages now db₁
  let ownMessages := deletedCount db₁.chatMessages db₂.chatMessages
  let (directMessages, directs, passes) ←
    purgeBatches visits (daysAgo now DIRECT_MESSAGE_DAYS) fuel 0 db₂.directMessages
  let db₃ := { db₂ with directMessages }
  let db₄ ← purgeRest now db₃
  return (db₄, reported (messages + ownMessages) chats directs db₃ db₄, passes)

/-! ## One pass over the direct messages -/

/-- The link to a parent that is gone is cleared. -/
def DirectRow.detach (gone : Nat → Bool) (r : DirectRow) : DirectRow :=
  if r.parentId.any gone then { r with parentId := none } else r

section Passes

variable {t t' : Table DirectRow} {before : Instant} {ids : List Nat} {r : DirectRow}

@[simp] theorem DirectRow.detach_id (gone : Nat → Bool) (r : DirectRow) :
    (r.detach gone).id = r.id := by
  rw [DirectRow.detach]
  split <;> rfl

@[simp] theorem isExpired_detach (gone : Nat → Bool) (r : DirectRow) :
    isExpired before (r.detach gone) = isExpired before r := by
  rw [DirectRow.detach]
  split <;> rfl

theorem DirectRow.detach_detach (gone gone' : Nat → Bool) (r : DirectRow) :
    (r.detach gone).detach gone' = r.detach fun id => gone id || gone' id := by
  obtain ⟨id, parentId, createdAt⟩ := r
  cases parentId with
  | none => rfl
  | some parent =>
    cases first : gone parent <;> cases second : gone' parent <;>
      simp [DirectRow.detach, first, second]

/-- Every row that replies to one of `ids` is found, and no other. -/
theorem mem_repliesTo (h : r ∈ t.rows) :
    r.id ∈ repliesTo ids t ↔ r.parentId.any ids.contains = true := by
  rw [repliesTo, List.mem_map]
  constructor
  · rintro ⟨other, found, same⟩
    have ⟨mem, replies⟩ := List.mem_filter.1 found
    rw [← Table.eq_of_key mem h same]
    exact replies
  · intro replies
    exact ⟨r, List.mem_filter.2 ⟨h, replies⟩, rfl⟩

theorem rows_unhookReplies :
    (unhookReplies (repliesTo ids t) t).rows = t.rows.map (DirectRow.detach ids.contains) := by
  refine List.map_congr_left fun r mem => ?_
  rw [DirectRow.unhook, DirectRow.detach]
  have found : r.id ∈ repliesTo ids t ↔ r.parentId.any ids.contains = true :=
    mem_repliesTo mem
  by_cases replies : r.parentId.any ids.contains = true
  · rw [if_pos replies, if_pos (List.contains_iff_mem.2 (found.2 replies))]
  · rw [if_neg replies, if_neg fun seen => replies (found.1 (List.contains_iff_mem.1 seen))]

/-- What one pass leaves. -/
def afterBatch (ids : List Nat) (t : Table DirectRow) : Table DirectRow :=
  (unhookReplies (repliesTo ids t) t).deleteMany fun r => ids.contains r.id

theorem rows_afterBatch :
    (afterBatch ids t).rows =
      (t.rows.filter fun r => !ids.contains r.id).map (DirectRow.detach ids.contains) := by
  rw [afterBatch, Table.rows_deleteMany, rows_unhookReplies, List.filter_map]
  congr 2
  funext r
  exact congrArg (fun id => !ids.contains id) (DirectRow.detach_id _ r)

/-- When every row that refers to one of `ids` is unhooked, the deletion is not
    refused. -/
theorem deleteBatch_ok {seen : List Nat}
    (h : ∀ r ∈ t.rows, r.parentId.any ids.contains = true → r.id ∈ seen) :
    deleteBatch ids (unhookReplies seen t) =
      .ok ((unhookReplies seen t).deleteMany fun r => ids.contains r.id) := by
  refine deleteRestrict_ok fun r _ goes => ?_
  rw [List.any_eq_false]
  rintro child mem held
  obtain ⟨original, stored, rfl⟩ := List.mem_map.1 mem
  have parent : (original.unhook seen).parentId = some r.id :=
    eq_of_beq (Bool.and_eq_true_iff.1 held).2
  rw [DirectRow.unhook] at parent
  split at parent
  · exact Option.some_ne_none _ parent.symm
  · rename_i unseen
    refine unseen (List.contains_iff_mem.2 (h original stored ?_))
    rw [parent]
    exact goes

theorem deleteBatch_unhooked :
    deleteBatch ids (unhookReplies (repliesTo ids t) t) = .ok (afterBatch ids t) :=
  deleteBatch_ok fun _ stored replies => (mem_repliesTo stored).2 replies

/-- The rows a list of different keys of the table names are as many as the keys. -/
theorem countP_contains (nodup : ids.Nodup) (h : ∀ id ∈ ids, ∃ r ∈ t.rows, r.id = id) :
    t.rows.countP (fun r => ids.contains r.id) = ids.length := by
  have keys : (t.rows.map DirectRow.id).Nodup :=
    List.pairwise_map.2 (t.distinct.imp fun apart => apart.1)
  have same : ((t.rows.filter fun r => ids.contains r.id).map DirectRow.id).Perm ids := by
    refine (List.perm_ext_iff_of_nodup ?_ nodup).2 fun id => ⟨?_, ?_⟩
    · exact keys.sublist (List.filter_sublist.map _)
    · intro found
      obtain ⟨r, mem, rfl⟩ := List.mem_map.1 found
      exact List.contains_iff_mem.1 (List.mem_filter.1 mem).2
    · intro mem
      obtain ⟨r, stored, rfl⟩ := h id mem
      exact List.mem_map.2 ⟨r, List.mem_filter.2 ⟨stored, List.contains_iff_mem.2 mem⟩, rfl⟩
  rw [List.countP_eq_length_filter, ← same.length_eq, List.length_map]

/-- The ids a pass picks: of expired rows, each once, and as many as a batch holds. -/
structure Picked (before : Instant) (t : Table DirectRow) (ids : List Nat) : Prop where
  nodup : ids.Nodup
  expired : ∀ id ∈ ids, ∃ r ∈ t.rows, r.id = id ∧ isExpired before r = true
  length : ids.length = min DIRECT_PURGE_BATCH (t.rows.countP (isExpired before))

theorem picked_pickBatch (visits : Visits) (pass : Nat) (before : Instant) (t : Table DirectRow) :
    Picked before t (pickBatch visits pass before t) := by
  have perm := visits.perm pass (t.rows.filter (isExpired before))
  constructor
  · have keys : (t.rows.map DirectRow.id).Nodup :=
      List.pairwise_map.2 (t.distinct.imp fun apart => apart.1)
    have part : (t.rows.filter (isExpired before)).Sublist t.rows := List.filter_sublist
    have found := keys.sublist (part.map DirectRow.id)
    exact ((perm.map DirectRow.id).nodup_iff.2 found).sublist
      ((List.take_sublist _ _).map DirectRow.id)
  · intro id mem
    obtain ⟨r, taken, rfl⟩ := List.mem_map.1 mem
    have ⟨stored, expired⟩ := List.mem_filter.1 (perm.mem_iff.1 (List.mem_of_mem_take taken))
    exact ⟨r, stored, rfl, expired⟩
  · rw [pickBatch, List.length_map, List.length_take, perm.length_eq,
      List.countP_eq_length_filter]

theorem Picked.countP_afterBatch (h : Picked before t ids) :
    (afterBatch ids t).rows.countP (isExpired before) + ids.length =
      t.rows.countP (isExpired before) := by
  have picked : ((t.rows.filter fun r => ids.contains r.id).countP (isExpired before)) =
      ids.length := by
    rw [← countP_contains h.nodup fun id mem => ?_]
    · rw [List.countP_eq_length_filter (p := fun r : DirectRow => ids.contains r.id),
        List.countP_eq_length]
      intro r mem
      have ⟨stored, named⟩ := List.mem_filter.1 mem
      have ⟨other, stored', same, expired⟩ := h.expired r.id (List.contains_iff_mem.1 named)
      rw [← Table.eq_of_key stored' stored same]
      exact expired
    · have ⟨r, stored, same, _⟩ := h.expired id mem
      exact ⟨r, stored, same⟩
  have left : (afterBatch ids t).rows.countP (isExpired before) =
      (t.rows.filter fun r => !ids.contains r.id).countP (isExpired before) := by
    rw [rows_afterBatch, List.countP_map]
    exact List.countP_congr fun r _ => by simp
  rw [left, List.countP_eq_countP_filter_add t.rows (isExpired before)
    fun r => ids.contains r.id, picked, Nat.add_comm]

/-- Of a row that is past its age. -/
def isGone (before : Instant) (t : Table DirectRow) (id : Nat) : Bool :=
  t.rows.any fun p => p.id == id && isExpired before p

/-- What the purge is to leave of the direct messages. -/
def unexpired (before : Instant) (t : Table DirectRow) : List DirectRow :=
  (t.rows.filter fun r => !isExpired before r).map (DirectRow.detach (isGone before t))

theorem unexpired_of_none (h : t.rows.countP (isExpired before) = 0) :
    unexpired before t = t.rows := by
  have none : ∀ r ∈ t.rows, isExpired before r = false := by
    simpa using List.countP_eq_zero.1 h
  have all : (t.rows.filter fun r => !isExpired before r) = t.rows :=
    List.filter_eq_self.2 fun r mem => by rw [none r mem]; rfl
  have kept : ∀ id, isGone before t id = false := by
    intro id
    rw [isGone, List.any_eq_false]
    intro p mem
    rw [none p mem, Bool.and_false]
    exact Bool.false_ne_true
  rw [unexpired, all]
  refine (List.map_congr_left fun r _ => ?_).trans (List.map_id _)
  rw [DirectRow.detach, if_neg]
  · rfl
  · cases r.parentId with
    | none => exact Bool.false_ne_true
    | some parent => simp [kept]

/-- A pass changes nothing in what is to be left. -/
theorem Picked.unexpired_afterBatch (h : Picked before t ids) :
    unexpired before (afterBatch ids t) = unexpired before t := by
  have gone : ∀ id, (ids.contains id || isGone before (afterBatch ids t) id) =
      isGone before t id := by
    intro id
    rw [Bool.eq_iff_iff, Bool.or_eq_true, List.contains_iff_mem, isGone, isGone,
      List.any_eq_true, List.any_eq_true, rows_afterBatch]
    constructor
    · rintro (mem | ⟨p, mem, found⟩)
      · have ⟨r, stored, same, expired⟩ := h.expired id mem
        exact ⟨r, stored, by simp [same, expired]⟩
      · obtain ⟨r, stored, rfl⟩ := List.mem_map.1 mem
        exact ⟨r, (List.mem_filter.1 stored).1, by simpa using found⟩
    · rintro ⟨r, stored, found⟩
      by_cases mem : id ∈ ids
      · exact .inl mem
      · have same : r.id = id := by simpa using (Bool.and_eq_true_iff.1 found).1
        refine .inr ⟨r.detach ids.contains, List.mem_map.2 ⟨r, ?_, rfl⟩, by simpa using found⟩
        refine List.mem_filter.2 ⟨stored, ?_⟩
        rw [same]
        simpa using mem
  have stays : ∀ r ∈ t.rows, isExpired before r = false → ids.contains r.id = false := by
    intro r stored fresh
    rw [Bool.eq_false_iff, ne_eq, List.contains_iff_mem]
    intro mem
    have ⟨other, stored', same, expired⟩ := h.expired r.id mem
    rw [Table.eq_of_key stored' stored same, fresh] at expired
    exact Bool.false_ne_true expired
  rw [unexpired, unexpired, rows_afterBatch, List.filter_map, List.map_map, List.filter_filter]
  have rows : (t.rows.filter fun r =>
      ((fun r => !isExpired before r) ∘ DirectRow.detach ids.contains) r && !ids.contains r.id) =
      t.rows.filter fun r => !isExpired before r := by
    refine List.filter_congr fun r stored => ?_
    cases fresh : isExpired before r with
    | true => simp [fresh]
    | false => simpa [fresh] using stays r stored fresh
  rw [rows]
  refine List.map_congr_left fun r _ => ?_
  rw [Function.comp_apply, DirectRow.detach_detach, funext gone]

/-- The whole loop: every expired message goes, the links to them are cleared,
    and it ends in one pass more than the full batches. -/
theorem purgeBatches_spec (visits : Visits) (before : Instant) (fuel pass : Nat)
    (t : Table DirectRow)
    (enough : t.rows.countP (isExpired before) / DIRECT_PURGE_BATCH < fuel) :
    ∃ t', purgeBatches visits before fuel pass t =
        .ok (t', t.rows.countP (isExpired before),
          t.rows.countP (isExpired before) / DIRECT_PURGE_BATCH + 1) ∧
      t'.rows = unexpired before t := by
  have batch : DIRECT_PURGE_BATCH = 1000 := rfl
  rw [batch] at enough ⊢
  induction fuel generalizing pass t with
  | zero => exact absurd enough (Nat.not_lt_zero _)
  | succ fuel ih =>
    have picked := picked_pickBatch visits pass before t
    have counted := picked.countP_afterBatch
    have length := picked.length
    rw [purgeBatches]
    generalize pickBatch visits pass before t = ids at picked counted length
    rw [batch] at length
    have deleted : (unhookReplies (repliesTo ids t) t).rows.countP
        (fun r => ids.contains r.id) = ids.length := by
      rw [rows_unhookReplies, List.countP_map, ← countP_contains picked.nodup fun id mem => ?_]
      · exact List.countP_congr fun r _ => by simp
      · have ⟨r, stored, same, _⟩ := picked.expired id mem
        exact ⟨r, stored, same⟩
    simp only [deleteBatch_unhooked, deleted, batch, bind, Except.bind, pure, Except.pure]
    by_cases empty : ids.length = 0
    · have none : t.rows.countP (isExpired before) = 0 := by omega
      refine ⟨t, ?_, (unexpired_of_none none).symm⟩
      rw [if_pos empty, none]
    · rw [if_neg empty]
      by_cases last : ids.length < 1000
      · have all : t.rows.countP (isExpired before) = ids.length := by omega
        have none : (afterBatch ids t).rows.countP (isExpired before) = 0 := by omega
        refine ⟨afterBatch ids t, ?_, ?_⟩
        · rw [if_pos last, all, Nat.div_eq_of_lt last]
        · rw [← picked.unexpired_afterBatch, unexpired_of_none none]
      · have full : ids.length = 1000 := by omega
        have more : t.rows.countP (isExpired before) =
            (afterBatch ids t).rows.countP (isExpired before) + 1000 := by omega
        have ⟨t', run, rows⟩ := ih (pass + 1) (afterBatch ids t) (by omega)
        refine ⟨t', ?_, ?_⟩
        · rw [if_neg last, run, more, full, Nat.add_div_right _ (by decide),
            Nat.add_comm (List.countP _ _) 1000]
        · rw [rows, picked.unexpired_afterBatch]

end Passes

/-! ## The chats -/

/-- A conversation past its expiry. -/
def isExpiringChat (now : Instant) (db : RetentionDb) (chatId : Nat) : Bool :=
  db.chats.rows.any fun c => c.id == chatId && isPast now c.retentionExpiresAt

/-- No message of a chat that stays was sent by a participant of one that goes. -/
def SendersApart (now : Instant) (db : RetentionDb) : Prop :=
  ∀ m ∈ db.chatMessages.rows, isExpiringChat now db m.chatId = false →
    ∀ p ∈ db.chatParticipants.rows, isExpiringChat now db p.chatId = true →
      m.senderParticipantId ≠ some p.id

theorem contains_expiring (now : Instant) (db : RetentionDb) (chatId : Nat) :
    ((db.chats.rows.filter fun c => isPast now c.retentionExpiresAt).map ChatRow.id).contains
      chatId = isExpiringChat now db chatId := by
  rw [Bool.eq_iff_iff, List.contains_iff_mem, List.mem_map, isExpiringChat, List.any_eq_true]
  constructor
  · rintro ⟨c, found, rfl⟩
    have ⟨stored, past⟩ := List.mem_filter.1 found
    exact ⟨c, stored, by simp [past]⟩
  · rintro ⟨c, stored, found⟩
    have ⟨same, past⟩ := Bool.and_eq_true_iff.1 found
    exact ⟨c, List.mem_filter.2 ⟨stored, past⟩, eq_of_beq same⟩

/-- What the first transaction is to leave. -/
def withoutChats (now : Instant) (db : RetentionDb) : RetentionDb :=
  { db with
    chats := db.chats.deleteMany fun c => isExpiringChat now db c.id
    chatMessages := db.chatMessages.deleteMany fun m => isExpiringChat now db m.chatId
    chatActions := db.chatActions.deleteMany fun a => isExpiringChat now db a.chatId
    chatParticipants := db.chatParticipants.deleteMany fun p => isExpiringChat now db p.chatId
    chatUnsealGrants := db.chatUnsealGrants.deleteMany fun g => isExpiringChat now db g.chatId }

theorem any_deleteMany {ρ : Type} [Row ρ Nat] {t : Table ρ} {p q : ρ → Bool}
    (h : ∀ r, q r → p r) : (t.deleteMany p).rows.any q = false := by
  rw [List.any_eq_false]
  intro r mem held
  have stays := (Table.mem_deleteMany.1 mem).2
  rw [h r held] at stays
  exact Bool.false_ne_true stays.symm

theorem deleteMany_none {ρ : Type} [Row ρ Nat] {t : Table ρ} {p : ρ → Bool}
    (h : ∀ r ∈ t.rows, p r = false) : t.deleteMany p = t := by
  refine Table.ext (List.filter_eq_self.2 fun r mem => ?_)
  rw [h r mem]
  rfl

theorem SendersApart.participants_free {now : Instant} {db : RetentionDb}
    (h : SendersApart now db) :
    deleteRestrict db.chatParticipants (fun p => isExpiringChat now db p.chatId)
        (fun id => (withoutChats now db).chatMessages.rows.any fun m =>
          m.senderParticipantId == some id) =
      .ok (withoutChats now db).chatParticipants := by
  refine deleteRestrict_ok fun p stored goes => ?_
  rw [List.any_eq_false]
  intro m kept named
  have ⟨message, stays⟩ := Table.mem_deleteMany.1 kept
  exact h m message stays p stored goes (eq_of_beq named)

/-- Nothing that is left refers to one of the chats. -/
theorem chats_free (now : Instant) (db : RetentionDb) :
    deleteRestrict db.chats (fun c => isExpiringChat now db c.id)
        (fun id => (withoutChats now db).chatMessages.rows.any (·.chatId == id) ||
          (withoutChats now db).chatActions.rows.any (·.chatId == id) ||
            (withoutChats now db).chatParticipants.rows.any (·.chatId == id) ||
              (withoutChats now db).chatUnsealGrants.rows.any (·.chatId == id)) =
      .ok (withoutChats now db).chats := by
  refine deleteRestrict_ok fun c _ goes => ?_
  have messages : (withoutChats now db).chatMessages.rows.any (·.chatId == c.id) = false :=
    any_deleteMany fun r same => by rw [eq_of_beq same]; exact goes
  have actions : (withoutChats now db).chatActions.rows.any (·.chatId == c.id) = false :=
    any_deleteMany fun r same => by rw [eq_of_beq same]; exact goes
  have participants :
      (withoutChats now db).chatParticipants.rows.any (·.chatId == c.id) = false :=
    any_deleteMany fun r same => by rw [eq_of_beq same]; exact goes
  have grants : (withoutChats now db).chatUnsealGrants.rows.any (·.chatId == c.id) = false :=
    any_deleteMany fun r same => by rw [eq_of_beq same]; exact goes
  show (_ || _ || _ || _) = false
  simp only [Row.key, messages, actions, participants, grants, Bool.or_self]

theorem withoutChats_of_none {now : Instant} {db : RetentionDb}
    (h : ∀ chatId, isExpiringChat now db chatId = false) : withoutChats now db = db := by
  rw [withoutChats]
  simp only [h]
  rw [deleteMany_none fun _ _ => rfl, deleteMany_none fun _ _ => rfl,
    deleteMany_none fun _ _ => rfl, deleteMany_none fun _ _ => rfl,
    deleteMany_none fun _ _ => rfl]

/-- The chats go with all that hangs on them, unless a participant of one of them
    is named by a message of another. -/
theorem purgeChats_ok {now : Instant} {db : RetentionDb} (h : SendersApart now db) :
    ∃ messages chats, purgeChats now db = .ok (withoutChats now db, messages, chats) := by
  rw [purgeChats]
  simp only [contains_expiring, deleteAppendOnly_purge]
  split
  · rename_i empty
    have none : ∀ chatId, isExpiringChat now db chatId = false := by
      intro chatId
      rw [← contains_expiring, List.isEmpty_iff.1 empty]
      rfl
    exact ⟨0, 0, by rw [withoutChats_of_none none]⟩
  · have participants := h.participants_free
    have chats := chats_free now db
    simp only [withoutChats] at participants chats
    simp only [bind, Except.bind, participants, chats]
    exact ⟨_, _, rfl⟩

theorem purgeChats_error {now : Instant} {db : RetentionDb} (h : ¬SendersApart now db) :
    purgeChats now db = .error .foreignKey := by
  simp only [SendersApart, not_forall, not_not] at h
  obtain ⟨m, message, stays, p, stored, goes, named⟩ := h
  rw [purgeChats]
  simp only [contains_expiring, deleteAppendOnly_purge]
  split
  · rename_i empty
    rw [← contains_expiring, List.isEmpty_iff.1 empty] at goes
    exact absurd goes Bool.false_ne_true
  · have refused : deleteRestrict db.chatParticipants
        (fun p => isExpiringChat now db p.chatId)
        (fun id => (db.chatMessages.deleteMany fun m =>
          isExpiringChat now db m.chatId).rows.any fun m => m.senderParticipantId == some id) =
        .error .foreignKey := by
      refine deleteRestrict_error stored goes (List.any_eq_true.2 ⟨m, ?_, ?_⟩)
      · exact Table.mem_deleteMany.2 ⟨message, stays⟩
      · exact beq_iff_eq.2 named
    simp only [bind, Except.bind, refused]

/-! ## The whole purge, alone -/

/-- What is gone after the purge, and that nothing else is. -/
structure Purged (now : Instant) (db after : RetentionDb) : Prop where
  chats : after.chats.rows = db.chats.rows.filter fun c => !isPast now c.retentionExpiresAt
  chatMessages : after.chatMessages.rows = db.chatMessages.rows.filter fun m =>
    !isExpiringChat now db m.chatId && !isPast now m.retentionExpiresAt
  chatActions : after.chatActions.rows =
    db.chatActions.rows.filter fun a => !isExpiringChat now db a.chatId
  chatParticipants : after.chatParticipants.rows =
    db.chatParticipants.rows.filter fun p => !isExpiringChat now db p.chatId
  chatUnsealGrants : after.chatUnsealGrants.rows =
    db.chatUnsealGrants.rows.filter fun g => !isExpiringChat now db g.chatId
  directMessages : after.directMessages.rows =
    (db.directMessages.rows.filter fun r =>
      !decide (r.createdAt ≤ daysAgo now DIRECT_MESSAGE_DAYS)).map (DirectRow.detach fun id =>
        db.directMessages.rows.any fun p =>
          p.id == id && decide (p.createdAt ≤ daysAgo now DIRECT_MESSAGE_DAYS))
  notifications : after.notifications.rows = db.notifications.rows.filter fun r =>
    !decide (r.createdAt ≤ daysAgo now NOTIFICATION_DAYS)
  outboxEvents : after.outboxEvents.rows = db.outboxEvents.rows.filter fun r =>
    !isPast (daysAgo now OUTBOX_DAYS) r.processedAt
  requestIdempotency : after.requestIdempotency.rows =
    db.requestIdempotency.rows.filter fun r => !decide (r.expiresAt ≤ now)
  botInteractions : after.botInteractions.rows = db.botInteractions.rows.filter fun r =>
    !decide (r.createdAt ≤ daysAgo now INTERACTION_DAYS)
  auditLog : after.auditLog.rows = db.auditLog.rows.filter fun r =>
    !decide (r.createdAt ≤ daysAgo now AUDIT_DAYS)

/-- What the statements after the direct messages are to leave. -/
def withoutRest (now : Instant) (db : RetentionDb) : RetentionDb :=
  { db with
    notifications :=
      db.notifications.deleteMany fun r => r.createdAt ≤ daysAgo now NOTIFICATION_DAYS
    outboxEvents :=
      db.outboxEvents.deleteMany fun r => isPast (daysAgo now OUTBOX_DAYS) r.processedAt
    requestIdempotency := db.requestIdempotency.deleteMany fun r => r.expiresAt ≤ now
    botInteractions :=
      db.botInteractions.deleteMany fun r => r.createdAt ≤ daysAgo now INTERACTION_DAYS
    auditLog := db.auditLog.deleteMany fun r => r.createdAt ≤ daysAgo now AUDIT_DAYS }

theorem purgeRest_ok (now : Instant) (db : RetentionDb) :
    purgeRest now db = .ok (withoutRest now db) := rfl

/-- A chat that has the id of an expiring one is that one. -/
theorem isExpiringChat_row {now : Instant} {db : RetentionDb} {c : ChatRow}
    (h : c ∈ db.chats.rows) :
    isExpiringChat now db c.id = isPast now c.retentionExpiresAt := by
  rw [Bool.eq_iff_iff, isExpiringChat, List.any_eq_true]
  constructor
  · rintro ⟨other, stored, found⟩
    have ⟨same, past⟩ := Bool.and_eq_true_iff.1 found
    rw [← Table.eq_of_key stored h (eq_of_beq same)]
    exact past
  · intro past
    exact ⟨c, h, by simp [past]⟩

/-- The messages a purge at `now` is to remove. -/
def expiredMessages (now : Instant) (db : RetentionDb) : Nat :=
  db.directMessages.rows.countP (isExpired (daysAgo now DIRECT_MESSAGE_DAYS))

/-- The passes are the batches the expired messages fill, the last one perhaps
    short, or one more. -/
def passesFor (expired passes : Nat) : Prop :=
  (expired + (DIRECT_PURGE_BATCH - 1)) / DIRECT_PURGE_BATCH ≤ passes ∧
    passes ≤ (expired + (DIRECT_PURGE_BATCH - 1)) / DIRECT_PURGE_BATCH + 1

theorem passesFor_full (expired : Nat) :
    passesFor expired (expired / DIRECT_PURGE_BATCH + 1) := by
  show (expired + 999) / 1000 ≤ expired / 1000 + 1 ∧
    expired / 1000 + 1 ≤ (expired + 999) / 1000 + 1
  omega

/-- A purge nobody overlaps ends, and what it leaves is what it is to leave. -/
theorem purge_alone {now : Instant} {db : RetentionDb} (apart : SendersApart now db)
    (visits : Visits) :
    ∃ after result passes,
      (∀ fuel, expiredMessages now db / DIRECT_PURGE_BATCH < fuel →
        purge fuel visits now db = .ok (after, result, passes)) ∧
      Purged now db after ∧ passesFor (expiredMessages now db) passes := by
  have ⟨messages, chats, first⟩ := purgeChats_ok apart
  have batches := fun fuel => purgeBatches_spec visits (daysAgo now DIRECT_MESSAGE_DAYS) fuel 0
    (withoutChats now db).directMessages
  have ⟨directMessages, _, rows⟩ := batches _ (Nat.lt_succ_self _)
  have runs : ∀ fuel, expiredMessages now db / DIRECT_PURGE_BATCH < fuel →
      purgeBatches visits (daysAgo now DIRECT_MESSAGE_DAYS) fuel 0
          (withoutChats now db).directMessages =
        .ok (directMessages, expiredMessages now db,
          expiredMessages now db / DIRECT_PURGE_BATCH + 1) := by
    intro fuel enough
    have ⟨other, run, rows'⟩ := batches fuel enough
    have same : other = directMessages := Table.ext (rows'.trans rows.symm)
    rw [run, same]
    rfl
  let before := { purgeExpiredMessages now (withoutChats now db) with directMessages }
  let after := withoutRest now before
  let own := deletedCount (withoutChats now db).chatMessages after.chatMessages
  refine ⟨after, reported (messages + own) chats (expiredMessages now db) before after, _,
    fun fuel enough => ?_, ?_, passesFor_full _⟩
  · have messagesOnly : (purgeExpiredMessages now (withoutChats now db)).directMessages =
        (withoutChats now db).directMessages := rfl
    simp only [purge, first, bind, Except.bind]
    rw [messagesOnly, runs fuel enough]
    rfl
  · constructor
    · exact List.filter_congr fun c stored => congrArg not (isExpiringChat_row stored)
    · show ((db.chatMessages.rows.filter _).filter _) = _
      rw [List.filter_filter]
      exact List.filter_congr fun m _ => Bool.and_comm _ _
    · rfl
    · rfl
    · rfl
    · exact rows
    · rfl
    · rfl
    · rfl
    · rfl
    · rfl

/-- A purge that is refused leaves a message naming a participant of a chat that
    goes, and ends there. -/
theorem purge_refused {now : Instant} {db : RetentionDb} (held : ¬SendersApart now db)
    (fuel : Nat) (visits : Visits) : purge fuel visits now db = .error .foreignKey := by
  rw [purge, purgeChats_error held]
  rfl

end Retention

end Paayatam
