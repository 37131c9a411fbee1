/-
  Paayatam.Outbox.Relay

  The relay: `OutboxRelayService.drain` with `NotificationService.queue`, and
  the worker's `relayOutbox` that hands what was queued to the sender.

  Postgres and Redis are two stores.  A pass is a sequence of statements, each
  of which commits by itself: it reads the backlog, records the notifications
  of each row, marks the row processed, and only then adds the send jobs.  Any
  number of passes run at once, and a pass may die between any two of its
  statements.
-/

import Paayatam.Outbox.Fanout
import Paayatam.Db
import Paayatam.Lib.System
import Paayatam.Lib.Threads
import Mathlib.Data.List.Sort

namespace Paayatam

open Lib

/-! ## The two stores -/

abbrev NotificationId := Nat

inductive NotificationStatus where
  | PENDING | SENT | FAILED | UNDELIVERABLE | SUPPRESSED
  deriving DecidableEq

/-- `outbox_event`. -/
structure OutboxRow where
  event : OutboxEvent
  processedAt : Option Instant
  attempts : Nat
  createdAt : Instant
  deriving DecidableEq

instance : Row OutboxRow OutboxId where
  key r := r.event.id
  check _ := true
  collide _ _ := false
  collide_comm _ _ := rfl

/-- `notification`. -/
structure NotificationRow where
  id : NotificationId
  userId : UserId
  templateKey : TemplateKey
  payload : Payload
  dedupeKey : DedupeKey
  status : NotificationStatus
  attempts : Nat
  createdAt : Instant
  deriving DecidableEq

instance : Row NotificationRow NotificationId where
  key n := n.id
  check _ := true
  -- UNIQUE (dedupe_key)
  collide n m := decide (n.dedupeKey = m.dedupeKey)
  collide_comm n m := by simp [eq_comm]

/-- The tables of Postgres the relay works on. -/
structure RelayDb where
  outbox : Table OutboxRow
  notifications : Table NotificationRow

instance : HasTable RelayDb OutboxRow := ⟨RelayDb.outbox, fun t db => { db with outbox := t }⟩
instance : HasTable RelayDb NotificationRow :=
  ⟨RelayDb.notifications, fun t db => { db with notifications := t }⟩

section TableLemmas

variable {db : RelayDb}

@[simp] theorem table_outbox : (HasTable.table db : Table OutboxRow) = db.outbox := rfl
@[simp] theorem table_notifications :
    (HasTable.table db : Table NotificationRow) = db.notifications := rfl
@[simp] theorem setTable_outbox {t : Table OutboxRow} :
    HasTable.setTable t db = { db with outbox := t } := rfl
@[simp] theorem setTable_notifications {t : Table NotificationRow} :
    HasTable.setTable t db = { db with notifications := t } := rfl

end TableLemmas

/-- A statement of the relay. -/
abbrev RelayTx (α : Type) := Tx RelayDb AppError α

/-- What the relay reads of an account. -/
structure Account where
  id : UserId
  isSeed : Bool

/-- The accounts, by public id.  A public id is never reassigned, and a row names only
    accounts that are older than it. -/
abbrev Directory := String → Option Account

/-! ## The statements of a pass -/

/-- `resolveUserId`: an unknown account and a seed identity are both skipped. -/
def resolveUserId (dir : Directory) (publicId : String) : Option UserId :=
  match dir publicId with
  | none => none
  | some user => if user.isSeed then none else some user.id

/-- The row `queue` inserts. -/
def newNotification (id : NotificationId) (userId : UserId) (now : Instant)
    (plan : PlannedNotification) : NotificationRow where
  id := id
  userId := userId
  templateKey := plan.templateKey
  payload := plan.payload
  dedupeKey := plan.dedupeKey
  status := .PENDING
  attempts := 0
  createdAt := now

/-- `NotificationService.queue`: record a notification, or find the one that has its
    key.  Answers its id, and whether it was created. -/
def queue (now : Instant) (userId : UserId) (plan : PlannedNotification) :
    RelayTx (NotificationId × Bool) := do
  let db ← get
  let id := freshId (db.notifications.rows.map (·.id))
  let created ← insertRowOrIgnore (newNotification id userId now plan)
  if created = true then return (id, true)
  else
    let existing ← orThrow (.db .recordNotFound)
      (db.notifications.rows.find? fun n => decide (n.dedupeKey = plan.dedupeKey))
    return (existing.id, false)

/-- One planned notification, queued unless its recipient resolves to nobody. -/
def queuePlanned (dir : Directory) (now : Instant) (plan : PlannedNotification) :
    RelayTx (Option NotificationId) :=
  match resolveUserId dir plan.userPublicId with
  | none => return none
  | some userId => do
    let queued ← queue now userId plan
    return some queued.1

/-- The mark that a row is done. -/
def OutboxRow.processed (now : Instant) (r : OutboxRow) : OutboxRow :=
  { r with processedAt := some now, attempts := r.attempts + 1 }

def markProcessed (now : Instant) (row : OutboxEvent) : RelayTx Unit :=
  updateRow row.id (OutboxRow.processed now)

/-- The unprocessed rows, oldest first. -/
def RelayDb.backlog (db : RelayDb) (limit : Nat) : List OutboxEvent :=
  (((db.outbox.rows.filter fun r : OutboxRow => r.processedAt.isNone).insertionSort
    fun a b => a.createdAt ≤ b.createdAt).take limit).map (·.event)

/-! ## Passes -/

/-- Postgres, and the ids of the send jobs the queue holds. -/
structure RelayStore where
  db : RelayDb
  jobs : List NotificationId

/-- Re-adding an existing job id is a no-op. -/
def addJob (id : NotificationId) (jobs : List NotificationId) : List NotificationId :=
  if id ∈ jobs then jobs else jobs ++ [id]

/-- Where a pass stands. -/
inductive Pass where
  | idle
  /-- Fanning out `row`: the plans left of it, the rows after it, and what was queued. -/
  | fanning (row : OutboxEvent) (plans : List PlannedNotification) (rest : List OutboxEvent)
      (queued : List NotificationId)
  /-- Drained; handing these to the sender. -/
  | enqueueing (ids : List NotificationId)

/-- The next row of the batch, or the end of `drain`. -/
def Pass.nextRow (queued : List NotificationId) : List OutboxEvent → Pass
  | [] => .enqueueing queued
  | row :: rest => .fanning row (planNotifications row) rest queued

/-- A pass over a batch; an empty one ends at once. -/
def Pass.begin : List OutboxEvent → Pass
  | [] => .idle
  | row :: rest => .nextRow [] (row :: rest)

/-- The next statement of a pass.  One that fails ends the pass with its exception,
    which is a crash like any other. -/
def Pass.step (dir : Directory) (now : Instant) (st : RelayStore) : Pass → Option (RelayStore × Pass)
  | .idle => none
  | .fanning row (plan :: plans) rest queued =>
    match (queuePlanned dir now plan).run st.db with
    | .ok (id, db) => some ({ st with db := db }, .fanning row plans rest (queued ++ id.toList))
    | .error _ => none
  | .fanning row [] rest queued =>
    match (markProcessed now row).run st.db with
    | .ok (_, db) => some ({ st with db := db }, .nextRow queued rest)
    | .error _ => none
  | .enqueueing (id :: ids) => some ({ st with jobs := addJob id st.jobs }, .enqueueing ids)
  | .enqueueing [] => some (st, .idle)

/-- How a send ended. -/
inductive SendOutcome where
  | sent | undeliverable | suppressed | unknownTemplate | retry
  deriving DecidableEq

/-- What `onSend` records on the row. -/
def NotificationRow.settled (n : NotificationRow) : SendOutcome → NotificationRow
  | .sent => { n with status := .SENT, attempts := n.attempts + 1 }
  | .undeliverable => { n with status := .UNDELIVERABLE, attempts := n.attempts + 1 }
  | .suppressed => { n with status := .SUPPRESSED }
  | .unknownTemplate => { n with status := .FAILED, attempts := n.attempts + 1 }
  | .retry => { n with status := .FAILED, attempts := n.attempts + 1 }

/-- One run of a send job.  A row that is gone, sent or undeliverable completes it; a
    retry leaves it in the queue. -/
def RelayStore.send (st : RelayStore) (id : NotificationId) (outcome : SendOutcome) :
    Option RelayStore :=
  if id ∈ st.jobs then
    match st.db.notifications.find? id with
    | none => some { st with jobs := st.jobs.erase id }
    | some n =>
      if n.status = .SENT ∨ n.status = .UNDELIVERABLE then some { st with jobs := st.jobs.erase id }
      else
        (st.db.notifications.update id fun n => n.settled outcome).toOption.map fun t =>
          { db := { st.db with notifications := t }
            jobs := if outcome = .retry then st.jobs else st.jobs.erase id }
  else none

/-- The stores, and where each pass stands. -/
abbrev RelayWorld := Threads Nat RelayStore Pass

inductive RelayMove where
  /-- A committed transaction leaves an outbox row. -/
  | emit (event : OutboxEvent) (createdAt : Instant)
  /-- Pass `i` reads the backlog. -/
  | start (i limit : Nat)
  /-- Pass `i` does its next statement. -/
  | next (i : Nat) (now : Instant)
  /-- Pass `i` dies. -/
  | crash (i : Nat)
  /-- A send job runs. -/
  | send (id : NotificationId) (outcome : SendOutcome)

namespace RelayWorld

def exec (dir : Directory) (w : RelayWorld) : RelayMove → Option RelayWorld
  | .emit event createdAt =>
    (w.shared.db.outbox.insert
      { event := event, processedAt := none, attempts := 0, createdAt := createdAt }).toOption.map
        fun t => { w with shared := { w.shared with db := { w.shared.db with outbox := t } } }
  | .start i limit =>
    match w.locals i with
    | .idle => some (w.set i w.shared (.begin (w.shared.db.backlog limit)))
    | _ => none
  | .next i now => ((w.locals i).step dir now w.shared).map fun p => w.set i p.1 p.2
  | .crash i => some (w.set i w.shared .idle)
  | .send id outcome => (w.shared.send id outcome).map fun st => { w with shared := st }

def Step (dir : Directory) (w : RelayWorld) (m : RelayMove) (w' : RelayWorld) : Prop :=
  w.exec dir m = some w'

/-- Nothing recorded, nothing queued, no pass running. -/
def initial : RelayWorld where
  shared := { db := { outbox := .empty, notifications := .empty }, jobs := [] }
  locals _ := .idle

def Init (w : RelayWorld) : Prop := w = initial

/-- The outbox rows. -/
def outbox (w : RelayWorld) : List OutboxRow := w.shared.db.outbox.rows

/-- The notifications. -/
def notifications (w : RelayWorld) : List NotificationRow := w.shared.db.notifications.rows

end RelayWorld

/-! ## What the statements do -/

section Specs

variable {dir : Directory} {now : Instant} {plan : PlannedNotification} {db db' : RelayDb}

/-- The queue answers the notification that has the key, which it inserted or found. -/
theorem queue_spec {userId : UserId} {a : NotificationId × Bool}
    (h : Runs (queue now userId plan) db a db') :
    db'.outbox = db.outbox ∧ ∃ n ∈ db'.notifications.rows, n.id = a.1 ∧
      n.dedupeKey = plan.dedupeKey ∧
      (db'.notifications = db.notifications ∨
        (n = newNotification a.1 userId now plan ∧
          db'.notifications.rows = db.notifications.rows ++ [n])) := by
  simp only [queue, runs_get_bind] at h
  rw [runs_bind] at h
  obtain ⟨created, db₁, hins, h⟩ := h
  obtain ⟨t, rfl, hcase⟩ := runs_insertRowOrIgnore hins
  rcases runs_ite.1 h with ⟨hc, h⟩ | ⟨hc, h⟩
  · rw [runs_pure] at h
    obtain ⟨rfl, rfl⟩ := h
    rcases hcase with ⟨-, ht⟩ | ⟨hf, -⟩
    · have hmem : newNotification (freshId (db.notifications.rows.map (·.id))) userId now plan ∈
          t.rows := by
        rw [ht]
        simp
      exact ⟨rfl, _, hmem, rfl, rfl, .inr ⟨rfl, ht⟩⟩
    · rw [hf] at hc
      cases hc
  · simp only [runs_orThrow_bind, runs_pure] at h
    obtain ⟨n, hn, rfl, rfl⟩ := h
    rcases hcase with ⟨ht, -⟩ | ⟨-, rfl, -⟩
    · exact absurd ht hc
    · have hkey : n.dedupeKey = plan.dedupeKey := by simpa using List.find?_some hn
      exact ⟨rfl, n, List.mem_of_find?_eq_some hn, rfl, hkey, .inl rfl⟩

/-- The insert collides on nothing but the key, so the queue never fails. -/
theorem queue_total (userId : UserId) : ∃ a db', Runs (queue now userId plan) db a db' := by
  have hins : ∃ created t, Runs (insertRowOrIgnore (newNotification
      (freshId (db.notifications.rows.map (·.id))) userId now plan) : RelayTx Bool) db created
      { db with notifications := t } := by
    obtain ⟨⟨created, t⟩, ht⟩ := Table.insertOrIgnore_total (t := db.notifications)
      (r := newNotification (freshId (db.notifications.rows.map (·.id))) userId now plan) rfl
    refine ⟨created, t, ?_⟩
    simp only [Runs, insertRowOrIgnore, StateT.run, table_notifications, ht]
    rfl
  obtain ⟨created, t, hins⟩ := hins
  cases created with
  | true =>
      refine ⟨(freshId (db.notifications.rows.map (·.id)), true), { db with notifications := t }, ?_⟩
      simp only [queue, runs_get_bind]
      exact runs_bind.2 ⟨true, _, hins, by simp⟩
  | false =>
      obtain ⟨t', ht', hcase⟩ := runs_insertRowOrIgnore hins
      obtain ⟨x, hx, hclash⟩ : ∃ x ∈ db.notifications.rows, ¬ Row.compatible x (newNotification
          (freshId (db.notifications.rows.map (·.id))) userId now plan) := by
        rcases hcase with ⟨hf, -⟩ | ⟨-, -, hclash⟩
        · cases hf
        · exact hclash
      have hkey : x.dedupeKey = plan.dedupeKey := by
        by_contra hne
        refine hclash ⟨?_, decide_eq_false hne⟩
        have hlt := lt_freshId (List.mem_map_of_mem (f := (·.id)) hx)
        exact Nat.ne_of_lt hlt
      have hfound : (db.notifications.rows.find? fun n =>
          decide (n.dedupeKey = plan.dedupeKey)).isSome = true := by
        rw [List.find?_isSome]
        exact ⟨x, hx, by simpa using hkey⟩
      obtain ⟨n, hn⟩ := Option.isSome_iff_exists.1 hfound
      refine ⟨(n.id, false), { db with notifications := t }, ?_⟩
      simp only [queue, runs_get_bind]
      exact runs_bind.2 ⟨false, _, hins, by simp [hn]⟩

/-- The answer of `queuePlanned`: nobody to tell, or the notification of the plan's key. -/
theorem queuePlanned_spec {o : Option NotificationId} (h : Runs (queuePlanned dir now plan) db o db') :
    (resolveUserId dir plan.userPublicId = none ∧ o = none ∧ db' = db) ∨
    ∃ userId n, resolveUserId dir plan.userPublicId = some userId ∧ o = some n.id ∧
      n.dedupeKey = plan.dedupeKey ∧ n ∈ db'.notifications.rows ∧ db'.outbox = db.outbox ∧
      (db'.notifications = db.notifications ∨
        (n = newNotification n.id userId now plan ∧
          db'.notifications.rows = db.notifications.rows ++ [n])) := by
  unfold queuePlanned at h
  cases hres : resolveUserId dir plan.userPublicId with
  | none =>
      simp only [hres, runs_pure] at h
      exact .inl ⟨rfl, h.1, h.2⟩
  | some userId =>
      simp only [hres, runs_bind, runs_pure] at h
      obtain ⟨a, db₁, hqueue, rfl, rfl⟩ := h
      obtain ⟨hout, n, hn, hid, hkey, hcase⟩ := queue_spec hqueue
      rw [← hid] at hcase
      exact .inr ⟨userId, n, rfl, by rw [hid], hkey, hn, hout, hcase⟩

theorem queuePlanned_total : ∃ o db', Runs (queuePlanned dir now plan) db o db' := by
  unfold queuePlanned
  cases resolveUserId dir plan.userPublicId with
  | none => exact ⟨none, db, by simp⟩
  | some userId =>
      have hqueues : ∃ a db', Runs (queue now userId plan) db a db' := queue_total userId
      obtain ⟨a, db', h⟩ := hqueues
      exact ⟨some a.1, db', runs_bind.2 ⟨a, db', h, by simp⟩⟩

end Specs

/-! ## What a pass does next -/

/-- One statement of a pass, by what it found. -/
inductive PassMove (dir : Directory) (now : Instant) :
    RelayStore → Pass → RelayStore → Pass → Prop
  | skip {st : RelayStore} {row : OutboxEvent} {plan : PlannedNotification}
      {plans : List PlannedNotification} {rest : List OutboxEvent} {queued : List NotificationId}
      (hres : resolveUserId dir plan.userPublicId = none) :
      PassMove dir now st (.fanning row (plan :: plans) rest queued) st
        (.fanning row plans rest queued)
  | found {st : RelayStore} {row : OutboxEvent} {plan : PlannedNotification}
      {plans : List PlannedNotification} {rest : List OutboxEvent} {queued : List NotificationId}
      {n : NotificationRow} (hres : resolveUserId dir plan.userPublicId ≠ none)
      (hkey : n.dedupeKey = plan.dedupeKey) (hn : n ∈ st.db.notifications.rows) :
      PassMove dir now st (.fanning row (plan :: plans) rest queued) st
        (.fanning row plans rest (queued ++ [n.id]))
  | created {st : RelayStore} {row : OutboxEvent} {plan : PlannedNotification}
      {plans : List PlannedNotification} {rest : List OutboxEvent} {queued : List NotificationId}
      {n : NotificationRow} {userId : UserId} {t : Table NotificationRow}
      (hres : resolveUserId dir plan.userPublicId = some userId)
      (hn : n = newNotification n.id userId now plan)
      (ht : t.rows = st.db.notifications.rows ++ [n]) :
      PassMove dir now st (.fanning row (plan :: plans) rest queued)
        { st with db := { st.db with notifications := t } }
        (.fanning row plans rest (queued ++ [n.id]))
  | marked {st : RelayStore} {row : OutboxEvent} {rest : List OutboxEvent}
      {queued : List NotificationId} {r : OutboxRow} {t : Table OutboxRow}
      (hr : st.db.outbox.find? row.id = some r)
      (ht : st.db.outbox.Rewrites r (OutboxRow.processed now) t) :
      PassMove dir now st (.fanning row [] rest queued)
        { st with db := { st.db with outbox := t } } (.nextRow queued rest)
  | enqueued {st : RelayStore} {id : NotificationId} {ids : List NotificationId} :
      PassMove dir now st (.enqueueing (id :: ids)) { st with jobs := addJob id st.jobs }
        (.enqueueing ids)
  | finished {st : RelayStore} : PassMove dir now st (.enqueueing []) st .idle

theorem Pass.step_move {dir : Directory} {now : Instant} {st st' : RelayStore} {p p' : Pass}
    (h : p.step dir now st = some (st', p')) : PassMove dir now st p st' p' := by
  unfold Pass.step at h
  split at h
  · cases h
  · next row plan plans rest queued =>
      split at h
      · next id db hrun =>
          obtain ⟨rfl, rfl⟩ := Prod.mk.inj (Option.some.inj h)
          rcases queuePlanned_spec hrun with ⟨hres, rfl, rfl⟩ | ⟨userId, n, hres, rfl, hkey, hn, hout,
            hsame | ⟨hnew, hrows⟩⟩
          · rw [Option.toList_none, List.append_nil]
            exact .skip hres
          · obtain ⟨outbox, notifications⟩ := db
            obtain rfl : outbox = st.db.outbox := hout
            obtain rfl : notifications = st.db.notifications := hsame
            exact .found (by simp [hres]) hkey hn
          · obtain ⟨outbox, notifications⟩ := db
            obtain rfl : outbox = st.db.outbox := hout
            exact .created hres hnew hrows
      · cases h
  · next row rest queued =>
      split at h
      · next _ db hrun =>
          obtain ⟨rfl, rfl⟩ := Prod.mk.inj (Option.some.inj h)
          have hruns : Runs (markProcessed now row) st.db () db := hrun
          simp only [markProcessed, runs_updateRow] at hruns
          obtain ⟨r, hr, t, ht, rfl⟩ := hruns
          exact .marked hr ht
      · cases h
  · obtain ⟨rfl, rfl⟩ := Prod.mk.inj (Option.some.inj h)
    exact .enqueued
  · obtain ⟨rfl, rfl⟩ := Prod.mk.inj (Option.some.inj h)
    exact .finished

/-- What one run of a send job does to the stores. -/
theorem RelayStore.send_spec {st st' : RelayStore} {id : NotificationId} {outcome : SendOutcome}
    (h : st.send id outcome = some st') :
    st'.db.outbox = st.db.outbox ∧ (∀ j ∈ st.jobs, j ≠ id → j ∈ st'.jobs) ∧
      (∀ j ∈ st'.jobs, j ∈ st.jobs) ∧
      ((st'.db.notifications = st.db.notifications ∧
          ∀ n ∈ st.db.notifications.rows, n.id = id → n.status ≠ .PENDING) ∨
        ∃ n, n.id = id ∧
          st.db.notifications.Rewrites n (fun n => n.settled outcome) st'.db.notifications) := by
  unfold RelayStore.send at h
  split at h
  · have herase : ∀ j ∈ st.jobs, j ≠ id → j ∈ st.jobs.erase id := fun j hj hne =>
      (List.mem_erase_of_ne hne).2 hj
    have hsub : ∀ j ∈ st.jobs.erase id, j ∈ st.jobs := fun j hj => List.mem_of_mem_erase hj
    split at h
    · next hnone =>
        obtain rfl := Option.some.inj h
        refine ⟨rfl, herase, hsub, .inl ⟨rfl, fun n hn hid => ?_⟩⟩
        exact absurd hid (Table.find?_eq_none.1 hnone n hn)
    · next n hn =>
        split at h
        · next hst =>
            obtain rfl := Option.some.inj h
            refine ⟨rfl, herase, hsub, .inl ⟨rfl, fun m hm hid => ?_⟩⟩
            obtain rfl : m = n :=
              Table.eq_of_key hm (Table.mem_of_find? hn) (hid.trans (Table.key_of_find? hn).symm)
            rcases hst with hst | hst <;> simp [hst]
        · simp only [Option.map_eq_some_iff] at h
          obtain ⟨t, ht, rfl⟩ := h
          obtain ⟨m, hm, hrw⟩ := Table.update_eq_ok.1 (except_toOption_eq_some.1 ht)
          refine ⟨rfl, ?_, ?_, .inr ⟨m, Table.key_of_find? hm, hrw⟩⟩
          · intro j hj hne
            change j ∈ if outcome = .retry then st.jobs else st.jobs.erase id
            split
            · exact hj
            · exact herase j hj hne
          · intro j hj
            change j ∈ if outcome = .retry then st.jobs else st.jobs.erase id at hj
            split at hj
            · exact hj
            · exact hsub j hj
  · cases h

/-- A sent notification is still the same one, and no longer pending. -/
theorem NotificationRow.settled_same (n : NotificationRow) (o : SendOutcome) :
    (n.settled o).id = n.id ∧ (n.settled o).dedupeKey = n.dedupeKey ∧
      (n.settled o).userId = n.userId ∧ (n.settled o).templateKey = n.templateKey ∧
      (n.settled o).payload = n.payload ∧ (n.settled o).status ≠ .PENDING := by
  cases o <;> simp [NotificationRow.settled]

end Paayatam
