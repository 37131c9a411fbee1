/-
  Paayatam.Outbox.Delivery

  From notifications to send jobs.

  A row is marked processed before the jobs of its notifications are added,
  and a marked row is never read again.  In between, the ids are in the hands
  of the passes that fanned the row out and nowhere else: a notification of a
  marked row that has no job is sent exactly as long as some pass still holds
  it.  A pass that dies as the last holder takes the message with it.
-/

import Paayatam.Outbox.Records
import Mathlib.Algebra.GroupWithZero.Nat

namespace Paayatam

open Lib

/-! ## What a pass still holds -/

/-- The pass will add a send job for `n` if it lives long enough. -/
def Pass.MayEnqueue (dir : Directory) (n : NotificationRow) : Pass → Prop
  | .idle => False
  | .fanning _ plans rest queued =>
    n.id ∈ queued ∨ ∃ plan ∈ plans ++ rest.flatMap planNotifications,
      plan.Reaches dir ∧ plan.dedupeKey = n.dedupeKey
  | .enqueueing ids => n.id ∈ ids

instance (dir : Directory) (n : NotificationRow) (p : Pass) : Decidable (p.MayEnqueue dir n) :=
  match p with
  | .idle => inferInstanceAs (Decidable False)
  | .fanning _ _ _ _ => inferInstanceAs (Decidable (_ ∨ _))
  | .enqueueing _ => inferInstanceAs (Decidable (_ ∈ _))

/-- The outbox row is marked processed. -/
def RelayDb.Processed (db : RelayDb) (id : OutboxId) : Prop :=
  ∃ r ∈ db.outbox.rows, r.event.id = id ∧ r.processedAt ≠ none

instance (db : RelayDb) (id : OutboxId) : Decidable (db.Processed id) :=
  inferInstanceAs (Decidable (∃ r ∈ db.outbox.rows, _))

/-- A notification no later pass will look at: its row is done, and it has no job. -/
structure RelayStore.Waiting (st : RelayStore) (n : NotificationRow) : Prop where
  mem : n ∈ st.db.notifications.rows
  pending : n.status = .PENDING
  processed : st.db.Processed n.dedupeKey.outboxId
  jobless : n.id ∉ st.jobs

instance (st : RelayStore) (n : NotificationRow) : Decidable (st.Waiting n) :=
  decidable_of_iff (n ∈ st.db.notifications.rows ∧ n.status = .PENDING ∧
      st.db.Processed n.dedupeKey.outboxId ∧ n.id ∉ st.jobs)
    ⟨fun ⟨a, b, c, d⟩ => ⟨a, b, c, d⟩, fun ⟨a, b, c, d⟩ => ⟨a, b, c, d⟩⟩

/-- No pass dies as the only one that holds a waiting notification. -/
def CrashSpares (dir : Directory) (w : RelayWorld) : RelayMove → Prop
  | .crash i => ∀ n, w.shared.Waiting n → (w.locals i).MayEnqueue dir n →
      ∃ j, j ≠ i ∧ (w.locals j).MayEnqueue dir n
  | _ => True

section Holding

variable {dir : Directory} {now : Instant} {st st' : RelayStore} {p p' : Pass}
  {n : NotificationRow}

theorem Pass.mayEnqueue_nextRow {queued : List NotificationId} {rest : List OutboxEvent} :
    (Pass.nextRow queued rest).MayEnqueue dir n ↔ n.id ∈ queued ∨
      ∃ plan ∈ rest.flatMap planNotifications, plan.Reaches dir ∧ plan.dedupeKey = n.dedupeKey := by
  cases rest with
  | nil => simp [Pass.nextRow, Pass.MayEnqueue]
  | cons e rest => simp [Pass.nextRow, Pass.MayEnqueue]

theorem notification_of_id {t : Table NotificationRow} {m : NotificationRow} (hn : n ∈ t.rows)
    (hm : m ∈ t.rows) (h : n.id = m.id) : n = m :=
  Table.eq_of_key hn hm h

/-- No statement of a pass takes a notification away or rewrites it. -/
theorem PassMove.keeps (h : PassMove dir now st p st' p') (hn : n ∈ st.db.notifications.rows) :
    n ∈ st'.db.notifications.rows := by
  cases h with
  | skip | found | marked | enqueued | finished => exact hn
  | created _ _ ht =>
      rw [ht]
      exact List.mem_append_left _ hn

/-- What a pass holds, it still holds after a statement, or has handed to the sender. -/
theorem PassMove.mayEnqueue (h : PassMove dir now st p st' p') (hn : n ∈ st.db.notifications.rows)
    (hp : p.MayEnqueue dir n) : p'.MayEnqueue dir n ∨ n.id ∈ st'.jobs := by
  have hn' := h.keeps hn
  cases h with
  | @skip _ plan plans rest _ hres =>
      left
      rcases hp with hq | ⟨q, hq, hreach, hkey⟩
      · exact .inl hq
      · rw [List.cons_append, List.mem_cons] at hq
        rcases hq with rfl | hq
        · exact absurd hres hreach
        · exact .inr ⟨q, hq, hreach, hkey⟩
  | @found _ plan plans rest _ m hres hmkey hm =>
      left
      rcases hp with hq | ⟨q, hq, hreach, hkey⟩
      · exact .inl (List.mem_append_left _ hq)
      · rw [List.cons_append, List.mem_cons] at hq
        rcases hq with rfl | hq
        · have hsame : m = n := notification_of_key hm hn (hmkey.trans hkey)
          rw [hsame]
          exact .inl (by simp)
        · exact .inr ⟨q, hq, hreach, hkey⟩
  | @created _ plan plans rest _ m _ t hres hm ht =>
      left
      rcases hp with hq | ⟨q, hq, hreach, hkey⟩
      · exact .inl (List.mem_append_left _ hq)
      · rw [List.cons_append, List.mem_cons] at hq
        rcases hq with rfl | hq
        · have hmem : m ∈ t.rows := by
            rw [ht]
            simp
          have hmkey : m.dedupeKey = q.dedupeKey := by
            rw [hm]
            rfl
          have hsame : m = n := notification_of_key hmem hn' (hmkey.trans hkey)
          rw [hsame]
          exact .inl (by simp)
        · exact .inr ⟨q, hq, hreach, hkey⟩
  | marked _ _ => exact .inl (Pass.mayEnqueue_nextRow.2 hp)
  | @enqueued id ids =>
      have hid : n.id = id ∨ n.id ∈ ids := List.mem_cons.1 hp
      cases hid with
      | inl hid =>
          right
          change n.id ∈ addJob id st.jobs
          rw [hid]
          unfold addJob
          split
          · assumption
          · simp
      | inr hid => exact .inl hid
  | finished => cases hp

/-- A statement leaves a notification waiting only if it was, or if the pass holds it. -/
theorem PassMove.waiting (h : PassMove dir now st p st' p') (hs : st.Sound dir)
    (hp : p.Sound dir st) (hw : st'.Waiting n) : st.Waiting n ∨ p'.MayEnqueue dir n := by
  obtain ⟨hmem, hpending, hproc, hjob⟩ := hw
  cases h with
  | skip | found | finished => exact .inl ⟨hmem, hpending, hproc, hjob⟩
  | @created _ plan _ _ _ m _ t _ _ ht =>
      change n ∈ t.rows at hmem
      rw [ht, List.mem_append, List.mem_singleton] at hmem
      rcases hmem with hmem | rfl
      · exact .inl ⟨hmem, hpending, hproc, hjob⟩
      · exact .inr (.inl (by simp))
  | @marked row rest queued r t hr ht =>
      by_cases hrow : n.dedupeKey.outboxId = row.id
      · -- the row of `n` is the one just marked, and the pass has done all of it
        right
        rw [Pass.mayEnqueue_nextRow]
        left
        obtain ⟨⟨r₀, hr₀, rfl⟩, -, done, hplans, hdone⟩ := hp
        obtain ⟨x, hx, plan, hplan, hrec⟩ := hs.origin n hmem
        have hreach : plan.Reaches dir := by
          unfold PlannedNotification.Reaches
          rw [hrec.recipient]
          simp
        have hxrow : x.event.id = r₀.event.id := by
          rw [← planNotifications_namesRow _ _ hplan, ← hrec.dedupeKey, hrow]
        have hsame : x = r₀ := Table.eq_of_key hx hr₀ hxrow
        rw [List.append_nil] at hplans
        rw [hsame, hplans] at hplan
        obtain ⟨m, hm, hmkey, hmid⟩ := hdone plan hplan hreach
        have hmn : m = n := notification_of_key hm hmem (hmkey.trans hrec.dedupeKey.symm)
        rw [hmn] at hmid
        exact hmid
      · left
        obtain ⟨x, hx, hxid, hxproc⟩ := hproc
        rcases ht.cases hx with rfl | ⟨hx, -⟩
        · have hrid : r.event.id = row.id := Table.key_of_find? hr
          exact absurd (hxid.symm.trans hrid) hrow
        · exact ⟨hmem, hpending, ⟨x, hx, hxid, hxproc⟩, hjob⟩
  | @enqueued id ids =>
      refine .inl ⟨hmem, hpending, hproc, fun hj => hjob ?_⟩
      change n.id ∈ addJob id st.jobs
      unfold addJob
      split
      · exact hj
      · exact List.mem_append_left _ hj

end Holding

/-! ## Every waiting notification is held -/

namespace RelayWorld

/-- Every waiting notification is in the hands of a pass. -/
def Held (dir : Directory) (w : RelayWorld) : Prop :=
  ∀ n, w.shared.Waiting n → ∃ i, (w.locals i).MayEnqueue dir n

section Held

variable {dir : Directory} {w w' : RelayWorld} {m : RelayMove}

/-- The passes other than the mover hold what they held. -/
theorem Held.of_set {i : Nat} {st : RelayStore} {p : Pass} {n : NotificationRow}
    (hmover : (w.locals i).MayEnqueue dir n → p.MayEnqueue dir n)
    (h : ∃ j, (w.locals j).MayEnqueue dir n) : ∃ j, ((w.set i st p).locals j).MayEnqueue dir n := by
  obtain ⟨j, hj⟩ := h
  by_cases hji : j = i
  · subst hji
    exact ⟨j, by simpa using hmover hj⟩
  · exact ⟨j, by simpa [hji] using hj⟩

theorem Held.step (h : w.Held dir) (hw : w.Sound dir) (hg : CrashSpares dir w m)
    (hstep : Step dir w m w') : w'.Held dir := by
  intro n hn
  cases m with
  | emit event createdAt =>
      simp only [Step, exec, Option.map_eq_some_iff] at hstep
      obtain ⟨t, ht, rfl⟩ := hstep
      have hrows := Table.insert_eq_ok.1 (except_toOption_eq_some.1 ht)
      obtain ⟨hmem, hpending, ⟨x, hx, hid, hproc⟩, hjob⟩ := hn
      change x ∈ t.rows at hx
      rw [hrows, List.mem_append, List.mem_singleton] at hx
      rcases hx with hx | rfl
      · exact h n ⟨hmem, hpending, ⟨x, hx, hid, hproc⟩, hjob⟩
      · exact absurd rfl hproc
  | start i limit =>
      simp only [Step, exec] at hstep
      split at hstep
      · next hidle =>
          obtain rfl := Option.some.inj hstep
          refine Held.of_set (fun hi => ?_) (h n hn)
          rw [hidle] at hi
          cases hi
      · cases hstep
  | next i now =>
      simp only [Step, exec, Option.map_eq_some_iff] at hstep
      obtain ⟨⟨st, p⟩, hp, rfl⟩ := hstep
      have hmove := Pass.step_move hp
      have hwas := hmove.waiting hw.shared (hw.own i) hn
      cases hwas with
      | inl hwas =>
          have hkept : (w.locals i).MayEnqueue dir n → p.MayEnqueue dir n := by
            intro hi
            exact (hmove.mayEnqueue hwas.mem hi).resolve_right hn.jobless
          exact Held.of_set hkept (h n hwas)
      | inr hheld => exact ⟨i, by simpa using hheld⟩
  | crash i =>
      simp only [Step, exec] at hstep
      obtain rfl := Option.some.inj hstep
      obtain ⟨j, hj⟩ := h n hn
      by_cases hji : j = i
      · rw [hji] at hj
        obtain ⟨k, hk, hheld⟩ := hg n hn hj
        exact ⟨k, by simpa [hk] using hheld⟩
      · exact ⟨j, by simpa [hji] using hj⟩
  | send id outcome =>
      simp only [Step, exec, Option.map_eq_some_iff] at hstep
      obtain ⟨st, hsend, rfl⟩ := hstep
      obtain ⟨hout, hjobs, -, hcase⟩ := RelayStore.send_spec hsend
      obtain ⟨hmem, hpending, ⟨x, hx, hid, hproc⟩, hjob⟩ := hn
      have hx' : x ∈ w.shared.db.outbox.rows := by
        rw [← hout]
        exact hx
      -- a send settles the notification it is about, so `n` is another one
      have hold : n ∈ w.shared.db.notifications.rows ∧ n.id ≠ id := by
        cases hcase with
        | inl hsame =>
            rw [hsame.1] at hmem
            exact ⟨hmem, fun he => hsame.2 n hmem he hpending⟩
        | inr hrw =>
            obtain ⟨x, hxid, hrw⟩ := hrw
            rcases hrw.cases hmem with rfl | ⟨hmem, hne⟩
            · exact absurd hpending (x.settled_same outcome).2.2.2.2.2
            · exact ⟨hmem, fun he => hne (notification_of_id hmem hrw.mem (he.trans hxid.symm))⟩
      have hno : n.id ∉ w.shared.jobs := fun hj => hjob (hjobs _ hj hold.2)
      exact h n ⟨hold.1, hpending, ⟨x, hx', hid, hproc⟩, hno⟩

theorem Held.reach (h : Reach Init (Step dir) (CrashSpares dir) w) : w.Held dir := by
  refine Reach.invariant_of (I := fun w : RelayWorld => w.Held dir)
    (J := fun w : RelayWorld => w.Sound dir) (fun _ h => .reach h) ?_ ?_ h
  · rintro _ rfl n ⟨hmem, -, -, -⟩
    cases hmem
  · intro _ _ _ hI hJ _ hg hs
    exact hI.step hJ hg hs

end Held

end RelayWorld

/-! ## A pass left alone comes to its end -/

/-- The statements a pass has left, at most. -/
def Pass.work : Pass → Nat
  | .idle => 0
  | .fanning _ plans rest queued =>
    2 * plans.length + (rest.map fun e => 2 * (planNotifications e).length + 1).sum +
      queued.length + 2
  | .enqueueing ids => ids.length + 1

/-- The unprocessed rows. -/
def RelayStore.backlogged (st : RelayStore) : Nat :=
  st.db.outbox.rows.countP fun r => r.processedAt.isNone

/-- The pass is at a row that is not marked yet. -/
def Pass.AtOpenRow (st : RelayStore) : Pass → Prop
  | .fanning row _ _ _ => ¬ st.db.Processed row.id
  | _ => False

section Progress

variable {dir : Directory} {now : Instant} {st st' : RelayStore} {p p' : Pass}

theorem markProcessed_total {row : OutboxEvent} (h : st.db.HasRow row) :
    ∃ db, Runs (markProcessed now row) st.db () db := by
  obtain ⟨r, hr, rfl⟩ := h
  have hfound : st.db.outbox.find? r.event.id = some r := Table.find?_of_mem hr
  obtain ⟨t, ht⟩ := Table.update_total (f := OutboxRow.processed now) hfound rfl rfl fun _ => rfl
  refine ⟨{ st.db with outbox := t }, ?_⟩
  simp only [markProcessed, runs_updateRow]
  obtain ⟨x, hx, hrw⟩ := Table.update_eq_ok.1 ht
  exact ⟨x, hx, t, hrw, rfl⟩

/-- No statement of a pass is refused. -/
theorem Pass.step_total (h : p.Sound dir st) (hp : p ≠ .idle) :
    ∃ st' p', p.step dir now st = some (st', p') := by
  cases p with
  | idle => exact absurd rfl hp
  | fanning row plans rest queued =>
      cases plans with
      | nil =>
          have hmarks : ∃ db, Runs (markProcessed now row) st.db () db := markProcessed_total h.1
          obtain ⟨db, hdb⟩ := hmarks
          have hrun : (markProcessed now row).run st.db = .ok ((), db) := hdb
          refine ⟨{ st with db := db }, .nextRow queued rest, ?_⟩
          simp only [Pass.step, hrun]
      | cons plan plans =>
          have hqueues : ∃ o db, Runs (queuePlanned dir now plan) st.db o db := queuePlanned_total
          obtain ⟨o, db, hdb⟩ := hqueues
          have hrun : (queuePlanned dir now plan).run st.db = .ok (o, db) := hdb
          refine ⟨{ st with db := db }, .fanning row plans rest (queued ++ o.toList), ?_⟩
          simp only [Pass.step, hrun]
  | enqueueing ids =>
      cases ids with
      | nil => exact ⟨_, _, rfl⟩
      | cons id ids => exact ⟨_, _, rfl⟩

theorem PassMove.work_lt (h : PassMove dir now st p st' p') : p'.work < p.work := by
  cases h with
  | skip =>
      simp only [Pass.work, List.length_cons]
      omega
  | found | created =>
      simp only [Pass.work, List.length_cons, List.length_append, List.length_nil]
      omega
  | @marked _ rest queued _ _ _ _ =>
      cases rest with
      | nil =>
          simp only [Pass.nextRow, Pass.work, List.length_nil, List.map_nil, List.sum_nil]
          omega
      | cons e rest =>
          simp only [Pass.nextRow, Pass.work, List.length_nil, List.map_cons, List.sum_cons]
          omega
  | enqueued =>
      simp only [Pass.work, List.length_cons]
      omega
  | finished =>
      simp only [Pass.work, List.length_nil]
      omega

theorem PassMove.backlogged_le (h : PassMove dir now st p st' p') :
    st'.backlogged ≤ st.backlogged := by
  cases h with
  | skip | found | created | enqueued | finished => exact Nat.le_refl _
  | @marked _ _ _ r t _ ht =>
      have hcount := ht.countP fun r : OutboxRow => r.processedAt.isNone
      have hmark : (OutboxRow.processed now r).processedAt.isNone = false := rfl
      simp only [hmark] at hcount
      change t.rows.countP _ ≤ st.db.outbox.rows.countP _
      simp only [Bool.false_eq_true, if_false] at hcount
      omega

/-- A pass at an unmarked row stays there until it marks it. -/
theorem PassMove.atOpenRow (h : PassMove dir now st p st' p') (hp : p.AtOpenRow st) :
    p'.AtOpenRow st' ∨ st'.backlogged < st.backlogged := by
  cases h with
  | skip | found | created => exact .inl hp
  | @marked row _ _ r t hr ht =>
      right
      have hopen : r.processedAt.isNone = true := by
        cases hproc : r.processedAt with
        | none => rfl
        | some at_ =>
            have hrow : st.db.Processed row.id :=
              ⟨r, ht.mem, Table.key_of_find? hr, by simp [hproc]⟩
            exact absurd hrow hp
      have hcount := ht.countP fun r : OutboxRow => r.processedAt.isNone
      have hmark : (OutboxRow.processed now r).processedAt.isNone = false := rfl
      simp only [hmark, hopen, if_true, Bool.false_eq_true, if_false] at hcount
      change t.rows.countP _ < st.db.outbox.rows.countP _
      omega
  | enqueued | finished => cases hp

/-- The first row of a batch is not marked. -/
theorem Pass.begin_atOpenRow {limit : Nat} {r : OutboxRow} (hlimit : 0 < limit)
    (hr : r ∈ st.db.outbox.rows) (hopen : r.processedAt = none) :
    (Pass.begin (st.db.backlog limit)).AtOpenRow st := by
  cases hb : st.db.backlog limit with
  | nil =>
      unfold RelayDb.backlog at hb
      rw [List.map_eq_nil_iff, List.take_eq_nil_iff] at hb
      have hmem : r ∈ (st.db.outbox.rows.filter fun r : OutboxRow =>
          r.processedAt.isNone).insertionSort fun a b => a.createdAt ≤ b.createdAt := by
        rw [List.mem_insertionSort, List.mem_filter]
        exact ⟨hr, by simp [hopen]⟩
      rcases hb with hb | hb
      · omega
      · rw [hb] at hmem
        cases hmem
  | cons e rest =>
      have he : e ∈ st.db.backlog limit := by
        rw [hb]
        simp
      obtain ⟨x, hx, rfl, hnone⟩ := RelayDb.backlog_hasRow he
      rintro ⟨y, hy, hid, hproc⟩
      have hsame : y = x := Table.eq_of_key hy hx hid
      rw [hsame] at hproc
      exact hproc hnone

end Progress

/-! ## Sending -/

/-- A scheduled pass reads the backlog, or goes on. -/
def RelayMove.RunsPass : RelayMove → Prop
  | .start _ limit => limit = 100
  | .next _ _ => True
  | _ => False

/-- The pass a move is about, if it is about one, is pass `i`. -/
def RelayMove.Only (i : Nat) : RelayMove → Prop
  | .start j _ | .next j _ | .crash j => j = i
  | .emit _ _ | .send _ _ => True

instance (i : Nat) (m : RelayMove) : Decidable (m.Only i) :=
  match m with
  | .start j _ | .next j _ | .crash j => inferInstanceAs (Decidable (j = i))
  | .emit _ _ | .send _ _ => inferInstanceAs (Decidable True)

namespace RelayWorld

/-- The notification has a send job, or passes that run from here on give it one. -/
def Sendable (dir : Directory) (w : RelayWorld) (id : NotificationId) : Prop :=
  ∃ w', Reach (· = w) (Step dir) (fun _ m => m.RunsPass) w' ∧ id ∈ w'.shared.jobs

section Sendable

variable {dir : Directory} {w w' : RelayWorld} {m : RelayMove} {n : NotificationRow} {i : Nat}

theorem Sendable.of_job (h : n.id ∈ w.shared.jobs) : w.Sendable dir n.id := ⟨w, .start rfl, h⟩

theorem Sendable.of_step (hm : m.RunsPass) (hs : Step dir w m w') (h : w'.Sendable dir n.id) :
    w.Sendable dir n.id := by
  obtain ⟨w'', hreach, hjob⟩ := h
  exact ⟨w'', Reach.head hm hs hreach, hjob⟩

theorem Sendable.of_reach (hr : Reach (· = w) (Step dir) (fun _ m => m.RunsPass) w')
    (h : w'.Sendable dir n.id) : w.Sendable dir n.id := by
  obtain ⟨w'', hreach, hjob⟩ := h
  exact ⟨w'', hr.trans hreach, hjob⟩

/-- The next statement of a pass that is under way. -/
theorem exists_next (hw : w.Sound dir) (hi : w.locals i ≠ .idle) :
    ∃ st p, Step dir w (.next i 0) (w.set i st p) ∧ PassMove dir 0 w.shared (w.locals i) st p := by
  have hsteps : ∃ st p, (w.locals i).step dir 0 w.shared = some (st, p) :=
    Pass.step_total (hw.own i) hi
  obtain ⟨st, p, hp⟩ := hsteps
  refine ⟨st, p, ?_, Pass.step_move hp⟩
  simp only [Step, exec, hp, Option.map_some]

/-- A held notification is sent: its pass only has to go on. -/
theorem sendable_of_held (hw : w.Sound dir) (hn : n ∈ w.notifications)
    (hi : (w.locals i).MayEnqueue dir n) : w.Sendable dir n.id := by
  obtain ⟨k, hk⟩ : ∃ k, (w.locals i).work = k := ⟨_, rfl⟩
  induction k using Nat.strong_induction_on generalizing w with
  | _ k ih =>
      have hbusy : w.locals i ≠ .idle := by
        intro hidle
        rw [hidle] at hi
        cases hi
      obtain ⟨st, p, hs, hmove⟩ := exists_next hw hbusy
      refine Sendable.of_step (m := .next i 0) trivial hs ?_
      have hheld := hmove.mayEnqueue hn hi
      cases hheld with
      | inl hheld =>
          refine ih p.work (hk ▸ hmove.work_lt) (hw.step hs) (hmove.keeps hn) ?_ ?_
          · simpa using hheld
          · simp
      | inr hjob => exact Sendable.of_job hjob

/-- A pass runs to its end, and on the way `n` is handed to the sender, or its row is
    still not marked and another one may be. -/
theorem runs_to_idle (hw : w.Sound dir) (hn : n ∈ w.notifications) (hp : n.status = .PENDING)
    (hopen : ¬ w.shared.db.Processed n.dedupeKey.outboxId) (i : Nat) :
    w.Sendable dir n.id ∨ ∃ w', Reach (· = w) (Step dir) (fun _ m => m.RunsPass) w' ∧
      w'.Sound dir ∧ n ∈ w'.notifications ∧ ¬ w'.shared.db.Processed n.dedupeKey.outboxId ∧
      w'.locals i = .idle ∧ w'.shared.backlogged ≤ w.shared.backlogged ∧
      ((w.locals i).AtOpenRow w.shared → w'.shared.backlogged < w.shared.backlogged) := by
  obtain ⟨k, hk⟩ : ∃ k, (w.locals i).work = k := ⟨_, rfl⟩
  induction k using Nat.strong_induction_on generalizing w with
  | _ k ih =>
      by_cases hidle : w.locals i = .idle
      · refine .inr ⟨w, .start rfl, hw, hn, hopen, hidle, Nat.le_refl _, fun hat => ?_⟩
        rw [hidle] at hat
        cases hat
      · obtain ⟨st, p, hs, hmove⟩ := exists_next hw hidle
        have hw₁ := hw.step hs
        have hn₁ := hmove.keeps hn
        by_cases hproc : st.db.Processed n.dedupeKey.outboxId
        · by_cases hjob : n.id ∈ st.jobs
          · exact .inl (Sendable.of_step (m := .next i 0) trivial hs (Sendable.of_job hjob))
          · -- the step marked the row of `n`, so the pass holds `n`
            have hwas := hmove.waiting hw.shared (hw.own i) ⟨hn₁, hp, hproc, hjob⟩
            have hheld := hwas.resolve_left fun h => hopen h.processed
            have hsend : Sendable dir (w.set i st p) n.id :=
              sendable_of_held (i := i) hw₁ hn₁ (by simpa using hheld)
            exact .inl (Sendable.of_step (m := .next i 0) trivial hs hsend)
        · have hlater := ih p.work (hk ▸ hmove.work_lt) hw₁ hn₁ hproc (by simp)
          cases hlater with
          | inl hsend => exact .inl (Sendable.of_step (m := .next i 0) trivial hs hsend)
          | inr hlater =>
              obtain ⟨w', hreach, hw', hn', hopen', hidle', hle, hlt⟩ := hlater
              have hle₁ : st.backlogged ≤ w.shared.backlogged := hmove.backlogged_le
              change w'.shared.backlogged ≤ st.backlogged at hle
              refine .inr ⟨w', Reach.head (i := .next i 0) trivial hs hreach, hw', hn', hopen',
                hidle', hle.trans hle₁, fun hat => ?_⟩
              have hat₁ := hmove.atOpenRow hat
              cases hat₁ with
              | inl hat₁ =>
                  have hlt₁ := hlt (by simpa using hat₁)
                  exact Nat.lt_of_lt_of_le hlt₁ hle₁
              | inr hless => exact Nat.lt_of_le_of_lt hle hless

/-- While its row is not marked, a notification is found again: each pass marks the
    oldest row left, until it comes to that one. -/
theorem sendable_of_open (hw : w.Sound dir) (hn : n ∈ w.notifications) (hp : n.status = .PENDING)
    (hopen : ¬ w.shared.db.Processed n.dedupeKey.outboxId) (hi : w.locals i = .idle) :
    w.Sendable dir n.id := by
  obtain ⟨k, hk⟩ : ∃ k, w.shared.backlogged = k := ⟨_, rfl⟩
  induction k using Nat.strong_induction_on generalizing w with
  | _ k ih =>
      obtain ⟨r, hr, plan, hplan, hrec⟩ := hw.shared.origin n hn
      have hnone : r.processedAt = none := by
        by_contra hproc
        refine hopen ⟨r, hr, ?_, hproc⟩
        rw [hrec.dedupeKey, planNotifications_namesRow _ _ hplan]
      have hs : Step dir w (.start i 100) (w.set i w.shared (.begin (w.shared.db.backlog 100))) := by
        simp only [Step, exec, hi]
      have hw₁ := hw.step hs
      have hlater := runs_to_idle hw₁ hn hp hopen i
      refine Sendable.of_step (m := .start i 100) rfl hs ?_
      cases hlater with
      | inl hsend => exact hsend
      | inr hlater =>
          obtain ⟨w', hreach, hw', hn', hopen', hidle', -, hlt⟩ := hlater
          have hat : ((w.set i w.shared (.begin (w.shared.db.backlog 100))).locals i).AtOpenRow
              w.shared := by
            rw [Threads.set_locals_self]
            exact Pass.begin_atOpenRow (by omega) hr hnone
          have hless : w'.shared.backlogged < k := hk ▸ hlt hat
          exact Sendable.of_reach hreach (ih _ hless hw' hn' hopen' hidle' rfl)

/-- Only finitely many passes are under way. -/
theorem exists_idle {guard : RelayWorld → RelayMove → Prop} (h : Reach Init (Step dir) guard w) :
    ∃ k, ∀ i, k ≤ i → w.locals i = .idle := by
  refine Reach.invariant (I := fun w : RelayWorld => ∃ k, ∀ i, k ≤ i → w.locals i = .idle) ?_ ?_ h
  · rintro _ rfl
    exact ⟨0, fun _ _ => rfl⟩
  · rintro w m w' ⟨k, hk⟩ - hs
    have hset : ∀ i st p, ∃ k, ∀ j, k ≤ j → (w.set i st p).locals j = .idle := by
      intro i st p
      refine ⟨max k (i + 1), fun j hj => ?_⟩
      have hji : j ≠ i := by omega
      rw [Threads.set_locals_ne hji]
      exact hk j (by omega)
    cases m with
    | emit event createdAt =>
        simp only [Step, exec, Option.map_eq_some_iff] at hs
        obtain ⟨t, -, rfl⟩ := hs
        exact ⟨k, hk⟩
    | start i limit =>
        simp only [Step, exec] at hs
        split at hs
        · obtain rfl := Option.some.inj hs
          exact hset _ _ _
        · cases hs
    | next i now =>
        simp only [Step, exec, Option.map_eq_some_iff] at hs
        obtain ⟨⟨st, p⟩, -, rfl⟩ := hs
        exact hset _ _ _
    | crash i =>
        simp only [Step, exec] at hs
        obtain rfl := Option.some.inj hs
        exact hset _ _ _
    | send id outcome =>
        simp only [Step, exec, Option.map_eq_some_iff] at hs
        obtain ⟨st, -, rfl⟩ := hs
        exact ⟨k, hk⟩

/-- No message is lost while no pass dies as the last that holds one: in every state
    reached, every pending notification has a send job or is given one by the passes
    that run next. -/
theorem notifications_sendable (h : Reach Init (Step dir) (CrashSpares dir) w) :
    ∀ n ∈ w.notifications, n.status = .PENDING → w.Sendable dir n.id := by
  intro n hn hp
  have hw := RelayWorld.Sound.reach h
  by_cases hjob : n.id ∈ w.shared.jobs
  · exact Sendable.of_job hjob
  · by_cases hproc : w.shared.db.Processed n.dedupeKey.outboxId
    · obtain ⟨i, hi⟩ := Held.reach h n ⟨hn, hp, hproc, hjob⟩
      exact sendable_of_held hw hn hi
    · obtain ⟨k, hk⟩ := exists_idle h
      exact sendable_of_open hw hn hp hproc (hk k (Nat.le_refl k))

end Sendable

/-! ## A harmless crash -/

/-- `CrashSpares`, looked for among the passes `js`. -/
def sparesAmong (dir : Directory) (js : List Nat) (w : RelayWorld) : RelayMove → Bool
  | .crash i => decide (∀ n ∈ w.notifications, w.shared.Waiting n → (w.locals i).MayEnqueue dir n →
      ∃ j ∈ js, j ≠ i ∧ (w.locals j).MayEnqueue dir n)
  | _ => true

theorem crashSpares_of_among {dir : Directory} {js : List Nat} {w : RelayWorld} {m : RelayMove}
    (h : sparesAmong dir js w m = true) : CrashSpares dir w m := by
  cases m with
  | crash i =>
      intro n hn hi
      obtain ⟨j, -, hj⟩ := of_decide_eq_true h n hn.mem hn hi
      exact ⟨j, hj⟩
  | _ => trivial

/-- Two passes fan one row out; the one that marked it dies before it adds a job. -/
def sparedMoves : List RelayMove :=
  [.emit (requestedBy 5 "host" "guest") 0, .start 0 100, .start 1 100] ++ nexts 0 3 ++ [.crash 0]

/-- The row is marked, no job exists, and both messages will be sent. -/
theorem notifications_sendable_spared : ∃ w : RelayWorld,
    Reach Init (Step demoDirectory) (CrashSpares demoDirectory) w ∧ w.shared.jobs = [] ∧
    (w.notifications.map fun n => (n.userId, n.status)) = [(1, .PENDING), (2, .PENDING)] ∧
    (w.outbox.map fun r => r.processedAt) = [some 0] ∧
    ∀ n ∈ w.notifications, n.status = .PENDING → w.Sendable demoDirectory n.id := by
  have hplay : (runList (exec demoDirectory) initial sparedMoves).any (fun w =>
      decide (w.shared.jobs = []) &&
      decide ((w.notifications.map fun n => (n.userId, n.status)) = [(1, .PENDING), (2, .PENDING)]) &&
      decide ((w.outbox.map fun r => r.processedAt) = [some 0])) = true := by
    decide
  obtain ⟨w, hw, hplay⟩ := (Option.any_eq_true _ _).1 hplay
  simp only [Bool.and_eq_true, decide_eq_true_eq] at hplay
  have hreach : Reach Init (Step demoDirectory) (CrashSpares demoDirectory) w :=
    reach_of_runList (g := sparesAmong demoDirectory [0, 1]) (fun _ _ _ h => h)
      (fun _ _ => crashSpares_of_among) (.start rfl) (by decide) hw
  exact ⟨w, hreach, hplay.1.1, hplay.1.2, hplay.2, notifications_sendable hreach⟩

/-! ## Lost messages -/

/-- A waiting notification that no pass holds. -/
def Lost (dir : Directory) (w : RelayWorld) (n : NotificationRow) : Prop :=
  w.shared.Waiting n ∧ ∀ i, ¬ (w.locals i).MayEnqueue dir n

section Lost

variable {dir : Directory} {now : Instant} {st st' : RelayStore} {p p' : Pass}
  {w w' : RelayWorld} {m : RelayMove} {n : NotificationRow}

/-- A pass does not come to hold a notification that is there already, except at its start. -/
theorem mayEnqueue_back (h : PassMove dir now st p st' p') (hn : n ∈ st.db.notifications.rows)
    (hp : p'.MayEnqueue dir n) : p.MayEnqueue dir n := by
  have hn' := h.keeps hn
  cases h with
  | skip =>
      rcases hp with hq | ⟨q, hq, hreach, hkey⟩
      · exact .inl hq
      · exact .inr ⟨q, List.mem_cons_of_mem _ hq, hreach, hkey⟩
  | @found _ plan _ _ _ x hres hxkey hx =>
      rcases hp with hq | ⟨q, hq, hreach, hkey⟩
      · rw [List.mem_append, List.mem_singleton] at hq
        cases hq with
        | inl hq => exact .inl hq
        | inr hid =>
            have hsame : n = x := notification_of_id hn hx hid
            rw [hsame]
            exact .inr ⟨plan, by simp, hres, hxkey.symm⟩
      · exact .inr ⟨q, List.mem_cons_of_mem _ hq, hreach, hkey⟩
  | @created _ plan _ _ _ x _ t hres hx ht =>
      rcases hp with hq | ⟨q, hq, hreach, hkey⟩
      · rw [List.mem_append, List.mem_singleton] at hq
        cases hq with
        | inl hq => exact .inl hq
        | inr hid =>
            have hmem : x ∈ t.rows := by
              rw [ht]
              simp
            have hsame : n = x := notification_of_id hn' hmem hid
            have hkey : plan.dedupeKey = n.dedupeKey := by
              rw [hsame, hx]
              rfl
            have hreach : plan.Reaches dir := by
              unfold PlannedNotification.Reaches
              rw [hres]
              simp
            exact .inr ⟨plan, by simp, hreach, hkey⟩
      · exact .inr ⟨q, List.mem_cons_of_mem _ hq, hreach, hkey⟩
  | marked _ _ => exact Pass.mayEnqueue_nextRow.1 hp
  | enqueued => exact List.mem_cons_of_mem _ hp
  | finished => cases hp

/-- A statement of a pass that does not hold a waiting notification leaves it waiting. -/
theorem waiting_of_not_held (h : PassMove dir now st p st' p') (hn : st.Waiting n)
    (hp : ¬ p.MayEnqueue dir n) : st'.Waiting n := by
  obtain ⟨hmem, hpending, ⟨x, hx, hid, hproc⟩, hjob⟩ := hn
  refine ⟨h.keeps hmem, hpending, ?_, ?_⟩
  · cases h with
    | skip | found | created | enqueued | finished => exact ⟨x, hx, hid, hproc⟩
    | @marked _ _ _ r t hr ht =>
        by_cases hxr : x = r
        · subst hxr
          exact ⟨_, ht.self, hid, by simp [OutboxRow.processed]⟩
        · exact ⟨x, ht.other hx hxr, hid, hproc⟩
  · cases h with
    | skip | found | created | marked | finished => exact hjob
    | @enqueued id ids =>
        intro hj
        change n.id ∈ addJob id st.jobs at hj
        unfold addJob at hj
        split at hj
        · exact hjob hj
        · rw [List.mem_append, List.mem_singleton] at hj
          cases hj with
          | inl hj => exact hjob hj
          | inr hj => exact hp (List.mem_cons.2 (.inl hj))

/-- A pass that starts reads unmarked rows only. -/
theorem begin_not_held {limit : Nat} (h : st.db.Processed n.dedupeKey.outboxId) :
    ¬ (Pass.begin (st.db.backlog limit)).MayEnqueue dir n := by
  intro hheld
  obtain ⟨x, hx, hid, hproc⟩ := h
  have hplanned : ∃ e ∈ st.db.backlog limit, ∃ plan ∈ planNotifications e,
      plan.dedupeKey = n.dedupeKey := by
    cases hb : st.db.backlog limit with
    | nil =>
        rw [hb] at hheld
        cases hheld
    | cons e rest =>
        rw [hb] at hheld
        have hnext : (Pass.nextRow [] (e :: rest)).MayEnqueue dir n := hheld
        have hrows := Pass.mayEnqueue_nextRow.1 hnext
        rcases hrows with hq | ⟨plan, hplan, -, hkey⟩
        · cases hq
        · obtain ⟨e', he', hplan⟩ := List.mem_flatMap.1 hplan
          exact ⟨e', he', plan, hplan, hkey⟩
  obtain ⟨e, he, plan, hplan, hkey⟩ := hplanned
  obtain ⟨y, hy, rfl, hnone⟩ := RelayDb.backlog_hasRow he
  have hsame : x = y := by
    refine Table.eq_of_key hx hy ?_
    change x.event.id = y.event.id
    rw [hid, ← hkey, planNotifications_namesRow _ _ hplan]
  rw [hsame] at hproc
  exact hproc hnone

/-- What is lost stays lost, whatever happens next. -/
theorem Lost.step (h : Lost dir w n) (hstep : Step dir w m w') : Lost dir w' n := by
  obtain ⟨hwait, hnone⟩ := h
  have hset : ∀ {i st p}, st.Waiting n → ¬ p.MayEnqueue dir n → Lost dir (w.set i st p) n := by
    intro i st p hst hp
    refine ⟨hst, fun j => ?_⟩
    by_cases hji : j = i
    · subst hji
      simpa using hp
    · simpa [hji] using hnone j
  cases m with
  | emit event createdAt =>
      simp only [Step, exec, Option.map_eq_some_iff] at hstep
      obtain ⟨t, ht, rfl⟩ := hstep
      have hrows := Table.insert_eq_ok.1 (except_toOption_eq_some.1 ht)
      obtain ⟨hmem, hpending, ⟨x, hx, hid, hproc⟩, hjob⟩ := hwait
      have hx' : x ∈ t.rows := by
        rw [hrows]
        exact List.mem_append_left _ hx
      exact ⟨⟨hmem, hpending, ⟨x, hx', hid, hproc⟩, hjob⟩, hnone⟩
  | start i limit =>
      simp only [Step, exec] at hstep
      split at hstep
      · obtain rfl := Option.some.inj hstep
        exact hset hwait (begin_not_held hwait.processed)
      · cases hstep
  | next i now =>
      simp only [Step, exec, Option.map_eq_some_iff] at hstep
      obtain ⟨⟨st, p⟩, hp, rfl⟩ := hstep
      have hmove := Pass.step_move hp
      have hafter := waiting_of_not_held hmove hwait (hnone i)
      exact hset hafter fun hi => hnone i (mayEnqueue_back hmove hwait.mem hi)
  | crash i =>
      simp only [Step, exec] at hstep
      obtain rfl := Option.some.inj hstep
      exact hset hwait fun hi => hi
  | send id outcome =>
      simp only [Step, exec, Option.map_eq_some_iff] at hstep
      obtain ⟨st, hsend, rfl⟩ := hstep
      obtain ⟨hout, -, hjobs, hcase⟩ := RelayStore.send_spec hsend
      obtain ⟨hmem, hpending, ⟨x, hx, hid, hproc⟩, hjob⟩ := hwait
      have hx' : x ∈ st.db.outbox.rows := by
        rw [hout]
        exact hx
      have hid_ne : n.id ≠ id := by
        intro he
        unfold RelayStore.send at hsend
        rw [if_neg (he ▸ hjob)] at hsend
        cases hsend
      have hmem' : n ∈ st.db.notifications.rows := by
        cases hcase with
        | inl hsame =>
            rw [hsame.1]
            exact hmem
        | inr hrw =>
            obtain ⟨y, hy, hrw⟩ := hrw
            refine hrw.other hmem fun he => hid_ne ?_
            rw [he, hy]
      exact ⟨⟨hmem', hpending, ⟨x, hx', hid, hproc⟩, fun hj => hjob (hjobs _ hj)⟩, hnone⟩

theorem Lost.not_sendable (h : Lost dir w n) : ¬ w.Sendable dir n.id := by
  rintro ⟨w', hreach, hjob⟩
  have hlost : Lost dir w' n := by
    refine Reach.invariant (I := fun w : RelayWorld => Lost dir w n) ?_ ?_ hreach
    · rintro _ rfl
      exact h
    · intro _ _ _ hI _ hs
      exact hI.step hs
  exact hlost.1.jobless hjob

/-- A crash the condition rules out loses a message. -/
theorem lost_of_crash {i : Nat} (h : ¬ CrashSpares dir w (.crash i)) :
    ∃ n, Lost dir (w.set i w.shared .idle) n := by
  simp only [CrashSpares, not_forall, not_exists, not_and] at h
  obtain ⟨n, hwait, -, hnone⟩ := h
  refine ⟨n, hwait, fun j => ?_⟩
  by_cases hji : j = i
  · subst hji
    simp [Pass.MayEnqueue]
  · simpa [hji] using hnone j hji

end Lost

/-- One pass records both messages, marks the row, and dies before it adds a job. -/
def lostMoves : List RelayMove :=
  [.emit (requestedBy 5 "host" "guest") 0, .start 0 100] ++ nexts 0 3

theorem others_idle {dir : Directory} {w : RelayWorld} {i : Nat}
    (h : Reach Init (Step dir) (fun _ m => m.Only i) w) : ∀ j, j ≠ i → w.locals j = .idle := by
  refine Reach.invariant (I := fun w : RelayWorld => ∀ j, j ≠ i → w.locals j = .idle) ?_ ?_ h
  · rintro _ rfl _ _
    rfl
  · intro w m w' hI hm hs
    cases m with
    | emit event createdAt =>
        simp only [Step, exec, Option.map_eq_some_iff] at hs
        obtain ⟨t, -, rfl⟩ := hs
        exact hI
    | start k limit =>
        obtain rfl : k = i := hm
        simp only [Step, exec] at hs
        split at hs
        · obtain rfl := Option.some.inj hs
          intro j hj
          simpa [hj] using hI j hj
        · cases hs
    | next k now =>
        obtain rfl : k = i := hm
        simp only [Step, exec, Option.map_eq_some_iff] at hs
        obtain ⟨⟨st, p⟩, -, rfl⟩ := hs
        intro j hj
        simpa [hj] using hI j hj
    | crash k =>
        obtain rfl : k = i := hm
        simp only [Step, exec] at hs
        obtain rfl := Option.some.inj hs
        intro j hj
        simpa [hj] using hI j hj
    | send id outcome =>
        simp only [Step, exec, Option.map_eq_some_iff] at hs
        obtain ⟨st, -, rfl⟩ := hs
        exact hI

/-- A pass that dies between its mark and its first job loses the message for good. -/
theorem notification_lost_in_gap :
    ¬ ∀ dir w, Reachable Init (Step dir) w → ∀ n ∈ w.notifications, n.status = .PENDING →
      w.shared.db.Processed n.dedupeKey.outboxId → w.Sendable dir n.id := by
  intro h
  have hplay : (runList (exec demoDirectory) initial lostMoves).any (fun w =>
      decide (∃ n ∈ w.notifications, w.shared.Waiting n ∧
        (w.locals 0).MayEnqueue demoDirectory n)) = true := by
    decide
  obtain ⟨w, hw, hplay⟩ := (Option.any_eq_true _ _).1 hplay
  obtain ⟨n, hn, hwait, hheld⟩ := of_decide_eq_true hplay
  have hreach : Reach Init (Step demoDirectory) (fun _ m => m.Only 0) w :=
    reach_of_runList (g := fun _ m => decide (m.Only 0)) (fun _ _ _ h => h)
      (fun _ _ h => of_decide_eq_true h) (.start rfl) (by decide) hw
  have hlast : ¬ CrashSpares demoDirectory w (.crash 0) := by
    intro hspares
    obtain ⟨j, hj, hheld⟩ := hspares n hwait hheld
    rw [others_idle hreach j hj] at hheld
    exact hheld
  obtain ⟨x, hlost⟩ := lost_of_crash hlast
  have hcrashed : Reachable Init (Step demoDirectory) (w.set 0 w.shared .idle) :=
    .next (i := .crash 0) hreach.reachable trivial rfl
  exact hlost.not_sendable
    (h _ _ hcrashed x hlost.1.mem hlost.1.pending hlost.1.processed)

end RelayWorld

end Paayatam
