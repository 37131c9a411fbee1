/-
  Paayatam.Outbox.Records

  From outbox rows to notifications.

  However many passes drain the outbox at once, and wherever they die, a row
  that is marked processed has exactly the notifications its plan names: one
  for each recipient that resolves to an account, under the plan's key.  Two
  facts carry it.  What a pass has done of a row it did under the plan's keys,
  which the unique index keeps apart; and a row is marked only by a pass that
  has done all of it.
-/

import Paayatam.Outbox.Relay

namespace Paayatam

open Lib

/-! ## Keys of one plan -/

/-- No two messages of a list share a key. -/
def KeysDistinct (plans : List PlannedNotification) : Prop :=
  plans.Pairwise fun a b => a.dedupeKey ≠ b.dedupeKey

/-- A host's cancellation lists no participation twice. -/
def OutboxEvent.ListsOnce (row : OutboxEvent) : Prop :=
  row.eventType = .event_cancelled_by_host →
    (list row.payload "participants").Pairwise fun a b =>
      (a.lookup "participantPublicId").getD "" ≠ (b.lookup "participantPublicId").getD ""

section Keys

variable {row : OutboxEvent}

theorem planFor_suffix {u suffix : String} {t : TemplateKey} {payload : Payload}
    {plan : PlannedNotification} (h : plan ∈ planFor row u suffix t payload) :
    plan.dedupeKey.suffix = suffix := by
  unfold planFor at h
  split at h
  · cases h
  · rw [List.mem_singleton.1 h]

theorem planFor_distinct (u suffix : String) (t : TemplateKey) (payload : Payload) :
    KeysDistinct (planFor row u suffix t payload) := by
  unfold planFor KeysDistinct
  split <;> simp

theorem KeysDistinct.append {ps qs : List PlannedNotification} (hp : KeysDistinct ps)
    (hq : KeysDistinct qs)
    (h : ∀ a ∈ ps, ∀ b ∈ qs, a.dedupeKey.suffix ≠ b.dedupeKey.suffix) :
    KeysDistinct (ps ++ qs) := by
  refine List.pairwise_append.2 ⟨hp, hq, fun a ha b hb he => ?_⟩
  exact h a ha b hb (congrArg DedupeKey.suffix he)

theorem KeysDistinct.eq_of_key {plans : List PlannedNotification} (h : KeysDistinct plans)
    {a b : PlannedNotification} (ha : a ∈ plans) (hb : b ∈ plans)
    (hkey : a.dedupeKey = b.dedupeKey) : a = b := by
  induction plans with
  | nil => cases ha
  | cons p ps ih =>
      obtain ⟨hp, hps⟩ := List.pairwise_cons.1 h
      rw [List.mem_cons] at ha hb
      cases ha with
      | inl ha =>
          cases hb with
          | inl hb => rw [ha, hb]
          | inr hb =>
              rw [ha] at hkey
              exact absurd hkey (hp b hb)
      | inr ha =>
          cases hb with
          | inl hb =>
              rw [hb] at hkey
              exact absurd hkey.symm (hp a ha)
          | inr hb => exact ih hps ha hb

/-- Messages to two sides of one fact, under two suffixes. -/
theorem planFor_append_distinct {u v s s' : String} {t t' : TemplateKey} {p p' : Payload}
    (h : s ≠ s') : KeysDistinct (planFor row u s t p ++ planFor row v s' t' p') := by
  refine (planFor_distinct _ _ _ _).append (planFor_distinct _ _ _ _) fun a ha b hb => ?_
  rw [planFor_suffix ha, planFor_suffix hb]
  exact h

/-- Messages to each of a list, under a suffix of its own. -/
theorem planFor_flatMap_distinct {α : Type} {xs : List α} {u s : α → String} {t : TemplateKey}
    {p : Payload} (h : xs.Pairwise fun a b => s a ≠ s b) :
    KeysDistinct (xs.flatMap fun x => planFor row (u x) (s x) t p) := by
  induction xs with
  | nil => exact List.Pairwise.nil
  | cons x xs ih =>
      rw [List.pairwise_cons] at h
      rw [List.flatMap_cons]
      refine (planFor_distinct _ _ _ _).append (ih h.2) fun a ha b hb => ?_
      obtain ⟨y, hy, hb⟩ := List.mem_flatMap.1 hb
      rw [planFor_suffix ha, planFor_suffix hb]
      exact h.1 y hy

/-- No plan names one key twice. -/
theorem planNotifications_distinct (h : row.ListsOnce) : KeysDistinct (planNotifications row) := by
  unfold planNotifications
  cases hty : row.eventType with
  | participation_requested | waitlist_promoted | referral_qualified =>
      exact planFor_append_distinct (by decide)
  | event_cancelled_by_host => exact planFor_flatMap_distinct (h hty)
  | review_window_open =>
      have htwo : KeysDistinct (planFor row (text row.payload "hostUserPublicId")
          "hostUserPublicId" .REVIEW_WINDOW_OPEN (withText row.payload "recipientRole" "HOST") ++
          planFor row (text row.payload "guestUserPublicId") "guestUserPublicId"
            .REVIEW_WINDOW_OPEN (withText row.payload "recipientRole" "GUEST")) :=
        planFor_append_distinct (by decide)
      simpa using htwo
  | review_revealed => exact planFor_flatMap_distinct (by decide)
  | other => exact List.Pairwise.nil
  | _ => exact planFor_distinct _ _ _ _

end Keys

/-! ## What holds of the stores and of a pass -/

/-- Two notifications with one key are one. -/
theorem notification_of_key {t : Table NotificationRow} {n m : NotificationRow} (hn : n ∈ t.rows)
    (hm : m ∈ t.rows) (h : n.dedupeKey = m.dedupeKey) : n = m := by
  have hcollide : Row.collide n m = true := decide_eq_true h
  exact Table.eq_of_collide hn hm hcollide

/-- The recipient of a plan resolves to an account. -/
def PlannedNotification.Reaches (dir : Directory) (plan : PlannedNotification) : Prop :=
  resolveUserId dir plan.userPublicId ≠ none

instance (dir : Directory) (plan : PlannedNotification) : Decidable (plan.Reaches dir) :=
  inferInstanceAs (Decidable (_ ≠ none))

/-- `n` is the notification that `plan` asks for. -/
structure NotificationRow.Records (dir : Directory) (n : NotificationRow)
    (plan : PlannedNotification) : Prop where
  dedupeKey : n.dedupeKey = plan.dedupeKey
  recipient : resolveUserId dir plan.userPublicId = some n.userId
  templateKey : n.templateKey = plan.templateKey
  payload : n.payload = plan.payload

/-- Some notification has the key of the plan. -/
def RelayDb.HasKey (db : RelayDb) (key : DedupeKey) : Prop :=
  ∃ n ∈ db.notifications.rows, n.dedupeKey = key

/-- Every notification was planned, and every processed row has its own. -/
structure RelayStore.Sound (dir : Directory) (st : RelayStore) : Prop where
  origin : ∀ n ∈ st.db.notifications.rows, ∃ r ∈ st.db.outbox.rows,
    ∃ plan ∈ planNotifications r.event, n.Records dir plan
  complete : ∀ r ∈ st.db.outbox.rows, r.processedAt ≠ none →
    ∀ plan ∈ planNotifications r.event, plan.Reaches dir → st.db.HasKey plan.dedupeKey

/-- The outbox has the row. -/
def RelayDb.HasRow (db : RelayDb) (row : OutboxEvent) : Prop := ∃ r ∈ db.outbox.rows, r.event = row

/-- What a pass relies on: its rows are there, and what it has done of the current one
    is recorded and in its hands. -/
def Pass.Sound (dir : Directory) (st : RelayStore) : Pass → Prop
  | .idle => True
  | .enqueueing _ => True
  | .fanning row plans rest queued =>
    st.db.HasRow row ∧ (∀ e ∈ rest, st.db.HasRow e) ∧
    ∃ done, planNotifications row = done ++ plans ∧ ∀ plan ∈ done, plan.Reaches dir →
      ∃ n ∈ st.db.notifications.rows, n.dedupeKey = plan.dedupeKey ∧ n.id ∈ queued

/-- Later stores: no row is lost, and none becomes another one. -/
structure RelayStore.Grows (st st' : RelayStore) : Prop where
  outbox : ∀ r ∈ st.db.outbox.rows, ∃ r' ∈ st'.db.outbox.rows, r'.event = r.event
  notifications : ∀ n ∈ st.db.notifications.rows, ∃ n' ∈ st'.db.notifications.rows,
    n'.id = n.id ∧ n'.dedupeKey = n.dedupeKey

theorem RelayStore.Grows.hasRow {st st' : RelayStore} (h : st.Grows st') {row : OutboxEvent}
    (hr : st.db.HasRow row) : st'.db.HasRow row := by
  obtain ⟨r, hr, rfl⟩ := hr
  exact h.outbox r hr

theorem RelayStore.Grows.hasKey {st st' : RelayStore} (h : st.Grows st') {key : DedupeKey}
    (hk : st.db.HasKey key) : st'.db.HasKey key := by
  obtain ⟨n, hn, rfl⟩ := hk
  obtain ⟨n', hn', -, hkey⟩ := h.notifications n hn
  exact ⟨n', hn', hkey⟩

theorem Pass.Sound.mono {dir : Directory} {st st' : RelayStore} {p : Pass} (h : p.Sound dir st)
    (hg : st.Grows st') : p.Sound dir st' := by
  cases p with
  | idle => trivial
  | enqueueing ids => trivial
  | fanning row plans rest queued =>
      obtain ⟨hrow, hrest, done, hplans, hdone⟩ := h
      refine ⟨hg.hasRow hrow, fun e he => hg.hasRow (hrest e he), done, hplans, ?_⟩
      intro plan hplan hreach
      obtain ⟨n, hn, hkey, hid⟩ := hdone plan hplan hreach
      obtain ⟨n', hn', hid', hkey'⟩ := hg.notifications n hn
      exact ⟨n', hn', hkey'.trans hkey, hid' ▸ hid⟩

/-- The rows of a batch are rows of the outbox. -/
theorem RelayDb.backlog_hasRow {db : RelayDb} {limit : Nat} {e : OutboxEvent}
    (h : e ∈ db.backlog limit) : ∃ r ∈ db.outbox.rows, r.event = e ∧ r.processedAt = none := by
  obtain ⟨r, hr, rfl⟩ := List.mem_map.1 h
  have hsorted := List.mem_of_mem_take hr
  have hfilter := (List.mem_insertionSort _).1 hsorted
  obtain ⟨hmem, hnone⟩ := List.mem_filter.1 hfilter
  exact ⟨r, hmem, rfl, by simpa using hnone⟩

theorem Pass.nextRow_sound {dir : Directory} {st : RelayStore} {queued : List NotificationId}
    {rest : List OutboxEvent} (h : ∀ e ∈ rest, st.db.HasRow e) :
    (Pass.nextRow queued rest).Sound dir st := by
  cases rest with
  | nil => trivial
  | cons e rest => exact ⟨h e (by simp), fun e' he' => h e' (by simp [he']), [], by simp, by simp⟩

theorem Pass.begin_sound {dir : Directory} {st : RelayStore} {limit : Nat} :
    (Pass.begin (st.db.backlog limit)).Sound dir st := by
  have hrows : ∀ e ∈ st.db.backlog limit, st.db.HasRow e := by
    intro e he
    obtain ⟨r, hr, hev, -⟩ := RelayDb.backlog_hasRow he
    exact ⟨r, hr, hev⟩
  cases hb : st.db.backlog limit with
  | nil => trivial
  | cons e rest =>
      rw [hb] at hrows
      exact Pass.nextRow_sound hrows

/-! ## One move -/

section Step

variable {dir : Directory} {now : Instant} {st st' : RelayStore} {p p' : Pass}

theorem PassMove.grows (h : PassMove dir now st p st' p') : st.Grows st' := by
  cases h with
  | skip | found | enqueued | finished =>
      exact ⟨fun r hr => ⟨r, hr, rfl⟩, fun n hn => ⟨n, hn, rfl, rfl⟩⟩
  | created _ _ ht =>
      refine ⟨fun r hr => ⟨r, hr, rfl⟩, fun n hn => ⟨n, ?_, rfl, rfl⟩⟩
      rw [ht]
      exact List.mem_append_left _ hn
  | @marked _ _ _ r t _ ht =>
      refine ⟨fun x hx => ?_, fun n hn => ⟨n, hn, rfl, rfl⟩⟩
      by_cases hxr : x = r
      · subst hxr
        exact ⟨_, ht.self, rfl⟩
      · exact ⟨x, ht.other hx hxr, rfl⟩

/-- No statement of a pass adds an outbox row. -/
theorem PassMove.outbox_back (h : PassMove dir now st p st' p') :
    ∀ r' ∈ st'.db.outbox.rows, ∃ r ∈ st.db.outbox.rows, r.event = r'.event := by
  intro x hx
  cases h with
  | marked _ ht =>
      rcases ht.cases hx with rfl | ⟨hx, -⟩
      · exact ⟨_, ht.mem, rfl⟩
      · exact ⟨x, hx, rfl⟩
  | _ => exact ⟨x, hx, rfl⟩

/-- A row that is marked has been done in full by the pass that marks it. -/
theorem PassMove.storeSound (h : PassMove dir now st p st' p') (hs : st.Sound dir)
    (hp : p.Sound dir st) : st'.Sound dir := by
  have hgrows := h.grows
  cases h with
  | skip | found | enqueued | finished => exact ⟨hs.origin, hs.complete⟩
  | @created row plan plans _ _ n userId t hres hn ht =>
      constructor
      · intro m hm
        rw [ht, List.mem_append, List.mem_singleton] at hm
        rcases hm with hm | rfl
        · exact hs.origin m hm
        · obtain ⟨⟨r, hr, rfl⟩, -, done, hplans, -⟩ := hp
          refine ⟨r, hr, plan, by rw [hplans]; simp, ?_⟩
          rw [hn]
          exact ⟨rfl, hres, rfl, rfl⟩
      · intro r hr hproc plan' hplan' hreach
        exact hgrows.hasKey (hs.complete r hr hproc plan' hplan' hreach)
  | @marked row _ _ r t hr ht =>
      constructor
      · intro n hn
        obtain ⟨x, hx, plan, hplan, hrec⟩ := hs.origin n hn
        obtain ⟨x', hx', hev⟩ := hgrows.outbox x hx
        exact ⟨x', hx', plan, hev ▸ hplan, hrec⟩
      · intro x hx hproc plan hplan hreach
        rcases ht.cases hx with rfl | ⟨hx, -⟩
        · obtain ⟨⟨r₀, hr₀, rfl⟩, -, done, hplans, hdone⟩ := hp
          have hsame : r₀ = r := Table.eq_of_key hr₀ ht.mem (Table.key_of_find? hr).symm
          subst hsame
          rw [List.append_nil] at hplans
          obtain ⟨n, hn, hkey, -⟩ := hdone plan (hplans ▸ hplan) hreach
          exact ⟨n, hn, hkey⟩
        · exact hs.complete x hx hproc plan hplan hreach

/-- After a statement the pass has done one plan more, or begun the next row. -/
theorem PassMove.passSound (h : PassMove dir now st p st' p') (hp : p.Sound dir st) :
    p'.Sound dir st' := by
  have hmono := hp.mono h.grows
  cases h with
  | @skip _ plan _ _ _ hres =>
      obtain ⟨hrow, hrest, done, hplans, hdone⟩ := hmono
      refine ⟨hrow, hrest, done ++ [plan], by rw [hplans]; simp, fun q hq hreach => ?_⟩
      rcases List.mem_append.1 hq with hq | hq
      · exact hdone q hq hreach
      · rw [List.mem_singleton.1 hq] at hreach
        exact absurd hres hreach
  | @found _ plan _ _ _ n hres hkey hn =>
      obtain ⟨hrow, hrest, done, hplans, hdone⟩ := hmono
      refine ⟨hrow, hrest, done ++ [plan], by rw [hplans]; simp, fun q hq hreach => ?_⟩
      rcases List.mem_append.1 hq with hq | hq
      · obtain ⟨m, hm, hmkey, hmid⟩ := hdone q hq hreach
        exact ⟨m, hm, hmkey, List.mem_append_left _ hmid⟩
      · rw [List.mem_singleton.1 hq]
        exact ⟨n, hn, hkey, by simp⟩
  | @created _ plan _ _ _ n userId t hres hn ht =>
      obtain ⟨hrow, hrest, done, hplans, hdone⟩ := hmono
      refine ⟨hrow, hrest, done ++ [plan], by rw [hplans]; simp, fun q hq hreach => ?_⟩
      rcases List.mem_append.1 hq with hq | hq
      · obtain ⟨m, hm, hmkey, hmid⟩ := hdone q hq hreach
        exact ⟨m, hm, hmkey, List.mem_append_left _ hmid⟩
      · rw [List.mem_singleton.1 hq]
        have hmem : n ∈ t.rows := by
          rw [ht]
          simp
        exact ⟨n, hmem, by rw [hn]; rfl, by simp⟩
  | marked _ _ => exact Pass.nextRow_sound hmono.2.1
  | enqueued | finished => trivial

/-- A send job rewrites no more than the status of its notification. -/
theorem RelayStore.send_keeps {id : NotificationId} {outcome : SendOutcome}
    (h : st.send id outcome = some st') :
    st.Grows st' ∧ ∀ n ∈ st'.db.notifications.rows, ∃ m ∈ st.db.notifications.rows,
      n.id = m.id ∧ n.dedupeKey = m.dedupeKey ∧ n.userId = m.userId ∧
        n.templateKey = m.templateKey ∧ n.payload = m.payload := by
  obtain ⟨hout, -, -, ⟨hsame, -⟩ | ⟨n, -, hrw⟩⟩ := RelayStore.send_spec h
  · refine ⟨⟨fun r hr => ⟨r, by rw [hout]; exact hr, rfl⟩,
      fun n hn => ⟨n, by rw [hsame]; exact hn, rfl, rfl⟩⟩, fun n hn => ?_⟩
    rw [hsame] at hn
    exact ⟨n, hn, rfl, rfl, rfl, rfl, rfl⟩
  · obtain ⟨hid, hkey, huser, htemplate, hpayload, -⟩ := n.settled_same outcome
    refine ⟨⟨fun r hr => ⟨r, by rw [hout]; exact hr, rfl⟩, fun m hm => ?_⟩, fun m hm => ?_⟩
    · by_cases hmn : m = n
      · subst hmn
        exact ⟨_, hrw.self, hid, hkey⟩
      · exact ⟨m, hrw.other hm hmn, rfl, rfl⟩
    · rcases hrw.cases hm with rfl | ⟨hm, -⟩
      · exact ⟨n, hrw.mem, hid, hkey, huser, htemplate, hpayload⟩
      · exact ⟨m, hm, rfl, rfl, rfl, rfl, rfl⟩

theorem RelayStore.send_sound {id : NotificationId} {outcome : SendOutcome}
    (h : st.send id outcome = some st') (hs : st.Sound dir) : st'.Sound dir := by
  obtain ⟨hgrows, hback⟩ := RelayStore.send_keeps h
  have hout := (RelayStore.send_spec h).1
  constructor
  · intro n hn
    obtain ⟨m, hm, -, hkey, huser, htemplate, hpayload⟩ := hback n hn
    obtain ⟨r, hr, plan, hplan, hrec⟩ := hs.origin m hm
    refine ⟨r, by rw [hout]; exact hr, plan, hplan, hkey.trans hrec.dedupeKey, ?_,
      htemplate.trans hrec.templateKey, hpayload.trans hrec.payload⟩
    rw [hrec.recipient, huser]
  · intro r hr hproc plan hplan hreach
    rw [hout] at hr
    exact hgrows.hasKey (hs.complete r hr hproc plan hplan hreach)

/-- A new outbox row is unprocessed, and disturbs nothing. -/
theorem RelayStore.emit_sound {t : Table OutboxRow} {r : OutboxRow}
    (ht : t.rows = st.db.outbox.rows ++ [r]) (hr : r.processedAt = none) (hs : st.Sound dir) :
    ({ st with db := { st.db with outbox := t } } : RelayStore).Sound dir ∧
      st.Grows { st with db := { st.db with outbox := t } } := by
  have hold : ∀ x ∈ st.db.outbox.rows, x ∈ t.rows := by
    intro x hx
    rw [ht]
    exact List.mem_append_left _ hx
  refine ⟨⟨fun n hn => ?_, fun x hx hproc => ?_⟩,
    ⟨fun x hx => ⟨x, hold x hx, rfl⟩, fun n hn => ⟨n, hn, rfl, rfl⟩⟩⟩
  · obtain ⟨x, hx, plan, hplan, hrec⟩ := hs.origin n hn
    exact ⟨x, hold x hx, plan, hplan, hrec⟩
  · change x ∈ t.rows at hx
    rw [ht, List.mem_append, List.mem_singleton] at hx
    rcases hx with hx | rfl
    · exact hs.complete x hx hproc
    · exact absurd hr hproc

end Step

/-! ## Runs -/

/-- The stores are sound, and so is every pass over them. -/
abbrev RelayWorld.Sound (dir : Directory) (w : RelayWorld) : Prop :=
  w.Holds (RelayStore.Sound dir) (Pass.Sound dir) fun _ _ => True

section Runs

variable {dir : Directory} {w w' : RelayWorld} {m : RelayMove}

/-- A change of the stores that no pass made. -/
theorem RelayWorld.Sound.stores {st : RelayStore} (h : w.Sound dir) (hs : st.Sound dir)
    (hg : w.shared.Grows st) : RelayWorld.Sound dir { w with shared := st } :=
  ⟨hs, fun i => (h.own i).mono hg, h.apart⟩

theorem RelayWorld.Sound.step (h : w.Sound dir) (hstep : RelayWorld.Step dir w m w') :
    w'.Sound dir := by
  cases m with
  | emit event createdAt =>
      simp only [RelayWorld.Step, RelayWorld.exec, Option.map_eq_some_iff] at hstep
      obtain ⟨t, ht, rfl⟩ := hstep
      have hrows := Table.insert_eq_ok.1 (except_toOption_eq_some.1 ht)
      obtain ⟨hs, hg⟩ := RelayStore.emit_sound hrows rfl h.shared
      exact h.stores hs hg
  | start i limit =>
      simp only [RelayWorld.Step, RelayWorld.exec] at hstep
      split at hstep
      · obtain rfl := Option.some.inj hstep
        exact h.set_own Pass.begin_sound
      · cases hstep
  | next i now =>
      simp only [RelayWorld.Step, RelayWorld.exec, Option.map_eq_some_iff] at hstep
      obtain ⟨⟨st, p⟩, hp, rfl⟩ := hstep
      have hmove := Pass.step_move hp
      exact h.set_alone (hmove.storeSound h.shared (h.own i)) (hmove.passSound (h.own i))
        fun j _ => (h.own j).mono hmove.grows
  | crash i =>
      simp only [RelayWorld.Step, RelayWorld.exec] at hstep
      obtain rfl := Option.some.inj hstep
      exact h.set_own trivial
  | send id outcome =>
      simp only [RelayWorld.Step, RelayWorld.exec, Option.map_eq_some_iff] at hstep
      obtain ⟨st, hsend, rfl⟩ := hstep
      exact h.stores (RelayStore.send_sound hsend h.shared) (RelayStore.send_keeps hsend).1

theorem RelayWorld.Sound.initial : RelayWorld.initial.Sound dir where
  shared := ⟨by simp [RelayWorld.initial], by simp [RelayWorld.initial]⟩
  own _ := trivial
  apart _ _ _ := trivial

theorem RelayWorld.Sound.reach {guard : RelayWorld → RelayMove → Prop}
    (h : Reach RelayWorld.Init (RelayWorld.Step dir) guard w) : w.Sound dir := by
  refine Reach.invariant (I := fun w : RelayWorld => w.Sound dir) ?_ ?_ h
  · rintro _ rfl
    exact .initial
  · intro _ _ _ hI _ hs
    exact hI.step hs

end Runs

/-- An outbox row is emitted with every participation once. -/
def EmitsOnce (_ : RelayWorld) : RelayMove → Prop
  | .emit event _ => event.ListsOnce
  | _ => True

section Exactly

variable {dir : Directory} {w : RelayWorld}

/-- The outbox keeps the events it was given. -/
theorem listsOnce_of_reach (h : Reach RelayWorld.Init (RelayWorld.Step dir) EmitsOnce w) :
    ∀ r ∈ w.outbox, r.event.ListsOnce := by
  refine Reach.invariant (I := fun w : RelayWorld => ∀ r ∈ w.outbox, r.event.ListsOnce) ?_ ?_ h
  · rintro _ rfl
    simp [RelayWorld.initial, RelayWorld.outbox]
  · intro w m w' hI hg hs
    cases m with
    | emit event createdAt =>
        simp only [RelayWorld.Step, RelayWorld.exec, Option.map_eq_some_iff] at hs
        obtain ⟨t, ht, rfl⟩ := hs
        have hrows := Table.insert_eq_ok.1 (except_toOption_eq_some.1 ht)
        intro r hr
        change r ∈ t.rows at hr
        rw [hrows, List.mem_append, List.mem_singleton] at hr
        rcases hr with hr | rfl
        · exact hI r hr
        · exact hg
    | start i limit =>
        simp only [RelayWorld.Step, RelayWorld.exec] at hs
        split at hs
        · obtain rfl := Option.some.inj hs
          exact hI
        · cases hs
    | next i now =>
        simp only [RelayWorld.Step, RelayWorld.exec, Option.map_eq_some_iff] at hs
        obtain ⟨⟨st, p⟩, hp, rfl⟩ := hs
        intro r hr
        have hback := (Pass.step_move hp).outbox_back
        obtain ⟨r₀, hr₀, hev⟩ := hback r hr
        rw [← hev]
        exact hI r₀ hr₀
    | crash i =>
        simp only [RelayWorld.Step, RelayWorld.exec] at hs
        obtain rfl := Option.some.inj hs
        exact hI
    | send id outcome =>
        simp only [RelayWorld.Step, RelayWorld.exec, Option.map_eq_some_iff] at hs
        obtain ⟨st, hsend, rfl⟩ := hs
        intro r hr
        change r ∈ st.db.outbox.rows at hr
        rw [(RelayStore.send_spec hsend).1] at hr
        exact hI r hr

/-- One key is planned by one row, once. -/
theorem plan_unique (hlists : ∀ r ∈ w.outbox, r.event.ListsOnce) {r r' : OutboxRow}
    (hr : r ∈ w.outbox) (hr' : r' ∈ w.outbox) {plan plan' : PlannedNotification}
    (hplan : plan ∈ planNotifications r.event) (hplan' : plan' ∈ planNotifications r'.event)
    (hkey : plan.dedupeKey = plan'.dedupeKey) : r = r' ∧ plan = plan' := by
  have hid : r.event.id = r'.event.id := by
    rw [← planNotifications_namesRow _ _ hplan, hkey, planNotifications_namesRow _ _ hplan']
  have hrow : r = r' := Table.eq_of_key (t := w.shared.db.outbox) hr hr' hid
  subst hrow
  refine ⟨rfl, ?_⟩
  exact (planNotifications_distinct (hlists r hr)).eq_of_key hplan hplan' hkey

/-- A plan that has its key among the notifications has its own notification there. -/
theorem records_of_key (hw : w.Sound dir) (hlists : ∀ r ∈ w.outbox, r.event.ListsOnce)
    {r : OutboxRow} (hr : r ∈ w.outbox) {plan : PlannedNotification}
    (hplan : plan ∈ planNotifications r.event) {n : NotificationRow} (hn : n ∈ w.notifications)
    (hkey : n.dedupeKey = plan.dedupeKey) : n.Records dir plan := by
  obtain ⟨r', hr', plan', hplan', hrec⟩ := hw.shared.origin n hn
  have hsame : plan.dedupeKey = plan'.dedupeKey := hkey.symm.trans hrec.dedupeKey
  have hone := (plan_unique hlists hr hr' hplan hplan' hsame).2
  rw [hone]
  exact hrec

/-- Every processed row has exactly the notifications its plan names, one for each
    recipient that is an account and not a seed identity; and a key belongs to one row
    and one message of it. -/
theorem processed_rows_recorded (h : Reach RelayWorld.Init (RelayWorld.Step dir) EmitsOnce w) :
    (∀ r ∈ w.outbox, r.processedAt ≠ none →
      (∀ plan ∈ planNotifications r.event, plan.Reaches dir →
        ∃! n, n ∈ w.notifications ∧ n.Records dir plan) ∧
      ∀ n ∈ w.notifications, n.dedupeKey.outboxId = r.event.id →
        ∃! plan, plan ∈ planNotifications r.event ∧ n.Records dir plan) ∧
    ∀ r ∈ w.outbox, ∀ r' ∈ w.outbox, ∀ plan ∈ planNotifications r.event,
      ∀ plan' ∈ planNotifications r'.event, plan.dedupeKey = plan'.dedupeKey →
        r = r' ∧ plan = plan' := by
  have hw := RelayWorld.Sound.reach h
  have hlists := listsOnce_of_reach h
  refine ⟨fun r hr hproc => ⟨fun plan hplan hreach => ?_, fun n hn hid => ?_⟩,
    fun r hr r' hr' plan hplan plan' hplan' hkey => plan_unique hlists hr hr' hplan hplan' hkey⟩
  · obtain ⟨n, hn, hkey⟩ := hw.shared.complete r hr hproc plan hplan hreach
    refine ⟨n, ⟨hn, records_of_key hw hlists hr hplan hn hkey⟩, ?_⟩
    rintro m ⟨hm, hrec⟩
    exact notification_of_key (t := w.shared.db.notifications) hm hn
      (hrec.dedupeKey.trans hkey.symm)
  · obtain ⟨r', hr', plan, hplan, hrec⟩ := hw.shared.origin n hn
    have hrow : r'.event.id = r.event.id := by
      rw [← planNotifications_namesRow _ _ hplan, ← hrec.dedupeKey, hid]
    obtain rfl : r' = r := Table.eq_of_key (t := w.shared.db.outbox) hr' hr hrow
    refine ⟨plan, ⟨hplan, hrec⟩, ?_⟩
    rintro plan' ⟨hplan', hrec'⟩
    have hkey : plan'.dedupeKey = plan.dedupeKey := hrec'.dedupeKey.symm.trans hrec.dedupeKey
    exact (plan_unique hlists hr hr hplan' hplan hkey).2

end Exactly

/-! ## A run -/

/-- Two accounts, and a seed identity. -/
def demoDirectory : Directory := fun publicId =>
  if publicId = "host" then some { id := 1, isSeed := false }
  else if publicId = "guest" then some { id := 2, isSeed := false }
  else if publicId = "seeded" then some { id := 3, isSeed := true }
  else none

/-- A request by `guest` to join what `host` hosts. -/
def requestedBy (id : OutboxId) (host guest : String) : OutboxEvent where
  id := id
  eventType := .participation_requested
  aggregateId := "participation"
  payload := [("hostUserPublicId", .text host), ("participantUserPublicId", .text guest)]

/-- Statements of one pass. -/
def nexts (i k : Nat) : List RelayMove := List.replicate k (.next i 0)

/-- Two passes take one row at the same time, and one of them dies half way. -/
def doubleDrainMoves : List RelayMove :=
  [.emit (requestedBy 5 "host" "guest") 0, .start 0 100, .start 1 100] ++ nexts 0 1 ++ nexts 1 2 ++
    [.crash 0] ++ nexts 1 1

instance (w : RelayWorld) (m : RelayMove) : Decidable (EmitsOnce w m) :=
  match m with
  | .emit _ _ => inferInstanceAs (Decidable (_ → _))
  | .start .. | .next .. | .crash _ | .send .. => inferInstanceAs (Decidable True)

/-- Both messages of the row are recorded once. -/
theorem processed_rows_recorded_twice : ∃ w : RelayWorld,
    Reach RelayWorld.Init (RelayWorld.Step demoDirectory) EmitsOnce w ∧
    (w.notifications.map fun n => (n.userId, n.dedupeKey.suffix)) = [(1, "host"), (2, "guest")] ∧
    (w.outbox.map fun r => (r.event.id, r.processedAt)) = [(5, some 0)] ∧
    ∀ r ∈ w.outbox, r.processedAt ≠ none → ∀ plan ∈ planNotifications r.event,
      plan.Reaches demoDirectory →
        ∃! n, n ∈ w.notifications ∧ n.Records demoDirectory plan := by
  have hplay : (runList (RelayWorld.exec demoDirectory) .initial doubleDrainMoves).any (fun w =>
      decide ((w.notifications.map fun n => (n.userId, n.dedupeKey.suffix)) =
        [(1, "host"), (2, "guest")]) &&
      decide ((w.outbox.map fun r => (r.event.id, r.processedAt)) = [(5, some 0)])) = true := by
    decide
  obtain ⟨w, hw, hplay⟩ := (Option.any_eq_true _ _).1 hplay
  simp only [Bool.and_eq_true, decide_eq_true_eq] at hplay
  have hreach : Reach RelayWorld.Init (RelayWorld.Step demoDirectory) EmitsOnce w :=
    reach_of_runList (g := fun w m => decide (EmitsOnce w m)) (fun _ _ _ h => h)
      (fun _ _ h => of_decide_eq_true h) (.start rfl) (by decide) hw
  have hresult := (processed_rows_recorded hreach).1
  exact ⟨w, hreach, hplay.1, hplay.2, fun r hr hproc => (hresult r hr hproc).1⟩

/-- A request to join a seeded event. -/
def seededHostMoves : List RelayMove :=
  [.emit (requestedBy 5 "seeded" "guest") 0, .start 0 100] ++ nexts 0 3

/-- The plan names a seed identity, and the row is processed without a message to it. -/
theorem seed_recipient_skipped :
    ¬ ∀ dir w, Reach RelayWorld.Init (RelayWorld.Step dir) EmitsOnce w →
      ∀ r ∈ w.outbox, r.processedAt ≠ none → ∀ plan ∈ planNotifications r.event,
        ∃ n ∈ w.notifications, n.dedupeKey = plan.dedupeKey := by
  intro h
  have hplay : (runList (RelayWorld.exec demoDirectory) .initial seededHostMoves).any (fun w =>
      decide (∃ r ∈ w.outbox, r.processedAt ≠ none ∧ ∃ plan ∈ planNotifications r.event,
        ∀ n ∈ w.notifications, n.dedupeKey ≠ plan.dedupeKey)) = true := by
    decide
  obtain ⟨w, hw, hplay⟩ := (Option.any_eq_true _ _).1 hplay
  obtain ⟨r, hr, hproc, plan, hplan, hnone⟩ := of_decide_eq_true hplay
  have hreach : Reach RelayWorld.Init (RelayWorld.Step demoDirectory) EmitsOnce w :=
    reach_of_runList (g := fun w m => decide (EmitsOnce w m)) (fun _ _ _ h => h)
      (fun _ _ h => of_decide_eq_true h) (.start rfl) (by decide) hw
  obtain ⟨n, hn, hkey⟩ := h _ w hreach r hr hproc plan hplan
  exact hnone n hn hkey

end Paayatam
