/-
  Paayatam.Booking.EventQuota

  The two quotas of a host while several events are being created.

  A creation counts the host's events of the day, counts the active ones,
  compares, and inserts, in four statements that lock nothing.  It is a worker
  here, with a step for each statement.  All calls of a run see the same
  limits and the same calendar.
-/

import Paayatam.Booking.EventCreation
import Paayatam.Lib.Threads
import Mathlib.Data.Int.ConditionallyCompleteOrder

namespace Paayatam

open Lib

/-! ## The counts -/

/-- `readQuota`, `createdToday`: the host's own events since the start of the day. -/
def createdToday (db : Db) (host : UserId) (since : Instant) : Nat :=
  db.events.rows.countP fun e =>
    decide (e.hostUserId = host) && !e.isSeeded && decide (since ≤ e.createdAt)

/-- `readQuota`, `activeCount`: the host's own events that are still to come. -/
def activeCount (db : Db) (host : UserId) (now : Instant) : Nat :=
  db.events.rows.countP fun e =>
    decide (e.hostUserId = host) && !e.isSeeded && e.deletedAt.isNone &&
      ACTIVE_EVENT_STATUSES.contains e.status && decide (now < e.startsAt)

/-- The limits and the calendar a run goes by. -/
structure Quota where
  maxPerDay : Nat
  maxConcurrentActive : Nat
  startOfDay : Instant → Instant
  startOfDay_mono : Monotone startOfDay

/-- The call sees the limits and the calendar of the run. -/
structure Quota.Seen (q : Quota) (env : Env) : Prop where
  maxPerDay : env.settings.events_max_per_day = q.maxPerDay
  maxConcurrentActive : env.settings.events_max_concurrent_active = q.maxConcurrentActive
  startOfDay : env.startOfDay = q.startOfDay

theorem runs_assertWithinQuota {env : Env} {host : UserId} {s s' : Db} :
    Runs (assertWithinQuota env host) s () s' ↔
      (createdToday s host (env.startOfDay env.now) < env.settings.events_max_per_day ∧
        activeCount s host env.now < env.settings.events_max_concurrent_active) ∧ s' = s := by
  simp only [assertWithinQuota, runs_countRows_bind, runs_guardTx_bind, runs_guardTx, table_events,
    createdToday, activeCount, and_assoc]

/-- As time goes by, fewer of the events there are count. -/
theorem createdToday_anti (db : Db) (host : UserId) {since since' : Instant} (h : since ≤ since') :
    createdToday db host since' ≤ createdToday db host since := by
  refine List.countP_mono_left fun e _ he => ?_
  simp only [Bool.and_eq_true, decide_eq_true_eq] at he ⊢
  exact ⟨he.1, le_trans h he.2⟩

theorem activeCount_anti (db : Db) (host : UserId) {now now' : Instant} (h : now ≤ now') :
    activeCount db host now' ≤ activeCount db host now := by
  refine List.countP_mono_left fun e _ he => ?_
  simp only [Bool.and_eq_true, decide_eq_true_eq] at he ⊢
  exact ⟨he.1, lt_of_le_of_lt h he.2⟩

/-! ## The system -/

/-- How far a creation has come. -/
inductive CreatePhase where
  | begun
  | counted (createdToday : Nat)
  | cleared
  deriving DecidableEq

/-- A creation in progress. -/
structure CreateWork (q : Quota) where
  env : Env
  seen : q.Seen env
  host : UserId
  input : CreateEventInput
  seeded : Bool
  newId : EventId
  phase : CreatePhase

/-- The world, and the creation each worker has in progress. -/
abbrev QuotaWorld (q : Quota) := Threads Nat World (Option (CreateWork q))

inductive QuotaMove (q : Quota) where
  /-- Worker `i` starts a creation: the checks before the transaction. -/
  | start (i : Nat) (env : Env) (seen : q.Seen env) (host : UserId) (input : CreateEventInput)
      (seeded : Bool) (newId : EventId)
  | countToday (i : Nat)
  /-- Worker `i` counts the active events, and is let through or refused. -/
  | countActive (i : Nat)
  /-- Worker `i` does the rest of its creation, and commits or fails. -/
  | insert (i : Nat)

/-- The checks of `create` that come before its transaction. -/
def createChecks (env : Env) (host : UserId) (input : CreateEventInput) : Act Unit := do
  fromExcept (assertScheduleSane input.startsAt input.endsAt env.now)
  assertHostCanAuthor env host
  assertAllowed env host .EVENT_CREATE

variable {q : Quota}

namespace CreateWork

/-- The first count of the worker. -/
def countsToday (f : CreateWork q) (db : Db) : Nat :=
  createdToday db f.host (f.env.startOfDay f.env.now)

/-- What is left of the transaction after the quota. -/
def finish (f : CreateWork q) : Act Unit :=
  drop (finishCreate f.env f.host f.input f.seeded f.newId)

/-- The quota does not apply to it, or has let it through. -/
def admitted (f : CreateWork q) : Bool := f.seeded || decide (f.phase = .cleared)

end CreateWork

namespace QuotaWorld

def exec (w : QuotaWorld q) : QuotaMove q → Option (QuotaWorld q)
  | .start i env seen host input seeded newId =>
    match w.locals i with
    | none =>
      if w.shared.clock ≤ env.now ∧ commits (createChecks env host input) w.shared.db = true then
        some (w.set i { w.shared with clock := env.now }
          (some ⟨env, seen, host, input, seeded, newId, .begun⟩))
      else none
    | some _ => none
  | .countToday i =>
    match w.locals i with
    | some f =>
      if f.phase = .begun then
        some (w.set i w.shared (some { f with phase := .counted (f.countsToday w.shared.db) }))
      else none
    | none => none
  | .countActive i =>
    match w.locals i with
    | some f =>
      match f.phase with
      | .counted n =>
        if n < f.env.settings.events_max_per_day ∧
            activeCount w.shared.db f.host f.env.now <
              f.env.settings.events_max_concurrent_active then
          some (w.set i w.shared (some { f with phase := .cleared }))
        else some (w.set i w.shared none)
      | _ => none
    | none => none
  | .insert i =>
    match w.locals i with
    | some f =>
      if f.admitted = true then
        some (w.set i { w.shared with db := commit f.finish w.shared.db } none)
      else none
    | none => none

def Step (w : QuotaWorld q) (m : QuotaMove q) (w' : QuotaWorld q) : Prop := w.exec m = some w'

/-- No event yet, and nothing in progress. -/
def Init (w : QuotaWorld q) : Prop := w.shared.db.events.rows = [] ∧ ∀ i, w.locals i = none

end QuotaWorld

/-- One creation after another does what `create` does. -/
theorem create_in_turn {env : Env} {host : UserId} {input : CreateEventInput} {seeded : Bool}
    {e r : EventId} {s s' : Db} : Runs (create env host input seeded e) s r s' ↔
      Runs (createChecks env host input) s () s ∧
      (seeded = false → createdToday s host (env.startOfDay env.now) <
          env.settings.events_max_per_day ∧
        activeCount s host env.now < env.settings.events_max_concurrent_active) ∧
      Runs (finishCreate env host input seeded e) s r s' := by
  have hchecks : ∀ s₁ : Db, Runs (createChecks env host input) s () s₁ → s₁ = s := by
    intro s₁ h
    simp only [createChecks, runs_fromExcept_bind, runs_bind (m := assertHostCanAuthor _ _),
      assertAllowed, runs_guardTx] at h
    obtain ⟨_, -, _, s₂, hauthor, -, rfl⟩ := h
    exact assertHostCanAuthor_state hauthor
  have hsplit : create env host input seeded e = (do
      createChecks env host input
      whenTx (seeded = false) (assertWithinQuota env host)
      finishCreate env host input seeded e) := by
    rw [create_eq, createChecks]
    simp only [bind_assoc]
  rw [hsplit]
  simp only [runs_bind (m := createChecks _ _ _), runs_bind (m := whenTx _ _)]
  constructor
  · rintro ⟨_, s₁, hcheck, _, s₂, hquota, hrest⟩
    obtain rfl := hchecks s₁ hcheck
    rcases runs_whenTx.1 hquota with ⟨-, hq⟩ | ⟨hseeded, rfl⟩
    · obtain ⟨hlimits, rfl⟩ := runs_assertWithinQuota.1 hq
      exact ⟨hcheck, fun _ => hlimits, hrest⟩
    · exact ⟨hcheck, fun h => absurd h hseeded, hrest⟩
  · rintro ⟨hcheck, hlimits, hrest⟩
    refine ⟨(), s, hcheck, (), s, ?_, hrest⟩
    rw [runs_whenTx]
    by_cases hseeded : seeded = false
    · exact .inl ⟨hseeded, runs_assertWithinQuota.2 ⟨hlimits hseeded, rfl⟩⟩
    · exact .inr ⟨hseeded, rfl⟩

/-! ## Runs -/

/-- Where a creation inserts, its quota would still let it through. -/
def StillWithin (w : QuotaWorld q) : QuotaMove q → Prop
  | .insert i => ∀ f ∈ w.locals i, f.seeded = false →
      f.countsToday w.shared.db < f.env.settings.events_max_per_day ∧
      activeCount w.shared.db f.host f.env.now < f.env.settings.events_max_concurrent_active
  | _ => True

instance (w : QuotaWorld q) : (m : QuotaMove q) → Decidable (StillWithin w m)
  | .insert i => inferInstanceAs (Decidable (∀ f ∈ w.locals i, _))
  | .start .. => isTrue trivial
  | .countToday _ => isTrue trivial
  | .countActive _ => isTrue trivial

/-- Every host is within both limits, as of the clock. -/
structure WithinQuota (q : Quota) (s : World) : Prop where
  perDay : ∀ host, createdToday s.db host (q.startOfDay s.clock) ≤ q.maxPerDay
  active : ∀ host, activeCount s.db host s.clock ≤ q.maxConcurrentActive

/-- Nobody is ahead of the clock. -/
def NotAhead (s : World) : Option (CreateWork q) → Prop
  | none => True
  | some f => f.env.now ≤ s.clock

theorem WithinQuota.later {s : World} (h : WithinQuota q s) {clock : Instant}
    (hle : s.clock ≤ clock) : WithinQuota q { s with clock := clock } where
  perDay host := (createdToday_anti s.db host (q.startOfDay_mono hle)).trans (h.perDay host)
  active host := (activeCount_anti s.db host hle).trans (h.active host)

/-- A creation adds one to its host's counts, and only if it is not a seed. -/
theorem createdToday_insert {db db' : Db} {ev : EventRow}
    (hrows : db'.events.rows = db.events.rows ++ [ev]) (host : UserId) (since : Instant) :
    createdToday db' host since ≤ createdToday db host since +
      if ev.hostUserId = host ∧ ev.isSeeded = false then 1 else 0 := by
  unfold createdToday
  rw [hrows, List.countP_append, List.countP_singleton]
  by_cases hown : ev.hostUserId = host ∧ ev.isSeeded = false
  · rw [if_pos hown]
    split <;> omega
  · rw [if_neg hown, if_neg]
    simp only [Bool.and_eq_true, decide_eq_true_eq, Bool.not_eq_true']
    exact fun h => hown h.1

theorem activeCount_insert {db db' : Db} {ev : EventRow}
    (hrows : db'.events.rows = db.events.rows ++ [ev]) (host : UserId) (now : Instant) :
    activeCount db' host now ≤ activeCount db host now +
      if ev.hostUserId = host ∧ ev.isSeeded = false then 1 else 0 := by
  unfold activeCount
  rw [hrows, List.countP_append, List.countP_singleton]
  by_cases hown : ev.hostUserId = host ∧ ev.isSeeded = false
  · rw [if_pos hown]
    split <;> omega
  · rw [if_neg hown, if_neg]
    simp only [Bool.and_eq_true, decide_eq_true_eq, Bool.not_eq_true']
    exact fun h => hown h.1.1.1

/-- The insert of a creation whose quota would still let it through. -/
theorem WithinQuota.insert {s : World} {db' : Db} {f : CreateWork q} (h : WithinQuota q s)
    (hahead : f.env.now ≤ s.clock) (hroom : f.seeded = false →
      f.countsToday s.db < f.env.settings.events_max_per_day ∧
      activeCount s.db f.host f.env.now < f.env.settings.events_max_concurrent_active)
    {ev : EventRow} (hhost : ev.hostUserId = f.host) (hseeded : ev.isSeeded = f.seeded)
    (hrows : db'.events.rows = s.db.events.rows ++ [ev]) :
    WithinQuota q { s with db := db' } where
  perDay host := by
    have hadds := createdToday_insert hrows host (q.startOfDay s.clock)
    have hbound := h.perDay host
    by_cases hown : ev.hostUserId = host ∧ ev.isSeeded = false
    · rw [if_pos hown] at hadds
      obtain ⟨hday, -⟩ := hroom (hseeded ▸ hown.2)
      -- the day of the call began no later than the day of the clock
      have hwindow := createdToday_anti s.db host (q.startOfDay_mono hahead)
      rw [CreateWork.countsToday, f.seen.maxPerDay, f.seen.startOfDay, ← hhost, hown.1] at hday
      exact hadds.trans (by omega)
    · rw [if_neg hown] at hadds
      exact hadds.trans (by omega)
  active host := by
    have hadds := activeCount_insert hrows host s.clock
    have hbound := h.active host
    by_cases hown : ev.hostUserId = host ∧ ev.isSeeded = false
    · rw [if_pos hown] at hadds
      obtain ⟨-, hactive⟩ := hroom (hseeded ▸ hown.2)
      have hwindow := activeCount_anti s.db host hahead
      rw [f.seen.maxConcurrentActive, ← hhost, hown.1] at hactive
      exact hadds.trans (by omega)
    · rw [if_neg hown] at hadds
      exact hadds.trans (by omega)

/-- Within the limits, with nobody ahead of the clock. -/
abbrev QuotaKept (q : Quota) : QuotaWorld q → Prop :=
  Threads.Holds (WithinQuota q) NotAhead fun _ _ => True

theorem QuotaKept.step {w w' : QuotaWorld q} {m : QuotaMove q} (h : QuotaKept q w)
    (hg : StillWithin w m) (hs : w.Step m w') : QuotaKept q w' := by
  cases m with
  | start i env seen host input seeded newId =>
      simp only [QuotaWorld.Step, QuotaWorld.exec] at hs
      split at hs
      · split at hs
        · next hok =>
            rw [← Option.some.inj hs]
            refine h.set_alone (h.shared.later hok.1) le_rfl fun j hj => ?_
            have hold := h.own j
            cases hl : w.locals j with
            | none => trivial
            | some f =>
                rw [hl] at hold
                exact le_trans hold hok.1
        · cases hs
      · cases hs
  | countToday i =>
      simp only [QuotaWorld.Step, QuotaWorld.exec] at hs
      split at hs
      · next f hf =>
          split at hs
          · rw [← Option.some.inj hs]
            have hown := h.own i
            rw [hf] at hown
            exact h.set_own hown
          · cases hs
      · cases hs
  | countActive i =>
      simp only [QuotaWorld.Step, QuotaWorld.exec] at hs
      split at hs
      · next f hf =>
          have hown := h.own i
          rw [hf] at hown
          split at hs
          · split at hs
            · rw [← Option.some.inj hs]
              exact h.set_own hown
            · rw [← Option.some.inj hs]
              exact h.set_own trivial
          · cases hs
      · cases hs
  | insert i =>
      simp only [QuotaWorld.Step, QuotaWorld.exec] at hs
      split at hs
      · next f hf =>
          split at hs
          · rw [← Option.some.inj hs]
            have hown := h.own i
            rw [hf] at hown
            have hinv : WithinQuota q { w.shared with db := commit f.finish w.shared.db } := by
              rcases commit_cases f.finish w.shared.db with ⟨u, hrun⟩ | hsame
              · obtain ⟨r, hcreate⟩ := runs_drop.1 hrun
                obtain ⟨ev, content, hev, hrows⟩ := finishCreate_spec hcreate
                exact h.shared.insert hown (hg f hf) hev.hostUserId hev.isSeeded hrows
              · rw [hsame]
                exact h.shared
            exact h.set_alone hinv trivial fun j _ => h.own j
          · cases hs
      · cases hs

/-- In every state reached by creations none of which inserts where its quota would no
    longer let it through, every host is within both limits. -/
theorem quota_holds {w : QuotaWorld q}
    (h : Reach QuotaWorld.Init QuotaWorld.Step StillWithin w) : WithinQuota q w.shared := by
  have hcounted : QuotaKept q w := by
    refine Reach.invariant (I := QuotaKept q) (fun s hinit => ?_)
      (fun _ _ _ hI hg hs => hI.step hg hs) h
    refine ⟨⟨fun host => ?_, fun host => ?_⟩, fun i => ?_, fun _ _ _ => trivial⟩
    · simp [createdToday, hinit.1]
    · simp [activeCount, hinit.1]
    · rw [hinit.2 i]
      trivial
  exact hcounted.shared

/-! ## Two evenings at once -/

/-- Days of twenty-four hours from the epoch. -/
theorem monotone_startOfDay : Monotone fun t : Instant => t - t % (24 * msPerHour) := by
  intro t t' hle
  have hle' : (t : Int) ≤ t' := hle
  have hday : ∀ x : Int, x - x % (24 * msPerHour) = 24 * msPerHour * (x / (24 * msPerHour)) := by
    intro x
    have hdiv := Int.emod_add_mul_ediv x (24 * msPerHour)
    omega
  have hquot : (t : Int) / (24 * msPerHour) ≤ t' / (24 * msPerHour) :=
    Int.ediv_le_ediv (by decide) hle'
  change (t : Int) - t % (24 * msPerHour) ≤ t' - t' % (24 * msPerHour)
  rw [hday, hday]
  exact Int.mul_le_mul_of_nonneg_left hquot (by decide)

/-- Five a day, `active` at once. -/
def demoQuota (active : Nat) : Quota where
  maxPerDay := 5
  maxConcurrentActive := active
  startOfDay t := t - t % (24 * msPerHour)
  startOfDay_mono := monotone_startOfDay

def quotaEnv (active : Nat) (hours : Int) : Env :=
  { demoEnv hours with
    settings := { Settings.defaults with events_max_concurrent_active := active } }

theorem quotaEnv_seen (active : Nat) (hours : Int) : (demoQuota active).Seen (quotaEnv active hours) :=
  ⟨rfl, rfl, rfl⟩

/-- A host with coins to spend, and nothing in progress. -/
def QuotaWorld.initial : QuotaWorld q where
  shared := { World.initial 0 with db := fundedHost }
  locals _ := none

theorem QuotaWorld.init_initial : (QuotaWorld.initial : QuotaWorld q).Init :=
  ⟨fundedHost_events, fun _ => rfl⟩

/-- A double tap: two creations of one host, step by step. -/
def doubleTap (active : Nat) : List (QuotaMove (demoQuota active)) :=
  [.start 0 (quotaEnv active 1) (quotaEnv_seen active 1) 1 (demoEvent 100 2) false 7,
   .start 1 (quotaEnv active 1) (quotaEnv_seen active 1) 1 (demoEvent 101 2) false 8,
   .countToday 0, .countToday 1, .countActive 0, .countActive 1, .insert 0, .insert 1]

/-- With room for three, both evenings fit. -/
theorem quota_holds_double_tap : ∃ w : QuotaWorld (demoQuota 3),
    WithinQuota (demoQuota 3) w.shared ∧ activeCount w.shared.db 1 w.shared.clock = 2 := by
  have hplay : (runList QuotaWorld.exec QuotaWorld.initial (doubleTap 3)).any
      (fun w => decide (activeCount w.shared.db 1 w.shared.clock = 2)) = true := by decide
  obtain ⟨w, hw, hcount⟩ := (Option.any_eq_true _ _).1 hplay
  have hreach := reach_of_runList (G := StillWithin) (g := fun w m => decide (StillWithin w m))
    (fun _ _ _ h => h) (fun _ _ h => of_decide_eq_true h) (.start QuotaWorld.init_initial)
    (by decide) hw
  exact ⟨w, quota_holds hreach, of_decide_eq_true hcount⟩

/-- With room for one, both are let through, and the host has two. -/
theorem quota_exceeded : ∃ w : QuotaWorld (demoQuota 1),
    Reachable QuotaWorld.Init QuotaWorld.Step w ∧
    (demoQuota 1).maxConcurrentActive < activeCount w.shared.db 1 w.shared.clock := by
  have hplay : (runList QuotaWorld.exec QuotaWorld.initial (doubleTap 1)).any
      (fun w => decide ((demoQuota 1).maxConcurrentActive <
        activeCount w.shared.db 1 w.shared.clock)) = true := by decide
  obtain ⟨w, hw, hcount⟩ := (Option.any_eq_true _ _).1 hplay
  exact ⟨w, reachable_of_runList (fun _ _ _ h => h) (.start QuotaWorld.init_initial) hw,
    of_decide_eq_true hcount⟩

end Paayatam
