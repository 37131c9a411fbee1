/-
  Paayatam.Booking.Reminders

  The messages before and after an evening: two reminders to every guest, one
  to the host, and the question who came.

  A sweep lists what is due and then takes its entries one by one.  Each entry
  is claimed by writing a column that has to be NULL, in the transaction that
  emits the message.  The scans and the listings are steps of their own, and
  anything may happen between them and a claim, in other sweeps as well.
-/

import Paayatam.Booking.Frame
import Paayatam.Lib.Threads

namespace Paayatam

open Lib

/-! ## Messages and their columns -/

inductive ReminderWave where
  | FIRST | SECOND
  deriving DecidableEq

/-- The settings a reminder sweep reads, in hours. -/
structure ReminderSettings where
  reminder_first_hours_before : Nat
  reminder_second_hours_before : Nat
  participation_settlement_delay_hours : Nat

def reminderWaveFor (startsAt now : Instant) (secondWindowMs : Int) : ReminderWave :=
  if startsAt - now ≤ secondWindowMs then .SECOND else .FIRST

/-- The columns a sweep claims. -/
inductive ClaimColumn where
  | remindedFirstAt (p : ParticipantId)
  | remindedSecondAt (p : ParticipantId)
  | hostRemindedAt (e : EventId)
  | attendancePromptedAt (e : EventId)
  deriving DecidableEq

def ReminderWave.column (p : ParticipantId) : ReminderWave → ClaimColumn
  | .FIRST => .remindedFirstAt p
  | .SECOND => .remindedSecondAt p

/-- What a sweep emits. -/
inductive SweepMessage where
  | reminder_guest (eventId : EventId) (eventTitle : String) (startsAt : Instant)
      (wave : ReminderWave) (participantUserId : UserId) (participantId : ParticipantId)
  | reminder_host (eventId : EventId) (eventTitle : String) (startsAt : Instant)
      (acceptedCount : Int) (hostUserId : UserId)
  | attendance_prompt (eventId : EventId) (eventTitle : String) (hostUserId : UserId)
      (acceptedCount : Int) (settlesAt : Instant)
  deriving DecidableEq

/-- The column that was claimed for a message. -/
def SweepMessage.column : SweepMessage → ClaimColumn
  | .reminder_guest _ _ _ wave _ p => wave.column p
  | .reminder_host e _ _ _ _ => .hostRemindedAt e
  | .attendance_prompt e _ _ _ _ => .attendancePromptedAt e

/-- The participation a guest is reminded of. -/
def SweepMessage.guest : SweepMessage → Option ParticipantId
  | .reminder_guest _ _ _ _ _ p => some p
  | _ => none

/-! ## Claiming -/

/-- The world, the columns, and what the sweeps have emitted. -/
structure SweepShared where
  world : World
  claims : ClaimColumn → Option Instant
  emitted : List SweepMessage

namespace SweepShared

def db (s : SweepShared) : Db := s.world.db

/-- The store once time has come to `now`. -/
def tick (s : SweepShared) (now : Instant) : SweepShared :=
  { s with world := { s.world with clock := now } }

/-- The store with a column written. -/
def stamp (s : SweepShared) (column : ClaimColumn) (now : Instant) : SweepShared :=
  { s with claims := Function.update s.claims column (some now) }

def post (s : SweepShared) (m : SweepMessage) : SweepShared :=
  { s with emitted := s.emitted ++ [m] }

end SweepShared

/-- A transaction of a sweep. -/
abbrev SweepAct := Tx SweepShared AppError

/-- `updateMany` where the column is NULL, and the message when it counted a row. -/
def claimOnce (column : ClaimColumn) (now : Instant) (message : Option SweepMessage) :
    SweepAct Bool := do
  let s ← get
  if (s.claims column).isSome then return false
  else do
    modify (·.stamp column now)
    let m ← orThrow (.db .recordNotFound) message
    modify (·.post m)
    return true

/-- The message of one guest, with what it reads of the event. -/
def guestReminder (db : Db) (wave : ReminderWave) (participant : ParticipantRow) :
    Option SweepMessage :=
  (db.events.find? participant.eventId).map fun event =>
    .reminder_guest event.id event.title event.startsAt wave participant.userId participant.id

def remindOneGuest (participantId : ParticipantId) (wave : ReminderWave) (now : Instant) :
    SweepAct Bool := do
  let s ← get
  match s.db.participants.find? participantId with
  | none => return false
  | some participant => claimOnce (wave.column participantId) now (guestReminder s.db wave participant)

def remindHost (eventId : EventId) (now : Instant) : SweepAct Bool := do
  let s ← get
  match s.db.events.find? eventId with
  | none => return false
  | some event =>
    claimOnce (.hostRemindedAt eventId) now (some
      (.reminder_host event.id event.title event.startsAt event.acceptedCount event.hostUserId))

def promptOne (eventId : EventId) (delayMs : Int) (now : Instant) : SweepAct Bool := do
  let s ← get
  match s.db.events.find? eventId with
  | none => return false
  | some event =>
    claimOnce (.attendancePromptedAt eventId) now (some
      (.attendance_prompt event.id event.title event.hostUserId event.acceptedCount
        (event.endsAt + delayMs)))

/-! ## Listing -/

/-- The statuses of an evening whose guests are still reminded. -/
def REMINDED_STATUSES : List EventStatus := [.PUBLISHED, .HIDDEN]

/-- The candidates of one `remindUpcoming` scan. -/
def upcomingCandidates (settings : ReminderSettings) (now : Instant) (limit : Nat) (db : Db) :
    List EventRow :=
  ((db.events.rows.filter fun e =>
    REMINDED_STATUSES.contains e.status && e.deletedAt.isNone && decide (now < e.startsAt) &&
    decide (e.startsAt ≤ now + settings.reminder_first_hours_before * msPerHour)).mergeSort
      fun a b => decide (a.startsAt ≤ b.startsAt)).take limit

/-- The guests `remindGuests` finds due. -/
def dueGuests (s : SweepShared) (eventId : EventId) (wave : ReminderWave) : List ParticipantRow :=
  (s.db.participants.rows.filter fun p =>
    decide (p.eventId = eventId) && decide (p.status = .ACCEPTED) &&
    (s.claims (wave.column p.id)).isNone).mergeSort fun p q => decide (p.id ≤ q.id)

/-- The candidates of one `promptAttendance` scan. -/
def promptCandidates (settings : ReminderSettings) (now : Instant) (limit : Nat)
    (s : SweepShared) : List EventRow :=
  ((s.db.events.rows.filter fun e =>
    [EventStatus.PUBLISHED, .ONGOING, .COMPLETED].contains e.status && e.deletedAt.isNone &&
    (s.claims (.attendancePromptedAt e.id)).isNone && decide (e.startsAt ≤ now) &&
    decide (e.endsAt ≤ now) &&
    decide (now - settings.participation_settlement_delay_hours * msPerHour < e.endsAt) &&
    s.db.participants.rows.any fun p => decide (p.eventId = e.id) && decide (p.status = .ACCEPTED))
      |>.mergeSort fun a b => decide (a.endsAt ≤ b.endsAt)).take limit

/-! ## The sweeps -/

/-- What a sweep has still to do. -/
inductive SweepWork where
  /-- Events to come, none of whose guests has been listed yet. -/
  | events (todo : List EventRow)
  /-- Guests of one event, listed as due for one wave. -/
  | guests (event : EventRow) (wave : ReminderWave) (due : List ParticipantRow)
      (todo : List EventRow)
  /-- Events whose hosts are to be asked. -/
  | prompts (todo : List EventRow)

/-- A sweep in progress, with the time and the settings it started with. -/
structure Sweep where
  now : Instant
  settings : ReminderSettings
  work : SweepWork

namespace Sweep

/-- The transaction of the next statement; a listing writes nothing. -/
def act (f : Sweep) : SweepAct Unit :=
  match f.work with
  | .guests _ wave (p :: _) _ => do
    let _ ← remindOneGuest p.id wave f.now
  | .guests event wave [] _ => whenTx (wave = .FIRST) do
    let _ ← remindHost event.id f.now
  | .prompts (event :: _) => do
    let _ ← promptOne event.id (f.settings.participation_settlement_delay_hours * msPerHour) f.now
  | _ => return ()

/-- What is left after the next statement. -/
def rest (f : Sweep) (s : SweepShared) : Option SweepWork :=
  match f.work with
  | .events (event :: todo) =>
    let wave := reminderWaveFor event.startsAt f.now
      (f.settings.reminder_second_hours_before * msPerHour)
    some (.guests event wave (dueGuests s event.id wave) todo)
  | .guests event wave (_ :: due) todo => some (.guests event wave due todo)
  | .guests _ _ [] todo => some (.events todo)
  | .prompts (_ :: todo) => some (.prompts todo)
  | .events [] | .prompts [] => none

/-- The sweep after its next statement, which ends it when it throws. -/
def next (f : Sweep) (s : SweepShared) : Option Sweep :=
  if commits f.act s = true then (f.rest s).map fun work => { f with work := work } else none

end Sweep

abbrev SweepWorld := Threads Nat SweepShared (Option Sweep)

inductive SweepMove where
  /-- A call of the world, in one piece. -/
  | call (c : Call)
  /-- Worker `i` starts to remind. -/
  | remindUpcoming (i : Nat) (now : Instant) (settings : ReminderSettings) (limit : Nat)
  /-- Worker `i` starts to ask who came. -/
  | promptAttendance (i : Nat) (now : Instant) (settings : ReminderSettings) (limit : Nat)
  /-- Worker `i` makes its next statement. -/
  | next (i : Nat) (now : Instant)
  /-- Worker `i` is gone. -/
  | crash (i : Nat)

namespace SweepWorld

def db (w : SweepWorld) : Db := w.shared.db

def clock (w : SweepWorld) : Instant := w.shared.world.clock

def emitted (w : SweepWorld) : List SweepMessage := w.shared.emitted

def exec (w : SweepWorld) : SweepMove → Option SweepWorld
  | .call c => (w.shared.world.exec c).map fun s => { w with shared := { w.shared with world := s } }
  | .remindUpcoming i now settings limit =>
    if w.locals i = none ∧ w.clock ≤ now then
      some (w.set i (w.shared.tick now)
        (some ⟨now, settings, .events (upcomingCandidates settings now limit w.db)⟩))
    else none
  | .promptAttendance i now settings limit =>
    if w.locals i = none ∧ w.clock ≤ now then
      some (w.set i (w.shared.tick now)
        (some ⟨now, settings, .prompts (promptCandidates settings now limit w.shared)⟩))
    else none
  | .next i now =>
    match w.locals i with
    | some f =>
      if w.clock ≤ now then
        some (w.set i (commit f.act (w.shared.tick now)) (f.next (w.shared.tick now)))
      else none
    | none => none
  | .crash i => some (w.set i w.shared none)

def Step (w : SweepWorld) (m : SweepMove) (w' : SweepWorld) : Prop := w.exec m = some w'

/-- No column written, nothing emitted, no sweep in progress. -/
def Init (w : SweepWorld) : Prop :=
  w.shared.world.Init ∧ (∀ c, w.shared.claims c = none) ∧ w.emitted = [] ∧ ∀ i, w.locals i = none

def initial : SweepWorld where
  shared := { world := World.initial 0, claims := fun _ => none, emitted := [] }
  locals _ := none

theorem init_initial : initial.Init :=
  ⟨World.init_initial 0, fun _ => rfl, rfl, fun _ => rfl⟩

end SweepWorld

/-- The steps of a run. -/
abbrev SweepTrace := List (SweepWorld × SweepMove × SweepWorld)

/-! ## One transaction -/

/-- What a transaction of a sweep can do: nothing, or claim a free column and emit the
    message that goes with it, to the guest it is about if there is one. -/
inductive Claims (guest : Option ParticipantId) (s s' : SweepShared) : Prop
  | idle (h : s' = s)
  | claimed (m : SweepMessage) (now : Instant) (hguest : m.guest = guest)
      (free : s.claims m.column = none) (h : s' = (s.stamp m.column now).post m)

section Transactions

variable {s s' : SweepShared} {now : Instant} {guest : Option ParticipantId}

theorem claimOnce_spec {column : ClaimColumn} {message : Option SweepMessage} {b : Bool}
    (hmessage : ∀ m ∈ message, m.column = column ∧ m.guest = guest)
    (h : Runs (claimOnce column now message) s b s') : Claims guest s s' := by
  simp only [claimOnce, runs_get_bind, runs_ite, runs_pure, runs_modify_bind,
    runs_orThrow_bind] at h
  rcases h with ⟨-, -, rfl⟩ | ⟨hfree, m, hm, -, rfl⟩
  · exact .idle rfl
  · obtain ⟨hcolumn, hguest⟩ := hmessage m hm
    refine .claimed m now hguest ?_ (by rw [hcolumn])
    rw [hcolumn]
    exact Option.not_isSome_iff_eq_none.1 hfree

theorem remindOneGuest_spec {p : ParticipantId} {wave : ReminderWave} {b : Bool}
    (h : Runs (remindOneGuest p wave now) s b s') : Claims (some p) s s' := by
  simp only [remindOneGuest, runs_get_bind] at h
  split at h
  · exact .idle (runs_pure.1 h).2
  · next participant hp =>
      have hid : participant.id = p := Table.key_of_find? hp
      refine claimOnce_spec (fun m hm => ?_) h
      obtain ⟨event, -, rfl⟩ := Option.map_eq_some_iff.1 hm
      exact ⟨by rw [SweepMessage.column, hid], congrArg some hid⟩

theorem remindHost_spec {e : EventId} {b : Bool} (h : Runs (remindHost e now) s b s') :
    Claims none s s' := by
  simp only [remindHost, runs_get_bind] at h
  split at h
  · exact .idle (runs_pure.1 h).2
  · next event he =>
      have hid : event.id = e := Table.key_of_find? he
      refine claimOnce_spec (fun m hm => ?_) h
      obtain rfl := Option.some.inj hm
      exact ⟨by rw [SweepMessage.column, hid], rfl⟩

theorem promptOne_spec {e : EventId} {delayMs : Int} {b : Bool}
    (h : Runs (promptOne e delayMs now) s b s') : Claims none s s' := by
  simp only [promptOne, runs_get_bind] at h
  split at h
  · exact .idle (runs_pure.1 h).2
  · next event he =>
      have hid : event.id = e := Table.key_of_find? he
      refine claimOnce_spec (fun m hm => ?_) h
      obtain rfl := Option.some.inj hm
      exact ⟨by rw [SweepMessage.column, hid], rfl⟩

/-- A claim of a free column, for a guest whose event is there, sends the reminder. -/
theorem remindOneGuest_of_free {q : ParticipantRow} {ev : EventRow} {p : ParticipantId}
    {wave : ReminderWave} (hq : s.db.participants.find? p = some q)
    (hev : s.db.events.find? q.eventId = some ev) (hfree : s.claims (wave.column p) = none) :
    Runs (remindOneGuest p wave now) s true ((s.stamp (wave.column p) now).post
      (.reminder_guest ev.id ev.title ev.startsAt wave q.userId q.id)) := by
  simp only [remindOneGuest, runs_get_bind, hq, claimOnce, runs_ite, runs_modify_bind,
    runs_orThrow_bind, runs_pure, guestReminder, hev, hfree]
  exact .inr ⟨by simp, _, rfl, trivial, rfl⟩

/-- A claim of a taken column does nothing. -/
theorem remindOneGuest_of_taken {p : ParticipantId} {wave : ReminderWave}
    (htaken : s.claims (wave.column p) ≠ none) :
    Runs (remindOneGuest p wave now) s false s := by
  simp only [remindOneGuest, runs_get_bind]
  split
  · exact runs_pure.2 ⟨rfl, rfl⟩
  · simp only [claimOnce, runs_get_bind, runs_ite, runs_pure]
    exact .inl ⟨Option.isSome_iff_ne_none.2 htaken, trivial, trivial⟩

end Transactions

/-- The guest the next statement of a sweep is about. -/
def Sweep.guest (f : Sweep) : Option ParticipantId :=
  match f.work with
  | .guests _ _ (p :: _) _ => some p.id
  | _ => none

/-- What one statement of a sweep does. -/
theorem Sweep.act_spec {f : Sweep} {s s' : SweepShared} (h : Runs f.act s () s') :
    Claims f.guest s s' := by
  obtain ⟨now, settings, work⟩ := f
  cases work with
  | events todo => exact .idle (runs_pure.1 h).2
  | guests event wave due todo =>
      cases due with
      | nil =>
          rcases runs_whenTx.1 h with ⟨-, h⟩ | ⟨-, rfl⟩
          · rw [runs_bind] at h
            obtain ⟨b, s₁, hhost, h⟩ := h
            rw [(runs_pure.1 h).2]
            exact remindHost_spec hhost
          · exact .idle rfl
      | cons p due =>
          rw [Sweep.act, runs_bind] at h
          obtain ⟨b, s₁, hguest, h⟩ := h
          rw [(runs_pure.1 h).2]
          exact remindOneGuest_spec hguest
  | prompts todo =>
      cases todo with
      | nil => exact .idle (runs_pure.1 h).2
      | cons event todo =>
          rw [Sweep.act, runs_bind] at h
          obtain ⟨b, s₁, hprompt, h⟩ := h
          rw [(runs_pure.1 h).2]
          exact promptOne_spec hprompt

/-- The statement about a guest is that guest's transaction. -/
theorem Sweep.commit_guest {f : Sweep} {s s' : SweepShared} {event : EventRow}
    {wave : ReminderWave} {p : ParticipantRow} {due : List ParticipantRow} {todo : List EventRow}
    {b : Bool} (hwork : f.work = .guests event wave (p :: due) todo)
    (h : Runs (remindOneGuest p.id wave f.now) s b s') : commit f.act s = s' := by
  have hact : Runs f.act s () s' := by
    rw [Sweep.act, hwork, runs_bind]
    exact ⟨b, s', h, runs_pure.2 ⟨rfl, rfl⟩⟩
  exact commit_of_runs hact

theorem Sweep.claims_of_commit (f : Sweep) (s : SweepShared) :
    Claims f.guest s (commit f.act s) := by
  rcases commit_cases f.act s with ⟨_, hrun⟩ | hsame
  · exact f.act_spec hrun
  · exact .idle hsame

theorem Claims.world {guest : Option ParticipantId} {s s' : SweepShared} (h : Claims guest s s') :
    s'.world = s.world := by
  cases h with
  | idle h => rw [h]
  | claimed m now hguest hfree h => rw [h]; rfl

/-! ## At most once -/

/-- No column has two messages, and every message has its column. -/
structure EmittedOnce (s : SweepShared) : Prop where
  nodup : (s.emitted.map SweepMessage.column).Nodup
  claimed : ∀ m ∈ s.emitted, s.claims m.column ≠ none

theorem EmittedOnce.next {guest : Option ParticipantId} {s s' : SweepShared} (h : EmittedOnce s)
    (hc : Claims guest s s') : EmittedOnce s' := by
  cases hc with
  | idle hsame => exact hsame ▸ h
  | claimed m now hguest hfree hs' =>
      subst hs'
      have hnew : m.column ∉ s.emitted.map SweepMessage.column := by
        intro hmem
        obtain ⟨m', hm', hcol⟩ := List.mem_map.1 hmem
        have hclaimed := h.claimed m' hm'
        rw [hcol] at hclaimed
        exact hclaimed hfree
      refine ⟨?_, fun m' hm' => ?_⟩
      · show ((s.emitted ++ [m]).map SweepMessage.column).Nodup
        rw [List.map_append, List.nodup_append]
        refine ⟨h.nodup, List.nodup_singleton _, fun a ha b hb => ?_⟩
        rw [List.map_singleton, List.mem_singleton] at hb
        rintro rfl
        exact hnew (hb ▸ ha)
      · show Function.update s.claims m.column (some now) m'.column ≠ none
        by_cases hcol : m'.column = m.column
        · rw [hcol, Function.update_self]
          exact Option.some_ne_none _
        · rw [Function.update_of_ne hcol]
          rcases List.mem_append.1 hm' with hold | hself
          · exact h.claimed m' hold
          · exact absurd (congrArg _ (List.mem_singleton.1 hself)) hcol

/-! ## What was listed -/

/-- Events and participations stay, each participation with its event. -/
structure Lasting (s s' : Db) : Prop where
  events : ∀ e ev, s.events.find? e = some ev → ∃ ev', s'.events.find? e = some ev'
  guests : ∀ p q, s.participants.find? p = some q →
    ∃ q', s'.participants.find? p = some q' ∧ q'.eventId = q.eventId

theorem lasting_of_step {w w' : World} {c : Call} (h : w.Step c w') : Lasting w.db w'.db := by
  have hchange : ∃ k, Effect c.env k w.db w'.db := by
    rcases World.step_effect h with heffect | ⟨k, -, heffect⟩
    · exact ⟨_, heffect⟩
    · exact ⟨k, heffect⟩
  obtain ⟨k, heffect⟩ := hchange
  refine ⟨fun e ev hev => ?_, fun p q hq => ?_⟩
  · obtain ⟨ev', hev', hmove⟩ := heffect.change.event_fate (Table.mem_of_find? hev)
    have hid : ev'.id = e := hmove.id.trans (Table.key_of_find? hev)
    refine ⟨ev', ?_⟩
    rw [← hid]
    exact Table.find?_of_mem hev'
  · obtain ⟨q', hq', hmove⟩ := heffect.change.guest_fate (Table.mem_of_find? hq)
    have hid : q'.id = p := hmove.keeps.1.trans (Table.key_of_find? hq)
    refine ⟨q', ?_, hmove.keeps.2.1⟩
    rw [← hid]
    exact Table.find?_of_mem hq'

/-- The event was listed as one that is still on. -/
structure UpcomingListed (db : Db) (event : EventRow) : Prop where
  on : REMINDED_STATUSES.contains event.status = true
  there : ∃ ev, db.events.find? event.id = some ev

/-- The guest was listed as accepted to the event. -/
structure GuestListed (db : Db) (event : EventRow) (p : ParticipantRow) : Prop where
  accepted : p.status = .ACCEPTED
  there : ∃ q, db.participants.find? p.id = some q ∧ q.eventId = event.id

/-- Everything a sweep has still to do was listed for a reason. -/
def Sweep.Sound (db : Db) (f : Sweep) : Prop :=
  match f.work with
  | .events todo => ∀ event ∈ todo, UpcomingListed db event
  | .guests event _ due todo => UpcomingListed db event ∧
      (∀ p ∈ due, GuestListed db event p) ∧ ∀ e ∈ todo, UpcomingListed db e
  | .prompts _ => True

section Listing

variable {s : SweepShared} {f g : Sweep} {db db' : Db}

theorem UpcomingListed.lasting {event : EventRow} (h : UpcomingListed db event)
    (hl : Lasting db db') : UpcomingListed db' event := by
  obtain ⟨ev, hev⟩ := h.there
  exact ⟨h.on, hl.events _ ev hev⟩

theorem GuestListed.lasting {event : EventRow} {p : ParticipantRow} (h : GuestListed db event p)
    (hl : Lasting db db') : GuestListed db' event p := by
  obtain ⟨q, hq, hevent⟩ := h.there
  obtain ⟨q', hq', hsame⟩ := hl.guests _ q hq
  exact ⟨h.accepted, q', hq', hsame.trans hevent⟩

theorem Sweep.Sound.lasting (h : f.Sound db) (hl : Lasting db db') : f.Sound db' := by
  obtain ⟨now, settings, work⟩ := f
  cases work with
  | events todo => exact fun event he => (h event he).lasting hl
  | guests event wave due todo =>
      obtain ⟨hevent, hdue, htodo⟩ := h
      exact ⟨hevent.lasting hl, fun p hp => (hdue p hp).lasting hl,
        fun e he => (htodo e he).lasting hl⟩
  | prompts todo => trivial

theorem upcomingCandidates_listed {settings : ReminderSettings} {now : Instant} {limit : Nat}
    {event : EventRow} (h : event ∈ upcomingCandidates settings now limit db) :
    UpcomingListed db event := by
  obtain ⟨hmem, hwhere⟩ := List.mem_filter.1 (List.mem_mergeSort.1 (List.mem_of_mem_take h))
  simp only [Bool.and_eq_true] at hwhere
  exact ⟨hwhere.1.1.1, event, Table.find?_of_mem hmem⟩

theorem dueGuests_listed {event : EventRow} {wave : ReminderWave} {p : ParticipantRow}
    (h : p ∈ dueGuests s event.id wave) : GuestListed s.db event p := by
  obtain ⟨hmem, hwhere⟩ := List.mem_filter.1 (List.mem_mergeSort.1 h)
  simp only [Bool.and_eq_true, decide_eq_true_eq] at hwhere
  exact ⟨hwhere.1.2, p, Table.find?_of_mem hmem, hwhere.1.1⟩

/-- What is left of a sweep was listed as well. -/
theorem Sweep.Sound.next (h : f.Sound s.db) (hg : f.next s = some g) : g.Sound s.db := by
  unfold Sweep.next at hg
  split at hg
  · obtain ⟨work', hrest, rfl⟩ := Option.map_eq_some_iff.1 hg
    obtain ⟨now, settings, work⟩ := f
    cases work with
    | events todo =>
        cases todo with
        | nil => cases hrest
        | cons event todo =>
            obtain rfl := Option.some.inj hrest
            exact ⟨h event List.mem_cons_self, fun p hp => dueGuests_listed hp,
              fun e he => h e (List.mem_cons_of_mem _ he)⟩
    | guests event wave due todo =>
        obtain ⟨hevent, hdue, htodo⟩ := h
        cases due with
        | nil =>
            obtain rfl := Option.some.inj hrest
            exact htodo
        | cons p due =>
            obtain rfl := Option.some.inj hrest
            exact ⟨hevent, fun q hq => hdue q (List.mem_cons_of_mem _ hq), htodo⟩
    | prompts todo =>
        cases todo with
        | nil => cases hrest
        | cons event todo =>
            obtain rfl := Option.some.inj hrest
            trivial
  · cases hg

end Listing

/-! ## The condition -/

/-- What the sweep went by when it listed the guest is as it was, and the start of the
    event has not come. -/
structure AsListed (db : Db) (now : Instant) (event : EventRow) (p : ParticipantRow) : Prop where
  guest : ∀ q ∈ db.participants.find? p.id, q.status = p.status
  on : ∀ ev ∈ db.events.find? event.id,
    REMINDED_STATUSES.contains ev.status = REMINDED_STATUSES.contains event.status
  before : ∀ ev ∈ db.events.find? event.id, now < ev.startsAt

/-- The move, where it takes up a guest nobody has claimed, finds the guest as listed. -/
def StillListed (w : SweepWorld) : SweepMove → Prop
  | .next i now => ∀ f ∈ w.locals i, ∀ event wave p due todo,
      f.work = .guests event wave (p :: due) todo → w.shared.claims (wave.column p.id) = none →
        AsListed w.db now event p
  | _ => True

/-- The participation `p` is still accepted, in an event that is still on and has not
    started. -/
def SweepWorld.StillGoing (w : SweepWorld) (p : ParticipantId) : Prop :=
  ∃ q ev, w.db.participants.find? p = some q ∧ q.status = .ACCEPTED ∧
    w.db.events.find? q.eventId = some ev ∧ (ev.status = .PUBLISHED ∨ ev.status = .HIDDEN) ∧
    w.clock < ev.startsAt

/-- The step reminds the guest of `p`. -/
def RemindsGuest (x : SweepWorld × SweepMove × SweepWorld) (p : ParticipantId) : Prop :=
  ∃ m, x.2.2.emitted = x.1.emitted ++ [m] ∧ m.guest = some p

theorem contains_remindedStatuses {st : EventStatus} :
    REMINDED_STATUSES.contains st = true ↔ st = .PUBLISHED ∨ st = .HIDDEN := by
  cases st <;> simp [REMINDED_STATUSES]

/-! ## One step -/

/-- Between moves: messages go with columns, and every sweep goes by a listing. -/
structure SweepSound (w : SweepWorld) : Prop where
  once : EmittedOnce w.shared
  own : ∀ i f, w.locals i = some f → f.Sound w.db

section Steps

variable {w w' : SweepWorld} {m : SweepMove}

theorem sweepSound_init (h : w.Init) : SweepSound w := by
  obtain ⟨-, -, hempty, hidle⟩ := h
  have hnil : w.shared.emitted = [] := hempty
  refine ⟨⟨by rw [hnil]; exact List.nodup_nil, fun m hm => ?_⟩, fun i f hf => ?_⟩
  · rw [hnil] at hm
    cases hm
  · rw [hidle i] at hf
    cases hf

/-- A sweep that starts, and is not heard of before. -/
theorem SweepSound.begin (h : SweepSound w) {i : Nat} {now : Instant} {f : Sweep}
    (hf : f.Sound w.db) : SweepSound (w.set i (w.shared.tick now) (some f)) where
  once := ⟨h.once.nodup, h.once.claimed⟩
  own j g hg := by
    by_cases hj : j = i
    · subst hj
      rw [Threads.set_locals_self] at hg
      obtain rfl := Option.some.inj hg
      exact hf
    · rw [Threads.set_locals_ne hj] at hg
      exact h.own j g hg

theorem step_sweepSound (h : SweepSound w) (hstep : w.Step m w') : SweepSound w' := by
  cases m with
  | call c =>
      simp only [SweepWorld.Step, SweepWorld.exec] at hstep
      obtain ⟨s, hs, rfl⟩ := Option.map_eq_some_iff.1 hstep
      exact ⟨⟨h.once.nodup, h.once.claimed⟩,
        fun i f hf => (h.own i f hf).lasting (lasting_of_step hs)⟩
  | remindUpcoming i now settings limit =>
      simp only [SweepWorld.Step, SweepWorld.exec] at hstep
      split at hstep
      · obtain rfl := Option.some.inj hstep
        exact h.begin fun event he => upcomingCandidates_listed he
      · cases hstep
  | promptAttendance i now settings limit =>
      simp only [SweepWorld.Step, SweepWorld.exec] at hstep
      split at hstep
      · obtain rfl := Option.some.inj hstep
        exact h.begin trivial
      · cases hstep
  | next i now =>
      simp only [SweepWorld.Step, SweepWorld.exec] at hstep
      split at hstep
      · next f hf =>
          split at hstep
          · have hw' := Option.some.inj hstep
            have hclaims := f.claims_of_commit (w.shared.tick now)
            have hdb : w'.db = w.db := by
              rw [← hw']
              show (commit f.act (w.shared.tick now)).world.db = _
              rw [hclaims.world]
              rfl
            have honce : EmittedOnce (w.shared.tick now) := ⟨h.once.nodup, h.once.claimed⟩
            refine ⟨?_, fun j g hg => ?_⟩
            · rw [← hw']
              exact honce.next hclaims
            · rw [hdb]
              rw [← hw'] at hg
              by_cases hj : j = i
              · subst hj
                rw [Threads.set_locals_self] at hg
                have hsound : f.Sound (w.shared.tick now).db := h.own j f hf
                exact hsound.next hg
              · rw [Threads.set_locals_ne hj] at hg
                exact h.own j g hg
          · cases hstep
      · cases hstep
  | crash i =>
      simp only [SweepWorld.Step, SweepWorld.exec] at hstep
      obtain rfl := Option.some.inj hstep
      refine ⟨h.once, fun j g hg => ?_⟩
      by_cases hj : j = i
      · subst hj
        rw [Threads.set_locals_self] at hg
        cases hg
      · rw [Threads.set_locals_ne hj] at hg
        exact h.own j g hg

/-- A step that emits nothing reminds nobody. -/
theorem not_reminds_of_eq (h : w'.emitted = w.emitted) (p : ParticipantId) :
    ¬ RemindsGuest (w, m, w') p := by
  rintro ⟨msg, hmsg, -⟩
  have hlen := congrArg List.length (h.symm.trans hmsg)
  simp at hlen

/-- The statement of a sweep that is not about a guest reminds nobody. -/
theorem not_reminds_of_claims {s s' : SweepShared} (h : Claims none s s')
    (hs : s.emitted = w.emitted) (hs' : s'.emitted = w'.emitted) (p : ParticipantId) :
    ¬ RemindsGuest (w, m, w') p := by
  cases h with
  | idle hsame =>
      refine not_reminds_of_eq ?_ p
      rw [← hs', hsame, hs]
  | claimed msg now hguest hfree hpost =>
      rintro ⟨msg', hmsg', hp⟩
      have hemitted : w'.emitted = w.emitted ++ [msg] := by
        rw [← hs', hpost, ← hs]
        rfl
      obtain ⟨-, hsame⟩ := List.append_inj' (hemitted.symm.trans hmsg') rfl
      obtain rfl := List.singleton_inj.1 hsame
      rw [hguest] at hp
      cases hp

/-- A guest in a seat is as listed exactly when the reminder is still due. -/
theorem stillGoing_iff {event : EventRow} {p : ParticipantRow} {now : Instant}
    (hevent : UpcomingListed w.db event) (hp : GuestListed w.db event p) (hdb : w'.db = w.db)
    (hclock : w'.clock = now) : w'.StillGoing p.id ↔ AsListed w.db now event p := by
  obtain ⟨ev, hev⟩ := hevent.there
  obtain ⟨q, hq, hqe⟩ := hp.there
  have hon := hevent.on
  constructor
  · rintro ⟨q', ev', hq', hst, hev', hstatus, hbefore⟩
    rw [hdb] at hq' hev'
    obtain rfl := Option.some.inj (hq.symm.trans hq')
    rw [hqe] at hev'
    obtain rfl := Option.some.inj (hev.symm.trans hev')
    rw [hclock] at hbefore
    refine ⟨fun x hx => ?_, fun x hx => ?_, fun x hx => ?_⟩
    · obtain rfl := Option.some.inj (hq.symm.trans hx)
      exact hst.trans hp.accepted.symm
    · obtain rfl := Option.some.inj (hev.symm.trans hx)
      rw [hon]
      exact contains_remindedStatuses.2 hstatus
    · obtain rfl := Option.some.inj (hev.symm.trans hx)
      exact hbefore
  · intro h
    refine ⟨q, ev, by rw [hdb]; exact hq, (h.guest q hq).trans hp.accepted, ?_, ?_, ?_⟩
    · rw [hdb, hqe]
      exact hev
    · exact contains_remindedStatuses.1 ((h.on ev hev).trans hon)
    · rw [hclock]
      exact h.before ev hev

/-- A step reminds only guests who are still going exactly when it finds them as listed. -/
theorem step_reminds (h : SweepSound w) (hstep : w.Step m w') :
    (∀ p, RemindsGuest (w, m, w') p → w'.StillGoing p) ↔ StillListed w m := by
  cases m with
  | call c =>
      simp only [SweepWorld.Step, SweepWorld.exec] at hstep
      obtain ⟨s, hs, rfl⟩ := Option.map_eq_some_iff.1 hstep
      exact ⟨fun _ => trivial, fun _ p hp => absurd hp (not_reminds_of_eq rfl p)⟩
  | remindUpcoming i now settings limit | promptAttendance i now settings limit =>
      simp only [SweepWorld.Step, SweepWorld.exec] at hstep
      split at hstep
      · obtain rfl := Option.some.inj hstep
        exact ⟨fun _ => trivial, fun _ p hp => absurd hp (not_reminds_of_eq rfl p)⟩
      · cases hstep
  | crash i =>
      simp only [SweepWorld.Step, SweepWorld.exec] at hstep
      obtain rfl := Option.some.inj hstep
      exact ⟨fun _ => trivial, fun _ p hp => absurd hp (not_reminds_of_eq rfl p)⟩
  | next i now =>
      simp only [SweepWorld.Step, SweepWorld.exec] at hstep
      split at hstep
      · next f hf =>
          split at hstep
          · have hw' := Option.some.inj hstep
            have hclaims := f.claims_of_commit (w.shared.tick now)
            have hshared : w'.shared = commit f.act (w.shared.tick now) := by rw [← hw']; rfl
            have hworld : w'.shared.world = { w.shared.world with clock := now } := by
              rw [hshared]
              exact hclaims.world
            have hdb : w'.db = w.db := by
              rw [SweepWorld.db, SweepShared.db, hworld]
              rfl
            have hclock : w'.clock = now := by rw [SweepWorld.clock, hworld]
            have hsound := h.own i f hf
            by_cases hguest : ∃ event wave p due todo, f.work = .guests event wave (p :: due) todo
            · obtain ⟨event, wave, p, due, todo, hwork⟩ := hguest
              simp only [Sweep.Sound, hwork] at hsound
              obtain ⟨hevent, hdue, -⟩ := hsound
              have hp := hdue p List.mem_cons_self
              have hiff := stillGoing_iff hevent hp hdb hclock
              by_cases hfree : w.shared.claims (wave.column p.id) = none
              · obtain ⟨q, hq, hqe⟩ := hp.there
                obtain ⟨ev, hev⟩ := hevent.there
                have hthere : (w.shared.tick now).db.events.find? q.eventId = some ev := by
                  rw [hqe]
                  exact hev
                have hsend : Runs (remindOneGuest p.id wave f.now) (w.shared.tick now) true _ :=
                  remindOneGuest_of_free hq hthere hfree
                have hemitted : w'.emitted = w.emitted ++ [.reminder_guest ev.id ev.title
                    ev.startsAt wave q.userId q.id] := by
                  rw [SweepWorld.emitted, hshared, Sweep.commit_guest hwork hsend]
                  rfl
                constructor
                · intro hall f' hf' event' wave' p' due' todo' hwork' _
                  obtain rfl := Option.some.inj (hf.symm.trans hf')
                  obtain ⟨rfl, rfl, hcons, rfl⟩ := SweepWork.guests.inj (hwork.symm.trans hwork')
                  obtain ⟨rfl, rfl⟩ := List.cons.inj hcons
                  refine hiff.1 (hall p.id ⟨_, hemitted, ?_⟩)
                  exact congrArg some (Table.key_of_find? hq)
                · intro hlisted r ⟨msg, hmsg, hr⟩
                  obtain ⟨-, hsame⟩ := List.append_inj' (hemitted.symm.trans hmsg) rfl
                  obtain rfl := List.singleton_inj.1 hsame
                  have hpr : q.id = r := Option.some.inj hr
                  have hqp : q.id = p.id := Table.key_of_find? hq
                  rw [← hpr, hqp]
                  exact hiff.2 (hlisted f hf event wave p due todo hwork hfree)
              · have htaken : Runs (remindOneGuest p.id wave f.now) (w.shared.tick now) false _ :=
                  remindOneGuest_of_taken hfree
                have hemitted : w'.emitted = w.emitted := by
                  rw [SweepWorld.emitted, hshared, Sweep.commit_guest hwork htaken]
                  rfl
                constructor
                · intro _ f' hf' event' wave' p' due' todo' hwork' hfree'
                  obtain rfl := Option.some.inj (hf.symm.trans hf')
                  obtain ⟨rfl, rfl, hcons, rfl⟩ := SweepWork.guests.inj (hwork.symm.trans hwork')
                  obtain ⟨rfl, rfl⟩ := List.cons.inj hcons
                  exact absurd hfree' hfree
                · exact fun _ r hr => absurd hr (not_reminds_of_eq hemitted r)
            · -- the statement is not about a guest
              have hnone : f.guest = none := by
                unfold Sweep.guest
                split
                · next event wave p due todo hwork =>
                    exact absurd ⟨event, wave, p, due, todo, hwork⟩ hguest
                · rfl
              rw [hnone] at hclaims
              constructor
              · intro _ f' hf' event wave p due todo hwork _
                obtain rfl := Option.some.inj (hf.symm.trans hf')
                exact absurd ⟨event, wave, p, due, todo, hwork⟩ hguest
              · intro _ r hr
                exact absurd hr (not_reminds_of_claims hclaims rfl (by rw [← hshared]; rfl) r)
          · cases hstep
      · cases hstep

end Steps

/-! ## Runs -/

/-- What holds of the sweeps of a run: no message is sent twice, and a step reminds only
    guests who are still going exactly when it finds the guest as listed. -/
structure RemindersKept (tr : SweepTrace) (w : SweepWorld) : Prop where
  once : (w.emitted.map SweepMessage.column).Nodup
  going : ∀ x ∈ tr, (∀ p, RemindsGuest x p → x.2.2.StillGoing p) ↔ StillListed x.1 x.2.1

theorem sweepSound_of_reach {w : SweepWorld} (h : Reachable SweepWorld.Init SweepWorld.Step w) :
    SweepSound w :=
  h.invariant (I := SweepSound) (fun _ => sweepSound_init) fun _ _ _ hs _ hstep =>
    step_sweepSound hs hstep

/-- In every run, each of the messages is emitted at most once, and guests are reminded of
    evenings they still go to where, and only where, a sweep finds what it listed as it was
    and the evening ahead. -/
theorem reminders_sent_once {tr : SweepTrace} {w : SweepWorld}
    (h : Lib.Run SweepWorld.Init SweepWorld.Step (fun _ _ => True) tr w) : RemindersKept tr w where
  once := (sweepSound_of_reach h.reach).once.nodup
  going := h.steps (P := fun w m w' =>
      (∀ p, RemindsGuest (w, m, w') p → w'.StillGoing p) ↔ StillListed w m)
    fun _ _ _ hreach _ hstep => step_reminds (sweepSound_of_reach hreach) hstep

/-- A guest is accepted to an evening at hour 100. -/
def acceptedMoves : List SweepMove :=
  [callAt 0 (.moveCoins (onboardingReward 1 100)), callAt 0 (.moveCoins (onboardingReward 2 100)),
   callAt 1 (.create 1 (demoEvent 100 2) false 7), callAt 2 (.join 2 7 21),
   callAt 3 (.accept 1 21)].map .call

/-- The default settings, in hours. -/
def sweepSettings : ReminderSettings := ⟨24, 3, 12⟩

/-- Two sweeps at once: the guest and the host are told once. -/
def twoSweepsMoves : List SweepMove := acceptedMoves ++
  [.remindUpcoming 0 (80 * msPerHour) sweepSettings 200, .next 0 (80 * msPerHour),
   .remindUpcoming 1 (80 * msPerHour) sweepSettings 200, .next 1 (80 * msPerHour),
   .next 1 (80 * msPerHour), .next 0 (80 * msPerHour), .next 0 (80 * msPerHour),
   .next 1 (80 * msPerHour)]

/-- The guest withdraws, or the host calls the evening off, after the sweep has listed the
    guest. -/
def withdrawnMoves (withdrawal : Op) : List SweepMove := acceptedMoves ++
  [.remindUpcoming 0 (80 * msPerHour) sweepSettings 200, .next 0 (80 * msPerHour),
   .call (callAt 81 withdrawal), .next 0 (81 * msPerHour)]

/-- The reminder of the day before. -/
def firstReminder : SweepMessage :=
  .reminder_guest 7 "Board games" (100 * msPerHour) .FIRST 2 21

theorem reminders_sent_once_two : ∃ tr w, RemindersKept tr w ∧ w.emitted.length = 2 := by
  have hplay : (runList SweepWorld.exec SweepWorld.initial twoSweepsMoves).any (fun w =>
      decide (w.emitted.length = 2)) = true := by decide +kernel
  obtain ⟨w, hw, hlen⟩ := (Option.any_eq_true _ _).1 hplay
  have hrun := run_of_runList (G := fun _ _ => True) (g := fun _ _ => true)
    (fun _ _ _ h => h) (fun _ _ _ => trivial) (.start SweepWorld.init_initial)
    (by decide +kernel) hw
  exact ⟨_, w, reminders_sent_once hrun, of_decide_eq_true hlen⟩

/-- Guests are reminded of an evening they have withdrawn from, and of one that was called
    off. -/
theorem reminds_after_withdrawal : ∀ withdrawal ∈ [Op.cancel 2 21 none,
      .cancelByHost 1 7 none], ∃ tr w,
    Lib.Run SweepWorld.Init SweepWorld.Step (fun _ _ => True) tr w ∧
    ∃ x ∈ tr, RemindsGuest x 21 ∧ ∃ q, x.2.2.db.participants.find? 21 = some q ∧
      q.status ≠ .ACCEPTED := by
  intro withdrawal hmem
  have hplay : [Op.cancel 2 21 none, .cancelByHost 1 7 none].all (fun op =>
      (runList SweepWorld.exec SweepWorld.initial (withdrawnMoves op)).isSome &&
      (traceList SweepWorld.exec SweepWorld.initial (withdrawnMoves op)).any fun x =>
        decide (x.2.2.emitted = x.1.emitted ++ [firstReminder]) &&
        (x.2.2.db.participants.find? 21).any fun q => decide (q.status ≠ .ACCEPTED)) = true := by
    decide +kernel
  have hguards : [Op.cancel 2 21 none, .cancelByHost 1 7 none].all (fun op =>
      guardList SweepWorld.exec (fun _ _ => true) SweepWorld.initial (withdrawnMoves op)) = true := by
    decide +kernel
  have hop := List.all_eq_true.1 hplay withdrawal hmem
  rw [Bool.and_eq_true] at hop
  obtain ⟨w, hw⟩ := Option.isSome_iff_exists.1 hop.1
  obtain ⟨x, hx, hstep⟩ := List.any_eq_true.1 hop.2
  rw [Bool.and_eq_true] at hstep
  obtain ⟨q, hq, hst⟩ := (Option.any_eq_true _ _).1 hstep.2
  have hrun := run_of_runList (G := fun _ _ => True) (g := fun _ _ => true)
    (fun _ _ _ h => h) (fun _ _ _ => trivial) (.start SweepWorld.init_initial)
    (List.all_eq_true.1 hguards withdrawal hmem) hw
  exact ⟨_, w, hrun, x, List.mem_append_right _ hx,
    ⟨firstReminder, of_decide_eq_true hstep.1, rfl⟩, q, hq, of_decide_eq_true hst⟩

/-- A guest is reminded of an evening they have withdrawn from. -/
theorem reminder_after_cancellation : ∃ tr w,
    Lib.Run SweepWorld.Init SweepWorld.Step (fun _ _ => True) tr w ∧
    ∃ x ∈ tr, RemindsGuest x 21 ∧ ∃ q, x.2.2.db.participants.find? 21 = some q ∧
      q.status ≠ .ACCEPTED :=
  reminds_after_withdrawal (.cancel 2 21 none) List.mem_cons_self

end Paayatam
