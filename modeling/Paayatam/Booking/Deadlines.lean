/-
  Paayatam.Booking.Deadlines

  The time a host has to answer a request.

  A deadline is computed once, from the start of the event as it is when the
  guest asks or is promoted; the start can be edited afterwards, and the
  deadlines of the requests that wait for an answer stay as they are.
-/

import Paayatam.Booking.EventEdits
import Paayatam.Booking.Frame
import Paayatam.Booking.Promotion

namespace Paayatam

open Lib

/-- Every request that waits for an answer has a deadline, no later than the start of its
    event. -/
def DeadlinesKept (s : Db) : Prop :=
  ∀ p ∈ s.participants.rows, p.status = .PENDING →
    ∃ ev ∈ s.events.rows, ev.id = p.eventId ∧ ∃ d ∈ p.hostDeadlineAt, d ≤ ev.startsAt

/-- The event an operation moves, and the start it moves it to. -/
def Op.movesStart : Op → Option (EventId × Instant)
  | .update _ e input _ => input.startsAt.map fun t => (e, t)
  | _ => none

/-- An edit moves no start before a deadline that is still to be met. -/
def LeavesTimeToAnswer (w : World) (c : Call) : Prop :=
  ∀ m ∈ c.op.movesStart, ∀ p ∈ w.db.participants.rows, p.eventId = m.1 → p.status = .PENDING →
    ∀ d ∈ p.hostDeadlineAt, d ≤ m.2

instance (w : World) (c : Call) : Decidable (LeavesTimeToAnswer w c) :=
  inferInstanceAs (Decidable (∀ m ∈ c.op.movesStart, _))

/-! ## One step -/

section Step

variable {env : Env} {k : Kind} {s s' : Db}

/-- A request that waits for an answer after a change waited before it, or got its deadline
    from the event as the change found it. -/
theorem Change.deadline_origin (h : Change env k s s') (hI : DeadlinesKept s) {p : ParticipantRow}
    (hp : p ∈ s'.participants.rows) (hst : p.status = .PENDING) :
    ∃ ev ∈ s.events.rows, ev.id = p.eventId ∧ ∃ d ∈ p.hostDeadlineAt, d ≤ ev.startsAt := by
  rcases h.guest_origin hp with ⟨q, hq, hmove⟩ | hnew
  · cases hmove with
    | same => exact hI p hq hst
    | @promote _ _ ev hwait hev hid hk =>
        exact ⟨ev, hev, hid, _, rfl, hostDeadline_le_start _ _ _ _ _⟩
    | close _ hp' =>
        rcases hp' with rfl | rfl <;> simp [ParticipantRow.rejected, ParticipantRow.expired] at hst
    | callOff _ =>
        simp only [ParticipantRow.calledOff, cancelledStatus] at hst
        split at hst <;> cases hst
    | seat | lapse | withdraw | complete | absent | overturn | release => cases hst
  · cases hnew with
    | @request ev user newId hev hlive hnew =>
        by_cases hroom : roomToAsk s ev = true
        · refine ⟨ev, hev, rfl, hostDeadline env.now ev.startsAt
            env.settings.participation_host_response_hours
            env.settings.participation_min_hours_before_event
            env.settings.participation_min_response_minutes, ?_, hostDeadline_le_start _ _ _ _ _⟩
          simp [requestRow, hroom]
        · simp [requestRow, hroom] at hst
    | seed => cases hst

/-- A change that edits no event keeps every deadline. -/
theorem DeadlinesKept.change (hI : DeadlinesKept s) (h : Change env k s s')
    (hk : ∀ e c, k ≠ .edit e c) : DeadlinesKept s' := by
  intro p hp hst
  obtain ⟨ev, hev, hid, d, hd, hle⟩ := h.deadline_origin hI hp hst
  obtain ⟨ev', hev', hmove⟩ := h.event_fate hev
  have hsame := hmove.sameEvening hk
  exact ⟨ev', hev', hsame.id.trans hid, d, hd, by rw [hsame.startsAt]; exact hle⟩

/-- An edit keeps every deadline that its new start leaves time for. -/
theorem DeadlinesKept.edit (hI : DeadlinesKept s) {host : UserId} {e : EventId}
    {input : UpdateEventInput} {v : Option Nat} (h : Runs (update env host e input v) s () s')
    (htime : ∀ t ∈ input.startsAt, ∀ p ∈ s.participants.rows, p.eventId = e →
      p.status = .PENDING → ∀ d ∈ p.hostDeadlineAt, d ≤ t) : DeadlinesKept s' := by
  obtain ⟨row, hrow, h⟩ := runs_update.1 h
  obtain ⟨plan, found, t, hplan, hfound, ht, hs, -⟩ := finishUpdate_spec h
  have hedits : plan.edit.startsAt = input.startsAt := (planUpdate_decided hplan).startsAt
  have hparticipants : s'.participants = s.participants := by rw [hs]
  have hevents : s'.events = t := by rw [hs]
  intro p hp hst
  rw [hparticipants] at hp
  rw [hevents]
  obtain ⟨ev, hev, hid, d, hd, hle⟩ := hI p hp hst
  by_cases hsame : ev = found
  · refine ⟨plan.edit.apply found, ht.self, by rw [← hid, hsame]; rfl, d, hd, ?_⟩
    change d ≤ plan.edit.startsAt.getD found.startsAt
    rw [hedits]
    cases hstart : input.startsAt with
    | none => rw [← hsame]; exact hle
    | some t =>
        have hread : row.id = e := Table.key_of_find? hrow
        have hwritten : found.id = row.id := Table.key_of_find? hfound
        have hevent : ev.id = e := by rw [hsame, hwritten, hread]
        exact htime t hstart p hp (hid.symm.trans hevent) hst d hd
  · exact ⟨ev, ht.other hev hsame, hid, d, hd, hle⟩

end Step

theorem DeadlinesKept.step {w w' : World} {c : Call} (hI : DeadlinesKept w.db)
    (hguard : LeavesTimeToAnswer w c) (hstep : w.Step c w') : DeadlinesKept w'.db := by
  by_cases hedit : c.op.edits = none
  · have hk : ∀ k, (k = .books ∨ c.op.Does k) → ∀ e n, k ≠ .edit e n := by
      rintro k hk e n rfl
      rcases hk with hk | hk
      · cases hk
      · rw [Op.edits_of_does hk] at hedit
        cases hedit
    rcases World.step_effect hstep with heff | ⟨k, hdoes, heff⟩
    · exact hI.change heff.change (hk _ (.inl rfl))
    · exact hI.change heff.change (hk k (.inr hdoes))
  · obtain ⟨host, e, input, v, hop⟩ : ∃ host e input v, c.op = .update host e input v := by
      cases hc : c.op with
      | update host e input v => exact ⟨host, e, input, v, rfl⟩
      | _ => exact absurd (by rw [hc]; rfl) hedit
    obtain ⟨-, -, rfl⟩ := World.step_iff.1 hstep
    change DeadlinesKept (commit (c.op.act c.env) w.db)
    rcases commit_cases (c.op.act c.env) w.db with ⟨u, hrun⟩ | hsame
    · have hupdate : Runs (update c.env host e input v) w.db () (commit (c.op.act c.env) w.db) := by
        rw [hop] at hrun ⊢
        exact hrun
      refine hI.edit hupdate fun t ht p hp hpe hst d hd => ?_
      have hmoves : (e, t) ∈ c.op.movesStart := by
        rw [hop, Op.movesStart, Option.mem_def, Option.map_eq_some_iff]
        exact ⟨t, ht, rfl⟩
      exact hguard (e, t) hmoves p hp hpe hst d hd
    · rw [hsame]
      exact hI

/-- In every run in which no edit moves a start before a deadline still to be met, every
    request that waits for an answer has a deadline no later than the start of its event. -/
theorem deadlines_before_start {w : World} (h : World.Reached LeavesTimeToAnswer w) :
    DeadlinesKept w.db := by
  refine Reach.invariant (I := fun w : World => DeadlinesKept w.db) (fun s hinit => ?_)
    (fun _ _ _ hI hg hs => hI.step hg hs) h
  rw [hinit.1]
  intro p hp
  cases hp

/-- A guest asks two hours in, and has until hour 26 to be answered. -/
def askedCalls : List Call :=
  [callAt 0 (.moveCoins (onboardingReward 1 100)), callAt 0 (.moveCoins (onboardingReward 2 100)),
   callAt 1 (.create 1 (demoEvent 100 2) false 7), callAt 2 (.join 2 7 21)]

/-- The evening is moved forward by two days, and the deadline still stands. -/
theorem deadlines_before_start_moved : ∃ w : World, DeadlinesKept w.db ∧
    w.db.events.rows.any (fun ev => decide (ev.startsAt = 52 * msPerHour)) = true := by
  obtain ⟨w, hw, hmoved⟩ := World.exists_of_play (c := askedCalls ++
      [callAt 3 (.update 1 7 { startsAt := some (52 * msPerHour) } none)])
    (P := fun w => w.db.events.rows.any fun ev => decide (ev.startsAt = 52 * msPerHour))
    (by decide)
  have hreached := World.reached_of_play (G := LeavesTimeToAnswer)
    (g := fun w c => decide (LeavesTimeToAnswer w c)) (fun _ _ h => of_decide_eq_true h)
    (by decide) hw
  exact ⟨w, deadlines_before_start hreached, hmoved⟩

/-- The evening is moved to hour 20, with a request to be answered by hour 26. -/
theorem deadline_after_start : ∃ w : World, Reachable World.Init World.Step w ∧
    ∃ p ∈ w.db.participants.rows, p.status = .PENDING ∧ ∃ ev ∈ w.db.events.rows,
      ev.id = p.eventId ∧ ∃ d ∈ p.hostDeadlineAt, ev.startsAt < d := by
  obtain ⟨w, hw, hlate⟩ := World.exists_of_play (c := askedCalls ++
      [callAt 3 (.update 1 7 { startsAt := some (20 * msPerHour) } none)])
    (P := fun w => decide (∃ p ∈ w.db.participants.rows, p.status = .PENDING ∧
      ∃ ev ∈ w.db.events.rows, ev.id = p.eventId ∧ ∃ d ∈ p.hostDeadlineAt, ev.startsAt < d))
    (by decide)
  exact ⟨w, World.reachable_of_play hw, of_decide_eq_true hlate⟩

end Paayatam
