/-
  Paayatam.Booking.Grounded

  What participations, scans and disputes say about the time.

  A participation that counts as attended or absent belongs to an event that
  is over: the attendance scan and `markNoShow` look at the clock, and an
  overturned absence was one before.  Nothing re-checks this later, so it is
  an invariant of runs in which no edit moves an event's hours.
-/

import Paayatam.Booking.Frame

namespace Paayatam

open Lib

/-- The evening is over for this participation: attended, or absent. -/
def ParticipantStatus.Finished (st : ParticipantStatus) : Prop := st = .COMPLETED ∨ st = .NO_SHOW

/-- No further transition, and not a seat that was kept. -/
def ParticipantStatus.Ended (st : ParticipantStatus) : Prop :=
  st = .REJECTED ∨ st = .EXPIRED ∨ st = .CANCELLED_BY_PARTICIPANT ∨ st = .CANCELLED_BY_HOST

theorem ParticipantStatus.live_or_finished_or_ended (st : ParticipantStatus) :
    st ∈ LIVE_PARTICIPANT_STATUSES ∨ st.Finished ∨ st.Ended := by
  cases st <;> simp [LIVE_PARTICIPANT_STATUSES, Finished, Ended]

theorem ParticipantStatus.not_finished_of_live {st : ParticipantStatus}
    (h : st ∈ LIVE_PARTICIPANT_STATUSES) : ¬ st.Finished := by
  cases st <;> simp_all [LIVE_PARTICIPANT_STATUSES, Finished]

/-- An ended participation stays as it is. -/
theorem GuestMove.ended {env : Env} {s : Db} {k : Kind} {p p' : ParticipantRow}
    (h : GuestMove env s k p p') (hp : p.status.Ended) : p'.status = p.status := by
  rcases h.edge with heq | hedge
  · exact heq
  · rcases hp with hp | hp | hp | hp <;>
      simp [hp, canTransition, PARTICIPANT_TRANSITIONS] at hedge

theorem GuestMove.finished {env : Env} {s : Db} {k : Kind} {p p' : ParticipantRow}
    (h : GuestMove env s k p p') (hp : p.status.Finished) : p'.status.Finished := by
  rcases h.edge with heq | hedge
  · exact heq ▸ hp
  · rcases hp with hp | hp
    · simp [hp, canTransition, PARTICIPANT_TRANSITIONS] at hedge
    · left
      simpa [hp, canTransition, PARTICIPANT_TRANSITIONS] using hedge

/-- Participations have an event, finished ones an event that is over by
    `clock`, queued events are over, and disputes are about finished
    participations. -/
structure Grounded (clock : Instant) (queue : List EventId) (db : Db) : Prop where
  anchored : ∀ p ∈ db.participants.rows, ∃ ev ∈ db.events.rows, ev.id = p.eventId
  ended : ∀ p ∈ db.participants.rows, p.status.Finished →
    ∃ ev ∈ db.events.rows, ev.id = p.eventId ∧ ev.endsAt ≤ clock
  queued : ∀ e ∈ queue, ∃ ev ∈ db.events.rows, ev.id = e ∧ ev.endsAt ≤ clock
  disputed : ∀ c ∈ db.cases.rows, c.trigger = .DISPUTE → c.subjectType = .PARTICIPATION →
    ∃ p ∈ db.participants.rows, p.id = c.subjectId ∧ p.status.Finished

/-- Every participation's event exists, whatever the change. -/
theorem Change.anchored {env : Env} {k : Kind} {s s' : Db} (h : Change env k s s')
    (hs : ∀ p ∈ s.participants.rows, ∃ ev ∈ s.events.rows, ev.id = p.eventId) :
    ∀ p ∈ s'.participants.rows, ∃ ev ∈ s'.events.rows, ev.id = p.eventId := by
  intro x hx
  have hold : ∃ ev ∈ s.events.rows, ev.id = x.eventId := by
    rcases h.guest_origin hx with ⟨p, hp, hmove⟩ | hnew
    · rw [hmove.keeps.2.1]
      exact hs p hp
    · cases hnew with
      | request hev _ _ | seed hev _ => exact ⟨_, hev, rfl⟩
  obtain ⟨ev, hev, hid⟩ := hold
  obtain ⟨ev', hev', hmove⟩ := h.event_fate hev
  exact ⟨ev', hev', hmove.id.trans hid⟩

namespace Grounded

variable {clock : Instant} {queue : List EventId} {env : Env} {k : Kind} {s s' : Db}

/-- The event of an over participation, seen from the event's row. -/
theorem endsAt_le (h : Grounded clock queue s) {p : ParticipantRow} {ev : EventRow}
    (hp : p ∈ s.participants.rows) (hst : p.status.Finished) (hev : ev ∈ s.events.rows)
    (hid : ev.id = p.eventId) : ev.endsAt ≤ clock := by
  obtain ⟨ev₀, hev₀, hid₀, hover⟩ := h.ended p hp hst
  obtain rfl : ev₀ = ev := Table.eq_of_key hev₀ hev (hid₀.trans hid.symm)
  exact hover

theorem change (h : Grounded clock queue s) (hc : Effect env k s s') (hnow : clock ≤ env.now)
    (hk : ∀ e c, k ≠ .edit e c) (hqueue : ∀ e, k = .complete e → e ∈ queue) :
    Grounded env.now queue s' where
  anchored := hc.change.anchored h.anchored
  ended := by
    intro x hx hfin
    have hold : ∃ ev ∈ s.events.rows, ev.id = x.eventId ∧ ev.endsAt ≤ env.now := by
      rcases hc.change.guest_origin hx with ⟨p, hp, hmove⟩ | hnew
      · have hpast : p.status.Finished →
            ∃ ev ∈ s.events.rows, ev.id = p.eventId ∧ ev.endsAt ≤ env.now := by
          intro hst
          obtain ⟨ev, hev, hid, hover⟩ := h.ended p hp hst
          exact ⟨ev, hev, hid, hover.trans hnow⟩
        rw [hmove.keeps.2.1]
        cases hmove with
        | same => exact hpast hfin
        | complete _ =>
            obtain ⟨ev, hev, hid, hover⟩ := h.queued _ (hqueue _ rfl)
            exact ⟨ev, hev, hid, hover.trans hnow⟩
        | absent _ hev hid hover => exact ⟨_, hev, hid, hover⟩
        | overturn _ hcase =>
            -- the dispute was filed about this very participation
            obtain ⟨c, hcm, ht, hsub, hid⟩ := hcase
            obtain ⟨q, hq, hqid, hst⟩ := h.disputed c hcm ht hsub
            obtain rfl : q = p := Table.eq_of_key hq hp (hqid.trans hid)
            exact hpast hst
        | release hst => exact hpast (.inr hst)
        | close _ hp' => rcases hp' with rfl | rfl <;> rcases hfin with hfin | hfin <;> cases hfin
        | callOff hst =>
            rcases hfin with hfin | hfin <;>
              simp [ParticipantRow.calledOff, cancelledStatus] at hfin <;> split at hfin <;>
              cases hfin
        | seat | lapse | withdraw | promote => rcases hfin with hfin | hfin <;> cases hfin
      · exact absurd hfin (ParticipantStatus.not_finished_of_live hnew.live)
    obtain ⟨ev, hev, hid, hover⟩ := hold
    obtain ⟨ev', hev', hmove⟩ := hc.change.event_fate hev
    have hsame := hmove.sameEvening hk
    exact ⟨ev', hev', hsame.id.trans hid, hsame.endsAt ▸ hover⟩
  queued := by
    intro e he
    obtain ⟨ev, hev, hid, hover⟩ := h.queued e he
    obtain ⟨ev', hev', hmove⟩ := hc.change.event_fate hev
    have hsame := hmove.sameEvening hk
    exact ⟨ev', hev', hsame.id.trans hid, hsame.endsAt ▸ hover.trans hnow⟩
  disputed := by
    intro c hcm ht hsub
    have hold : ∃ p ∈ s.participants.rows, p.id = c.subjectId ∧ p.status.Finished := by
      rcases hc.disputes c hcm ht hsub with ⟨c₀, hc₀, ht₀, hs₀, hid₀⟩ | ⟨p, hp, hid, hst⟩
      · rw [← hid₀]
        exact h.disputed c₀ hc₀ ht₀ hs₀
      · exact ⟨p, hp, hid, .inr hst⟩
    obtain ⟨p, hp, hid, hst⟩ := hold
    obtain ⟨x, hx, hmove⟩ := hc.change.guest_fate hp
    exact ⟨x, hx, hmove.keeps.1.trans hid, hmove.finished hst⟩

end Grounded

/-- A scan lists only events that are over. -/
theorem attendanceCandidates_over {env : Env} {db : Db} {e : EventId}
    (h : e ∈ attendanceCandidates env db) :
    ∃ ev ∈ db.events.rows, ev.id = e ∧ ev.endsAt ≤ env.now := by
  simp only [attendanceCandidates, List.mem_map, List.mem_filter, Bool.and_eq_true,
    decide_eq_true_eq] at h
  obtain ⟨ev, ⟨hev, ⟨-, hover⟩, -⟩, hid⟩ := h
  have hdelay : 0 ≤ (env.settings.participation_settlement_delay_hours : Int) * msPerHour := by
    unfold msPerHour
    omega
  exact ⟨ev, hev, hid, hover.trans (Int.sub_le_self _ hdelay)⟩

/-- One step without edits keeps participations, scans and disputes grounded. -/
theorem Grounded.step {w w' : World} {c : Call} (h : Grounded w.clock w.settleQueue w.db)
    (hstep : w.Step c w') (hedit : c.op.edits = none) : Grounded w'.clock w'.settleQueue w'.db := by
  have heffect := World.step_effect hstep
  obtain ⟨hnow, hadmits, rfl⟩ := World.step_iff.1 hstep
  have hdb : Grounded c.env.now w.settleQueue (w.after c).db := by
    rcases heffect with hc | ⟨k, hk, hc⟩
    · exact h.change hc hnow (by simp) (by simp)
    · refine h.change hc hnow ?_ ?_
      · rintro e cap rfl
        simp [Op.edits_of_does hk] at hedit
      · rintro e rfl
        rw [Op.complete_of_does hk] at hadmits
        simpa [World.admits] using hadmits
  refine ⟨hdb.anchored, hdb.ended, ?_, hdb.disputed⟩
  -- only a scan adds to the queue, and it writes nothing
  intro e he
  by_cases hscan : c.op = .scanAttendance
  · simp only [World.after, hscan, List.mem_append] at he
    rcases he with he | he
    · exact hdb.queued e he
    · obtain ⟨ev, hev, hid, hover⟩ := attendanceCandidates_over he
      have hsame : (w.after c).db = w.db := by
        change commit (c.op.act c.env) w.db = w.db
        rw [hscan]
        exact commit_of_runs (runs_pure.2 ⟨rfl, rfl⟩)
      rw [hsame]
      exact ⟨ev, hev, hid, hover⟩
  · have hq : (w.after c).settleQueue = w.settleQueue := by
      unfold World.after
      split <;> simp_all
    exact hdb.queued e (hq ▸ he)

theorem Grounded.initial {w : World} (h : w.Init) : Grounded w.clock w.settleQueue w.db := by
  obtain ⟨hdb, hq, -, -⟩ := h
  rw [hdb, hq]
  exact ⟨by simp [Db.initial], by simp [Db.initial], by simp, by simp [Db.initial]⟩

end Paayatam
