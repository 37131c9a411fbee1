/-
  Paayatam.Booking.Covered

  A guest who sits can always stand up: in every reachable state the counter of
  an event is at least the number of its ACCEPTED guests.

  The exact equation of `Booking.Seats` needs runs in which no seed guest is
  planted in a called-off event and no event is edited.  The inequality does
  not: whatever breaks the equation leaves the counter too high.
-/

import Paayatam.Booking.Queue
import Paayatam.Booking.Seats

namespace Paayatam

open Lib

/-- The counter of every event in `t` is at least the number of its guests in `p` who
    are ACCEPTED. -/
def CoveredBy (t : Table EventRow) (p : Table ParticipantRow) : Prop :=
  ∀ ev ∈ t.rows, (guestCount p ev.id [.ACCEPTED] : Int) ≤ ev.acceptedCount

theorem CoveredBy.same {t : Table EventRow} {p p' : Table ParticipantRow} (h : CoveredBy t p)
    (hcount : ∀ e, (guestCount p' e [.ACCEPTED] : Int) ≤ guestCount p e [.ACCEPTED]) :
    CoveredBy t p' := by
  intro ev hev
  have hbefore := h ev hev
  have hnow := hcount ev.id
  omega

/-- The counter of one event moves up by at least as much as the number of its seated
    guests. -/
theorem CoveredBy.rewrites {t t' : Table EventRow} {p p' : Table ParticipantRow} {ev : EventRow}
    {f : EventRow → EventRow} {n : Int} (h : CoveredBy t p) (he : t.Rewrites ev f t')
    (hid : (f ev).id = ev.id) (hn : (f ev).acceptedCount = ev.acceptedCount + n)
    (hcount : ∀ e, (guestCount p' e [.ACCEPTED] : Int) ≤
      guestCount p e [.ACCEPTED] + if ev.id = e then n else 0) : CoveredBy t' p' := by
  intro x hx
  rcases he.cases hx with rfl | ⟨hx, hne⟩
  · have hbefore := h ev he.mem
    have hnow := hcount ev.id
    rw [if_pos rfl] at hnow
    rw [hid, hn]
    omega
  · have hkey : ev.id ≠ x.id := (he.key_ne hx hne).symm
    have hbefore := h x hx
    have hnow := hcount x.id
    rw [if_neg hkey] at hnow
    omega

theorem CoveredBy.kept {t t' : Table EventRow} {p p' : Table ParticipantRow} {ev : EventRow}
    {f : EventRow → EventRow} (h : CoveredBy t p) (he : t.Rewrites ev f t')
    (hid : (f ev).id = ev.id) (hn : (f ev).acceptedCount = ev.acceptedCount)
    (hcount : ∀ e, (guestCount p' e [.ACCEPTED] : Int) ≤ guestCount p e [.ACCEPTED]) :
    CoveredBy t' p' :=
  h.rewrites he hid (n := 0) (by omega) fun e => by
    have hnow := hcount e
    rw [ite_self]
    omega

section Step

variable {env : Env} {k : Kind} {s s' : Db}

theorem weight_accepted_nonneg (st : ParticipantStatus) : 0 ≤ weight [.ACCEPTED] st := by
  cases st <;> decide

/-- A guest rewritten to `st`, which is not ACCEPTED. -/
theorem seated_rewrites (st : ParticipantStatus) {p : ParticipantRow}
    {f : ParticipantRow → ParticipantRow} {t t' : Table ParticipantRow}
    (hp : t.Rewrites p f t') (hid : (f p).eventId = p.eventId) (hst : (f p).status = st)
    (hout : weight [.ACCEPTED] st = 0) (e : EventId) :
    (guestCount t' e [.ACCEPTED] : Int) ≤ guestCount t e [.ACCEPTED] := by
  have hcount := guestCount_rewrites e [.ACCEPTED] hp hid
  have hbefore := weight_accepted_nonneg p.status
  rw [hst, hout] at hcount
  split at hcount <;> omega

theorem seated_fill {ev : EventRow} {t t' : Table ParticipantRow} (h : Promotes env ev t t')
    (e : EventId) : guestCount t' e [.ACCEPTED] = guestCount t e [.ACCEPTED] :=
  guestCount_fill e [.ACCEPTED] h rfl

/-- Guests whose evening is over leave the seats. -/
theorem seated_rewritesAll {q : ParticipantRow → Bool} {f : ParticipantRow → ParticipantRow}
    {t t' : Table ParticipantRow} (h : t.RewritesAll q f t')
    (hout : ∀ r, q r = true → (f r).status ≠ .ACCEPTED) (e : EventId) :
    guestCount t' e [.ACCEPTED] ≤ guestCount t e [.ACCEPTED] := by
  rw [guestCount, h.countP, guestCount]
  refine List.countP_mono_left fun r _ hr => ?_
  by_cases hq : q r = true
  · rw [Table.updateIf, if_pos hq, isGuestOf_iff] at hr
    exact absurd (List.mem_singleton.1 hr.2) (hout r hq)
  · rw [Table.updateIf, if_neg hq] at hr
    exact hr

theorem attended_not_accepted {q : ParticipantRow → Bool} (r : ParticipantRow) (_ : q r = true) :
    r.attendedNow.status ≠ .ACCEPTED := by
  show ParticipantStatus.COMPLETED ≠ .ACCEPTED
  decide

/-- Every change keeps the counters high enough. -/
theorem Change.covered (h : Change env k s s') (hs : CoveredBy s.events s.participants)
    (hanchored : Anchored s) : CoveredBy s'.events s'.participants := by
  cases h with
  | books he hp | pay he hp => rwa [he, hp]
  | create hid hcount _ _ he hp =>
      intro x hx
      have hnew := fun q hq => (Table.compatible_of_insert he (x := q) hq).1
      rw [he, List.mem_append, List.mem_singleton] at hx
      rw [hp]
      rcases hx with hx | rfl
      · exact hs x hx
      · -- nobody takes part in an event that has just been created
        have hnobody : guestCount s.participants x.id [.ACCEPTED] = 0 := by
          rw [guestCount_eq_zero]
          intro p hpm hpe
          obtain ⟨ev, hev, hid'⟩ := hanchored p hpm
          exact absurd (hid'.trans hpe) (hnew ev hev)
        rw [hcount, hnobody]
        exact le_refl 0
  | @request ev user newId _ _ hlive he hp =>
      refine hs.kept he rfl rfl fun e => ?_
      have hcount := guestCount_insert e [.ACCEPTED] hp
      have hout : weight [.ACCEPTED] (requestRow env ev user newId (roomToAsk s ev)).status = 0 := by
        rcases requestRow_status env ev user newId (roomToAsk s ev) with hst | hst <;>
          rw [hst] <;> rfl
      rw [hout, ite_self] at hcount
      omega
  | @seat ev p grace _ _ hev hst _ he hp =>
      refine hs.rewrites he rfl (n := 1) rfl fun e => ?_
      have hcount := guestCount_rewrites e [.ACCEPTED] hp rfl
      have hbefore : weight [.ACCEPTED] p.status = 0 := by
        rcases hst with hst | hst <;> rw [hst] <;> rfl
      rw [hbefore, ← hev] at hcount
      exact le_of_eq hcount
  | @seed ev user newId grace _ _ _ he hp =>
      refine hs.rewrites he rfl (n := 1) rfl fun e => ?_
      exact le_of_eq (guestCount_insert e [.ACCEPTED] hp)
  | close _ _ hst hf he hp hfill =>
      rw [he]
      refine hs.same fun e => ?_
      rw [seated_fill hfill e]
      rcases hf with rfl | rfl
      · exact seated_rewrites .REJECTED hp rfl rfl rfl e
      · exact seated_rewrites .EXPIRED hp rfl rfl rfl e
  | lapse _ _ hst _ he hp =>
      rw [he]
      exact hs.same (seated_rewrites .EXPIRED hp rfl rfl rfl)
  | withdrawRequest _ _ hst he hp hfill =>
      rw [he]
      refine hs.same fun e => ?_
      rw [seated_fill hfill e]
      exact seated_rewrites .CANCELLED_BY_PARTICIPANT hp rfl rfl rfl e
  | @withdrawSeat ev p _ _ _ _ _ _ hid hst he hp hfill =>
      refine hs.rewrites he rfl (n := -1) rfl fun e => ?_
      have hcount := guestCount_rewrites e [.ACCEPTED] hp rfl
      rw [hst, ← hid] at hcount
      rw [seated_fill hfill e]
      exact le_of_eq hcount
  | fill _ _ he hfill =>
      rw [he]
      exact hs.same fun e => by rw [seated_fill hfill e]
  | complete he hp =>
      rw [he]
      exact hs.same fun e => by
        have hcount := seated_rewritesAll hp attended_not_accepted e
        omega
  | absent _ _ hst _ he hp =>
      rw [he]
      exact hs.same (seated_rewrites .NO_SHOW hp rfl rfl rfl)
  | overturn hst _ he hp =>
      rw [he]
      exact hs.same (seated_rewrites .COMPLETED hp rfl rfl rfl)
  | @callOff ev reason _ _ _ _ he hp =>
      have hout : ∀ r, isGuestOf ev.id LIVE_PARTICIPANT_STATUSES r = true →
          (r.calledOff r.status env.now reason).status ≠ .ACCEPTED := by
        intro r _
        show cancelledStatus r.status ≠ .ACCEPTED
        unfold cancelledStatus
        split <;> decide
      intro x hx
      rcases he.cases hx with rfl | ⟨hx, hne⟩
      · -- nobody of a called-off event sits
        have hnobody : guestCount s'.participants ev.id [.ACCEPTED] = 0 := by
          rw [guestCount_eq_zero]
          intro q hq hqe hst
          rcases hp.cases hq with ⟨r, -, hlive, rfl⟩ | ⟨-, hnot⟩
          · exact hout r hlive (List.mem_singleton.1 hst)
          · rw [List.mem_singleton] at hst
            refine isGuestOf_eq_false.1 hnot hqe ?_
            rw [hst]
            decide
        show (guestCount s'.participants ev.id [.ACCEPTED] : Int) ≤ 0
        rw [hnobody]
        exact le_refl 0
      · have hbefore := hs x hx
        have hnow := seated_rewritesAll hp hout x.id
        omega
  | retire _ _ _ he hp | edit _ _ _ he hp | review _ _ he hp =>
      exact hs.kept he rfl rfl fun e => by rw [hp]
  | stamp _ he hp =>
      exact hs.kept he rfl rfl fun e => by
        have hcount := seated_rewritesAll hp attended_not_accepted e
        omega

end Step

/-- In every reachable state the counters cover the guests who sit, and every
    participation has its event. -/
theorem World.covered {w : World} (h : Reachable World.Init World.Step w) :
    CoveredBy w.db.events w.db.participants ∧ Anchored w.db := by
  refine Reach.invariant (I := fun w : World =>
    CoveredBy w.db.events w.db.participants ∧ Anchored w.db) ?_ ?_ h
  · intro w hw
    refine ⟨?_, .initial hw⟩
    rw [hw.1]
    simp [CoveredBy, Db.initial]
  · rintro w c w' ⟨hcovered, hanchored⟩ - hstep
    refine ⟨?_, hanchored.step hstep⟩
    rcases World.step_effect hstep with hc | ⟨k, -, hc⟩
    · exact hc.change.covered hcovered hanchored
    · exact hc.change.covered hcovered hanchored

/-- An event at which somebody sits has a seat to give back. -/
theorem CoveredBy.seat {t : Table EventRow} {q : Table ParticipantRow} (h : CoveredBy t q)
    {ev : EventRow} {p : ParticipantRow} (hev : ev ∈ t.rows) (hp : p ∈ q.rows)
    (hid : p.eventId = ev.id) (hst : p.status = .ACCEPTED) : 1 ≤ ev.acceptedCount := by
  have hcovered := h ev hev
  have hcount : guestCount q ev.id [.ACCEPTED] ≠ 0 := by
    intro hzero
    refine guestCount_eq_zero.1 hzero p hp hid ?_
    rw [hst]
    decide
  omega

end Paayatam
