/-
  Paayatam.Booking.Deposit

  What a request costs is a deposit: a guest whose participation somebody else
  ended has it back, in full and once.

  A rejection, an expiry and a lapsed waiting-list place give the charge back
  themselves, and a called-off event gives it back to the guests who sat.  The
  requests a cancellation finds unanswered expire without it, so the invariant
  is one of runs in which no event is called off while it holds the charge of
  somebody still waiting for an answer.
-/

import Paayatam.Booking.Seats

namespace Paayatam

open Lib

/-- A status the guest did not bring about. -/
def ParticipantStatus.EndedByOthers (st : ParticipantStatus) : Prop :=
  st = .REJECTED ∨ st = .EXPIRED ∨ st = .CANCELLED_BY_HOST

instance (st : ParticipantStatus) : Decidable st.EndedByOthers :=
  inferInstanceAs (Decidable (_ ∨ _))

/-- The charge `c` came back: one row reverses it, of the opposite amount and on the
    same account. -/
def Db.ReturnedOnce (db : Db) (c : CoinLedgerRow) : Prop :=
  ∃ r ∈ db.coinLedger.rows, r.reversesLedgerId = some c.id ∧ r.amount = -c.amount ∧
    r.userId = c.userId ∧ ∀ r' ∈ db.coinLedger.rows, r'.reversesLedgerId = some c.id → r' = r

instance (db : Db) (c : CoinLedgerRow) : Decidable (db.ReturnedOnce c) :=
  inferInstanceAs (Decidable (∃ r ∈ db.coinLedger.rows, _))

/-- Every charge of the participation came back once. -/
def Db.DepositReturned (db : Db) (p : ParticipantId) : Prop :=
  ∀ c ∈ db.coinLedger.rows, JoinCharge p c → db.ReturnedOnce c

instance (db : Db) (p : ParticipantId) : Decidable (db.DepositReturned p) :=
  inferInstanceAs (Decidable (∀ c ∈ db.coinLedger.rows, _))

/-- Every participation somebody else ended has its deposit back, and no charge
    comes back twice. -/
def DepositsReturned (db : Db) : Prop :=
  (∀ p ∈ db.participants.rows, p.status.EndedByOthers → db.DepositReturned p.id) ∧
  ∀ r ∈ db.coinLedger.rows, ∀ r' ∈ db.coinLedger.rows, r.reversesLedgerId.isSome = true →
    r'.reversesLedgerId = r.reversesLedgerId → r' = r

instance (db : Db) : Decidable (DepositsReturned db) :=
  inferInstanceAs (Decidable ((∀ p ∈ db.participants.rows, _) ∧
    ∀ r ∈ db.coinLedger.rows, ∀ r' ∈ db.coinLedger.rows, _))

/-- The unique index on `reverses_ledger_id`. -/
theorem reversal_unique (db : Db) {r r' : CoinLedgerRow} (hr : r ∈ db.coinLedger.rows)
    (hr' : r' ∈ db.coinLedger.rows) (hsome : r.reversesLedgerId.isSome = true)
    (heq : r'.reversesLedgerId = r.reversesLedgerId) : r' = r :=
  Table.eq_of_collide hr' hr (by simp [Row.collide, heq, hsome])

/-- In a linked ledger a reversed charge came back in full, and once. -/
theorem Db.Linked.returnedOnce {db : Db} (h : db.Linked) {c : CoinLedgerRow}
    (hc : c ∈ db.coinLedger.rows) (hrev : db.isReversed c.id = true) : db.ReturnedOnce c := by
  simp only [Db.isReversed, List.any_eq_true, decide_eq_true_eq] at hrev
  obtain ⟨r, hr, hrl⟩ := hrev
  obtain ⟨o, ho, hid, -, huser, hamount⟩ := (h r hr).original _ hrl
  obtain rfl : o = c := Table.eq_of_key ho hc hid
  refine ⟨r, hr, hrl, hamount, huser, fun r' hr' hrl' => ?_⟩
  exact reversal_unique db hr hr' (by simp [hrl]) (hrl'.trans hrl.symm)

/-! ## One change -/

section Step

variable {env : Env} {k : Kind} {s s' : Db}

/-- A row that charges for a participation not in the database yet, if for any. -/
def ChargesNewcomer (s : Db) (r : CoinLedgerRow) : Prop :=
  r.type = .EVENT_JOIN_SPEND →
    r.amount < 0 ∧ ∀ p ∈ s.participants.rows, r.ref ≠ some (.event_participant p.id)

theorem Ordinary.chargesNewcomer {r : CoinLedgerRow} (h : Ordinary r) : ChargesNewcomer s r :=
  fun ht => absurd ht h.1

/-- The ledger only grows, and only a request charges for a participation: its own. -/
theorem Change.ledger (h : Change env k s s') : LedgerGrows (ChargesNewcomer s) s s' := by
  cases h with
  | books _ _ hl | create _ _ _ _ _ _ hl | withdrawRequest _ _ _ _ _ _ hl
  | withdrawSeat _ _ _ _ _ hl | complete _ _ hl | absent _ _ _ _ _ _ hl | overturn _ _ _ _ hl
  | callOff _ _ _ _ hl | stamp _ _ _ hl => exact hl.mono fun r hr => hr.chargesNewcomer
  | pay _ _ hl => exact hl.mono fun r hr ht => absurd ht hr.2
  | request _ _ hp hl =>
      refine hl.mono fun r hr _ => ⟨hr.2.1, fun p hpm hpr => ?_⟩
      have hnew := (Table.compatible_of_insert hp hpm).1
      rw [hr.1.2] at hpr
      simp only [Option.some.injEq, LedgerRef.event_participant.injEq] at hpr
      exact hnew hpr.symm
  | close _ _ _ _ _ _ _ hl | lapse _ _ _ _ _ _ hl =>
      exact hl.mono fun r hr => hr.ordinary.chargesNewcomer
  | seat _ _ _ _ _ hl | seed _ _ _ hl | fill _ _ _ _ hl | retire _ _ _ _ _ hl | edit _ _ _ _ _ hl
  | review _ _ _ _ hl => exact .of_eq hl

/-- Who has a deposit back keeps it. -/
theorem Change.refunded (h : Change env k s s') {p : ParticipantRow}
    (hp : p ∈ s.participants.rows) (hr : s.Refunded p.id) : s'.Refunded p.id :=
  hr.grow h.ledger fun _ hnew hj => (hnew hj.1).2 p hp hj.2

theorem Change.close_refunds {p : ParticipantId} (h : Change env (.close p) s s')
    (hs : s.Linked) : s'.Refunded p := by
  cases h with
  | close _ _ _ _ _ _ _ _ hback => exact hback hs

theorem Change.lapse_refunds {p : ParticipantId} (h : Change env (.lapse p) s s')
    (hs : s.Linked) : s'.Refunded p := by
  cases h with
  | lapse _ _ _ _ _ _ _ hback => exact hback hs

/-- A called-off event gives the guests who sat their charges back. -/
theorem Change.callOff_refunds {e : EventId} (h : Change env (.callOff e) s s') (hs : s.Linked)
    (hd : s.JoinDebits) {p : ParticipantRow} (hp : p ∈ s.participants.rows) (hpe : p.eventId = e)
    (hst : p.status = .ACCEPTED) : s'.Refunded p.id := by
  cases h with
  | callOff _ _ _ _ _ hback => exact hback hs hd p hp hpe hst

end Step

/-! ## Runs -/

/-- No event is called off while a request for it is unanswered and its charge is
    not given back. -/
def CancelsUnowed (w : World) (c : Call) : Prop :=
  ∀ e ∈ c.op.callsOff, ∀ p ∈ w.db.participants.rows, p.eventId = e →
    (p.status = .PENDING ∨ p.status = .WAITLISTED) → w.db.unrefundedJoinCharges p.id = []

instance (w : World) (c : Call) : Decidable (CancelsUnowed w c) :=
  inferInstanceAs (Decidable (∀ e ∈ c.op.callsOff, ∀ p ∈ w.db.participants.rows, _))

/-- What the runs carry. -/
structure DepositInvariant (db : Db) : Prop where
  linked : db.Linked
  debits : db.JoinDebits
  refunded : ∀ p ∈ db.participants.rows, p.status.EndedByOthers → db.Refunded p.id

/-- Nothing outstanding is everything refunded. -/
theorem Db.refunded_of_none {db : Db} {p : ParticipantId} (h : db.unrefundedJoinCharges p = []) :
    db.Refunded p := by
  intro r hr hj
  by_contra hrev
  have hmem := Db.mem_unrefundedJoinCharges.2 ⟨hr, hj, by simpa using hrev⟩
  simp [h] at hmem

/-- Under the guard every participation a change ends for its guest is refunded. -/
theorem DepositInvariant.change {env : Env} {k : Kind} {s s' : Db} (h : DepositInvariant s)
    (hc : Change env k s s')
    (hk : ∀ e, k = .callOff e → ∀ p ∈ s.participants.rows, p.eventId = e →
      (p.status = .PENDING ∨ p.status = .WAITLISTED) → s.Refunded p.id) : DepositInvariant s' where
  linked := hc.ledger.linked h.linked
  debits := h.debits.grow hc.ledger fun _ hr ht => (hr ht).1
  refunded := by
    intro x hx hended
    rcases hc.guest_origin hx with ⟨p, hp, hmove⟩ | hnew
    · rw [hmove.keeps.1]
      cases hmove with
      | same => exact hc.refunded hp (h.refunded _ hp hended)
      | close => exact hc.close_refunds h.linked
      | lapse => exact hc.lapse_refunds h.linked
      | callOff hst =>
          have hmem : (p.status = .PENDING ∨ p.status = .WAITLISTED) ∨ p.status = .ACCEPTED := by
            simpa [LIVE_PARTICIPANT_STATUSES, or_assoc] using hst
          rcases hmem with hasked | hseated
          · exact hc.refunded hp (hk _ rfl _ hp rfl hasked)
          · exact hc.callOff_refunds h.linked h.debits hp rfl hseated
      | seat | withdraw | promote | complete | absent | overturn | release =>
          rcases hended with hst | hst | hst <;> cases hst
    · have hlive := hnew.live
      rcases hended with hst | hst | hst <;> simp [hst, LIVE_PARTICIPANT_STATUSES] at hlive

theorem DepositInvariant.step {w w' : World} {c : Call} (h : DepositInvariant w.db)
    (hstep : w.Step c w') (hguard : CancelsUnowed w c) : DepositInvariant w'.db := by
  rcases World.step_effect hstep with hc | ⟨k, hk, hc⟩
  · exact h.change hc.change (by simp)
  · refine h.change hc.change ?_
    rintro e rfl p hp hpe hst
    exact Db.refunded_of_none (hguard e (Op.callsOff_of_does hk) p hp hpe hst)

theorem DepositInvariant.initial {w : World} (h : w.Init) : DepositInvariant w.db := by
  rw [h.1]
  exact ⟨by simp [Db.Linked, Db.initial], by simp [Db.JoinDebits, Db.initial],
    by simp [Db.initial]⟩

theorem DepositInvariant.deposits {db : Db} (h : DepositInvariant db) : DepositsReturned db := by
  refine ⟨fun p hp hended c hc hj => ?_, fun r hr r' hr' => reversal_unique db hr hr'⟩
  exact h.linked.returnedOnce hc (h.refunded p hp hended c hc hj)

/-- An operation that calls an event off makes that change when it commits. -/
theorem Op.callOff_change {env : Env} {op : Op} {e : EventId} {s s' : Db}
    (hop : op.callsOff = some e) (h : Runs (op.act env) s () s') :
    Change env (.callOff e) s s' := by
  cases op with
  | cancelByHost host e₀ reason =>
      obtain rfl : e₀ = e := by simpa [Op.callsOff] using hop
      obtain ⟨_, h⟩ := runs_drop.1 h
      exact (cancelByHost_effect h).change
  | _ => simp [Op.callsOff] at hop

/-- A cancellation under the guard leaves no live guest's charge standing. -/
theorem DepositInvariant.callOff {w : World} {c : Call} {e : EventId} {s' : Db}
    (h : DepositInvariant w.db) (hguard : CancelsUnowed w c) (hop : c.op.callsOff = some e)
    (hc : Change c.env (.callOff e) w.db s') {p : ParticipantRow} (hp : p ∈ w.db.participants.rows)
    (hpe : p.eventId = e) (hlive : p.status ∈ LIVE_PARTICIPANT_STATUSES) : s'.Refunded p.id := by
  have hmem : (p.status = .PENDING ∨ p.status = .WAITLISTED) ∨ p.status = .ACCEPTED := by
    simpa [LIVE_PARTICIPANT_STATUSES, or_assoc] using hlive
  rcases hmem with hasked | hseated
  · exact hc.refunded hp (Db.refunded_of_none (hguard e hop p hp hpe hasked))
  · exact hc.callOff_refunds h.linked h.debits hp hpe hseated

/-- In every run in which no event is called off owing an unanswered request its
    charge, every deposit is back with the guests whom others turned away, and a
    cancellation by the host gives every live guest of the event theirs. -/
theorem deposits_returned {w : World} (h : World.Reached CancelsUnowed w) :
    DepositsReturned w.db ∧
    ∀ c w' e, CancelsUnowed w c → c.op.callsOff = some e → w.Step c w' → w.commits c = true →
      ∀ p ∈ w.db.participants.rows, p.eventId = e → p.status ∈ LIVE_PARTICIPANT_STATUSES →
        w'.db.DepositReturned p.id := by
  have hinv : DepositInvariant w.db := by
    refine Reach.invariant (I := fun w : World => DepositInvariant w.db) (fun _ => .initial) ?_ h
    exact fun _ _ _ hI hg hstep => hI.step hstep hg
  refine ⟨hinv.deposits, ?_⟩
  intro c w' e hguard hop hstep hcommits p hp hpe hlive r hr hj
  have hc := Op.callOff_change hop (World.runs_of_commits hstep hcommits)
  exact (hc.ledger.linked hinv.linked).returnedOnce hr
    (hinv.callOff hguard hop hc hp hpe hlive r hr hj)

/-- Two guests ask for a seat; the host accepts one of them and rejects the other. -/
def answeredCalls : List Call :=
  [callAt 0 (.moveCoins (onboardingReward 1 100)), callAt 0 (.moveCoins (onboardingReward 2 100)),
   callAt 0 (.moveCoins (onboardingReward 3 100)), callAt 1 (.create 1 (demoEvent 100 2) false 7),
   callAt 2 (.join 2 7 21), callAt 3 (.join 3 7 22), callAt 4 (.accept 1 21),
   callAt 5 (.reject 1 22)]

/-- The rejected guest has the deposit back, and a cancellation returns the other. -/
theorem deposits_returned_answered : ∃ w w', World.play answeredCalls = some w ∧
    w.Step (callAt 6 (.cancelByHost 1 7 none)) w' ∧ DepositsReturned w.db ∧
    w'.db.DepositReturned 21 ∧
    w'.db.coinLedger.rows.any (fun r => decide (JoinCharge 21 r)) = true := by
  have hplay : (World.play answeredCalls).any (fun w =>
      (w.exec (callAt 6 (.cancelByHost 1 7 none))).any (fun w' =>
        w'.db.coinLedger.rows.any fun r => decide (JoinCharge 21 r)) &&
      w.commits (callAt 6 (.cancelByHost 1 7 none)) &&
      decide (CancelsUnowed w (callAt 6 (.cancelByHost 1 7 none))) &&
      w.db.participants.rows.any fun p => decide (p.id = 21 ∧ p.eventId = 7 ∧
        p.status ∈ LIVE_PARTICIPANT_STATUSES)) = true := by decide +kernel
  obtain ⟨w, hw, hend⟩ := World.exists_of_play hplay
  simp only [Bool.and_eq_true, Option.any_eq_true, decide_eq_true_eq] at hend
  obtain ⟨⟨⟨⟨w', hstep, hcharged⟩, hcommits⟩, hguard⟩, hguest⟩ := hend
  obtain ⟨p, hp, hprop⟩ := List.any_eq_true.1 hguest
  obtain ⟨hid, hpe, hlive⟩ := of_decide_eq_true hprop
  have hreached : World.Reached CancelsUnowed w :=
    World.reached_of_play (g := fun w c => decide (CancelsUnowed w c))
      (fun _ _ h => of_decide_eq_true h) (by decide +kernel) hw
  obtain ⟨hdeposits, hoff⟩ := deposits_returned hreached
  refine ⟨w, w', hw, hstep, hdeposits, ?_, hcharged⟩
  rw [← hid]
  exact hoff _ w' 7 hguard rfl hstep hcommits p hp hpe hlive

/-- A request is charged for, and its event is called off before the host answers. -/
def unansweredCalls : List Call :=
  [callAt 0 (.moveCoins (onboardingReward 1 100)), callAt 0 (.moveCoins (onboardingReward 2 100)),
   callAt 1 (.create 1 (demoEvent 100 2) false 7), callAt 2 (.join 2 7 21),
   callAt 3 (.cancelByHost 1 7 none)]

/-- The request expires, and its charge stands. -/
theorem deposit_kept_from_unanswered :
    ¬ ∀ w, World.Reached (fun _ _ => True) w → DepositsReturned w.db := by
  intro h
  have hplay : (World.play unansweredCalls).any (fun w => !decide (DepositsReturned w.db)) = true := by
    decide +kernel
  obtain ⟨w, hw, hnot⟩ := World.exists_of_play hplay
  have hreached : World.Reached (fun _ _ => True) w := World.reachable_of_play hw
  simp [h w hreached] at hnot

end Paayatam
