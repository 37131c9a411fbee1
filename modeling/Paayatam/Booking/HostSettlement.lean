/-
  Paayatam.Booking.HostSettlement

  Paying a host, and finding the host absent.

  The decision that a host was absent takes back, under the event lock, every
  payment that stands, and stamps the event.  A settlement takes no event
  lock: its scan reads the stamp, its paying transaction does not.  (It does
  wait for the host's coin account, which the decision holds from before it
  reads the payments, so of the two transactions one is whole before the
  other.)  A payment assessed before the decision and made after it therefore
  stays, and the exclusion is a fact of the runs in which no such payment is
  made.
-/

import Paayatam.Booking.Deposit

namespace Paayatam

open Lib

/-- No payment to a host who was found absent stands. -/
def AbsentUnpaid (db : Db) : Prop :=
  ∀ ev ∈ db.events.rows, ev.hostAbsentAt ≠ none → db.HostUnpaid ev.id

instance (db : Db) (e : EventId) : Decidable (db.HostUnpaid e) :=
  inferInstanceAs (Decidable (∀ r ∈ db.coinLedger.rows, _))

instance (db : Db) : Decidable (AbsentUnpaid db) :=
  inferInstanceAs (Decidable (∀ ev ∈ db.events.rows, _))

/-- The ledger has a row of the key. -/
def Db.Recorded (db : Db) (k : CoinKey) : Prop := ∃ r ∈ db.coinLedger.rows, r.idempotencyKey = k

instance (db : Db) (k : CoinKey) : Decidable (db.Recorded k) :=
  inferInstanceAs (Decidable (∃ r ∈ db.coinLedger.rows, _))

/-- What a settlement would still pay: the deposit or the bonus, where no row of its key
    is there yet. -/
def Settlement.Outstanding (st : Settlement) (db : Db) : Prop :=
  (0 < st.refund ∧ ¬ db.Recorded (.hostDepositRefund st.eventId)) ∨
    (0 < st.bonus ∧ ¬ db.Recorded (.hostReward st.eventId))

instance (st : Settlement) (db : Db) : Decidable (st.Outstanding db) :=
  inferInstanceAs (Decidable (_ ∨ _))

/-- The settlement an operation pays. -/
def Op.pays : Op → Option Settlement
  | .pay settlement => some settlement
  | _ => none

/-- Nothing is paid for an event whose host was found absent. -/
def PaysPresent (w : World) (c : Call) : Prop :=
  ∀ st ∈ c.op.pays, ∀ ev ∈ w.db.events.rows, ev.id = st.eventId → ev.hostAbsentAt ≠ none →
    ¬ st.Outstanding w.db

instance (w : World) (c : Call) : Decidable (PaysPresent w c) :=
  inferInstanceAs (Decidable (∀ st ∈ c.op.pays, _))

/-! ## One change -/

section Step

variable {env : Env} {k : Kind} {s s' : Db}

/-- Only a settlement pays a host. -/
theorem Change.pays_no_host (h : Change env k s s') (hk : ∀ e, k ≠ .pay e) :
    LedgerGrows (fun r => ∀ e, ¬ HostPayment e r) s s' := by
  cases h with
  | books _ _ hl | create _ _ _ _ _ _ hl | withdrawRequest _ _ _ _ _ _ hl
  | withdrawSeat _ _ _ _ _ hl | complete _ _ hl | absent _ _ _ _ _ _ hl | overturn _ _ _ _ hl
  | callOff _ _ _ _ hl | stamp _ _ _ hl => exact hl.mono fun r hr => hr.not_hostPayment
  | pay _ _ hl => exact absurd rfl (hk _)
  | request _ _ hp hl =>
      refine hl.mono fun r hr e hpay => ?_
      have hkey := hr.2.2
      rcases hpay with hpay | hpay <;> rw [hkey] at hpay <;> cases hpay
  | close _ _ _ _ _ _ _ hl | lapse _ _ _ _ _ _ hl =>
      exact hl.mono fun r hr => hr.ordinary.not_hostPayment
  | seat _ _ _ _ _ hl | seed _ _ _ hl | fill _ _ _ _ hl | retire _ _ _ _ _ hl | edit _ _ _ _ _ hl
  | review _ _ _ _ hl => exact .of_eq hl

/-- An event is stamped by the decision, and by nothing else. -/
theorem EventMove.hostAbsentAt {ev ev' : EventRow} (h : EventMove env s k ev ev') :
    ev'.hostAbsentAt = ev.hostAbsentAt ∨ k = .stamp ev.id := by
  cases h with
  | stamped => exact .inr rfl
  | _ => exact .inl rfl

/-- The decision leaves no payment of its event standing. -/
theorem Change.stamp_unpaid {e : EventId} (h : Change env (.stamp e) s s') (hs : s.Linked) :
    s'.HostUnpaid e := by
  cases h with
  | stamp _ _ _ _ hunpaid => exact hunpaid hs

theorem AbsentUnpaid.change (h : AbsentUnpaid s) (hs : s.Linked) (hc : Change env k s s')
    (hk : ∀ e, k ≠ .pay e) : AbsentUnpaid s' := by
  intro x hx hstamp
  rcases hc.event_origin hx with ⟨ev, hev, hmove⟩ | ⟨-, -, hnone, -, -⟩
  · rw [hmove.id]
    cases hmove.hostAbsentAt with
    | inl hsame =>
        rw [hsame] at hstamp
        exact (h ev hev hstamp).grow (hc.pays_no_host hk) fun r hr => hr ev.id
    | inr hkind =>
        subst hkind
        exact hc.stamp_unpaid hs
  · exact absurd hnone hstamp

/-! ## A payment -/

/-- A settlement pays what it says, under the key of the half it pays. -/
def PaidBy (st : Settlement) (r : CoinLedgerRow) : Prop :=
  (0 < st.refund ∧ r.idempotencyKey = .hostDepositRefund st.eventId) ∨
    (0 < st.bonus ∧ r.idempotencyKey = .hostReward st.eventId)

theorem payHost_paid {st : Settlement} {amount n : Int} {type : CoinLedgerType} {reason : String}
    {key : CoinKey} (hforward : ∀ l, key ≠ .reversal l)
    (h : Runs (payHost env st amount type reason key) s n s') :
    s'.events = s.events ∧
      LedgerGrows (fun r => 0 < amount ∧ r.idempotencyKey = key) s s' := by
  rw [payHost, runs_ite] at h
  rcases h with ⟨hpos, h⟩ | ⟨-, h⟩
  · simp only [runs_bind, runs_pure] at h
    obtain ⟨_, _, happly, -, rfl⟩ := h
    have hbooks := applyCoins_books happly ⟨rfl, hforward⟩
    exact ⟨hbooks.events, hbooks.ledger.mono fun r hr => ⟨hpos, hr.2.2.1⟩⟩
  · rw [runs_pure] at h
    rw [h.2]
    exact ⟨rfl, .of_eq rfl⟩

theorem paySettlement_paid {st : Settlement} {n : Int} (h : Runs (paySettlement env st) s n s') :
    s'.events = s.events ∧ LedgerGrows (PaidBy st) s s' := by
  simp only [paySettlement, runs_bind (m := payHost _ _ _ _ _ _)] at h
  obtain ⟨_, s₁, hrefund, _, s₂, hbonus, h⟩ := h
  obtain ⟨he₁, hl₁⟩ := payHost_paid (by simp) hrefund
  obtain ⟨he₂, hl₂⟩ := payHost_paid (by simp) hbonus
  have hledger : LedgerGrows (PaidBy st) s s₂ :=
    (hl₁.mono fun _ hr => .inl hr).trans (hl₂.mono fun _ hr => .inr hr)
  rcases runs_ite.1 h with ⟨-, h⟩ | ⟨-, h⟩
  · rw [runs_pure] at h
    rw [h.2]
    exact ⟨he₂.trans he₁, hledger⟩
  · rw [runs_emit_bind, runs_pure] at h
    rw [h.2]
    exact ⟨he₂.trans he₁, hledger⟩

/-- A key that is recorded is not paid again. -/
theorem LedgerGrows.recorded {P : CoinLedgerRow → Prop} (h : LedgerGrows P s s') {k : CoinKey}
    (hk : s.Recorded k) {r : CoinLedgerRow} (hr : r ∈ s'.coinLedger.rows)
    (hrk : r.idempotencyKey = k) : r ∈ s.coinLedger.rows := by
  obtain ⟨x, hx, hxk⟩ := hk
  have hcollide : Row.collide r x = true := by
    simp [Row.collide, hrk, hxk]
  rw [Table.eq_of_collide hr (h.mem hx) hcollide]
  exact hx

/-- A settlement with nothing outstanding, or of another event, pays a host nothing. -/
theorem HostUnpaid.pay {st : Settlement} {e : EventId} (h : s.HostUnpaid e)
    (hl : LedgerGrows (PaidBy st) s s') (hst : st.eventId = e → ¬ st.Outstanding s) :
    s'.HostUnpaid e := by
  intro r hr hpay
  have hold : r ∈ s.coinLedger.rows := by
    cases hl.mem_or_new hr with
    | inl hold => exact hold
    | inr hnew =>
        have hevent : st.eventId = e := by
          rcases hnew with ⟨-, hk⟩ | ⟨-, hk⟩ <;> rcases hpay with hp | hp <;> rw [hk] at hp <;>
            cases hp <;> rfl
        have hnone := hst hevent
        unfold Settlement.Outstanding at hnone
        push Not at hnone
        cases hnew with
        | inl hnew => exact hl.recorded (hnone.1 hnew.1) hr hnew.2
        | inr hnew => exact hl.recorded (hnone.2 hnew.1) hr hnew.2
  exact hl.isReversed (h r hold hpay)

end Step

/-! ## Runs -/

/-- What the runs carry. -/
structure SettlementInvariant (db : Db) : Prop where
  linked : db.Linked
  unpaid : AbsentUnpaid db

theorem Op.pays_of_does {op : Op} {e : EventId} (h : op.Does (.pay e)) :
    ∃ st, op = .pay st := by
  cases op <;> simp_all [Op.Does]

theorem SettlementInvariant.step {w w' : World} {c : Call} (h : SettlementInvariant w.db)
    (hstep : w.Step c w') (hguard : PaysPresent w c) : SettlementInvariant w'.db := by
  have heffect := World.step_effect hstep
  have hlinked : w'.db.Linked := by
    rcases heffect with hc | ⟨k, -, hc⟩
    · exact hc.change.ledger.linked h.linked
    · exact hc.change.ledger.linked h.linked
  refine ⟨hlinked, ?_⟩
  cases hop : c.op.pays with
  | none =>
      rcases heffect with hc | ⟨k, hk, hc⟩
      · exact h.unpaid.change h.linked hc.change (by simp)
      · refine h.unpaid.change h.linked hc.change ?_
        rintro e rfl
        obtain ⟨st, hst⟩ := Op.pays_of_does hk
        simp [hst, Op.pays] at hop
  | some st =>
      have hpay : c.op = .pay st := by
        cases hc : c.op with
        | pay st' =>
            rw [hc] at hop
            rw [Option.some.inj hop]
        | _ => simp [hc, Op.pays] at hop
      obtain ⟨-, -, rfl⟩ := World.step_iff.1 hstep
      rcases commit_cases (c.op.act c.env) w.db with ⟨_, hruns⟩ | hsame
      · rw [hpay] at hruns
        obtain ⟨_, hruns⟩ := runs_drop.1 hruns
        obtain ⟨he, hl⟩ := paySettlement_paid hruns
        intro ev hev hstamp
        have hdb : (w.after c).db = commit (Op.act c.env (.pay st)) w.db := by
          rw [← hpay]
          rfl
        rw [hdb] at hev ⊢
        rw [he] at hev
        refine HostUnpaid.pay (h.unpaid ev hev hstamp) hl fun hid => ?_
        exact hguard st hop ev hev hid.symm hstamp
      · change AbsentUnpaid (commit (c.op.act c.env) w.db)
        rw [hsame]
        exact h.unpaid

theorem SettlementInvariant.initial {w : World} (h : w.Init) : SettlementInvariant w.db := by
  rw [h.1]
  exact ⟨by simp [Db.Linked, Db.initial], by simp [AbsentUnpaid, Db.initial]⟩

/-- While no settlement pays for an event after its host was found absent, no payment to
    an absent host stands. -/
theorem absent_host_unpaid {w : World} (h : World.Reached PaysPresent w) : AbsentUnpaid w.db := by
  have hinv : SettlementInvariant w.db := by
    refine Reach.invariant (I := fun w : World => SettlementInvariant w.db) (fun _ => .initial) ?_ h
    exact fun _ _ _ hI hg hstep => hI.step hstep hg
  exact hinv.unpaid

/-- An evening with one guest is over, settled, and assessed for its host. -/
def assessedCalls : List Call :=
  [callAt 0 (.moveCoins (onboardingReward 1 100)), callAt 0 (.moveCoins (onboardingReward 2 100)),
   callAt 1 (.create 1 (demoEvent 100 2) false 7), callAt 2 (.join 2 7 21), callAt 3 (.accept 1 21),
   callAt 103 (.retireOne 7), callAt 121 .scanAttendance, callAt 121 (.settleOne 7),
   callAt 122 .scanRewards, callAt 122 (.assess 7 1)]

/-- The deposit that evening returns. -/
def eveningSettlement : Settlement :=
  { eventId := 7, hostUserId := 1, attendees := 1, refund := 10, bonus := 0 }

/-- The guest reports the host absent, and a moderator agrees. -/
def foundAbsentCalls : List Call :=
  [callAt 123 (.reportHostAbsent 2 21 "The host did not come."),
   callAt 124 (.decideClaim 9 true 1 true "The host was away.")]

/-- The deposit is paid before the decision, which takes it back. -/
theorem absent_host_unpaid_evening : ∃ w,
    World.play (assessedCalls ++ [callAt 122 (.pay eveningSettlement)] ++ foundAbsentCalls) =
      some w ∧ AbsentUnpaid w.db ∧
    w.db.events.rows.any (fun ev => ev.hostAbsentAt.isSome) = true ∧
    w.db.coinLedger.rows.any (fun r => decide (HostPayment 7 r)) = true := by
  have hplay : (World.play (assessedCalls ++ [callAt 122 (.pay eveningSettlement)] ++
      foundAbsentCalls)).any (fun w => w.db.events.rows.any (fun ev => ev.hostAbsentAt.isSome) &&
        w.db.coinLedger.rows.any fun r => decide (HostPayment 7 r)) = true := by decide +kernel
  obtain ⟨w, hw, hend⟩ := World.exists_of_play hplay
  rw [Bool.and_eq_true] at hend
  have hreached : World.Reached PaysPresent w :=
    World.reached_of_play (g := fun w c => decide (PaysPresent w c))
      (fun _ _ h => of_decide_eq_true h) (by decide +kernel) hw
  exact ⟨w, hw, absent_host_unpaid hreached, hend.1, hend.2⟩

/-- A settlement assessed before the report is paid after the decision. -/
theorem absent_host_paid :
    ¬ ∀ w, World.Reached (fun _ _ => True) w → AbsentUnpaid w.db := by
  intro h
  have hplay : (World.play (assessedCalls ++ foundAbsentCalls ++
      [callAt 125 (.pay eveningSettlement)])).any (fun w => !decide (AbsentUnpaid w.db)) = true := by
    decide +kernel
  obtain ⟨w, hw, hnot⟩ := World.exists_of_play hplay
  have hreached : World.Reached (fun _ _ => True) w := World.reachable_of_play hw
  simp [h w hreached] at hnot

end Paayatam
