/-
  Paayatam.Booking.HostRefund

  What a host gets back of what an event cost to register and to publish.

  No path of the system reverses a registration or a publication charge: a
  called-off event, a refused one and an absent host all leave them standing.
  What comes back is the deposit, once, and it was assessed from the charges
  themselves, which only ever grow.  So the sum over every path is bounded by
  the charges.
-/

import Paayatam.Booking.HostSettlement
import Paayatam.Booking.MarkedAbsence

namespace Paayatam

open Lib

/-- A charge for registering or publishing the event `e`. -/
def eventCharge (e : EventId) (r : CoinLedgerRow) : Bool :=
  match r.idempotencyKey with
  | .eventCreateSpend e' => decide (e' = e)
  | .channelPostSpend e' _ => decide (e' = e)
  | _ => false

theorem eventCharge_iff {e : EventId} {r : CoinLedgerRow} : eventCharge e r = true ↔
    r.idempotencyKey = .eventCreateSpend e ∨ ∃ n, r.idempotencyKey = .channelPostSpend e n := by
  unfold eventCharge
  cases r.idempotencyKey <;> simp

/-- The charges of an event. -/
def Db.eventCharges (db : Db) (e : EventId) : List CoinLedgerRow :=
  db.coinLedger.rows.filter (eventCharge e)

/-- What registering and publishing the event cost. -/
def Db.charged (db : Db) (e : EventId) : Int := -((db.eventCharges e).map (·.amount)).sum

/-- Rows that give a charge of the event back. -/
def Db.chargeReversals (db : Db) (e : EventId) : List CoinLedgerRow :=
  db.coinLedger.rows.filter fun r =>
    (db.eventCharges e).any fun o => decide (r.reversesLedgerId = some o.id)

/-- Deposit refunds of the event. -/
def Db.depositRefunds (db : Db) (e : EventId) : List CoinLedgerRow :=
  db.coinLedger.rows.filter fun r => decide (r.idempotencyKey = .hostDepositRefund e)

/-- Bonuses of the event. -/
def Db.hostBonuses (db : Db) (e : EventId) : List CoinLedgerRow :=
  db.coinLedger.rows.filter fun r => decide (r.idempotencyKey = .hostReward e)

/-- What came back to the host against the charges of the event. -/
def Db.returned (db : Db) (e : EventId) : Int :=
  ((db.depositRefunds e).map (·.amount)).sum + ((db.chargeReversals e).map (·.amount)).sum

/-- Charges stand and take coins; what was assessed and what was paid of a deposit is
    covered by them. -/
structure HostBooks (w : World) : Prop where
  charges : ∀ r ∈ w.db.coinLedger.rows, ∀ e, eventCharge e r = true →
    r.ref = some (.event e) ∧ r.amount < 0 ∧ w.db.isReversed r.id = false
  assessed : ∀ st ∈ w.assessed, st.refund ≤ w.db.charged st.eventId
  paid : ∀ r ∈ w.db.coinLedger.rows, ∀ e, r.idempotencyKey = .hostDepositRefund e →
    r.amount ≤ w.db.charged e

section Step

variable {env : Env} {op : Op} {s s' : Db}

theorem sum_map_nonpos {l : List CoinLedgerRow} (h : ∀ r ∈ l, r.amount < 0) :
    (l.map (·.amount)).sum ≤ 0 := by
  induction l with
  | nil => simp
  | cons r l ih =>
      have hr := h r (by simp)
      have hl := ih fun x hx => h x (by simp [hx])
      simp only [List.map_cons, List.sum_cons]
      omega

/-- An event's charges only grow. -/
theorem charged_mono {P : CoinLedgerRow → Prop} (h : LedgerGrows P s s')
    (hneg : ∀ r ∈ s'.coinLedger.rows, ∀ e, eventCharge e r = true → r.amount < 0) (e : EventId) :
    s.charged e ≤ s'.charged e := by
  obtain ⟨added, hrows, -⟩ := h
  have hadded : ((added.filter (eventCharge e)).map (·.amount)).sum ≤ 0 := by
    refine sum_map_nonpos fun r hr => ?_
    obtain ⟨hr, hcharge⟩ := List.mem_filter.1 hr
    exact hneg r (by rw [hrows]; exact List.mem_append_right _ hr) e hcharge
  unfold Db.charged Db.eventCharges
  rw [hrows, List.filter_append, List.map_append, List.sum_append]
  omega

/-- A forward row under a charge's key spends on its event. -/
theorem Op.Charges.eventCharge {r : CoinLedgerRow} {e : EventId} (h : op.Charges s s' r)
    (hk : eventCharge e r = true) : r.ref = some (.event e) ∧ r.amount < 0 := by
  rw [eventCharge_iff] at hk
  cases op with
  | create =>
      rcases h with h | h
      · rw [h.key] at hk
        obtain rfl : _ = e := by simpa using hk
        exact ⟨h.ref, h.spent⟩
      · rw [h.key] at hk
        obtain rfl : _ = e := by simpa using hk
        exact ⟨h.ref, h.spent⟩
  | cancel | markNoShow =>
      obtain ⟨q, -, -, hrow⟩ := h
      simp [hrow.key] at hk
  | cancelByHost => simp [PenaltyRow.key h] at hk
  | join => simp [h.2.2] at hk
  | decideClaim =>
      obtain ⟨ev, -, -, hrow⟩ := h
      simp [hrow.key] at hk
  | pay settlement => rcases h.half with ⟨h, -⟩ | ⟨h, -⟩ <;> simp [h] at hk
  | moveCoins m =>
      obtain ⟨⟨-, -, hkey, href, -⟩, hamount⟩ := h
      rw [hkey] at hk
      rcases hk with hk | ⟨n, hk⟩
      · rcases m.key_ok with ⟨k, hm⟩ | ⟨e', n, hm⟩ <;> simp [hm] at hk
      · obtain ⟨hneg, -, hev⟩ := m.post_ok e n hk
        rw [href, hamount]
        exact ⟨hev, hneg⟩
  | _ => exact h.elim

/-- A deposit is paid by a settlement, at the figure it was assessed at. -/
theorem Op.Charges.deposit {r : CoinLedgerRow} {e : EventId} (h : op.Charges s s' r)
    (hk : r.idempotencyKey = .hostDepositRefund e) :
    ∃ st, op = .pay st ∧ st.eventId = e ∧ r.amount = st.refund := by
  cases op with
  | pay settlement =>
      rcases h.half with ⟨hkey, hamount⟩ | ⟨hkey, -⟩
      · rw [hk] at hkey
        exact ⟨settlement, rfl, (CoinKey.hostDepositRefund.inj hkey).symm, hamount⟩
      · simp [hk] at hkey
  | create => rcases h with h | h <;> simp [h.key] at hk
  | cancel | markNoShow =>
      obtain ⟨q, -, -, hrow⟩ := h
      simp [hrow.key] at hk
  | cancelByHost => simp [PenaltyRow.key h] at hk
  | join => simp [h.2.2] at hk
  | decideClaim =>
      obtain ⟨ev, -, -, hrow⟩ := h
      simp [hrow.key] at hk
  | moveCoins m =>
      rw [h.1.2.2.1] at hk
      rcases m.key_ok with ⟨k, hm⟩ | ⟨e', n, hm⟩ <;> simp [hm] at hk
  | _ => exact h.elim

/-- No operation takes a charge of an event back. -/
theorem Op.TakesBack.not_eventCharge {o : CoinLedgerRow} {e : EventId} (hm : Marked s)
    (h : op.TakesBack s o) (hsub : ∀ r ∈ s.coinLedger.rows, r ∈ s'.coinLedger.rows)
    (ho : o ∈ s'.coinLedger.rows) (href : o.ref = some (.event e)) : eventCharge e o = false := by
  have hpart : ∀ p, o.ref = some (.event_participant p) → eventCharge e o = false := by
    intro p hp
    rw [hp] at href
    cases href
  cases op with
  | reject | expireOne | expireWaitlistedOne => exact hpart _ h.2
  | cancelByHost =>
      obtain ⟨⟨p, hp⟩, -⟩ := h
      exact hpart p hp
  | decideClaim =>
      rcases h with ⟨⟨p, hp⟩, -⟩ | ⟨e', hpay⟩ | ⟨p, hp, -, hl⟩
      · exact hpart p hp
      · rcases hpay with hpay | hpay <;> simp [eventCharge, hpay]
      · -- the row a participation points at is its own penalty
        have hfound := hm.points p hp
        rw [hl] at hfound
        obtain ⟨x, hx, hid⟩ := Option.map_eq_some_iff.1 hfound.symm
        obtain ⟨hxm, hxk⟩ := Db.mem_of_ledgerByKey hx
        obtain rfl : x = o := Table.eq_of_key (hsub x hxm) ho hid
        simp [eventCharge, hxk]
  | _ => exact h.elim

theorem charges_step (hs : s.Linked) (hm : Marked s) (hrun : Runs (op.act env) s () s')
    (h : ∀ r ∈ s.coinLedger.rows, ∀ e, eventCharge e r = true →
      r.ref = some (.event e) ∧ r.amount < 0 ∧ s.isReversed r.id = false) :
    ∀ r ∈ s'.coinLedger.rows, ∀ e, eventCharge e r = true →
      r.ref = some (.event e) ∧ r.amount < 0 ∧ s'.isReversed r.id = false := by
  have hposts := Op.posts hs hrun
  have hs' : s'.Linked := hposts.coins.linked hs
  intro r hr e hcharge
  have hspend : r.ref = some (.event e) ∧ r.amount < 0 := by
    rcases hposts.coins.mem_or_new hr with hold | ⟨-, hnew⟩ | ⟨o, -, hnew, -⟩
    · exact ⟨(h r hold e hcharge).1, (h r hold e hcharge).2.1⟩
    · exact hnew.eventCharge hcharge
    · have hreversal := ((hs' r hr).key_iff o.id).2 hnew
      rw [eventCharge_iff, hreversal] at hcharge
      simp at hcharge
  refine ⟨hspend.1, hspend.2, ?_⟩
  rw [Bool.eq_false_iff]
  intro hrev
  rcases hposts.reversed_or_new hr hrev with hbefore | htaken
  · -- what was reversed before was there before
    have hreversed := hbefore
    simp only [Db.isReversed, List.any_eq_true, decide_eq_true_eq] at hbefore
    obtain ⟨x, hx, hlink⟩ := hbefore
    obtain ⟨o, ho, hid, -⟩ := (hs x hx).original _ hlink
    obtain rfl : o = r := Table.eq_of_key (hposts.coins.mem ho) hr hid
    rw [(h o ho e hcharge).2.2] at hreversed
    cases hreversed
  · have hnot := htaken.not_eventCharge (e := e) hm (fun x hx => hposts.coins.mem hx) hr hspend.1
    rw [hcharge] at hnot
    cases hnot

/-- Debits left out of a sum only raise it. -/
theorem sum_filter_anti {P Q : CoinLedgerRow → Bool} {l : List CoinLedgerRow}
    (hPQ : ∀ r, P r = true → Q r = true) (hneg : ∀ r ∈ l, Q r = true → r.amount < 0) :
    ((l.filter Q).map (·.amount)).sum ≤ ((l.filter P).map (·.amount)).sum := by
  induction l with
  | nil => simp
  | cons r l ih =>
      have hrest := ih fun x hx => hneg x (by simp [hx])
      cases hP : P r with
      | true =>
          have hQ := hPQ r hP
          simp only [List.filter_cons, hP, hQ, if_true, List.map_cons, List.sum_cons]
          omega
      | false =>
          cases hQ : Q r with
          | true =>
              have hr := hneg r (by simp) hQ
              simp only [List.filter_cons, hP, hQ, if_true, List.map_cons, List.sum_cons]
              simp only [Bool.false_eq_true, if_false]
              omega
          | false =>
              simpa [List.filter_cons, hP, hQ] using hrest

/-- No event was charged less than nothing. -/
theorem charged_nonneg (hneg : ∀ r ∈ s.coinLedger.rows, ∀ e, eventCharge e r = true → r.amount < 0)
    (e : EventId) : 0 ≤ s.charged e := by
  have hsum : ((s.eventCharges e).map (·.amount)).sum ≤ 0 := by
    refine sum_map_nonpos fun r hr => ?_
    obtain ⟨hr, hcharge⟩ := List.mem_filter.1 hr
    exact hneg r hr e hcharge
  unfold Db.charged
  omega

/-- `refundFor` stays within the charges it reads. -/
theorem refundFor_le (hneg : ∀ r ∈ s.coinLedger.rows, ∀ e, eventCharge e r = true → r.amount < 0)
    (e : EventId) : refundFor env s e ≤ s.charged e := by
  have hnonneg := charged_nonneg hneg e
  simp only [refundFor]
  split
  · exact hnonneg
  · -- it reads the first publication alone, which is less than all of them
    have hfewer := sum_filter_anti (l := s.coinLedger.rows) (Q := eventCharge e)
      (P := fun r => decide (r.idempotencyKey = .eventCreateSpend e) ||
        decide (r.idempotencyKey = .channelPostSpend e 0)) (fun r hr => ?_) fun r hr hc => hneg r hr e hc
    · unfold Db.charged Db.eventCharges at hnonneg ⊢
      omega
    · rw [Bool.or_eq_true, decide_eq_true_eq, decide_eq_true_eq] at hr
      rw [eventCharge_iff]
      exact hr.imp_right fun hr => ⟨0, hr⟩

/-- A settlement is assessed within the charges it reads. -/
theorem assess_refund {e : EventId} {host : UserId} {st : Settlement}
    (hneg : ∀ r ∈ s.coinLedger.rows, ∀ e, eventCharge e r = true → r.amount < 0)
    (h : assess env s e host = some st) : st.eventId = e ∧ st.refund ≤ s.charged e := by
  simp only [assess, ite_eq_iff, reduceCtorEq, and_false, false_or, Option.some.injEq] at h
  obtain ⟨-, -, -, -, rfl⟩ := h
  refine ⟨rfl, ?_⟩
  show (if _ then refundFor env s e else 0) ≤ s.charged e
  split
  · exact refundFor_le hneg e
  · exact charged_nonneg hneg e

end Step

/-! ## Runs -/

namespace HostBooks

variable {w w' : World} {c : Call}

theorem negative (h : HostBooks w) :
    ∀ r ∈ w.db.coinLedger.rows, ∀ e, eventCharge e r = true → r.amount < 0 :=
  fun r hr e hc => (h.charges r hr e hc).2.1

/-- What a committed operation leaves of the books, apart from what was assessed. -/
theorem runs (h : HostBooks w) (hs : w.db.Linked) (hm : Marked w.db) {op : Op} {env : Env} {s' : Db}
    (hadmits : w.admits op = true) (hrun : Runs (op.act env) w.db () s') :
    (∀ r ∈ s'.coinLedger.rows, ∀ e, eventCharge e r = true →
      r.ref = some (.event e) ∧ r.amount < 0 ∧ s'.isReversed r.id = false) ∧
    (∀ e, w.db.charged e ≤ s'.charged e) ∧
    ∀ r ∈ s'.coinLedger.rows, ∀ e, r.idempotencyKey = .hostDepositRefund e →
      r.amount ≤ s'.charged e := by
  have hposts := Op.posts hs hrun
  have hcharges := charges_step hs hm hrun h.charges
  have hmono : ∀ e, w.db.charged e ≤ s'.charged e :=
    charged_mono hposts.coins fun r hr e hc => (hcharges r hr e hc).2.1
  refine ⟨hcharges, hmono, fun r hr e hk => ?_⟩
  rcases hposts.coins.mem_or_new hr with hold | ⟨-, hnew⟩ | ⟨o, -, hnew, -⟩
  · exact (h.paid r hold e hk).trans (hmono e)
  · obtain ⟨st, rfl, hev, hamount⟩ := hnew.deposit hk
    have hst : st ∈ w.assessed := by simpa [World.admits] using hadmits
    rw [hamount, ← hev]
    exact (h.assessed st hst).trans (hmono st.eventId)
  · have hs' : s'.Linked := hposts.coins.linked hs
    have hreversal := ((hs' r hr).key_iff o.id).2 hnew
    rw [hk] at hreversal
    cases hreversal

theorem step (h : HostBooks w) (hs : w.db.Linked) (hm : Marked w.db) (hstep : w.Step c w') :
    HostBooks w' := by
  obtain ⟨-, hadmits, rfl⟩ := World.step_iff.1 hstep
  have hdb : (∀ r ∈ (w.after c).db.coinLedger.rows, ∀ e, eventCharge e r = true →
        r.ref = some (.event e) ∧ r.amount < 0 ∧ (w.after c).db.isReversed r.id = false) ∧
      (∀ e, w.db.charged e ≤ (w.after c).db.charged e) ∧
      ∀ r ∈ (w.after c).db.coinLedger.rows, ∀ e, r.idempotencyKey = .hostDepositRefund e →
        r.amount ≤ (w.after c).db.charged e := by
    rcases commit_cases (c.op.act c.env) w.db with ⟨_, hruns⟩ | hsame
    · exact h.runs hs hm hadmits hruns
    · have heq : (w.after c).db = w.db := hsame
      rw [heq]
      exact ⟨h.charges, fun _ => le_refl _, h.paid⟩
  obtain ⟨hcharges, hmono, hpaid⟩ := hdb
  refine ⟨hcharges, fun st hst => ?_, hpaid⟩
  have hold : st ∈ w.assessed ∨ ∃ e host, Paayatam.assess c.env w.db e host = some st := by
    cases hop : c.op with
    | assess e host =>
        simp only [World.after, hop, List.mem_append, Option.mem_toList] at hst
        exact hst.imp_right fun hnew => ⟨e, host, hnew⟩
    | _ =>
        left
        simpa only [World.after, hop] using hst
  rcases hold with hold | ⟨e, host, hnew⟩
  · exact (h.assessed st hold).trans (hmono _)
  · obtain ⟨rfl, hle⟩ := assess_refund h.negative hnew
    exact hle.trans (hmono _)

theorem initial (h : w.Init) : HostBooks w := by
  obtain ⟨hdb, -, -, hassessed⟩ := h
  refine ⟨?_, ?_, ?_⟩ <;> simp [hdb, hassessed, Db.initial]

/-- Nothing of what an event cost was reversed. -/
theorem chargeReversals_nil (h : HostBooks w) (e : EventId) : w.db.chargeReversals e = [] := by
  rw [Db.chargeReversals, List.filter_eq_nil_iff]
  intro r hr
  rw [List.any_eq_true]
  rintro ⟨o, ho, hlink⟩
  rw [decide_eq_true_eq] at hlink
  obtain ⟨ho, hcharge⟩ := List.mem_filter.1 ho
  have hstands := (h.charges o ho e hcharge).2.2
  simp only [Db.isReversed, List.any_eq_false, decide_eq_true_eq] at hstands
  exact hstands r hr hlink

/-- Rows of one key are at most one row. -/
theorem atMostOne (db : Db) (k : CoinKey) :
    db.coinLedger.rows.filter (fun r => decide (r.idempotencyKey = k)) = [] ∨
      ∃ r ∈ db.coinLedger.rows, r.idempotencyKey = k ∧
        db.coinLedger.rows.filter (fun r => decide (r.idempotencyKey = k)) = [r] := by
  cases hl : db.coinLedger.rows.filter (fun r => decide (r.idempotencyKey = k)) with
  | nil => exact .inl rfl
  | cons r rest =>
      right
      have hmem : ∀ x ∈ r :: rest, x ∈ db.coinLedger.rows ∧ x.idempotencyKey = k := by
        intro x hx
        rw [← hl] at hx
        simpa using hx
      have hnodup : (r :: rest).Nodup := by
        rw [← hl]
        exact (nodup_rows _).filter _
      obtain ⟨hr, hrk⟩ := hmem r (by simp)
      have hnil : rest = [] := by
        rw [List.eq_nil_iff_forall_not_mem]
        intro x hx
        obtain ⟨hx', hxk⟩ := hmem x (by simp [hx])
        have hsame : x = r := Db.coin_of_key hx' hr (hxk.trans hrk.symm)
        rw [hsame] at hx
        exact (List.nodup_cons.1 hnodup).1 hx
      exact ⟨r, hr, hrk, by rw [hnil]⟩

end HostBooks

/-- In every run the host of an event is paid at most one deposit and one bonus for it, and
    what comes back against its charges never exceeds them. -/
theorem host_settlement_mints_nothing {w : World} (h : Reachable World.Init World.Step w)
    (e : EventId) : (w.db.depositRefunds e).length ≤ 1 ∧ (w.db.hostBonuses e).length ≤ 1 ∧
      w.db.returned e ≤ w.db.charged e := by
  have hbooks : HostBooks w := by
    refine Reach.invariant_of (J := fun w : World => w.db.Linked ∧ Marked w.db)
      (fun w hw => World.marked hw) (fun _ => .initial) ?_ h
    rintro w c w' hI ⟨hs, hm⟩ - - hstep
    exact hI.step hs hm hstep
  have hone := HostBooks.atMostOne w.db (.hostDepositRefund e)
  refine ⟨?_, ?_, ?_⟩
  · rcases hone with hnil | ⟨r, -, -, hsingle⟩
    · simp [Db.depositRefunds, hnil]
    · simp [Db.depositRefunds, hsingle]
  · rcases HostBooks.atMostOne w.db (.hostReward e) with hnil | ⟨r, -, -, hsingle⟩
    · simp [Db.hostBonuses, hnil]
    · simp [Db.hostBonuses, hsingle]
  · rw [Db.returned, hbooks.chargeReversals_nil e]
    rcases hone with hnil | ⟨r, hr, hrk, hsingle⟩
    · simpa [Db.depositRefunds, hnil] using charged_nonneg hbooks.negative e
    · simpa [Db.depositRefunds, hsingle] using hbooks.paid r hr e hrk

/-- A free evening with one guest: the ten coins it cost to register come back, and no more. -/
theorem host_settlement_mints_nothing_evening : ∃ w,
    World.play (assessedCalls ++ [callAt 122 (.pay eveningSettlement)]) = some w ∧
      w.db.returned 7 = 10 ∧ w.db.returned 7 ≤ w.db.charged 7 := by
  have hplay : (World.play (assessedCalls ++ [callAt 122 (.pay eveningSettlement)])).any
      (fun w => decide (w.db.returned 7 = 10)) = true := by
    decide +kernel
  obtain ⟨w, hw, hten⟩ := World.exists_of_play hplay
  have hbound := (host_settlement_mints_nothing (World.reachable_of_play hw) 7).2.2
  exact ⟨w, hw, of_decide_eq_true hten, hbound⟩

end Paayatam
