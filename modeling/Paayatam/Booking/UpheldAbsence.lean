/-
  Paayatam.Booking.UpheldAbsence

  Whether the decision that a host was absent can be carried out.

  The decision charges the host first, capped at the balance, and then takes
  back what the host was paid for the evening.  The second is a debit that
  may not overdraw.  So a host whose balance does not cover the penalty and
  the payments together blocks the whole decision, the refunds of the guests
  included, also when the payments were never spent.  Nothing else in the
  decision can fail.
-/

import Paayatam.Economy.Funds
import Paayatam.Booking.HostSettlement
import Paayatam.Booking.MarkedAbsence

namespace Paayatam

open Lib

/-- The event `e` is hosted by `u`. -/
def Db.Hosts (db : Db) (e : EventId) (u : UserId) : Prop :=
  ∃ ev ∈ db.events.rows, ev.id = e ∧ ev.hostUserId = u

/-- Join charges are debits, payments to hosts are credits of theirs, and the penalty of
    an absent host was charged with the stamp. -/
structure HostAccounts (w : World) : Prop where
  debits : w.db.JoinDebits
  listed : ∀ x ∈ w.rewardQueue, w.db.Hosts x.1 x.2
  assessed : ∀ st ∈ w.assessed, w.db.Hosts st.eventId st.hostUserId
  paid : ∀ r ∈ w.db.coinLedger.rows, ∀ e, HostPayment e r → 0 < r.amount ∧ w.db.Hosts e r.userId
  penalized : ∀ r ∈ w.db.coinLedger.rows, ∀ e, r.idempotencyKey = .hostAbsentPenalty e →
    ∃ ev ∈ w.db.events.rows, ev.id = e ∧ ev.hostAbsentAt ≠ none

section Step

variable {env : Env} {k : Kind} {op : Op} {s s' : Db}

/-- An event keeps its host. -/
theorem EventMove.hostUserId {ev ev' : EventRow} (h : EventMove env s k ev ev') :
    ev'.hostUserId = ev.hostUserId := by
  cases h <;> rfl

/-- A stamp stays. -/
theorem EventMove.stays_absent {ev ev' : EventRow} (h : EventMove env s k ev ev')
    (hstamp : ev.hostAbsentAt ≠ none) : ev'.hostAbsentAt ≠ none := by
  cases h with
  | stamped hnone => exact absurd hnone hstamp
  | _ => exact hstamp

theorem Change.hosts (h : Change env k s s') {e : EventId} {u : UserId} (hh : s.Hosts e u) :
    s'.Hosts e u := by
  obtain ⟨ev, hev, hid, hu⟩ := hh
  obtain ⟨ev', hev', hmove⟩ := h.event_fate hev
  exact ⟨ev', hev', hmove.id.trans hid, hmove.hostUserId.trans hu⟩

/-- A payment to a host is a half of a settlement that was assessed. -/
theorem Op.Charges.hostPayment {r : CoinLedgerRow} {e : EventId} (h : op.Charges s s' r)
    (hpay : HostPayment e r) : ∃ st, op = .pay st ∧ st.eventId = e ∧ PaymentRow st r := by
  cases op with
  | pay settlement =>
      refine ⟨settlement, rfl, ?_, h⟩
      rcases PaymentRow.half h with ⟨hk, -⟩ | ⟨hk, -⟩ <;> rcases hpay with hp | hp <;>
        rw [hk] at hp <;> cases hp <;> rfl
  | create => rcases h with h | h <;> rcases hpay with hp | hp <;> simp [h.key] at hp
  | cancel | markNoShow =>
      obtain ⟨q, -, -, hrow⟩ := h
      rcases hpay with hp | hp <;> simp [hrow.key] at hp
  | cancelByHost => rcases hpay with hp | hp <;> simp [PenaltyRow.key h] at hp
  | join => rcases hpay with hp | hp <;> simp [h.2.2] at hp
  | decideClaim =>
      obtain ⟨ev, -, -, hrow⟩ := h
      rcases hpay with hp | hp <;> simp [hrow.key] at hp
  | moveCoins m =>
      have hkey := h.1.2.2.1
      rcases m.key_ok with ⟨k, hm⟩ | ⟨e', n, hm⟩ <;> rw [hm] at hkey <;>
        rcases hpay with hp | hp <;> simp [hkey] at hp
  | _ => exact h.elim

/-- The penalty of an absent host is charged by the decision that stamps the event. -/
theorem Op.Charges.hostAbsent {r : CoinLedgerRow} {e : EventId} (h : op.Charges s s' r)
    (hk : r.idempotencyKey = .hostAbsentPenalty e) :
    ∃ ev ∈ s'.events.rows, ev.id = e ∧ ev.hostAbsentAt ≠ none := by
  cases op with
  | decideClaim =>
      obtain ⟨ev, hev, hstamp, hrow⟩ := h
      rw [hrow.key] at hk
      exact ⟨ev, hev, CoinKey.hostAbsentPenalty.inj hk, hstamp⟩
  | create => rcases h with h | h <;> simp [h.key] at hk
  | cancel | markNoShow =>
      obtain ⟨q, -, -, hrow⟩ := h
      simp [hrow.key] at hk
  | cancelByHost => simp [PenaltyRow.key h] at hk
  | join => simp [h.2.2] at hk
  | pay settlement => rcases PaymentRow.half h with ⟨hp, -⟩ | ⟨hp, -⟩ <;> simp [hp] at hk
  | moveCoins m =>
      rw [h.1.2.2.1] at hk
      rcases m.key_ok with ⟨k, hm⟩ | ⟨e', n, hm⟩ <;> simp [hm] at hk
  | _ => exact h.elim

/-- What a reward scan lists is hosted by whom it says. -/
theorem settleCandidates_hosts {x : EventId × UserId} (hx : x ∈ settleCandidates env s) :
    s.Hosts x.1 x.2 := by
  unfold settleCandidates at hx
  simp only at hx
  split at hx
  · cases hx
  · obtain ⟨ev, hev, rfl⟩ := List.mem_map.1 hx
    exact ⟨ev, (List.mem_filter.1 hev).1, rfl, rfl⟩

theorem assess_host {e : EventId} {host : UserId} {st : Settlement}
    (h : assess env s e host = some st) : st.eventId = e ∧ st.hostUserId = host := by
  simp only [assess, ite_eq_iff, reduceCtorEq, and_false, false_or, Option.some.injEq] at h
  obtain ⟨-, -, -, -, rfl⟩ := h
  exact ⟨rfl, rfl⟩

end Step

namespace HostAccounts

variable {w w' : World} {c : Call}

/-- What one committed operation leaves of the two ledger clauses. -/
theorem runs (h : HostAccounts w) (hs : w.db.Linked) {op : Op} {env : Env} {s' : Db} {k : Kind}
    (hadmits : w.admits op = true) (hrun : Runs (op.act env) w.db () s')
    (hchange : Change env k w.db s') :
    (∀ r ∈ s'.coinLedger.rows, ∀ e, HostPayment e r → 0 < r.amount ∧ s'.Hosts e r.userId) ∧
    ∀ r ∈ s'.coinLedger.rows, ∀ e, r.idempotencyKey = .hostAbsentPenalty e →
      ∃ ev ∈ s'.events.rows, ev.id = e ∧ ev.hostAbsentAt ≠ none := by
  have hposts := Op.posts hs hrun
  have hs' : s'.Linked := hposts.coins.linked hs
  refine ⟨fun r hr e hpay => ?_, fun r hr e hk => ?_⟩
  · rcases hposts.coins.mem_or_new hr with hold | ⟨-, hnew⟩ | ⟨o, -, hnew, -⟩
    · obtain ⟨hpos, hhost⟩ := h.paid r hold e hpay
      exact ⟨hpos, hchange.hosts hhost⟩
    · obtain ⟨st, rfl, rfl, hrow⟩ := hnew.hostPayment hpay
      have hst : st ∈ w.assessed := by simpa [World.admits] using hadmits
      refine ⟨hrow.paid, ?_⟩
      rw [hrow.user]
      exact hchange.hosts (h.assessed st hst)
    · have hreversal := ((hs' r hr).key_iff o.id).2 hnew
      rcases hpay with hp | hp <;> rw [hp] at hreversal <;> cases hreversal
  · rcases hposts.coins.mem_or_new hr with hold | ⟨-, hnew⟩ | ⟨o, -, hnew, -⟩
    · obtain ⟨ev, hev, hid, hstamp⟩ := h.penalized r hold e hk
      obtain ⟨ev', hev', hmove⟩ := hchange.event_fate hev
      exact ⟨ev', hev', hmove.id.trans hid, hmove.stays_absent hstamp⟩
    · exact hnew.hostAbsent hk
    · have hreversal := ((hs' r hr).key_iff o.id).2 hnew
      rw [hk] at hreversal
      cases hreversal

theorem step (h : HostAccounts w) (hs : w.db.Linked) (hstep : w.Step c w') : HostAccounts w' := by
  have hchange : ∃ k, Change c.env k w.db w'.db := by
    rcases World.step_effect hstep with he | ⟨k, -, he⟩
    · exact ⟨_, he.change⟩
    · exact ⟨k, he.change⟩
  obtain ⟨k, hchange⟩ := hchange
  obtain ⟨-, hadmits, rfl⟩ := World.step_iff.1 hstep
  have hrows : (∀ r ∈ (w.after c).db.coinLedger.rows, ∀ e, HostPayment e r →
        0 < r.amount ∧ (w.after c).db.Hosts e r.userId) ∧
      ∀ r ∈ (w.after c).db.coinLedger.rows, ∀ e, r.idempotencyKey = .hostAbsentPenalty e →
        ∃ ev ∈ (w.after c).db.events.rows, ev.id = e ∧ ev.hostAbsentAt ≠ none := by
    rcases commit_cases (c.op.act c.env) w.db with ⟨_, hruns⟩ | hsame
    · exact h.runs hs hadmits hruns hchange
    · have heq : (w.after c).db = w.db := hsame
      rw [heq]
      exact ⟨h.paid, h.penalized⟩
  refine ⟨h.debits.grow hchange.ledger fun r hr ht => (hr ht).1, fun x hx => ?_, fun st hst => ?_,
    hrows.1, hrows.2⟩
  · have hold : x ∈ w.rewardQueue ∨ x ∈ settleCandidates c.env w.db := by
      cases hop : c.op with
      | scanRewards =>
          simp only [World.after, hop, List.mem_append] at hx
          exact hx
      | _ =>
          left
          simpa only [World.after, hop] using hx
    exact hchange.hosts (hold.elim (h.listed x) settleCandidates_hosts)
  · have hold : st ∈ w.assessed ∨
        ∃ e host, (e, host) ∈ w.rewardQueue ∧ Paayatam.assess c.env w.db e host = some st := by
      cases hop : c.op with
      | assess e host =>
          simp only [World.after, hop, List.mem_append, Option.mem_toList] at hst
          refine hst.imp_right fun hnew => ⟨e, host, ?_, hnew⟩
          simpa [World.admits, hop] using hadmits
      | _ =>
          left
          simpa only [World.after, hop] using hst
    rcases hold with hold | ⟨e, host, hlisted, hnew⟩
    · exact hchange.hosts (h.assessed st hold)
    · obtain ⟨he, hhost⟩ := assess_host hnew
      rw [he, hhost]
      exact hchange.hosts (h.listed (e, host) hlisted)

theorem initial (h : w.Init) : HostAccounts w := by
  obtain ⟨hdb, -, hqueue, hassessed⟩ := h
  refine ⟨?_, ?_, ?_, ?_, ?_⟩ <;> simp [hdb, hqueue, hassessed, Db.initial, Db.JoinDebits]

end HostAccounts

theorem World.hostAccounts {w : World} (h : Reachable World.Init World.Step w) : HostAccounts w := by
  refine Reach.invariant_of (J := fun w : World => w.db.Linked)
    (fun w hw => (World.marked hw).1) (fun _ => .initial) ?_ h
  exact fun w c w' hI hs _ _ hstep => hI.step hs hstep

/-! ## The guests -/

section Guests

variable {env : Env} {admin : UserId} {c : CaseId} {p : ParticipantRow} {rest : List ParticipantRow}
  {s s' : Db}

/-- What the loop over the seated guests needs of those it has not visited: they are
    stored as they were read, and their penalties are debits that can be reversed. -/
structure Releasable (todo : List ParticipantRow) (s : Db) : Prop where
  linked : s.Linked
  distinct : todo.Nodup
  stored : ∀ p ∈ todo, p ∈ s.participants.rows
  pointed : ∀ p ∈ todo, ∀ l, p.penaltyLedgerId = some l →
    ∃ o ∈ s.coinLedger.rows, o.id = l ∧ o.type ≠ .REVERSAL ∧ o.amount ≤ 0

theorem Releasable.guest (h : Releasable (p :: rest) s) :
    p ∈ s.participants.rows ∧ ∀ l, p.penaltyLedgerId = some l →
      ∃ o ∈ s.coinLedger.rows, o.id = l ∧ o.type ≠ .REVERSAL ∧ o.amount ≤ 0 :=
  ⟨h.stored p (by simp), h.pointed p (by simp)⟩

theorem returnPenalty_succeeds {l : Option LedgerId} (hs : s.Linked)
    (hl : ∀ x, l = some x → ∃ o ∈ s.coinLedger.rows, o.id = x ∧ o.type ≠ .REVERSAL ∧ o.amount ≤ 0) :
    Succeeds (returnPenalty env admin l) s := by
  cases l with
  | none => exact succeeds_pure
  | some x =>
      obtain ⟨o, ho, rfl, htype, hdebit⟩ := hl x rfl
      simp only [returnPenalty, succeeds_findRow_bind, succeeds_orThrow_bind, succeeds_get_bind]
      refine ⟨o, Table.find?_of_mem ho, succeeds_ite (fun _ => succeeds_pure) fun _ => ?_⟩
      have hb := s.balanceOf_nonneg o.userId
      refine (reverse_succeeds hs ho htype fun _ => ?_).bind fun _ _ _ => succeeds_pure
      omega

theorem returnTrust_succeeds : Succeeds (returnTrust env admin p) s := by
  rw [returnTrust, succeeds_get_bind]
  cases hk : s.trustByKey (.participantPenalty p.id) with
  | none => exact succeeds_pure
  | some taken =>
      refine succeeds_ite (fun hneg => ?_) fun _ => succeeds_pure
      refine (applyTrust_succeeds ?_ (by simp)).bind fun _ _ _ => succeeds_pure
      show -taken.delta ≠ 0
      omega

/-- Counting as attended breaks no constraint of a participation. -/
theorem attendedNow_check (h : Row.check p = true) : Row.check p.attendedNow = true := by
  simp only [Row.check, ParticipantRow.constraints, Bool.and_eq_true, Bool.or_eq_true] at h
  obtain ⟨⟨-, -⟩, hbucket⟩ := h
  simpa [Row.check, ParticipantRow.constraints, ParticipantRow.attendedNow] using hbucket

/-- An absence the database has as it was read can be undone. -/
theorem reverseNoShow_succeeds (hs : s.Linked) (hp : p ∈ s.participants.rows)
    (hst : p.status = .NO_SHOW) (hl : ∀ l, p.penaltyLedgerId = some l →
      ∃ o ∈ s.coinLedger.rows, o.id = l ∧ o.type ≠ .REVERSAL ∧ o.amount ≤ 0) :
    Succeeds (reverseNoShow env admin p.id) s := by
  have hfind : s.participants.find? p.id = some p := Table.find?_of_mem hp
  simp only [reverseNoShow, succeeds_findRow_bind, succeeds_orThrow_bind, table_participants]
  refine ⟨p, hfind, ?_⟩
  have hedge : Succeeds (assertParticipantTransition p.status .COMPLETED (some p.id)) s := by
    refine ⟨(), s, runs_assertParticipantTransition.2 ⟨?_, rfl⟩⟩
    rw [hst]
    rfl
  refine hedge.bind fun _ s₀ hrun => ?_
  obtain ⟨-, rfl⟩ := runs_assertParticipantTransition.1 hrun
  refine (returnPenalty_succeeds hs hl).bind fun _ s₁ hpenalty => ?_
  refine returnTrust_succeeds.bind fun _ s₂ htrust => ?_
  have hparts : s₂.participants = s₀.participants :=
    ((returnPenalty_ordinary hpenalty).trans (returnTrust_trustOnly htrust).books).participants
  have hfind₂ : s₂.participants.find? p.id = some p := by rw [hparts, hfind]
  refine (succeeds_updateRow hfind₂ rfl ?_ fun _ => rfl).bind fun _ _ _ => succeeds_pure
  exact attendedNow_check (s₀.participants.valid p hp)

/-- One guest can be released. -/
theorem releaseSeatedGuest_succeeds (h : Releasable (p :: rest) s) :
    Succeeds (releaseSeatedGuest env admin c p) s := by
  obtain ⟨hp, hpointed⟩ := h.guest
  rw [releaseSeatedGuest]
  refine (refundParticipant_succeeds h.linked).bind fun _ s₁ hrefund => ?_
  obtain ⟨hbooks, -⟩ := refundParticipant_books hrefund
  refine Succeeds.bind ?_ fun _ _ _ => succeeds_modify
  rw [undoRecordedAbsence]
  refine succeeds_ite (fun hst => ?_) fun _ => succeeds_pure
  have hp₁ : p ∈ s₁.participants.rows := by
    rw [hbooks.participants]
    exact hp
  have hpointed₁ : ∀ l, p.penaltyLedgerId = some l →
      ∃ o ∈ s₁.coinLedger.rows, o.id = l ∧ o.type ≠ .REVERSAL ∧ o.amount ≤ 0 := by
    intro l hl
    obtain ⟨o, ho, hrest⟩ := hpointed l hl
    exact ⟨o, hbooks.ledger.mem ho, hrest⟩
  refine (reverseNoShow_succeeds (hbooks.ledger.linked h.linked) hp₁ hst hpointed₁).bind
    fun _ _ _ => Succeeds.bind ?_ fun _ _ _ => succeeds_pure
  exact succeeds_updateRows (fun _ => rfl) (fun _ => rfl) fun _ _ => rfl

/-- Releasing one guest leaves the others as they were read. -/
theorem Releasable.tail (h : Releasable (p :: rest) s)
    (hrun : Runs (releaseSeatedGuest env admin c p) s () s') : Releasable rest s' := by
  have hstep := releaseSeatedGuest_step hrun
  obtain ⟨hnot, hnodup⟩ := List.nodup_cons.1 h.distinct
  refine ⟨hstep.ledger.linked h.linked, hnodup, fun x hx => ?_, fun x hx l hl => ?_⟩
  · have hstored := h.stored x (by simp [hx])
    rcases hstep.participants with ⟨y, hy, hrw⟩ | ⟨-, hsame⟩
    · have hyp : y = p := find?_self (Table.find?_of_mem h.guest.1) hy
      refine hrw.other hstored fun he => hnot ?_
      rw [← hyp, ← he]
      exact hx
    · rw [hsame]
      exact hstored
  · obtain ⟨o, ho, hrest⟩ := h.pointed x (by simp [hx]) l hl
    exact ⟨o, hstep.ledger.mem ho, hrest⟩

/-- The participations of a marked database can be released. -/
theorem Marked.releasable (hm : Marked s) (hs : s.Linked) {ps : List ParticipantRow}
    (hnodup : ps.Nodup) (hps : ∀ p ∈ ps, p ∈ s.participants.rows) : Releasable ps s := by
  refine ⟨hs, hnodup, hps, fun p hp l hl => ?_⟩
  have hpoints := hm.points p (hps p hp)
  rw [hl] at hpoints
  obtain ⟨o, ho, hid⟩ := Option.map_eq_some_iff.1 hpoints.symm
  obtain ⟨hmem, hkey⟩ := Db.mem_of_ledgerByKey ho
  obtain ⟨q, -, -, -, hrow, -⟩ := hm.coins o hmem p.id hkey
  refine ⟨o, hmem, hid, fun htype => ?_, hrow.taken⟩
  rcases hrow.type with ht | ht <;> rw [ht] at htype <;> cases htype

/-- The case a decision closes is still there. -/
def Db.HasCase (db : Db) (c : CaseId) : Prop := ∃ x, db.cases.find? c = some x

theorem releaseSeatedGuest_case {k : CaseId} (h : s.HasCase k)
    (hrun : Runs (releaseSeatedGuest env admin c p) s () s') : s'.HasCase k := by
  simp only [releaseSeatedGuest, runs_bind (m := refundParticipant _ _ _ _ _),
    runs_bind (m := undoRecordedAbsence _ _ _ _), runs_emit] at hrun
  obtain ⟨_, s₁, hrefund, _, s₂, hundo, rfl⟩ := hrun
  have hcases := (refundParticipant_books hrefund).1.cases
  have h₁ : s₁.HasCase k := by
    obtain ⟨x, hx⟩ := h
    exact ⟨x, by rw [hcases]; exact hx⟩
  rcases runs_ite.1 hundo with ⟨-, hundo⟩ | ⟨-, hundo⟩
  · simp only [runs_bind (m := reverseNoShow _ _ _), runs_updateRows_bind, runs_pure] at hundo
    obtain ⟨_, s₃, hreverse, tc, htc, -, rfl⟩ := hundo
    obtain ⟨q, t, -, -, -, s₄, hbooks, rfl⟩ := reverseNoShow_spec hreverse
    obtain ⟨x, hx⟩ := h₁
    rw [table_cases, hbooks.cases] at htc
    obtain ⟨hmem, hid⟩ := Table.find?_eq_some.1 hx
    -- closing the disputes of this guest keeps every case, under its id
    cases hdispute : isDisputeAbout .PARTICIPATION p.id x with
    | true =>
        have hy := Table.RewritesAll.self (show Table.RewritesAll _ _ _ tc from htc) hmem hdispute
        exact ⟨_, Table.find?_eq_some.2 ⟨hy, hid⟩⟩
    | false =>
        have hy := Table.RewritesAll.other (show Table.RewritesAll _ _ _ tc from htc) hmem hdispute
        exact ⟨x, Table.find?_eq_some.2 ⟨hy, hid⟩⟩
  · rw [runs_pure] at hundo
    rw [hundo.2]
    exact h₁

end Guests

/-! ## The decision -/

section Decision

variable {env : Env} {admin : UserId} {c : CaseId} {ev : EventRow} {s s' : Db}

/-- What an absent host is charged. -/
def absencePrice (env : Env) : Int := |(hostPriceFor env.settings .NO_SHOW).coins|

/-- Nothing the host was paid for the event stands, or the balance covers the penalty and
    the payments together. -/
def Db.CoversAbsence (db : Db) (env : Env) (ev : EventRow) : Prop :=
  db.standingHostPayments ev.id = [] ∨
    absencePrice env + totalOf (db.standingHostPayments ev.id) ≤ db.balanceOf ev.hostUserId

/-- Every guest who had a seat is refunded, and no payment to the host stands. -/
structure Db.AbsenceSettled (s s' : Db) (e : EventId) : Prop where
  refunded : ∀ p ∈ s.participants.rows, isGuestOf e SEATED p = true → s'.Refunded p.id
  unpaid : s'.HostUnpaid e

theorem mem_standingHostPayments {e : EventId} {r : CoinLedgerRow} :
    r ∈ s.standingHostPayments e ↔
      r ∈ s.coinLedger.rows ∧ HostPayment e r ∧ s.isReversed r.id = false := by
  simp [Db.standingHostPayments, HostPayment]

/-- Payments to hosts are credits of theirs. -/
def Db.PaysHosts (db : Db) : Prop :=
  ∀ r ∈ db.coinLedger.rows, ∀ e, HostPayment e r → 0 < r.amount ∧ db.Hosts e r.userId

theorem Db.PaysHosts.books (h : s.PaysHosts) (hb : Books Ordinary s s') : s'.PaysHosts := by
  intro r hr e hpay
  rcases hb.ledger.mem_or_new hr with hold | hnew
  · obtain ⟨hpos, x, hx, hhost⟩ := h r hold e hpay
    exact ⟨hpos, x, by rw [hb.events]; exact hx, hhost⟩
  · exact absurd hpay (hnew.not_hostPayment e)

/-- The payments of a host that stand, in a database in which payments are the host's. -/
theorem standing_payments (hs : s.Linked) (hev : ev ∈ s.events.rows) (hpaid : s.PaysHosts) :
    Standing ev.hostUserId (s.standingHostPayments ev.id) s := by
  refine ⟨hs, (nodup_rows s.coinLedger).filter _, fun r hr => ?_⟩
  obtain ⟨hmem, hpay, hstands⟩ := mem_standingHostPayments.1 hr
  obtain ⟨hpos, x, hx, hid, huser⟩ := hpaid r hmem ev.id hpay
  have hsame : x = ev := Table.eq_of_key hx hev hid
  refine ⟨hmem, fun htype => ?_, by rw [← huser, hsame], hpos, hstands⟩
  -- a reversal has the key of a reversal
  have hsome := (CoinLedgerRow.moves_of_check (s.coinLedger.valid r hmem)).2.1 htype
  obtain ⟨l, hl⟩ := Option.isSome_iff_exists.1 hsome
  have hkey := ((hs r hmem).key_iff l).2 hl
  rcases hpay with hp | hp <;> rw [hp] at hkey <;> cases hkey

/-- The penalty comes between: it neither pays the host nor reverses a payment. -/
theorem standingHostPayments_grow {e : EventId}
    (h : LedgerGrows (fun r => r.reversesLedgerId = none ∧ ¬ HostPayment e r) s s') :
    s'.standingHostPayments e = s.standingHostPayments e := by
  obtain ⟨added, hrows, hadded⟩ := h
  have hreversed : ∀ l, s'.isReversed l = s.isReversed l := by
    intro l
    have hnone : added.any (fun r => decide (r.reversesLedgerId = some l)) = false := by
      rw [List.any_eq_false]
      intro r hr
      simp [(hadded r hr).1.1]
    unfold Db.isReversed
    rw [hrows, List.any_append, hnone, Bool.or_false]
  have hnothing : added.filter (fun r => (decide (r.idempotencyKey = .hostDepositRefund e) ||
      decide (r.idempotencyKey = .hostReward e)) && !s.isReversed r.id) = [] := by
    rw [List.filter_eq_nil_iff]
    intro r hr hboth
    rw [Bool.and_eq_true, Bool.or_eq_true, decide_eq_true_eq, decide_eq_true_eq] at hboth
    exact (hadded r hr).1.2 hboth.1
  unfold Db.standingHostPayments
  simp only [hreversed]
  rw [hrows, List.filter_append, hnothing, List.append_nil]

/-- Covering the payments after the capped penalty is covering both before it. -/
theorem covers_iff (hpos : ∀ r ∈ s.standingHostPayments ev.id, 0 < r.amount) :
    totalOf (s.standingHostPayments ev.id) ≤
        s.balanceOf ev.hostUserId - min (s.balanceOf ev.hostUserId) (absencePrice env) ↔
      s.CoversAbsence env ev := by
  have hb := s.balanceOf_nonneg ev.hostUserId
  have hprice : 0 ≤ absencePrice env := abs_nonneg _
  unfold Db.CoversAbsence
  cases hl : s.standingHostPayments ev.id with
  | nil =>
      refine ⟨fun _ => .inl rfl, fun _ => ?_⟩
      show (0 : Int) ≤ _
      omega
  | cons r rest =>
      rw [hl] at hpos
      have hr := hpos r (by simp)
      have hrest : 0 ≤ totalOf rest := totalOf_nonneg fun x hx => hpos x (by simp [hx])
      have htotal : totalOf (r :: rest) = r.amount + totalOf rest := by simp [totalOf]
      rw [htotal]
      refine ⟨fun h => .inr ?_, fun h => ?_⟩
      · omega
      · rcases h with h | h
        · cases h
        · omega

/-- The accounts and the charge, up to the payments. -/
theorem chargeAbsentHost_spec {us : List UserId} {s₁ s₂ : Db} {penalty : ChargedPenalty}
    (hfresh : s.ledgerByKey (.hostAbsentPenalty ev.id) = none)
    (hlock : Runs (lockAccounts us) s () s₁)
    (hcharge : Runs (chargeAbsentHost env admin ev) s₁ penalty s₂) :
    Books Ordinary s s₂ ∧ s₂.standingHostPayments ev.id = s.standingHostPayments ev.id ∧
      s₂.balanceOf ev.hostUserId = s.balanceOf ev.hostUserId -
        min (s.balanceOf ev.hostUserId) (absencePrice env) := by
  have hledger := lockAccounts_coinLedger hlock
  have hbooks := charge_books hcharge ⟨rfl, by simp⟩
  refine ⟨(lockAccounts_books hlock).trans (hbooks.mono fun r hr => ?_), ?_, ?_⟩
  · exact ⟨by simp [hr.2.1], fun e' => by simp [hr.2.2.1]⟩
  · refine standingHostPayments_grow ((LedgerGrows.of_eq hledger).trans (hbooks.ledger.mono ?_))
    intro r hr
    refine ⟨hr.2.2.2.2, fun hpay => ?_⟩
    rcases hpay with hp | hp <;> simp [hr.2.2.1] at hp
  · have hkey := Db.ledgerByKey_congr hledger (.hostAbsentPenalty ev.id)
    have hbalance := charge_balanceOf hcharge (hkey.trans hfresh) ev.hostUserId
    rw [if_pos rfl, lockAccounts_balanceOf hlock] at hbalance
    exact hbalance

/-- The settlement of an upheld absence fails only where the payments cannot be taken back. -/
theorem settleHostAbsence_succeeds_iff (hs : s.Linked) (hm : Marked s) (hpaid : s.PaysHosts)
    (hev : ev ∈ s.events.rows) (hnone : ev.hostAbsentAt = none)
    (hfresh : s.ledgerByKey (.hostAbsentPenalty ev.id) = none) :
    Succeeds (settleHostAbsence env admin c ev.id true) s ↔ s.CoversAbsence env ev := by
  have hstanding := standing_payments hs hev hpaid
  rw [← covers_iff fun r hr => (hstanding.stands r hr).2.2.2.1]
  have hafter : ∀ {s₂ : Db}, Books Ordinary s s₂ →
      Standing ev.hostUserId (s₂.standingHostPayments ev.id) s₂ := fun hbooks =>
    standing_payments (hbooks.ledger.linked hs) (by rw [hbooks.events]; exact hev) (hpaid.books hbooks)
  constructor
  · rintro ⟨_, s', hrun⟩
    obtain ⟨-, us, s₁, penalty, s₂, n, s₃, te, s₄, hlock, hcharge, hreverse, -⟩ :=
      settleHostAbsence_parts hev hrun
    obtain ⟨hbooks, hsame, hbalance⟩ := chargeAbsentHost_spec hfresh hlock hcharge
    have hbound := (reverseCharges_payments (hafter hbooks)).1 hreverse.succeeds
    rw [hsame, hbalance] at hbound
    exact hbound
  · intro hfunds
    have hfind : s.events.find? ev.id = some ev := Table.find?_of_mem hev
    simp only [settleHostAbsence, lockEvent, succeeds_findRow_bind, succeeds_orThrow_bind, if_true,
      succeeds_guardTx_bind, succeeds_findRows_bind]
    refine ⟨ev, hfind, hnone, (lockAccounts_succeeds _ _).bind fun _ s₁ hlock => ?_⟩
    have hcharge : Succeeds (chargeAbsentHost env admin ev) s₁ :=
      charge_succeeds (by simp) rfl (by simp)
    refine hcharge.bind fun penalty s₂ hcharged => ?_
    obtain ⟨hbooks, hsame, hbalance⟩ := chargeAbsentHost_spec hfresh hlock hcharged
    rw [succeeds_get_bind]
    have hreverse : Succeeds (reverseCharges env (s₂.standingHostPayments ev.id) HOST_ABSENT_REASON
        .ADMIN (some admin)) s₂ := by
      refine (reverseCharges_payments (hafter hbooks)).2 ?_
      rw [hsame, hbalance]
      exact hfunds
    refine hreverse.bind fun n s₃ hreversed => ?_
    have hbooks₃ : Books Ordinary s s₃ :=
      hbooks.trans ((reverseCharges_books hreversed).1.mono fun r hr => hr.ordinary)
    have hfind₃ : s₃.events.find? ev.id = some ev := by rw [hbooks₃.events, hfind]
    have hcheck : Row.check (ev.hostAbsent env.now) = true := s.events.valid ev hev
    refine (succeeds_updateRow hfind₃ rfl hcheck fun _ => rfl).bind fun _ s₄ hstamp => ?_
    obtain ⟨x, -, te, -, rfl⟩ := runs_updateRow.1 hstamp
    refine Succeeds.bind ?_ fun _ _ _ => succeeds_modify
    -- the guests are still as they were read before the money moved
    have hrelease : Releasable (s.participants.rows.filter (isGuestOf ev.id SEATED)) s := by
      refine hm.releasable hs ((nodup_rows s.participants).filter _) fun p hp => ?_
      exact (List.mem_filter.1 hp).1
    refine Succeeds.forM (I := Releasable) (fun p rest s₅ hI => releaseSeatedGuest_succeeds hI)
      (fun p rest s₅ s₆ hI hrun => hI.tail hrun) ?_
    refine ⟨hbooks₃.ledger.linked hs, hrelease.distinct, fun p hp => ?_, fun p hp l hl => ?_⟩
    · show p ∈ s₃.participants.rows
      rw [hbooks₃.participants]
      exact hrelease.stored p hp
    · obtain ⟨o, ho, hrest⟩ := hrelease.pointed p hp l hl
      exact ⟨o, hbooks₃.ledger.mem ho, hrest⟩

/-- The case is there after the settlement. -/
theorem settleHostAbsence_case (hev : ev ∈ s.events.rows) (hcase : s.HasCase c)
    (h : Runs (settleHostAbsence env admin c ev.id true) s () s') : s'.HasCase c := by
  obtain ⟨-, us, s₁, penalty, s₂, n, s₃, te, s₄, hlock, hcharge, hreverse, -, hloop, m, rfl⟩ :=
    settleHostAbsence_parts hev h
  have hcases : s₃.cases = s.cases :=
    ((reverseCharges_books hreverse).1.cases.trans
      (charge_books hcharge ⟨rfl, by simp⟩).cases).trans
      (lockAccounts_books (P := Ordinary) hlock).cases
  have hloop' := Runs.forM_rel (R := fun a b : Db => a.HasCase c → b.HasCase c) (fun _ h => h)
    (fun h₁ h₂ h => h₂ (h₁ h)) (fun p _ a b hrun ha => releaseSeatedGuest_case ha hrun) hloop
  refine hloop' ?_
  obtain ⟨x, hx⟩ := hcase
  refine ⟨x, ?_⟩
  show s₃.cases.find? c = some x
  rw [hcases, hx]

end Decision

/-- In every reachable state, the decision that upholds an open report about the host of an
    event commits, refunds every guest and takes every payment back, exactly when no payment
    stands or the host's balance covers the penalty and the payments together. -/
theorem upheld_absence_iff {w : World} (h : Reachable World.Init World.Step w) {env : Env}
    {admin : UserId} {c : CaseRow} {ev : EventRow} {note : String} (hc : c ∈ w.db.cases.rows)
    (hdispute : c.trigger = .DISPUTE) (hopen : OPEN_CASE_STATUSES.contains c.status = true)
    (hsubject : c.subjectType = .EVENT) (hev : ev ∈ w.db.events.rows) (hid : ev.id = c.subjectId)
    (hnone : ev.hostAbsentAt = none) (hnote : 3 ≤ utf16Length (trim note)) :
    (∃ s', Runs (decideClaim env admin true c.id true note) w.db () s' ∧
        w.db.AbsenceSettled s' ev.id) ↔ w.db.CoversAbsence env ev := by
  obtain ⟨hs, hm⟩ := World.marked h
  have haccounts := World.hostAccounts h
  have hfind : w.db.cases.find? c.id = some c := Table.find?_of_mem hc
  have hfresh : w.db.ledgerByKey (.hostAbsentPenalty ev.id) = none := by
    cases hk : w.db.ledgerByKey (.hostAbsentPenalty ev.id) with
    | none => rfl
    | some r =>
        obtain ⟨hr, hrk⟩ := Db.mem_of_ledgerByKey hk
        obtain ⟨x, hx, hxid, hstamp⟩ := haccounts.penalized r hr ev.id hrk
        rw [Table.eq_of_key hx hev hxid] at hstamp
        exact absurd hnone hstamp
  have hcommits : Succeeds (settleHostAbsence env admin c.id ev.id true) w.db ↔
      w.db.CoversAbsence env ev :=
    settleHostAbsence_succeeds_iff hs hm haccounts.paid hev hnone hfresh
  rw [← hcommits]
  constructor
  · rintro ⟨s', hrun, -⟩
    simp only [decideClaim, runs_guardTx_bind, runs_findRow_bind, runs_orThrow_bind] at hrun
    obtain ⟨-, -, m, hmc, -, -, hrun⟩ := hrun
    obtain rfl : c = m := Option.some.inj (hfind.symm.trans hmc)
    rw [runs_bind] at hrun
    obtain ⟨_, s₁, hsettle, -⟩ := hrun
    simp only [settleClaim, hsubject] at hsettle
    rw [hid]
    exact hsettle.succeeds
  · rintro ⟨_, s₁, hsettle⟩
    obtain ⟨x, hx⟩ := settleHostAbsence_case hev ⟨c, hfind⟩ hsettle
    have hclose : Succeeds (updateRow c.id fun k : CaseRow =>
        { k with status := if true = true then .APPROVED else .REJECTED
                 decision := some (if true = true then "UPHELD" else "DISMISSED")
                 decisionNote := some (trim note), decidedBy := some admin
                 decidedAt := some env.now } : Act Unit) s₁ :=
      succeeds_updateRow hx rfl rfl fun _ => rfl
    obtain ⟨_, s', hclosed⟩ := hclose
    have hdone : w.db.AbsenceSettled s' ev.id := by
      have hup := settleHostAbsence_upheld hev hsettle
      obtain ⟨y, -, t, -, rfl⟩ := runs_updateRow.1 hclosed
      exact ⟨hup.refunded hs haccounts.debits, hup.unpaid hs⟩
    refine ⟨s', ?_, hdone⟩
    simp only [decideClaim, runs_guardTx_bind, runs_findRow_bind, runs_orThrow_bind]
    refine ⟨trivial, hnote, c, hfind, hdispute, hopen, runs_bind.2 ⟨(), s₁, ?_, hclosed⟩⟩
    simp only [settleClaim, hsubject]
    rw [← hid]
    exact hsettle

instance (db : Db) (env : Env) (ev : EventRow) : Decidable (db.CoversAbsence env ev) :=
  inferInstanceAs (Decidable (_ ∨ _))

/-- The deposit of that evening is paid, and then its guest reports the host absent. -/
def reportedCalls : List Call :=
  assessedCalls ++ [callAt 122 (.pay eveningSettlement),
    callAt 123 (.reportHostAbsent 2 21 "The host did not come.")]

/-- The same evening, of a host who started with ninety-five coins. -/
def modestCalls : List Call :=
  callAt 0 (.moveCoins (onboardingReward 1 95)) :: reportedCalls.tail

/-- The case about event 7 is open, and its host 1 not found absent. -/
def reportOpen (w : World) : Bool :=
  (w.db.cases.rows.any fun c => decide (c.id = 1) && decide (c.trigger = .DISPUTE) &&
    OPEN_CASE_STATUSES.contains c.status && decide (c.subjectType = .EVENT) &&
    decide (c.subjectId = 7)) &&
  w.db.events.rows.any fun ev => decide (ev.id = 7) && decide (ev.hostAbsentAt = none) &&
    decide (w.db.CoversAbsence (demoEnv 124) ev ↔ 100 ≤ w.db.balanceOf 1)

theorem reportOpen_spec {w : World} (h : reportOpen w = true) :
    (∃ c ∈ w.db.cases.rows, c.id = 1 ∧ c.trigger = .DISPUTE ∧
      OPEN_CASE_STATUSES.contains c.status = true ∧ c.subjectType = .EVENT ∧ c.subjectId = 7) ∧
    ∃ ev ∈ w.db.events.rows, ev.id = 7 ∧ ev.hostAbsentAt = none ∧
      (w.db.CoversAbsence (demoEnv 124) ev ↔ 100 ≤ w.db.balanceOf 1) := by
  simpa only [reportOpen, Bool.and_eq_true, List.any_eq_true, decide_eq_true_eq, and_assoc] using h

/-- A host who holds ninety coins and the ten of the deposit pays both, and the guest is
    refunded. -/
theorem upheld_absence_carried_out : ∃ (w : World) (s' : Db), World.play reportedCalls = some w ∧
    Runs (decideClaim (demoEnv 124) 9 true 1 true "The host was away.") w.db () s' ∧
      w.db.AbsenceSettled s' 7 := by
  have hplay : (World.play reportedCalls).any (fun w => reportOpen w &&
      decide (100 ≤ w.db.balanceOf 1)) = true := by decide +kernel
  obtain ⟨w, hw, hcheck⟩ := World.exists_of_play hplay
  rw [Bool.and_eq_true, decide_eq_true_eq] at hcheck
  obtain ⟨⟨c, hc, hcid, hdispute, hopen, hsubject, habout⟩, ev, hev, hid, hnone, hcovers⟩ :=
    reportOpen_spec hcheck.1
  have hdone : ∃ s', Runs (decideClaim (demoEnv 124) 9 true c.id true "The host was away.") w.db ()
      s' ∧ w.db.AbsenceSettled s' ev.id :=
    (upheld_absence_iff (World.reachable_of_play hw) hc hdispute hopen hsubject hev
      (hid.trans habout.symm) hnone (by decide +kernel)).2 (hcovers.2 hcheck.2)
  obtain ⟨s', hrun, hsettled⟩ := hdone
  rw [hcid] at hrun
  rw [hid] at hsettled
  exact ⟨w, s', hw, hrun, hsettled⟩

/-- With ninety-five coins, never having spent the ten, the host cannot be found absent. -/
theorem upheld_absence_refused :
    ¬ ∀ (w : World) (env : Env) (admin : UserId) (c : CaseRow) (ev : EventRow) (note : String),
      Reachable World.Init World.Step w → c ∈ w.db.cases.rows → c.trigger = .DISPUTE →
      OPEN_CASE_STATUSES.contains c.status = true → c.subjectType = .EVENT →
      ev ∈ w.db.events.rows → ev.id = c.subjectId → ev.hostAbsentAt = none →
      3 ≤ utf16Length (trim note) →
      ∃ s', Runs (decideClaim env admin true c.id true note) w.db () s' ∧
        w.db.AbsenceSettled s' ev.id := by
  intro h
  have hplay : (World.play modestCalls).any (fun w => reportOpen w &&
      !Lib.commits (decideClaim (demoEnv 124) 9 true 1 true "The host was away.") w.db) = true := by
    decide +kernel
  obtain ⟨w, hw, hcheck⟩ := World.exists_of_play hplay
  rw [Bool.and_eq_true] at hcheck
  obtain ⟨⟨c, hc, hcid, hdispute, hopen, hsubject, habout⟩, ev, hev, hid, hnone, -⟩ :=
    reportOpen_spec hcheck.1
  obtain ⟨s', hrun, -⟩ := h w (demoEnv 124) 9 c ev "The host was away." (World.reachable_of_play hw)
    hc hdispute hopen hsubject hev (hid.trans habout.symm) hnone (by decide +kernel)
  rw [hcid] at hrun
  have hcommits : Lib.commits (decideClaim (demoEnv 124) 9 true 1 true "The host was away.") w.db =
      true := Lib.commits_of_runs hrun
  simp [hcommits] at hcheck

end Paayatam
