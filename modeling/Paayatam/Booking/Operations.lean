/-
  Paayatam.Booking.Operations

  Every operation of `ParticipationService` is one `Change`, or changes
  nothing.

  One specification for each operation, proved from its definition and from
  the specifications of what it calls; nothing above this module and
  `Booking.EventOperations` unfolds an operation again.
-/

import Paayatam.Booking.Change

namespace Paayatam

open Lib

/-! ## Reads -/

theorem rankWhileWaiting_state {p : ParticipantRow} {s s' : Db} {o : Option Nat}
    (h : Runs (rankWhileWaiting p) s o s') : s' = s := by
  rw [rankWhileWaiting, runs_ite] at h
  rcases h with ⟨-, h⟩ | ⟨-, h⟩
  · simp only [waitlistRank, runs_map, runs_countRows_bind, runs_pure] at h
    obtain ⟨_, ⟨-, rfl⟩, -⟩ := h
    rfl
  · rw [runs_pure] at h
    exact h.2

/-- Building the answer writes nothing. -/
theorem toDetail_state {p : ParticipantRow} {e : EventId} {s s' : Db} {d : ParticipationDetail}
    (h : Runs (toDetail p e) s d s') : s' = s := by
  simp only [toDetail, runs_bind, runs_pure] at h
  obtain ⟨_, _, hrank, -, rfl⟩ := h
  exact rankWhileWaiting_state hrank

@[simp] theorem runs_lockEvent {e : EventId} {s s' : Db} {o : Option EventRow} :
    Runs (lockEvent e) s o s' ↔ o = s.events.find? e ∧ s' = s := by
  simp [lockEvent]

@[simp] theorem runs_lockEvent_bind {β : Type} {e : EventId} {f : Option EventRow → Act β}
    {s s' : Db} {b : β} :
    Runs (lockEvent e >>= f) s b s' ↔ Runs (f (s.events.find? e)) s b s' := by
  simp [lockEvent]

/-- The event of a participation, as the lock finds it. -/
def Db.eventOf (db : Db) (participantId : ParticipantId) : Option EventRow :=
  (db.participants.find? participantId).bind fun p => db.events.find? p.eventId

@[simp] theorem runs_lockEventByParticipant {p : ParticipantId} {s s' : Db} {o : Option EventRow} :
    Runs (lockEventByParticipant p) s o s' ↔ o = s.eventOf p ∧ s' = s := by
  simp only [lockEventByParticipant, runs_findRow_bind, table_participants, Db.eventOf]
  cases s.participants.find? p <;> simp

@[simp] theorem runs_lockEventByParticipant_bind {β : Type} {p : ParticipantId}
    {f : Option EventRow → Act β} {s s' : Db} {b : β} :
    Runs (lockEventByParticipant p >>= f) s b s' ↔ Runs (f (s.eventOf p)) s b s' := by
  simp [runs_bind]

@[simp] theorem runs_readParticipantByPublicId_bind {β : Type} {p : ParticipantId}
    {f : ParticipantRow → Act β} {s s' : Db} {b : β} :
    Runs (readParticipantByPublicId p >>= f) s b s' ↔
      ∃ r, s.participants.find? p = some r ∧ Runs (f r) s b s' := by
  simp [readParticipantByPublicId, runs_bind]

/-- The lock of a participation's event and the read of the participation agree. -/
theorem Db.eventOf_spec {db : Db} {pid : ParticipantId} {ev : EventRow} {p : ParticipantRow}
    (h : db.eventOf pid = some ev) (hp : db.participants.find? pid = some p) :
    ev ∈ db.events.rows ∧ ev.id = p.eventId := by
  rw [Db.eventOf, hp] at h
  exact ⟨Table.mem_of_find? h, Table.key_of_find? h⟩

/-- The row an update finds is the row that was read. -/
theorem find?_self {ρ κ : Type} [Row ρ κ] [DecidableEq κ] {t : Table ρ} {k : κ} {r x : ρ}
    (hr : t.find? k = some r) (hx : t.find? (Row.key r) = some x) : x = r := by
  rw [Table.key_of_find? hr, hr] at hx
  exact (Option.some.inj hx).symm

/-! ## Promotion -/

/-- Only participations and the outbox moved. -/
def QueueOnly (s s' : Db) : Prop :=
  s' = { s with participants := s'.participants, outbox := s'.outbox }

theorem promoteNext_fill {env : Env} {ev : EventRow} {d : Instant} :
    ∀ {n : Nat} {s s' : Db} {ids : List ParticipantId},
      Runs (promoteNext env ev d n) s ids s' →
        Fill env.now ev.id d n s.participants s'.participants ∧ QueueOnly s s' := by
  intro n
  induction n with
  | zero =>
      intro s s' ids h
      rw [promoteNext, runs_pure] at h
      obtain ⟨-, rfl⟩ := h
      exact ⟨.full, rfl⟩
  | succ n ih =>
      intro s s' ids h
      simp only [promoteNext, runs_findRows_bind, table_participants] at h
      cases hmin : (s.participants.rows.filter (waitsFor ev.id)).argmin queueKey with
      | none =>
          simp only [hmin, runs_pure] at h
          obtain ⟨-, rfl⟩ := h
          rw [List.argmin_eq_none, List.filter_eq_nil_iff] at hmin
          exact ⟨.idle fun q hq => by simpa using hmin q hq, rfl⟩
      | some p =>
          simp only [hmin, runs_assertParticipantTransition_bind, runs_updateRow_bind,
            runs_emit_bind, table_participants, setTable_participants] at h
          obtain ⟨-, x, hx, t, ht, h⟩ := h
          rw [runs_bind] at h
          obtain ⟨rest, s₁, hrest, h⟩ := h
          rw [runs_pure] at h
          obtain ⟨-, rfl⟩ := h
          -- the argmin is a row of the table, hence the row the update found
          have hmem := List.argmin_mem hmin
          rw [List.mem_filter] at hmem
          obtain rfl : x = p := find?_self (Table.find?_of_mem hmem.1) hx
          obtain ⟨hfill, hrest⟩ := ih hrest
          refine ⟨.promote hmem.2 (fun q hq hw => ?_) ht hfill, ?_⟩
          · exact List.le_of_mem_argmin (List.mem_filter.2 ⟨hq, hw⟩) hmin
          · rw [QueueOnly, hrest]

theorem fillFreedSeats_promotes {env : Env} {ev : EventRow} {s s' : Db}
    {ids : List ParticipantId} (h : Runs (fillFreedSeats env ev) s ids s') :
    Promotes env ev s.participants s'.participants ∧ QueueOnly s s' := by
  simp only [fillFreedSeats, runs_countRows_bind, table_participants, countP_holdsSlot] at h
  exact promoteNext_fill h

/-! ## Charges and refunds -/

theorem Books.disputes {P : CoinLedgerRow → Prop} {s s' : Db} (h : Books P s s') :
    DisputesKept s s' :=
  .of_eq h.cases

/-- A charge that is not pending a refund has been reversed. -/
theorem Db.mem_unrefundedJoinCharges {db : Db} {p : ParticipantId} {r : CoinLedgerRow} :
    r ∈ db.unrefundedJoinCharges p ↔
      r ∈ db.coinLedger.rows ∧ JoinCharge p r ∧ db.isReversed r.id = false := by
  simp only [Db.unrefundedJoinCharges, List.mem_filter, Bool.and_eq_true, decide_eq_true_eq,
    Bool.not_eq_true', JoinCharge]
  tauto

theorem Db.mem_refundableCharges {db : Db} {p : ParticipantId} {r : CoinLedgerRow}
    (hr : r ∈ db.coinLedger.rows) (hj : JoinCharge p r) (hneg : r.amount < 0)
    (hrev : db.isReversed r.id = false) : r ∈ db.refundableCharges p := by
  simp [Db.refundableCharges, hr, hj.1, hj.2, hneg, hrev]

/-- Reversing every outstanding charge of a participation refunds it. -/
theorem Db.Refunded.of_reversed {s s' : Db} {p : ParticipantId} {P : CoinLedgerRow → Prop}
    (hl : LedgerGrows P s s') (hP : ∀ r, P r → ¬ JoinCharge p r) (hs : s.Linked)
    (htaken : ∀ r ∈ s.coinLedger.rows, JoinCharge p r → s.isReversed r.id = false →
      s'.ReversalTaken r.id) : s'.Refunded p := by
  intro r hr hj
  rcases hl.mem_or_new hr with hold | hnew
  · cases hrev : s.isReversed r.id with
    | true => exact hl.isReversed hrev
    | false => exact (hl.linked hs).isReversed_of_taken (htaken r hold hj hrev)
  · exact absurd hj (hP r hnew)

theorem refundJoinCharge_spec {env : Env} {p : ParticipantId} {reason : String} {t : ActorType}
    {a : Option UserId} {n : Int} {s s' : Db} (h : Runs (refundJoinCharge env p reason t a) s n s') :
    Books IsReversal s s' ∧ (s.Linked → s'.Refunded p) := by
  rw [refundJoinCharge, runs_get_bind] at h
  obtain ⟨hbooks, htaken⟩ := reverseCharges_books h
  refine ⟨hbooks, fun hs => ?_⟩
  refine Db.Refunded.of_reversed hbooks.ledger (fun r hr => hr.ordinary.not_joinCharge p) hs ?_
  intro r hr hj hrev
  exact htaken r (Db.mem_unrefundedJoinCharges.2 ⟨hr, hj, hrev⟩)

theorem refundParticipant_refunded {env : Env} {p : ParticipantId} {a : UserId} {t : ActorType}
    {reason : String} {n : Int} {s s' : Db} (h : Runs (refundParticipant env p a t reason) s n s')
    (hs : s.Linked) (hneg : s.JoinDebits) : s'.Refunded p := by
  obtain ⟨hbooks, htaken⟩ := refundParticipant_books h
  refine Db.Refunded.of_reversed hbooks.ledger (fun r hr => hr.ordinary.not_joinCharge p) hs ?_
  intro r hr hj hrev
  exact htaken r (Db.mem_refundableCharges hr hj (hneg r hr hj.1) hrev)

theorem chargeParticipant_ordinary {env : Env} {p : ParticipantId} {u : UserId}
    {b : CancellationBucket} {s s' : Db} {r : ChargedPenalty}
    (h : Runs (chargeParticipant env p u b) s r s') : Books Ordinary s s' :=
  (chargeParticipant_books h).mono fun x hx => ⟨hx.1.not_join, fun e => by simp [hx.2]⟩

theorem chargeHost_ordinary {env : Env} {e : EventId} {u : UserId} {b : CancellationBucket}
    {n : Nat} {s s' : Db} {r : ChargedPenalty} (h : Runs (chargeHost env e u b n) s r s') :
    Books Ordinary s s' :=
  (chargeHost_books h).mono fun x hx => ⟨hx.1.not_join, fun e' => by simp [hx.2]⟩

theorem chargeBucket_ordinary {env : Env} {p : ParticipantId} {u : UserId}
    {b : Option CancellationBucket} {s s' : Db} {l : Option LedgerId}
    (h : Runs (chargeBucket env p u b) s l s') : Books Ordinary s s' := by
  cases b with
  | none =>
      rw [chargeBucket, runs_pure] at h
      rw [h.2]
      exact .refl _
  | some b =>
      simp only [chargeBucket, runs_bind, runs_pure] at h
      obtain ⟨_, _, hcharge, -, rfl⟩ := h
      exact chargeParticipant_ordinary hcharge

/-- A request costs at most one row, which pays for the participation asked for. -/
theorem chargeJoin_books {env : Env} {p : ParticipantRow} {s s' : Db} {u : Unit}
    (h : Runs (chargeJoin env p) s u s') :
    Books (fun r => JoinCharge p.id r ∧ r.amount < 0 ∧
      r.idempotencyKey = .eventJoinSpend p.eventId p.userId) s s' := by
  rw [chargeJoin, runs_ite] at h
  rcases h with ⟨hcost, h⟩ | ⟨-, h⟩
  · simp only [runs_bind, runs_pure] at h
    obtain ⟨_, _, happly, -, rfl⟩ := h
    obtain ⟨hmove, -⟩ := applyCoins_spec happly
    obtain ⟨he, hp, hc, hcl⟩ := hmove.coinsOnly.frame
    rcases hmove.outcome with ⟨hl, -, -⟩ | ⟨-, -, id, -, hrows⟩
    · exact .of_same_ledger he hp hc hcl hl
    · refine ⟨he, hp, hc, hcl, _, hrows, fun x hx => ?_⟩
      obtain rfl := List.mem_singleton.1 hx
      refine ⟨⟨⟨rfl, rfl⟩, ?_, rfl⟩, ⟨fun l => ?_, fun l hl => ?_⟩⟩
      · simp only [ledgerRow, cappedAmount]
        simpa using hcost
      · simp [ledgerRow]
      · simp [ledgerRow] at hl
  · rw [runs_pure] at h
    rw [h.2]
    exact .refl _

/-! ## Asking -/

theorem loadJoiner_state {env : Env} {u : UserId} {s s' : Db} {j : Joiner}
    (h : Runs (loadJoiner env u) s j s') : s' = s := by
  simp only [loadJoiner, runs_orThrow_bind, runs_guardTx_bind, runs_pure] at h
  obtain ⟨_, -, -, -, _, -, _, -, -, rfl⟩ := h
  rfl

theorem runs_assertJoinable {ev : EventRow} {now : Instant} {s s' : Db} {u : Unit} :
    Runs (assertJoinable ev now) s u s' ↔ ev.Live now ∧ s' = s := by
  simp [assertJoinable, EventRow.Live, and_assoc]

theorem assertEligible_state {env : Env} {ev : EventRow} {j : Joiner} {s s' : Db} {u : Unit}
    (h : Runs (assertEligible env ev j) s u s') : s' = s := by
  simp only [assertEligible, runs_guardTx_bind, runs_guardTx] at h
  exact h.2.2.2

theorem join_effect {env : Env} {u : UserId} {e : EventId} {n : ParticipantId} {s s' : Db}
    {d : ParticipationDetail} (h : Runs (join env u e n) s d s') :
    Effect env (.request e) s s' := by
  simp only [join, assertAllowed, runs_guardTx_bind, runs_bind (m := loadJoiner _ _),
    runs_lockEvent_bind, runs_orThrow_bind, runs_bind (m := assertJoinable _ _),
    runs_assertJoinable, runs_bind (m := assertEligible _ _ _), runs_countRows_bind] at h
  obtain ⟨-, joiner, _, hj, ev, hev, _, _, ⟨hlive, rfl⟩, -, _, s₀, helig, h⟩ := h
  obtain rfl := loadJoiner_state hj
  obtain rfl := assertEligible_state helig
  generalize hrow : requestRow env ev u n _ = row at h
  have hrow : row = requestRow env ev u n (roomToAsk s₀ ev) := hrow.symm
  rw [runs_bind] at h
  obtain ⟨b, _, hins, h⟩ := h
  rw [runs_guardTx_bind] at h
  obtain ⟨rfl, h⟩ := h
  obtain ⟨t, rfl, ⟨-, ht⟩ | ⟨hb, -⟩⟩ := runs_insertRowOrIgnore hins
  · simp only [runs_updateRow_bind, runs_emit_bind] at h
    obtain ⟨x, hx, t', ht', h⟩ := h
    obtain rfl : x = ev := find?_self hev hx
    rw [runs_bind] at h
    obtain ⟨_, s₂, hcharge, h⟩ := h
    have hbooks := chargeJoin_books hcharge
    rw [toDetail_state h]
    obtain rfl : x.id = e := Table.key_of_find? hev
    refine ⟨@Change.request env x u n _ _ hlive ?_ ?_ ?_, ?_⟩
    · rw [hbooks.events]
      exact ht'
    · rw [hbooks.participants, ← hrow]
      exact ht
    · rw [hrow] at hbooks
      exact hbooks.ledger
    · exact .of_eq hbooks.cases
  · cases hb

/-! ## The host's answers -/

/-- A transition out of a request. -/
theorem request_of_canTransition {st new : ParticipantStatus}
    (h : canTransition PARTICIPANT_TRANSITIONS st new = true)
    (hnew : new = .ACCEPTED ∨ new = .REJECTED) : st = .PENDING ∨ st = .WAITLISTED := by
  rcases hnew with rfl | rfl <;> cases st <;> simp_all [canTransition, PARTICIPANT_TRANSITIONS]

/-- Both answers lock the event of the participation they read. -/
theorem decideParticipation_spec {host : UserId} {pid : ParticipantId}
    {apply : EventRow → ParticipantRow → Act ParticipantRow} {s s' : Db} {d : ParticipationDetail}
    (h : Runs (decideParticipation host pid apply) s d s') :
    ∃ ev p r, ev ∈ s.events.rows ∧ ev.id = p.eventId ∧ s.events.find? p.eventId = some ev ∧
      s.participants.find? pid = some p ∧ Runs (apply ev p) s r s' := by
  simp only [decideParticipation, runs_lockEventByParticipant_bind, runs_orThrow_bind,
    runs_guardTx_bind, runs_readParticipantByPublicId_bind] at h
  obtain ⟨ev, hev, -, p, hp, h⟩ := h
  rw [runs_bind] at h
  obtain ⟨r, s₁, happly, h⟩ := h
  rw [toDetail_state h]
  obtain ⟨hmem, hid⟩ := Db.eventOf_spec hev hp
  exact ⟨ev, p, r, hmem, hid, hid ▸ Table.find?_of_mem hmem, hp, happly⟩

/-- A committed seat moved the counter of the row it was handed. -/
theorem takeSeat_spec {ev r : EventRow} {s s' : Db} (hev : ev ∈ s.events.rows)
    (h : Runs (takeSeat ev) s r s') :
    ev.acceptedCount < ev.capacity ∧
      ∃ t, s.events.Rewrites ev (EventRow.addSeats 1) t ∧ s' = { s with events := t } ∧
        r = ev.addSeats 1 := by
  simp only [takeSeat, assertSeatAvailable, runs_guardTx_bind, runs_updateRow_bind, runs_pure] at h
  obtain ⟨hroom, x, hx, t, ht, hr, rfl⟩ := h
  obtain rfl : x = ev := find?_self (Table.find?_of_mem hev) hx
  exact ⟨hroom, t, ht, rfl, hr⟩

theorem releaseSeat_spec {ev r : EventRow} {s s' : Db} (hev : ev ∈ s.events.rows)
    (h : Runs (releaseSeat ev) s r s') :
    ∃ t, s.events.Rewrites ev (EventRow.addSeats (-1)) t ∧ s' = { s with events := t } ∧
      r = ev.addSeats (-1) := by
  simp only [releaseSeat, runs_updateRow_bind, runs_pure] at h
  obtain ⟨x, hx, t, ht, hr, rfl⟩ := h
  obtain rfl : x = ev := find?_self (Table.find?_of_mem hev) hx
  exact ⟨t, ht, rfl, hr⟩

theorem accept_effect {env : Env} {host : UserId} {pid : ParticipantId} {s s' : Db}
    {d : ParticipationDetail} (h : Runs (accept env host pid) s d s') :
    Effect env (.seat pid) s s' := by
  obtain ⟨ev, p, r, hev, hid, -, hp, h⟩ := decideParticipation_spec h
  simp only [runs_assertParticipantTransition_bind, runs_bind (m := takeSeatUnlessHeld _ _)] at h
  obtain ⟨hcan, _, s₁, hseat, h⟩ := h
  have hst := request_of_canTransition hcan (.inl rfl)
  have hheld : holdsSeat p.status = false := by
    rcases hst with hst | hst <;> simp [hst, holdsSeat, SEAT_HOLDING_STATUSES]
  simp only [takeSeatUnlessHeld, hheld, Bool.false_eq_true, if_false, assertSeatAvailable,
    runs_guardTx_bind, runs_bind (m := takeSeat _), runs_pure] at hseat
  obtain ⟨-, _, _, hseat, -, rfl⟩ := hseat
  obtain ⟨hroom, t, ht, rfl, -⟩ := takeSeat_spec hev hseat
  simp only [runs_updateRow_bind, runs_emit_bind, runs_pure] at h
  obtain ⟨x, hx, t', ht', -, rfl⟩ := h
  obtain rfl : x = p := find?_self hp hx
  obtain rfl : x.id = pid := Table.key_of_find? hp
  exact ⟨.seat hid hst hroom ht ht' rfl, .of_eq rfl⟩

theorem seatSeedParticipant_effect {env : Env} {e : EventId} {u : UserId} {n : ParticipantId}
    {s s' : Db} (h : Runs (seatSeedParticipant env e u n) s () s') :
    Effect env (.seed e) s s' := by
  simp only [seatSeedParticipant, runs_lockEvent_bind, runs_orThrow_bind, assertSeatAvailable,
    runs_guardTx_bind, runs_bind (m := takeSeat _), runs_insertRow] at h
  obtain ⟨ev, hev, hroom, _, _, hseat, t', ht', rfl⟩ := h
  obtain ⟨-, t, ht, rfl, rfl⟩ := takeSeat_spec (Table.mem_of_find? hev) hseat
  obtain rfl : ev.id = e := Table.key_of_find? hev
  exact ⟨.seed hroom ht ht' rfl, .of_eq rfl⟩

theorem reject_effect {env : Env} {host : UserId} {pid : ParticipantId} {s s' : Db}
    {d : ParticipationDetail} (h : Runs (reject env host pid) s d s') :
    Effect env (.close pid) s s' := by
  obtain ⟨ev, p, r, hev, hid, -, hp, h⟩ := decideParticipation_spec h
  simp only [runs_assertParticipantTransition_bind] at h
  obtain ⟨hcan, h⟩ := h
  have hst := request_of_canTransition hcan (.inr rfl)
  have hheld : holdsSeat p.status = false := by
    rcases hst with hst | hst <;> simp [hst, holdsSeat, SEAT_HOLDING_STATUSES]
  simp only [releaseSeatIfHeld, hheld, Bool.false_eq_true, if_false, pure_bind,
    runs_updateRow_bind] at h
  obtain ⟨x, hx, t, ht, h⟩ := h
  obtain rfl : x = p := find?_self hp hx
  rw [runs_bind] at h
  obtain ⟨n, s₁, hrefund, h⟩ := h
  obtain ⟨hbooks, hback⟩ := refundJoinCharge_spec hrefund
  rw [runs_bind] at h
  obtain ⟨ids, s₂, hfill, h⟩ := h
  obtain ⟨hpromotes, hqueue⟩ := fillFreedSeats_promotes hfill
  rw [runs_emit_bind, runs_pure] at h
  obtain ⟨-, rfl⟩ := h
  obtain rfl : x.id = pid := Table.key_of_find? hp
  rw [hqueue]
  rw [hbooks.participants] at hpromotes
  exact ⟨.close hev hid hst (.inl rfl) hbooks.events ht hpromotes hbooks.ledger hback,
    .of_eq hbooks.cases⟩

/-! ## Withdrawal, expiry, promotion -/

theorem live_of_canTransition_cancel {st : ParticipantStatus}
    (h : canTransition PARTICIPANT_TRANSITIONS st .CANCELLED_BY_PARTICIPANT = true) :
    st = .ACCEPTED ∨ st = .PENDING ∨ st = .WAITLISTED := by
  cases st <;> simp_all [canTransition, PARTICIPANT_TRANSITIONS]

/-- What `cancel` does once the seat, if there was one, is back. -/
theorem cancel_tail {env : Env} {ev : EventRow} {p : ParticipantRow} {reason : Option String}
    {bucket : Option CancellationBucket} {u : UserId} {pid : ParticipantId}
    {s s' : Db} {d : ParticipationDetail} (hp : s.participants.find? pid = some p)
    (h : Runs (do
      let penaltyLedgerId ← chargeBucket env p.id u bucket
      updateRow p.id (ParticipantRow.withdrawn env.now bucket reason penaltyLedgerId)
      emit (.participation_cancelled p.id ev.id ev.hostUserId p.status)
      let _ ← fillFreedSeats env ev
      toDetail (ParticipantRow.withdrawn env.now bucket reason penaltyLedgerId p) ev.id) s d s') :
    ∃ l t, s.participants.Rewrites p (ParticipantRow.withdrawn env.now bucket reason l) t ∧
      Promotes env ev t s'.participants ∧ s'.events = s.events ∧ s'.cases = s.cases ∧
      LedgerGrows Ordinary s s' := by
  rw [runs_bind] at h
  obtain ⟨l, s₁, hcharge, h⟩ := h
  have hbooks := chargeBucket_ordinary hcharge
  simp only [runs_updateRow_bind, runs_emit_bind, table_participants, hbooks.participants] at h
  obtain ⟨x, hx, t, ht, h⟩ := h
  obtain rfl : x = p := find?_self hp hx
  rw [runs_bind] at h
  obtain ⟨ids, s₂, hfill, h⟩ := h
  obtain ⟨hpromotes, hqueue⟩ := fillFreedSeats_promotes hfill
  rw [toDetail_state h, hqueue]
  exact ⟨l, t, ht, hpromotes, hbooks.events, hbooks.cases, hbooks.ledger⟩

theorem cancel_effect {env : Env} {u : UserId} {pid : ParticipantId} {reason : Option String}
    {s s' : Db} {d : ParticipationDetail} (h : Runs (cancel env u pid reason) s d s') :
    Effect env (.withdraw pid) s s' := by
  simp only [cancel, runs_lockEventByParticipant_bind, runs_orThrow_bind,
    runs_readParticipantByPublicId_bind, runs_guardTx_bind, runs_assertParticipantTransition_bind,
    runs_bind (m := releaseSeatIfHeld _ _)] at h
  obtain ⟨ev, hev, p, hp, -, hcan, ev', s₁, hrelease, h⟩ := h
  obtain ⟨hmem, hid⟩ := Db.eventOf_spec hev hp
  obtain rfl : p.id = pid := Table.key_of_find? hp
  rw [releaseSeatIfHeld, runs_ite] at hrelease
  rcases hrelease with ⟨hheld, hrelease⟩ | ⟨hheld, hrelease⟩
  · -- a seat: the counter goes down first, and the fill works on the row it left
    obtain ⟨te, hte, rfl, rfl⟩ := releaseSeat_spec hmem hrelease
    obtain ⟨l, t, ht, hfill, he, hc, hl⟩ := cancel_tail (s := { s with events := te }) hp h
    exact ⟨.withdrawSeat hid (holdsSeat_iff.1 hheld) (he ▸ hte) ht hfill hl, .of_eq hc⟩
  · rw [runs_pure] at hrelease
    obtain ⟨rfl, rfl⟩ := hrelease
    have hst := (live_of_canTransition_cancel hcan).resolve_left fun hacc =>
      hheld (holdsSeat_iff.2 hacc)
    obtain ⟨l, t, ht, hfill, he, hc, hl⟩ := cancel_tail hp h
    exact ⟨.withdrawRequest hmem hid hst he ht hfill hl, .of_eq hc⟩

/-- A transaction that wrote nothing. -/
theorem Effect.unchanged {env : Env} (s : Db) : Effect env .books s s :=
  ⟨.books rfl rfl (.of_eq rfl), .of_eq rfl⟩

theorem expireOne_effect {env : Env} {pid : ParticipantId} {s s' : Db} {b : Bool}
    (h : Runs (expireOne env pid) s b s') :
    s' = s ∨ Effect env (.close pid) s s' := by
  simp only [expireOne, runs_lockEventByParticipant_bind] at h
  cases hev : s.eventOf pid with
  | none =>
      simp only [hev, runs_pure] at h
      exact .inl h.2
  | some ev =>
      simp only [hev, runs_readParticipantByPublicId_bind, runs_ite, runs_pure] at h
      obtain ⟨p, hp, ⟨-, -, rfl⟩ | ⟨hst, ⟨-, -, rfl⟩ | ⟨-, h⟩⟩⟩ := h
      · exact .inl rfl
      · exact .inl rfl
      · obtain ⟨hmem, hid⟩ := Db.eventOf_spec hev hp
        simp only [runs_assertParticipantTransition_bind, runs_updateRow_bind] at h
        obtain ⟨-, x, hx, t, ht, h⟩ := h
        obtain rfl : x = p := find?_self hp hx
        rw [runs_bind] at h
        obtain ⟨n, s₁, hrefund, h⟩ := h
        obtain ⟨hbooks, hback⟩ := refundJoinCharge_spec hrefund
        rw [runs_emit_bind, runs_bind] at h
        obtain ⟨ids, s₂, hfill, h⟩ := h
        obtain ⟨hpromotes, hqueue⟩ := fillFreedSeats_promotes hfill
        rw [runs_pure] at h
        obtain ⟨-, rfl⟩ := h
        obtain rfl : x.id = pid := Table.key_of_find? hp
        rw [hqueue]
        simp only [hbooks.participants] at hpromotes
        exact .inr ⟨.close hmem hid (.inl (not_not.1 hst)) (.inr rfl) hbooks.events ht hpromotes
          hbooks.ledger hback, .of_eq hbooks.cases⟩

theorem expireWaitlistedOne_effect {env : Env} {pid : ParticipantId} {s s' : Db} {b : Bool}
    (h : Runs (expireWaitlistedOne env pid) s b s') :
    s' = s ∨ Effect env (.lapse pid) s s' := by
  simp only [expireWaitlistedOne, runs_lockEventByParticipant_bind] at h
  cases hev : s.eventOf pid with
  | none =>
      simp only [hev, runs_pure] at h
      exact .inl h.2
  | some ev =>
      simp only [hev, runs_readParticipantByPublicId_bind, runs_ite, runs_pure] at h
      obtain ⟨-, -, rfl⟩ | ⟨hstart, p, hp, ⟨-, -, rfl⟩ | ⟨hst, h⟩⟩ := h
      · exact .inl rfl
      · exact .inl rfl
      · obtain ⟨hmem, hid⟩ := Db.eventOf_spec hev hp
        simp only [runs_assertParticipantTransition_bind, runs_updateRow_bind] at h
        obtain ⟨-, x, hx, t, ht, h⟩ := h
        obtain rfl : x = p := find?_self hp hx
        rw [runs_bind] at h
        obtain ⟨n, s₁, hrefund, h⟩ := h
        obtain ⟨hbooks, hback⟩ := refundJoinCharge_spec hrefund
        rw [runs_emit_bind, runs_pure] at h
        obtain ⟨-, rfl⟩ := h
        obtain rfl : x.id = pid := Table.key_of_find? hp
        refine .inr ⟨.lapse hmem hid (not_not.1 hst) (not_lt.1 hstart) hbooks.events ?_
          hbooks.ledger hback, .of_eq hbooks.cases⟩
        simp only [hbooks.participants]
        exact ht

theorem promoteForEvent_effect {env : Env} {e : EventId} {s s' : Db} {n : Nat}
    (h : Runs (promoteForEvent env e) s n s') :
    s' = s ∨ Effect env (.fill e) s s' := by
  simp only [promoteForEvent, runs_lockEvent_bind] at h
  cases hev : s.events.find? e with
  | none =>
      simp only [hev, runs_pure] at h
      exact .inl h.2
  | some ev =>
      simp only [hev, runs_ite, runs_pure] at h
      obtain ⟨-, -, rfl⟩ | ⟨hpub, ⟨-, -, rfl⟩ | ⟨hstart, h⟩⟩ := h
      · exact .inl rfl
      · exact .inl rfl
      · rw [runs_bind] at h
        obtain ⟨ids, s₁, hfill, h⟩ := h
        obtain ⟨hpromotes, hqueue⟩ := fillFreedSeats_promotes hfill
        rw [runs_pure] at h
        obtain ⟨-, rfl⟩ := h
        obtain rfl : ev.id = e := Table.key_of_find? hev
        push Not at hpub hstart
        rw [hqueue]
        exact .inr ⟨.fill (Table.mem_of_find? hev) ⟨hpub.1, hpub.2, hstart⟩ rfl hpromotes rfl,
          .of_eq rfl⟩

end Paayatam
