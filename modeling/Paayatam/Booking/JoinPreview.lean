/-
  Paayatam.Booking.JoinPreview

  The dialog before a request quotes what the request does.

  `join` and `previewJoin` open with the same checks, `joinChecks`; after them
  the preview looks for an earlier request of the same guest where `join` lets
  the insert find it.  What is left of `join` files the request
  (`fileRequest`), which fails for a duplicate only, and charges it, which
  fails for want of coins only.

  That the charge is really taken, and not answered from an earlier row, needs
  the ledger: a join charge of a guest and an event is there only when the
  participation is (`JoinKeysTaken`).
-/

import Paayatam.Booking.Frame
import Paayatam.Booking.Postings
import Paayatam.Lib.Refusal
import Paayatam.Participation.Previews

namespace Paayatam

open Lib

/-! ## Who was charged for a request -/

/-- Whoever was charged for asking to join an event has asked. -/
def JoinKeysTaken (db : Db) : Prop :=
  ∀ r ∈ db.coinLedger.rows, ∀ e u, r.idempotencyKey = .eventJoinSpend e u →
    ∃ p ∈ db.participants.rows, p.eventId = e ∧ p.userId = u

section Keys

variable {env : Env} {op : Op} {s s' : Db} {e : EventId} {u : UserId}

/-- Only a request charges under a request's key. -/
theorem Op.Charges.joinSpend {r : CoinLedgerRow} (h : op.Charges s s' r)
    (hk : r.idempotencyKey = .eventJoinSpend e u) : ∃ n, op = .join u e n := by
  cases op with
  | join user event n =>
      have hkey := h.2.2
      rw [hk] at hkey
      obtain ⟨rfl, rfl⟩ := CoinKey.eventJoinSpend.inj hkey
      exact ⟨n, rfl⟩
  | create => rcases h with h | h <;> simp [h.key] at hk
  | cancelByHost => simp [PenaltyRow.key h] at hk
  | cancel | markNoShow =>
      obtain ⟨q, -, -, hrow⟩ := h
      simp [hrow.key] at hk
  | decideClaim =>
      obtain ⟨ev, -, -, hrow⟩ := h
      simp [hrow.key] at hk
  | pay settlement => rcases h.half with ⟨h, -⟩ | ⟨h, -⟩ <;> simp [h] at hk
  | moveCoins m =>
      rw [h.1.2.2.1] at hk
      rcases m.key_ok with ⟨k, hm⟩ | ⟨x, n, hm⟩ <;> simp [hm] at hk
  | _ => exact h.elim

/-- Whoever is charged by a request has asked by then. -/
theorem join_asks {n : ParticipantId} {d : ParticipationDetail} {r : CoinLedgerRow}
    (h : Runs (join env u e n) s d s') (hr : r ∈ s'.coinLedger.rows)
    (hold : r ∉ s.coinLedger.rows) (hk : r.idempotencyKey = .eventJoinSpend e u) :
    ∃ p ∈ s'.participants.rows, p.eventId = e ∧ p.userId = u := by
  have heffect := (join_effect h).change
  generalize hkind : Kind.request e = k at heffect
  cases heffect with
  | @request ev user newId _ _ hlive he hp hl =>
      rcases hl.mem_or_new hr with hrold | ⟨-, -, hkey⟩
      · exact absurd hrold hold
      · rw [hk] at hkey
        obtain ⟨hevent, huser⟩ := CoinKey.eventJoinSpend.inj hkey
        refine ⟨requestRow env ev user newId (roomToAsk s ev), ?_, hevent.symm, huser.symm⟩
        rw [hp]
        exact List.mem_append_right _ (List.mem_singleton_self _)
  | _ => cases hkind

theorem JoinKeysTaken.step (h : JoinKeysTaken s) (hs : s.Linked)
    (hrun : Runs (op.act env) s () s') : JoinKeysTaken s' := by
  intro r hr e u hk
  have hposts := Op.posts hs hrun
  have hs' : s'.Linked := hposts.coins.linked hs
  by_cases hold : r ∈ s.coinLedger.rows
  · obtain ⟨p, hp, hpe, hpu⟩ := h r hold e u hk
    have hkept : ∃ q ∈ s'.participants.rows, q.eventId = p.eventId ∧ q.userId = p.userId := by
      rcases Op.effect hrun with hc | ⟨k, -, hc⟩
      · obtain ⟨q, hq, hmove⟩ := hc.change.guest_fate hp
        exact ⟨q, hq, hmove.keeps.2⟩
      · obtain ⟨q, hq, hmove⟩ := hc.change.guest_fate hp
        exact ⟨q, hq, hmove.keeps.2⟩
    obtain ⟨q, hq, hqe, hqu⟩ := hkept
    exact ⟨q, hq, hqe.trans hpe, hqu.trans hpu⟩
  · rcases hposts.coins.mem_or_new hr with hrold | ⟨-, hnew⟩ | ⟨o, -, hnew, -⟩
    · exact absurd hrold hold
    · obtain ⟨n, rfl⟩ := hnew.joinSpend hk
      obtain ⟨d, hjoin⟩ := runs_drop.1 hrun
      exact join_asks hjoin hr hold hk
    · have hreversal := ((hs' r hr).key_iff o.id).2 hnew
      rw [hk] at hreversal
      cases hreversal

end Keys

theorem World.joinKeysTaken {w : World} (h : Reachable World.Init World.Step w) :
    JoinKeysTaken w.db := by
  have hboth : w.db.Linked ∧ JoinKeysTaken w.db := by
    refine Reach.invariant (I := fun w : World => w.db.Linked ∧ JoinKeysTaken w.db) ?_ ?_ h
    · intro w hw
      rw [hw.1]
      exact ⟨by simp [Db.Linked, Db.initial], by simp [JoinKeysTaken, Db.initial]⟩
    · rintro w c w' ⟨hs, hm⟩ - hstep
      obtain ⟨-, -, rfl⟩ := World.step_iff.1 hstep
      change (commit (c.op.act c.env) w.db).Linked ∧ JoinKeysTaken (commit (c.op.act c.env) w.db)
      rcases commit_cases (c.op.act c.env) w.db with ⟨_, hruns⟩ | hsame
      · exact ⟨(Op.posts hs hruns).coins.linked hs, hm.step hs hruns⟩
      · rw [hsame]
        exact ⟨hs, hm⟩
  exact hboth.2

/-! ## The two transactions, statement by statement -/

/-- The checks `join` and its preview open with: the event that may be asked. -/
def joinChecks (env : Env) (userId : UserId) (eventId : EventId) : Act EventRow := do
  assertAllowed env userId .EVENT_JOIN
  let joiner ← loadJoiner env userId
  let locked ← lockEvent eventId
  let event ← orThrow (.of .EVENT_NOT_FOUND) locked
  assertJoinable event env.now
  guardTx (event.hostUserId ≠ userId) (.of .HOST_CANNOT_JOIN)
  assertEligible env event joiner
  return event

/-- What `join` does to an event it may ask, before the charge. -/
def fileRequest (env : Env) (userId : UserId) (newId : ParticipantId) (event : EventRow) :
    Act ParticipantRow := do
  let outstanding ← countRows fun p : ParticipantRow =>
    decide (p.eventId = event.id) && holdsSlot p.status
  let roomToAsk := decide (event.acceptedCount + outstanding < event.capacity)
  let participant := requestRow env event userId newId roomToAsk
  let inserted ← insertRowOrIgnore participant
  guardTx (inserted = true) (.of .DUPLICATE_REQUEST)
  updateRow event.id fun e : EventRow => { e with requestCount := e.requestCount + 1 }
  emit (.participation_requested participant.id event.id event.hostUserId userId participant.status)
  return participant

/-- What `previewJoin` reads of an event it may quote for. -/
def quoteRequest (env : Env) (userId : UserId) (event : EventRow) : Act JoinPreview := do
  let existing ← countRows fun p : ParticipantRow =>
    decide (p.eventId = event.id) && decide (p.userId = userId)
  let outstanding ← countRows fun p : ParticipantRow =>
    decide (p.eventId = event.id) && holdsSlot p.status
  guardTx (existing = 0) (.of .DUPLICATE_REQUEST)
  return { eventTitle := event.title, coins := env.settings.economy_event_join_coins
           status := if event.acceptedCount + outstanding < event.capacity then .PENDING
             else .WAITLISTED }

theorem join_eq (env : Env) (u : UserId) (e : EventId) (n : ParticipantId) :
    join env u e n = joinChecks env u e >>= fun event =>
      fileRequest env u n event >>= fun participant =>
        chargeJoin env participant >>= fun _ => toDetail participant event.id := by
  simp only [join, joinChecks, fileRequest, bind_assoc, pure_bind]

theorem previewJoin_eq (env : Env) (u : UserId) (e : EventId) :
    previewJoin env u e = joinChecks env u e >>= quoteRequest env u := by
  simp only [previewJoin, joinChecks, lockEvent, quoteRequest, bind_assoc, pure_bind]

theorem runs_joinChecks {env : Env} {u : UserId} {e : EventId} {ev : EventRow} {s s' : Db}
    (h : Runs (joinChecks env u e) s ev s') : s' = s ∧ s.events.find? e = some ev := by
  simp only [joinChecks, assertAllowed, runs_guardTx_bind, runs_bind (m := loadJoiner _ _),
    runs_lockEvent_bind, runs_orThrow_bind, runs_bind (m := assertJoinable _ _),
    runs_assertJoinable, runs_bind (m := assertEligible _ _ _), runs_pure] at h
  obtain ⟨-, joiner, _, hj, x, hx, _, _, ⟨-, rfl⟩, -, _, s₁, helig, rfl, rfl⟩ := h
  obtain rfl := loadJoiner_state hj
  obtain rfl := assertEligible_state helig
  exact ⟨rfl, hx⟩

/-- The preview writes nothing. -/
theorem previewJoin_reads {env : Env} {u : UserId} {e : EventId} {q : JoinPreview} {s s' : Db}
    (h : Runs (previewJoin env u e) s q s') : s' = s := by
  rw [previewJoin_eq, runs_bind] at h
  obtain ⟨ev, s₁, hchecked, hquote⟩ := h
  obtain ⟨rfl, -⟩ := runs_joinChecks hchecked
  simp only [quoteRequest, runs_countRows_bind, runs_guardTx_bind, runs_pure] at hquote
  exact hquote.2.2

/-- An error that is not about coins. -/
def AppError.NotForCoins (err : AppError) : Prop :=
  ∀ details, err ≠ .raised .INSUFFICIENT_COINS details

theorem AppError.notForCoins_of {code : ErrorCode} (h : code ≠ .INSUFFICIENT_COINS) :
    (AppError.of code).NotForCoins := by
  intro details heq
  exact h (AppError.raised.inj heq).1

/-- Nothing is charged, so nothing is refused for coins, while the checks run. -/
theorem joinChecks_refusesOnly (env : Env) (u : UserId) (e : EventId) :
    RefusesOnly AppError.NotForCoins (joinChecks env u e) := by
  have hloads : RefusesOnly AppError.NotForCoins (loadJoiner env u) := by
    unfold loadJoiner
    refine (refusesOnly_orThrow _ (AppError.notForCoins_of (by decide))).bind fun user => ?_
    refine (refusesOnly_guardTx (AppError.notForCoins_of (by decide))).bind fun _ => ?_
    refine (refusesOnly_guardTx (AppError.notForCoins_of (by decide))).bind fun _ => ?_
    refine (refusesOnly_orThrow _ (AppError.notForCoins_of (by decide))).bind fun profile => ?_
    refine (refusesOnly_orThrow _ (AppError.notForCoins_of (by decide))).bind fun _ => ?_
    exact refusesOnly_pure _
  have hjoinable : ∀ ev, RefusesOnly AppError.NotForCoins (assertJoinable ev env.now) := by
    intro ev
    refine (refusesOnly_guardTx (AppError.notForCoins_of (by decide))).bind fun _ => ?_
    exact refusesOnly_guardTx (AppError.notForCoins_of (by decide))
  have heligible : ∀ ev joiner,
      RefusesOnly AppError.NotForCoins (assertEligible env ev joiner) := by
    intro ev joiner
    refine (refusesOnly_guardTx (AppError.notForCoins_of (by decide))).bind fun _ => ?_
    refine (refusesOnly_guardTx (AppError.notForCoins_of (by decide))).bind fun _ => ?_
    exact refusesOnly_guardTx (AppError.notForCoins_of (by decide))
  unfold joinChecks
  refine (refusesOnly_guardTx (AppError.notForCoins_of (by decide))).bind fun _ => ?_
  refine hloads.bind fun joiner => ?_
  refine (refusesOnly_findRow e).bind fun locked => ?_
  refine (refusesOnly_orThrow locked (AppError.notForCoins_of (by decide))).bind fun ev => ?_
  refine (hjoinable ev).bind fun _ => ?_
  refine (refusesOnly_guardTx (AppError.notForCoins_of (by decide))).bind fun _ => ?_
  exact (heligible ev joiner).bind fun _ => refusesOnly_pure _

/-! ## Filing the request -/

section Filing

variable {env : Env} {u : UserId} {n : ParticipantId} {ev : EventRow} {s s' : Db}

theorem requestRow_check (env : Env) (ev : EventRow) (u : UserId) (n : ParticipantId)
    (room : Bool) : Row.check (requestRow env ev u n room) = true := by
  cases room <;> rfl

/-- The guest has asked to join the event. -/
def HasAsked (s : Db) (ev : EventRow) (u : UserId) : Prop :=
  ∃ p ∈ s.participants.rows, p.eventId = ev.id ∧ p.userId = u

/-- The row a request files here and now. -/
def filedRow (env : Env) (s : Db) (u : UserId) (n : ParticipantId) (ev : EventRow) :
    ParticipantRow := requestRow env ev u n (roomToAsk s ev)

/-- Whoever has asked is told so. -/
theorem fileRequest_duplicate (h : HasAsked s ev u) :
    Refuses (fileRequest env u n ev) s (.of .DUPLICATE_REQUEST) := by
  obtain ⟨p, hp, he, hu⟩ := h
  have hcount : Runs (countRows fun p : ParticipantRow =>
      decide (p.eventId = ev.id) && holdsSlot p.status : Act Nat) s _ s :=
    runs_countRows.2 ⟨rfl, rfl⟩
  rw [fileRequest, hcount.refuses_bind]
  obtain ⟨b, s₁, hins⟩ := succeeds_insertRowOrIgnore (σ := Db) (ε := AppError) (s := s)
    (requestRow_check env ev u n (roomToAsk s ev))
  have hrun := hins
  obtain ⟨t, -, ⟨-, ht⟩ | ⟨rfl, -⟩⟩ := runs_insertRowOrIgnore hins
  · -- the insert would clash with the request that is there
    have hcollide := (Table.compatible_of_insert ht hp).2
    simp [Row.collide, requestRow, he, hu] at hcollide
  · exact (Runs.refuses_bind hrun).2 (refuses_guardTx_bind.2 (.inl ⟨by simp, rfl⟩))

/-- Whoever has not, has: nothing else stands in the way of the row. -/
theorem fileRequest_files (env : Env) (hev : s.events.find? ev.id = some ev)
    (hnew : s.participants.find? n = none) (hfirst : ¬ HasAsked s ev u) :
    ∃ s', Runs (fileRequest env u n ev) s (filedRow env s u n ev) s' ∧
      s'.participants.rows = s.participants.rows ++ [filedRow env s u n ev] ∧
      s'.coinAccounts = s.coinAccounts ∧ s'.coinLedger = s.coinLedger := by
  obtain ⟨b, s₁, hins⟩ := succeeds_insertRowOrIgnore (σ := Db) (ε := AppError) (s := s)
    (requestRow_check env ev u n (roomToAsk s ev))
  have hrun := hins
  obtain ⟨t, rfl, ⟨rfl, ht⟩ | ⟨-, -, p, hp, hclash⟩⟩ := runs_insertRowOrIgnore hins
  · have hupdate : Succeeds (updateRow ev.id fun e : EventRow =>
        { e with requestCount := e.requestCount + 1 } : Act Unit)
        (HasTable.setTable t s : Db) :=
      succeeds_updateRow (r := ev) hev rfl (s.events.valid ev (Table.mem_of_find? hev)) fun _ => rfl
    obtain ⟨_, s₂, hbump⟩ := hupdate
    have hbumped := hbump
    obtain ⟨x, -, t', -, rfl⟩ := runs_updateRow.1 hbump
    refine ⟨{ s with
      participants := t, events := t'
      outbox := s.outbox ++ [.participation_requested n ev.id ev.hostUserId u
        (filedRow env s u n ev).status] }, ?_, ht, rfl, rfl⟩
    rw [fileRequest, runs_countRows_bind]
    refine (Runs.runs_bind hrun).2 (runs_guardTx_bind.2 ⟨rfl, ?_⟩)
    refine (Runs.runs_bind hbumped).2 ?_
    rw [runs_emit_bind, runs_pure]
    exact ⟨rfl, rfl⟩
  · -- a clash is an earlier request, or a row of the new id
    exfalso
    by_cases hid : p.id = n
    · exact Table.find?_eq_none.1 hnew p hp hid
    · refine hfirst ⟨p, hp, ?_⟩
      have hcollide : Row.collide p (requestRow env ev u n (roomToAsk s ev)) = true := by
        by_contra hno
        exact hclash ⟨hid, by simpa using hno⟩
      obtain ⟨hsameEvent, hsameUser⟩ := (Bool.and_eq_true _ _).mp hcollide
      exact ⟨of_decide_eq_true hsameEvent, of_decide_eq_true hsameUser⟩

end Filing

/-! ## Charging it -/

/-- The price of asking. -/
def Env.joinPrice (env : Env) : Int := env.settings.economy_event_join_coins

/-- The error of a spend the account cannot bear. -/
def insufficientCoins (balance required : Int) : AppError :=
  .raised .INSUFFICIENT_COINS (.coins balance required)

section Charging

variable {env : Env} {p : ParticipantRow} {s s' : Db}

/-- What `chargeJoin` asks of the account. -/
def joinSpend (env : Env) (p : ParticipantRow) : CoinMovementInput where
  userId := p.userId
  amount := -env.joinPrice
  type := .EVENT_JOIN_SPEND
  reasonCode := EVENT_JOIN_REASON
  idempotencyKey := .eventJoinSpend p.eventId p.userId
  actorType := .USER
  actorId := some p.userId
  ref := some (.event_participant p.id)

theorem chargeJoin_eq (env : Env) (p : ParticipantRow) :
    chargeJoin env p =
      if 0 < env.joinPrice then applyCoins env (joinSpend env p) >>= fun _ => pure ()
      else pure () := rfl

/-- An account that holds the price pays it. -/
theorem chargeJoin_charges (env : Env) (p : ParticipantRow)
    (hfresh : s.ledgerByKey (.eventJoinSpend p.eventId p.userId) = none)
    (hfunds : env.joinPrice ≤ s.balanceOf p.userId) :
    ∃ s', Runs (chargeJoin env p) s () s' ∧
      s'.balanceOf p.userId = s.balanceOf p.userId - env.joinPrice ∧
      s'.participants = s.participants := by
  have hnonneg : 0 ≤ env.joinPrice := Int.natCast_nonneg _
  by_cases hfree : 0 < env.joinPrice
  · have happly : Succeeds (applyWithin env (joinSpend env p) none) s := by
      refine applyWithin_succeeds ?_ (by simp [CoinMovementInput.Typed, joinSpend]) ?_ ?_
      · show -env.joinPrice ≠ 0
        omega
      · intro l hl
        cases hl
      · intro _
        show 0 ≤ s.balanceOf p.userId + -env.joinPrice
        omega
    obtain ⟨r, s', hrun⟩ := happly
    have hledger : r.ledgerId.isSome = true := by
      rcases (applyWithin_spec hrun).2.outcome with ⟨-, -, ⟨x, -, hid⟩ | ⟨-, -, hnone⟩⟩ |
        ⟨-, -, id, hid, -⟩
      · rw [hid]
        rfl
      · cases hnone
      · rw [hid]
        rfl
    refine ⟨s', ?_, ?_, ?_⟩
    · rw [chargeJoin_eq, if_pos hfree, applyCoins, bind_assoc]
      refine (Runs.runs_bind hrun).2 ?_
      rw [runs_bind]
      exact ⟨r, s', runs_guardTx_bind.2 ⟨hledger, runs_pure.2 ⟨rfl, rfl⟩⟩, runs_pure.2 ⟨rfl, rfl⟩⟩
    · have hbalance := applyWithin_balanceOf hrun p.userId
      have hkey : s.ledgerByKey (joinSpend env p).idempotencyKey = none := hfresh
      rw [hkey] at hbalance
      rw [hbalance]
      show (if p.userId = p.userId ∧ none = none then
        s.balanceOf p.userId + -env.joinPrice else _) = _
      simp [sub_eq_add_neg]
    · exact (applyWithin_spec hrun).2.coinsOnly.frame.2.1
  · have hzero : env.joinPrice = 0 := by omega
    refine ⟨s, ?_, ?_, rfl⟩
    · rw [chargeJoin_eq, if_neg hfree, runs_pure]
      exact ⟨rfl, rfl⟩
    · rw [hzero, sub_zero]

/-- One that does not is told what it holds and what is asked. -/
theorem chargeJoin_refuses (hfresh : s.ledgerByKey (.eventJoinSpend p.eventId p.userId) = none)
    (hshort : s.balanceOf p.userId < env.joinPrice) :
    Refuses (chargeJoin env p) s (insufficientCoins (s.balanceOf p.userId) env.joinPrice) := by
  have hbalance := s.balanceOf_nonneg p.userId
  have hprice : 0 < env.joinPrice := by omega
  have hwithin : Refuses (applyWithin env (joinSpend env p) none) s
      (insufficientCoins (s.balanceOf p.userId) env.joinPrice) := by
    obtain ⟨_, s₁, hens⟩ := ensureCoinAccount_succeeds p.userId s
    have hs₁ := ensureCoinAccount_coinsOnly hens
    have hledger : s₁.coinLedger = s.coinLedger := by rw [hs₁]
    have hkey : s₁.ledgerByKey (joinSpend env p).idempotencyKey = none := by
      rw [Db.ledgerByKey_congr hledger]
      exact hfresh
    have hsame := ensureCoinAccount_balanceOf hens (v := p.userId)
    have hget : Runs (get : Act Db) s₁ s₁ s₁ := runs_get.2 ⟨rfl, rfl⟩
    have hamount : (joinSpend env p).amount ≠ 0 := by
      show -env.joinPrice ≠ 0
      omega
    rw [applyWithin]
    refine refuses_guardTx_bind.2 (.inr ⟨hamount, ?_⟩)
    refine (Runs.refuses_bind hens).2 ((Runs.refuses_bind hget).2 ?_)
    simp only [hkey]
    refine refuses_guardTx_bind.2 (.inl ⟨?_, ?_⟩)
    · show ¬ 0 ≤ s₁.balanceOf p.userId + -env.joinPrice
      omega
    · show insufficientCoins (s.balanceOf p.userId) env.joinPrice =
        insufficientCoins (s₁.balanceOf p.userId) (- -env.joinPrice)
      rw [hsame, neg_neg]
  rw [chargeJoin_eq, if_pos hprice, applyCoins]
  exact hwithin.bind.bind

end Charging

/-! ## Quote and act -/

/-- `join` commits: a participation in `status`, for `price` coins. -/
def JoinsFor (env : Env) (u : UserId) (e : EventId) (n : ParticipantId) (s : Db)
    (status : ParticipantStatus) (price : Int) : Prop :=
  ∃ d s', Runs (join env u e n) s d s' ∧ d.status = status ∧
    (∃ p ∈ s'.participants.rows, p.id = n ∧ p.eventId = e ∧ p.userId = u ∧ p.status = status) ∧
    s'.balanceOf u = s.balanceOf u - price

/-- The same moment with nothing to pay for asking. -/
def Env.free (env : Env) : Env :=
  { env with settings := { env.settings with economy_event_join_coins := 0 } }

/-- `join` fails only because the account does not hold `price`: asked for nothing,
    it would create a participation in `status`. -/
def JoinsButForCoins (env : Env) (u : UserId) (e : EventId) (n : ParticipantId) (s : Db)
    (status : ParticipantStatus) (price : Int) : Prop :=
  Refuses (join env u e n) s (insufficientCoins (s.balanceOf u) price) ∧
    JoinsFor env.free u e n s status 0

/-- `previewJoin` answers, and quotes `status` and `price`. -/
def QuotesJoin (env : Env) (u : UserId) (e : EventId) (s : Db) (status : ParticipantStatus)
    (price : Int) : Prop :=
  ∃ q, Runs (previewJoin env u e) s q s ∧ q.status = status ∧ q.coins = price

section Agreement

variable {env : Env} {u : UserId} {e : EventId} {n : ParticipantId} {ev : EventRow} {s : Db}

/-- Where a request lands here and now. -/
def landing (s : Db) (ev : EventRow) : ParticipantStatus :=
  if roomToAsk s ev = true then .PENDING else .WAITLISTED

theorem toDetail_runs (p : ParticipantRow) (e : EventId) (s : Db) :
    ∃ d, Runs (toDetail p e) s d s ∧ d.status = p.status ∧
      d.cancellationBucket = p.cancellationBucket := by
  have hrank : ∃ k, Runs (rankWhileWaiting p) s k s := by
    unfold rankWhileWaiting
    by_cases hw : p.status = .WAITLISTED
    · obtain ⟨k, hk⟩ : ∃ k, Runs (waitlistRank p) s k s :=
        ⟨_, runs_countRows_bind.2 (runs_pure.2 ⟨rfl, rfl⟩)⟩
      rw [if_pos hw]
      exact ⟨some k, runs_map.2 ⟨k, hk, rfl⟩⟩
    · rw [if_neg hw]
      exact ⟨none, runs_pure.2 ⟨rfl, rfl⟩⟩
  obtain ⟨k, hk⟩ := hrank
  refine ⟨{ publicId := p.id, eventPublicId := e, status := p.status
            requestedAt := p.requestedAt, hostDeadlineAt := p.hostDeadlineAt
            graceExpiresAt := p.graceExpiresAt, acceptedAt := p.acceptedAt
            cancelledAt := p.cancelledAt, cancellationBucket := p.cancellationBucket
            waitlistRank := k }, ?_, rfl, rfl⟩
  rw [toDetail]
  exact (Runs.runs_bind hk).2 (runs_pure.2 ⟨rfl, rfl⟩)

/-- The quote for an event that passed the checks. -/
theorem quoteRequest_quotes (env : Env) (hfirst : ¬ HasAsked s ev u) :
    ∃ q, Runs (quoteRequest env u ev) s q s ∧ q.status = landing s ev ∧
      q.coins = env.joinPrice := by
  have hnone : (s.participants.rows.countP fun p : ParticipantRow =>
      decide (p.eventId = ev.id) && decide (p.userId = u)) = 0 := by
    rw [List.countP_eq_zero]
    intro p hp hboth
    rw [Bool.and_eq_true, decide_eq_true_eq, decide_eq_true_eq] at hboth
    exact hfirst ⟨p, hp, hboth⟩
  have hroom : roomToAsk s ev = true ↔
      ev.acceptedCount + guestCount s.participants ev.id [.PENDING] < ev.capacity := by
    simp [roomToAsk]
  refine ⟨{ eventTitle := ev.title, coins := env.joinPrice, status := landing s ev }, ?_, rfl, rfl⟩
  simp only [quoteRequest, runs_countRows_bind, table_participants, countP_holdsSlot,
    runs_guardTx_bind, hnone, runs_pure, landing, hroom]
  exact ⟨trivial, rfl, trivial⟩

theorem quoteRequest_duplicate (h : HasAsked s ev u) :
    Refuses (quoteRequest env u ev) s (.of .DUPLICATE_REQUEST) := by
  obtain ⟨p, hp, he, hu⟩ := h
  have hsome : ¬ (s.participants.rows.countP fun p : ParticipantRow =>
      decide (p.eventId = ev.id) && decide (p.userId = u)) = 0 := by
    intro hzero
    rw [List.countP_eq_zero] at hzero
    exact hzero p hp (by simp [he, hu])
  have hexisting : Runs (countRows fun p : ParticipantRow =>
      decide (p.eventId = ev.id) && decide (p.userId = u) : Act Nat) s _ s :=
    runs_countRows.2 ⟨rfl, rfl⟩
  have houtstanding : Runs (countRows fun p : ParticipantRow =>
      decide (p.eventId = ev.id) && holdsSlot p.status : Act Nat) s _ s :=
    runs_countRows.2 ⟨rfl, rfl⟩
  rw [quoteRequest, hexisting.refuses_bind, houtstanding.refuses_bind]
  exact refuses_guardTx_bind.2 (.inl ⟨hsome, rfl⟩)

/-- What is known of an event that passed the checks, for a new row. -/
structure MayAsk (env : Env) (u : UserId) (e : EventId) (n : ParticipantId) (s : Db)
    (ev : EventRow) : Prop where
  checked : Runs (joinChecks env u e) s ev s
  unused : s.participants.find? n = none
  first : ¬ HasAsked s ev u
  fresh : s.ledgerByKey (.eventJoinSpend ev.id u) = none

theorem MayAsk.find (h : MayAsk env u e n s ev) : s.events.find? ev.id = some ev := by
  have hfind := (runs_joinChecks h.checked).2
  have hid : ev.id = e := Table.key_of_find? hfind
  rw [hid]
  exact hfind

theorem MayAsk.free (h : MayAsk env u e n s ev) : MayAsk env.free u e n s ev :=
  ⟨h.checked, h.unused, h.first, h.fresh⟩

/-- With the price in the account the request is made and paid. -/
theorem MayAsk.joins (h : MayAsk env u e n s ev) (hfunds : env.joinPrice ≤ s.balanceOf u) :
    JoinsFor env u e n s (landing s ev) env.joinPrice := by
  have hid : ev.id = e := Table.key_of_find? (runs_joinChecks h.checked).2
  obtain ⟨s₁, hfile, hrows, haccounts, hledger⟩ :=
    fileRequest_files env h.find h.unused h.first
  have hfresh : s₁.ledgerByKey (.eventJoinSpend ev.id u) = none := by
    rw [Db.ledgerByKey_congr hledger]
    exact h.fresh
  have hsame : s₁.balanceOf u = s.balanceOf u := by
    unfold Db.balanceOf
    rw [haccounts]
  obtain ⟨s₂, hcharge, hbalance, hparticipants⟩ :=
    chargeJoin_charges env (filedRow env s u n ev) hfresh (by
      show env.joinPrice ≤ s₁.balanceOf u
      omega)
  obtain ⟨d, hdetail, hstatus, -⟩ := toDetail_runs (filedRow env s u n ev) ev.id s₂
  refine ⟨d, s₂, ?_, hstatus, ⟨filedRow env s u n ev, ?_, rfl, hid, rfl, rfl⟩, ?_⟩
  · rw [join_eq]
    refine (Runs.runs_bind h.checked).2 ((Runs.runs_bind hfile).2 ?_)
    exact (Runs.runs_bind hcharge).2 hdetail
  · rw [hparticipants, hrows]
    exact List.mem_append_right _ (List.mem_singleton_self _)
  · rw [← hsame]
    exact hbalance

/-- Without it the request is refused for that alone. -/
theorem MayAsk.short (h : MayAsk env u e n s ev) (hshort : s.balanceOf u < env.joinPrice) :
    JoinsButForCoins env u e n s (landing s ev) env.joinPrice := by
  refine ⟨?_, h.free.joins (s.balanceOf_nonneg u)⟩
  obtain ⟨s₁, hfile, -, haccounts, hledger⟩ :=
    fileRequest_files env h.find h.unused h.first
  have hfresh : s₁.ledgerByKey (.eventJoinSpend ev.id u) = none := by
    rw [Db.ledgerByKey_congr hledger]
    exact h.fresh
  have hsame : s₁.balanceOf u = s.balanceOf u := by
    unfold Db.balanceOf
    rw [haccounts]
  have hcharge : Refuses (chargeJoin env (filedRow env s u n ev)) s₁
      (insufficientCoins (s₁.balanceOf u) env.joinPrice) :=
    chargeJoin_refuses (p := filedRow env s u n ev) hfresh (by
      show s₁.balanceOf u < env.joinPrice
      omega)
  rw [hsame] at hcharge
  rw [join_eq]
  exact (Runs.refuses_bind h.checked).2 ((Runs.refuses_bind hfile).2 hcharge.bind)

/-- A request lands in one status, for one price. -/
theorem JoinsFor.unique {st st' : ParticipantStatus} {price price' : Int}
    (h : JoinsFor env u e n s st price) (h' : JoinsFor env u e n s st' price') :
    st = st' ∧ price = price' := by
  obtain ⟨d, s₁, hruns, hstatus, -, hbalance⟩ := h
  obtain ⟨d', s₂, hruns', hstatus', -, hbalance'⟩ := h'
  obtain ⟨rfl, rfl⟩ := hruns.det hruns'
  refine ⟨hstatus.symm.trans hstatus', ?_⟩
  omega

/-- Whatever `join` does with an event that may be asked, it lands where and costs what
    the checks say. -/
theorem MayAsk.lands (h : MayAsk env u e n s ev) {st : ParticipantStatus} {price : Int}
    (hact : JoinsFor env u e n s st price ∨ JoinsButForCoins env u e n s st price) :
    st = landing s ev ∧ price = env.joinPrice := by
  by_cases hfunds : env.joinPrice ≤ s.balanceOf u
  · have hjoins := h.joins hfunds
    rcases hact with hact | ⟨hrefused, -⟩
    · exact hact.unique hjoins
    · obtain ⟨d, s', hruns, -⟩ := hjoins
      exact absurd hruns.succeeds hrefused.not_succeeds
  · obtain ⟨hrefused, hfree⟩ := h.short (by omega)
    rcases hact with ⟨d, s', hruns, -⟩ | ⟨hrefused', hfree'⟩
    · exact absurd hruns.succeeds hrefused.not_succeeds
    · have hsame := hrefused'.unique hrefused
      have hdetails := (AppError.raised.inj hsame).2
      exact ⟨(hfree'.unique hfree).1, (ErrorDetails.coins.inj hdetails).2⟩

end Agreement

/-- A request is refused as its preview is, or may be made and is quoted. -/
theorem join_cases (env : Env) (u : UserId) (e : EventId) {n : ParticipantId} {s : Db}
    (hkeys : JoinKeysTaken s) (hnew : s.participants.find? n = none) :
    (∃ err, err.NotForCoins ∧ Refuses (previewJoin env u e) s err ∧
      Refuses (join env u e n) s err) ∨
    ∃ ev, MayAsk env u e n s ev ∧ QuotesJoin env u e s (landing s ev) env.joinPrice := by
  rcases succeeds_or_refuses (joinChecks env u e) s with ⟨ev, s', hchecked⟩ | ⟨err, herr⟩
  · obtain ⟨rfl, hfind⟩ := runs_joinChecks hchecked
    have hid : ev.id = e := Table.key_of_find? hfind
    by_cases hasked : HasAsked s' ev u
    · left
      refine ⟨.of .DUPLICATE_REQUEST, AppError.notForCoins_of (by decide), ?_, ?_⟩
      · rw [previewJoin_eq]
        exact (Runs.refuses_bind hchecked).2 (quoteRequest_duplicate hasked)
      · rw [join_eq]
        exact (Runs.refuses_bind hchecked).2 (fileRequest_duplicate hasked).bind
    · right
      have hfresh : s'.ledgerByKey (.eventJoinSpend ev.id u) = none := by
        cases hk : s'.ledgerByKey (.eventJoinSpend ev.id u) with
        | none => rfl
        | some r =>
            obtain ⟨hr, hrk⟩ := Db.mem_of_ledgerByKey hk
            exact absurd (hkeys r hr ev.id u hrk) hasked
      obtain ⟨q, hquote, hstatus, hcoins⟩ := quoteRequest_quotes env hasked
      refine ⟨ev, ⟨hchecked, hnew, hasked, hfresh⟩, q, ?_, hstatus, hcoins⟩
      rw [previewJoin_eq]
      exact (Runs.runs_bind hchecked).2 hquote
  · left
    refine ⟨err, joinChecks_refusesOnly env u e s err herr, ?_, ?_⟩
    · rw [previewJoin_eq]
      exact herr.bind
    · rw [join_eq]
      exact herr.bind

/-- In every reachable state, at every moment, under every setting, and whatever
    unused id the insert generates: the preview quotes a status and a price exactly
    when `join` would create a participation in that status for that price, or would
    fail for want of that price alone; and it refuses exactly as `join` refuses, want
    of coins apart. -/
theorem join_preview_agrees {w : World} (h : Reachable World.Init World.Step w) (env : Env)
    (u : UserId) (e : EventId) {n : ParticipantId} (hnew : w.db.participants.find? n = none) :
    (∀ status price, QuotesJoin env u e w.db status price ↔
      JoinsFor env u e n w.db status price ∨ JoinsButForCoins env u e n w.db status price) ∧
    ∀ err, Refuses (previewJoin env u e) w.db err ↔
      Refuses (join env u e n) w.db err ∧ err.NotForCoins := by
  rcases join_cases env u e (World.joinKeysTaken h) hnew with
    ⟨err, hcoins, hpreview, hjoin⟩ | ⟨ev, hmay, q, hquote, hstatus, hprice⟩
  · -- both are refused, alike
    refine ⟨fun status price => ⟨?_, ?_⟩, fun err' => ⟨fun h' => ?_, fun h' => ?_⟩⟩
    · rintro ⟨q, hquote, -⟩
      exact absurd hquote.succeeds hpreview.not_succeeds
    · rintro (⟨d, s', hruns, -⟩ | ⟨hshort, -⟩)
      · exact absurd hruns.succeeds hjoin.not_succeeds
      · exact absurd (hjoin.unique hshort) (hcoins _)
    · rw [h'.unique hpreview]
      exact ⟨hjoin, hcoins⟩
    · rw [h'.1.unique hjoin]
      exact hpreview
  · refine ⟨fun status price => ⟨?_, ?_⟩, fun err => ⟨fun h' => ?_, fun h' => ?_⟩⟩
    · rintro ⟨q', hquote', rfl, rfl⟩
      obtain ⟨rfl, -⟩ := hquote.det hquote'
      rw [hstatus, hprice]
      by_cases hfunds : env.joinPrice ≤ w.db.balanceOf u
      · exact .inl (hmay.joins hfunds)
      · exact .inr (hmay.short (by omega))
    · intro hact
      obtain ⟨rfl, rfl⟩ := hmay.lands hact
      exact ⟨q, hquote, hstatus, hprice⟩
    · exact absurd h' hquote.succeeds.not_refuses
    · exfalso
      by_cases hfunds : env.joinPrice ≤ w.db.balanceOf u
      · obtain ⟨d, s', hruns, -⟩ := hmay.joins hfunds
        exact h'.1.not_succeeds hruns.succeeds
      · have hshort := (hmay.short (by omega)).1
        exact h'.2 _ (h'.1.unique hshort)

/-- An evening with one seat, and a guest who has just enough to ask. -/
def oneSeatCalls : List Call :=
  [callAt 0 (.moveCoins (onboardingReward 1 100)), callAt 0 (.moveCoins (onboardingReward 2 20)),
    callAt 1 (.create 1 (demoEvent 200 1) false 1)]

/-- What the guest 2 is quoted there. -/
def quotedForOneSeat (w : World) : Option (ParticipantStatus × Int) :=
  match (previewJoin (demoEnv 2) 2 1).run w.db with
  | .ok (q, _) => some (q.status, q.coins)
  | .error _ => none

theorem quotesJoin_of_quoted {w : World} {st : ParticipantStatus} {price : Int}
    (h : quotedForOneSeat w = some (st, price)) : QuotesJoin (demoEnv 2) 2 1 w.db st price := by
  unfold quotedForOneSeat at h
  split at h
  · next q s' hrun =>
      have hruns : Runs (previewJoin (demoEnv 2) 2 1) w.db q s' := hrun
      obtain rfl := previewJoin_reads hruns
      obtain ⟨hst, hprice⟩ := Prod.mk.inj (Option.some.inj h)
      exact ⟨q, hruns, hst, hprice⟩
  · cases h

/-- The preview there quotes PENDING and twenty coins, and so it is. -/
theorem join_preview_agrees_one_seat : ∃ w, World.play oneSeatCalls = some w ∧
    QuotesJoin (demoEnv 2) 2 1 w.db .PENDING 20 ∧
    (JoinsFor (demoEnv 2) 2 1 7 w.db .PENDING 20 ∨
      JoinsButForCoins (demoEnv 2) 2 1 7 w.db .PENDING 20) := by
  have hplay : (World.play oneSeatCalls).any (fun w =>
      decide (w.db.participants.find? 7 = none) &&
      decide (quotedForOneSeat w = some (.PENDING, 20))) = true := by decide
  obtain ⟨w, hw, hend⟩ := World.exists_of_play hplay
  simp only [Bool.and_eq_true, decide_eq_true_eq] at hend
  have hquotes := quotesJoin_of_quoted hend.2
  have hagree := join_preview_agrees (World.reachable_of_play hw) (demoEnv 2) 2 1 hend.1
  exact ⟨w, hw, hquotes, (hagree.1 .PENDING 20).1 hquotes⟩

end Paayatam
