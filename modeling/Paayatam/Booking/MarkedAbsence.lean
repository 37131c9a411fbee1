/-
  Paayatam.Booking.MarkedAbsence

  A recorded absence and its undoing, on both ledgers.

  A participation points at the row its penalty was charged on, whenever there
  is one; the penalty of an absence stands as long as the absence does, and
  is reversed, with the trust it took given back, when the participation
  counts as attended after all.  `Marked` is that invariant; it holds in every
  world a run reaches, whichever decision overturned which absence.
-/

import Paayatam.Booking.Postings
import Paayatam.Booking.Deposit

namespace Paayatam

open Lib

/-- A participation that was withdrawn, marked absent, or settled. -/
def ParticipantStatus.Closed (st : ParticipantStatus) : Prop :=
  st = .CANCELLED_BY_PARTICIPANT ∨ st = .NO_SHOW ∨ st = .COMPLETED

/-- Penalties, what they took, and what came back, participation by participation. -/
structure Marked (db : Db) : Prop where
  points : ∀ p ∈ db.participants.rows,
    p.penaltyLedgerId = (db.ledgerByKey (.participantPenalty p.id)).map (·.id)
  coins : ∀ r ∈ db.coinLedger.rows, ∀ pid, r.idempotencyKey = .participantPenalty pid →
    ∃ p ∈ db.participants.rows, p.id = pid ∧ p.status.Closed ∧
      PenaltyRow (.participantPenalty pid) p.userId r ∧
      (p.status = .COMPLETED → db.isReversed r.id = true)
  trust : ∀ t ∈ db.trustLedger.rows, ∀ pid, t.idempotencyKey = .participantPenalty pid →
    ∃ p ∈ db.participants.rows, p.id = pid ∧ p.status.Closed ∧ t.userId = p.userId ∧
      (p.status = .COMPLETED → t.delta < 0 →
        ∃ g ∈ db.trustLedger.rows, g.idempotencyKey = .noShowDispute pid)
  back : ∀ g ∈ db.trustLedger.rows, ∀ pid, g.idempotencyKey = .noShowDispute pid →
    (∃ p ∈ db.participants.rows, p.id = pid ∧ p.status = .COMPLETED) ∧
    ∃ t ∈ db.trustLedger.rows, t.idempotencyKey = .participantPenalty pid ∧ t.delta < 0 ∧
      GivesBack t g

/-! ## What operations post about participations -/

/-- The participation whose penalty an operation may charge. -/
def Op.penalizes : Op → Option ParticipantId
  | .cancel _ p _ => some p
  | .markNoShow _ p => some p
  | _ => none

section Tables

variable {env : Env} {op : Op} {s s' : Db} {pid : ParticipantId}

/-- Only a withdrawal and a marked absence charge a guest's penalty. -/
theorem Op.Charges.guestPenalty {r : CoinLedgerRow} (h : op.Charges s s' r)
    (hk : r.idempotencyKey = .participantPenalty pid) :
    op.penalizes = some pid ∧ GuestPenalty s pid r := by
  cases op with
  | cancel _ p _ | markNoShow _ p =>
      obtain ⟨q, hq, hid, hrow⟩ := h
      have hp : p = pid := by
        have hkey := hrow.key
        rw [hk] at hkey
        exact (CoinKey.participantPenalty.inj hkey).symm
      subst hp
      exact ⟨rfl, q, hq, hid, hrow⟩
  | create => rcases h with h | h <;> simp [h.key] at hk
  | cancelByHost => simp [PenaltyRow.key h] at hk
  | join => simp [h.2.2] at hk
  | decideClaim =>
      obtain ⟨ev, -, -, hrow⟩ := h
      simp [hrow.key] at hk
  | pay settlement => rcases h.half with ⟨h, -⟩ | ⟨h, -⟩ <;> simp [h] at hk
  | moveCoins m =>
      rw [h.1.2.2.1] at hk
      rcases m.key_ok with ⟨k, hm⟩ | ⟨e, n, hm⟩ <;> simp [hm] at hk
  | _ => exact h.elim

/-- Only they take trust under a participation's key. -/
theorem Op.Scores.guestPenalty {t : TrustLedgerRow} (h : op.Scores s s' t)
    (hk : t.idempotencyKey = .participantPenalty pid) :
    op.penalizes = some pid ∧ ∃ q ∈ s.participants.rows, q.id = pid ∧ t.userId = q.userId := by
  cases op with
  | cancel _ p _ | markNoShow _ p =>
      obtain ⟨q, hq, hid, ⟨u, hseed⟩ | ⟨hkey, huser⟩⟩ := h
      · simp [hseed] at hk
      · have hp : p = pid := by
          rw [hk] at hkey
          exact (TrustKey.participantPenalty.inj hkey).symm
        subst hp
        exact ⟨rfl, q, hq, hid, huser⟩
  | cancelByHost => rcases h with ⟨u, h⟩ | ⟨h, -⟩ <;> simp [h] at hk
  | settleOne => rcases h with ⟨u, h⟩ | ⟨p, h⟩ <;> simp [h] at hk
  | decideClaim => exact absurd hk (h.not_penalty pid)
  | _ => exact h.elim

/-- Only a decision gives trust back. -/
theorem Op.Scores.givenBack {g : TrustLedgerRow} (h : op.Scores s s' g)
    (hk : g.idempotencyKey = .noShowDispute pid) : GivenBack s s' g := by
  cases op with
  | cancel | markNoShow =>
      obtain ⟨q, -, -, ⟨u, h⟩ | ⟨h, -⟩⟩ := h <;> simp [h] at hk
  | cancelByHost => rcases h with ⟨u, h⟩ | ⟨h, -⟩ <;> simp [h] at hk
  | settleOne => rcases h with ⟨u, h⟩ | ⟨p, h⟩ <;> simp [h] at hk
  | decideClaim => rcases h with ⟨u, h⟩ | ⟨e, h⟩ | h <;> first | exact h | simp [h] at hk
  | _ => exact h.elim

/-- The row of a key stays the one found while no movement posts under it. -/
theorem Posts.ledgerByKey_eq {K R : CoinLedgerRow → Prop} {T : TrustLedgerRow → Prop}
    (h : Posts K R T s s') {k : CoinKey} (hk : ∀ l, k ≠ .reversal l)
    (hK : ∀ r, K r → r.idempotencyKey ≠ k) : s'.ledgerByKey k = s.ledgerByKey k := by
  obtain ⟨added, hrows, hadded⟩ := h.coins
  have hnone : added.find? (fun r => decide (r.idempotencyKey = k)) = none := by
    rw [List.find?_eq_none]
    intro r hr
    rw [decide_eq_true_eq]
    obtain ⟨⟨-, hr'⟩ | ⟨o, -, hlink, -⟩, hwell⟩ := hadded r hr
    · exact hK r hr'
    · rw [(hwell.key_iff o.id).2 hlink]
      exact (hk o.id).symm
  unfold Db.ledgerByKey
  rw [hrows, List.find?_append, hnone, Option.or_none]

end Tables

/-! ## What operations write on participations -/

section Pointers

variable {env : Env} {k : Kind} {s s' : Db} {p p' : ParticipantRow}

/-- A participation points elsewhere only after a charge. -/
theorem GuestMove.pointer (h : GuestMove env s k p p') :
    p'.penaltyLedgerId = p.penaltyLedgerId ∨ k = .withdraw p.id ∨ k = .absent p.id := by
  cases h with
  | withdraw => exact .inr (.inl rfl)
  | absent => exact .inr (.inr rfl)
  | close _ hp' => rcases hp' with rfl | rfl <;> exact .inl rfl
  | _ => exact .inl rfl

/-- A closed participation moves only by being overturned. -/
theorem GuestMove.closed (h : GuestMove env s k p p') (hp : p.status.Closed) :
    p' = p ∨ k = .overturn p.id ∨ ∃ e, k = .stamp e := by
  cases h with
  | same => exact .inl rfl
  | overturn => exact .inr (.inl rfl)
  | release => exact .inr (.inr ⟨_, rfl⟩)
  | seat hst | close hst | withdraw hst =>
      rcases hp with hp | hp | hp <;> simp [hp] at hst
  | lapse hst | promote hst | complete hst | absent hst =>
      rcases hp with hp | hp | hp <;> simp [hp] at hst
  | callOff hst => rcases hp with hp | hp | hp <;> simp [hp, LIVE_PARTICIPANT_STATUSES] at hst

/-- A new participation has no penalty. -/
theorem NewGuest.pointer (h : NewGuest env s k p) :
    p.penaltyLedgerId = none ∧ ∀ q ∈ s.participants.rows, q.id ≠ p.id := by
  cases h with
  | request _ _ hnew => exact ⟨rfl, hnew⟩
  | seed _ hnew => exact ⟨rfl, hnew⟩

theorem chargeBucket_answers {pid : ParticipantId} {u : UserId} {b : Option CancellationBucket}
    {l : Option LedgerId} (h : Runs (chargeBucket env pid u b) s l s')
    (hfresh : s.ledgerByKey (.participantPenalty pid) = none) :
    l = (s'.ledgerByKey (.participantPenalty pid)).map (·.id) := by
  cases b with
  | none =>
      rw [chargeBucket, runs_pure] at h
      obtain ⟨rfl, rfl⟩ := h
      rw [hfresh]
      rfl
  | some b =>
      simp only [chargeBucket, runs_bind, runs_pure] at h
      obtain ⟨penalty, _, hcharge, rfl, rfl⟩ := h
      exact charge_answers hcharge hfresh

/-- A withdrawn participation points at its penalty. -/
theorem cancel_points {u : UserId} {pid : ParticipantId} {reason : Option String}
    {d : ParticipationDetail} (h : Runs (cancel env u pid reason) s d s')
    (hfresh : s.ledgerByKey (.participantPenalty pid) = none) :
    (∃ q ∈ s'.participants.rows, q.id = pid ∧ q.status = .CANCELLED_BY_PARTICIPANT) ∧
    ∀ q ∈ s'.participants.rows, q.id = pid →
      q.penaltyLedgerId = (s'.ledgerByKey (.participantPenalty pid)).map (·.id) := by
  simp only [cancel, runs_lockEventByParticipant_bind, runs_orThrow_bind,
    runs_readParticipantByPublicId_bind, runs_guardTx_bind, runs_assertParticipantTransition_bind,
    runs_bind (m := releaseSeatIfHeld _ _), runs_bind (m := chargeBucket _ _ _ _),
    runs_updateRow_bind, runs_emit_bind] at h
  obtain ⟨ev, hev, p, hp, -, -, ev', s₁, hrelease, l, s₂, hcharge, x, hx, t, ht, h⟩ := h
  rw [runs_bind] at h
  obtain ⟨ids, s₃, hfill, h⟩ := h
  rw [toDetail_state h]
  obtain rfl : p.id = pid := Table.key_of_find? hp
  obtain ⟨hpromotes, hqueue⟩ := fillFreedSeats_promotes hfill
  have hposts := (releaseSeatIfHeld_posts (K := fun _ => False) (R := fun _ => False)
    (T := fun _ => False) (Db.eventOf_spec hev hp).1 hrelease).1
  have hfresh₁ : s₁.ledgerByKey (.participantPenalty p.id) = none := by
    rw [hposts.ledgerByKey_eq (by simp) (fun _ hK => hK.elim)]
    exact hfresh
  have hl := chargeBucket_answers hcharge hfresh₁
  have hledger : s₃.ledgerByKey (.participantPenalty p.id) =
      s₂.ledgerByKey (.participantPenalty p.id) := by
    rw [hqueue]
    rfl
  have hxid : x.id = p.id := Table.key_of_find? hx
  obtain ⟨y, hself, hyid, hyst, hyl⟩ : ∃ y ∈ t.rows, y.id = p.id ∧
      y.status = .CANCELLED_BY_PARTICIPANT ∧ y.penaltyLedgerId = l := ⟨_, ht.self, hxid, rfl, rfl⟩
  -- the row just withdrawn does not wait, so the fill that follows leaves it alone
  refine ⟨⟨y, ?_, hyid, hyst⟩, fun q hq hid => ?_⟩
  · rcases Fill.fate hpromotes hself with hkept | ⟨hw, -⟩
    · exact hkept
    · simp [waitsFor, hyst] at hw
  · have hsame : ∀ z ∈ t.rows, z.id = p.id → z = y := fun z hz hzid =>
      Table.eq_of_key hz hself (hzid.trans hyid.symm)
    rw [hledger, ← hl]
    rcases promoted_move hpromotes hq with hq | ⟨z, hz, -, hst, rfl⟩
    · rw [hsame q hq hid]
      exact hyl
    · rw [hsame z hz hid, hyst] at hst
      cases hst

/-- A participation marked absent points at its penalty. -/
theorem markNoShow_points {host : UserId} {pid : ParticipantId}
    (h : Runs (markNoShow env host pid) s () s')
    (hfresh : s.ledgerByKey (.participantPenalty pid) = none) :
    (∃ q ∈ s'.participants.rows, q.id = pid ∧ q.status = .NO_SHOW) ∧
    ∀ q ∈ s'.participants.rows, q.id = pid →
      q.penaltyLedgerId = (s'.ledgerByKey (.participantPenalty pid)).map (·.id) := by
  simp only [markNoShow, runs_lockEventByParticipant_bind, runs_orThrow_bind, runs_guardTx_bind,
    runs_readParticipantByPublicId_bind, runs_assertParticipantTransition_bind,
    runs_bind (m := chargeParticipant _ _ _ _), runs_updateRow_bind, runs_emit] at h
  obtain ⟨ev, -, -, p, hp, -, -, -, penalty, s₁, hcharge, x, hx, t, ht, rfl⟩ := h
  obtain rfl : p.id = pid := Table.key_of_find? hp
  have hl := charge_answers hcharge hfresh
  have hxid : x.id = p.id := Table.key_of_find? hx
  have hself : x.markedAbsent penalty.ledgerId env.now ∈ t.rows := ht.self
  refine ⟨⟨_, hself, hxid, rfl⟩, fun q hq hid => ?_⟩
  have hsame : q = x.markedAbsent penalty.ledgerId env.now :=
    Table.eq_of_key hq hself (hid.trans hxid.symm)
  rw [hsame]
  exact hl

/-- Whom an operation charges is closed afterwards, and points at the charge. -/
theorem Op.points {op : Op} {pid : ParticipantId} (h : Runs (op.act env) s () s')
    (hop : op.penalizes = some pid) (hfresh : s.ledgerByKey (.participantPenalty pid) = none) :
    (∃ q ∈ s'.participants.rows, q.id = pid ∧
      (q.status = .CANCELLED_BY_PARTICIPANT ∨ q.status = .NO_SHOW)) ∧
    ∀ q ∈ s'.participants.rows, q.id = pid →
      q.penaltyLedgerId = (s'.ledgerByKey (.participantPenalty pid)).map (·.id) := by
  cases op with
  | cancel u p reason =>
      obtain rfl := Option.some.inj hop
      obtain ⟨_, h⟩ := runs_drop.1 h
      obtain ⟨⟨q, hq, hid, hst⟩, hpoints⟩ := cancel_points h hfresh
      exact ⟨⟨q, hq, hid, .inl hst⟩, hpoints⟩
  | markNoShow host p =>
      obtain rfl := Option.some.inj hop
      obtain ⟨⟨q, hq, hid, hst⟩, hpoints⟩ := markNoShow_points h hfresh
      exact ⟨⟨q, hq, hid, .inr hst⟩, hpoints⟩
  | _ => cases hop

/-- Whom an operation charges was live. -/
theorem Op.penalizes_live {op : Op} {pid : ParticipantId} (h : Runs (op.act env) s () s')
    (hop : op.penalizes = some pid) :
    ∃ p ∈ s.participants.rows, p.id = pid ∧ p.status ∈ LIVE_PARTICIPANT_STATUSES := by
  cases op with
  | cancel u p reason =>
      obtain rfl := Option.some.inj hop
      obtain ⟨_, h⟩ := runs_drop.1 h
      have hchange := (cancel_effect h).change
      cases hchange with
      | withdrawRequest _ _ hst _ hp =>
          exact ⟨_, hp.mem, rfl, by rcases hst with hst | hst <;> simp [hst, LIVE_PARTICIPANT_STATUSES]⟩
      | withdrawSeat _ hst _ hp => exact ⟨_, hp.mem, rfl, by simp [hst, LIVE_PARTICIPANT_STATUSES]⟩
  | markNoShow host p =>
      obtain rfl := Option.some.inj hop
      have hchange := (markNoShow_effect h).change
      cases hchange with
      | absent _ _ hst _ _ hp => exact ⟨_, hp.mem, rfl, by simp [hst, LIVE_PARTICIPANT_STATUSES]⟩
  | _ => cases hop

/-- A closed participation stands as it was, or its absence was overturned and undone. -/
theorem Op.closed_fate {op : Op} (hs : s.Linked) (h : Runs (op.act env) s () s')
    (hp : p ∈ s.participants.rows) (hst : p.status.Closed) :
    p ∈ s'.participants.rows ∨
      (p.status.Overturnable ∧ p.attendedNow ∈ s'.participants.rows ∧ Undone p s') := by
  have hchange : ∀ k, Change env k s s' → (∀ q, k ≠ .overturn q) → (∀ e, k ≠ .stamp e) →
      p ∈ s'.participants.rows := by
    intro k hc hk hk'
    obtain ⟨x, hx, hmove⟩ := hc.guest_fate hp
    rcases hmove.closed hst with rfl | hover | ⟨e, hstamp⟩
    · exact hx
    · exact absurd hover (hk _)
    · exact absurd hstamp (hk' e)
  cases op with
  | decideClaim => exact (decideClaim_overturns hs h).fate p hp
  | _ =>
      left
      rcases Op.effect h with hc | ⟨k, hk, hc⟩
      · exact hchange _ hc.change (by simp) (by simp)
      · refine hchange k hc.change ?_ ?_
        · rintro q rfl
          simp [Op.Does] at hk
        · rintro q rfl
          simp [Op.Does] at hk

/-- Every participation an operation leaves is an old one or has no penalty yet, and only
    the one it charges points elsewhere. -/
theorem Op.pointer_origin {op : Op} (h : Runs (op.act env) s () s')
    (hp : p' ∈ s'.participants.rows) (hop : op.penalizes ≠ some p'.id) :
    (∃ p ∈ s.participants.rows, p.id = p'.id ∧ p'.penaltyLedgerId = p.penaltyLedgerId) ∨
      p'.penaltyLedgerId = none := by
  have hchange : ∀ k, Change env k s s' → k ≠ .withdraw p'.id → k ≠ .absent p'.id →
      (∃ p ∈ s.participants.rows, p.id = p'.id ∧ p'.penaltyLedgerId = p.penaltyLedgerId) ∨
        p'.penaltyLedgerId = none := by
    intro k hc hw ha
    rcases hc.guest_origin hp with ⟨q, hq, hmove⟩ | hnew
    · have hid := hmove.keeps.1
      rcases hmove.pointer with hsame | hk | hk
      · exact .inl ⟨q, hq, hid.symm, hsame⟩
      · rw [← hid] at hk
        exact absurd hk hw
      · rw [← hid] at hk
        exact absurd hk ha
    · exact .inr hnew.pointer.1
  rcases Op.effect h with hc | ⟨k, hk, hc⟩
  · exact hchange _ hc.change (by simp) (by simp)
  · refine hchange k hc.change ?_ ?_
    · rintro rfl
      cases op <;> simp_all [Op.Does, Op.penalizes]
    · rintro rfl
      cases op <;> simp_all [Op.Does, Op.penalizes]

end Pointers

/-! ## The invariant -/

theorem ParticipantStatus.Closed.not_live {st : ParticipantStatus} (h : st.Closed) :
    st ∉ LIVE_PARTICIPANT_STATUSES := by
  rcases h with h | h | h <;> simp [h, LIVE_PARTICIPANT_STATUSES]

/-- Two ledger rows of one key are one row. -/
theorem Db.coin_of_key {db : Db} {r r' : CoinLedgerRow} (hr : r ∈ db.coinLedger.rows)
    (hr' : r' ∈ db.coinLedger.rows) (hk : r.idempotencyKey = r'.idempotencyKey) : r = r' :=
  Table.eq_of_collide hr hr' (by simp [Row.collide, hk])

theorem Db.trust_of_key {db : Db} {t t' : TrustLedgerRow} (ht : t ∈ db.trustLedger.rows)
    (ht' : t' ∈ db.trustLedger.rows) (hk : t.idempotencyKey = t'.idempotencyKey) : t = t' :=
  Table.eq_of_collide ht ht' (by simp [Row.collide, hk])

/-- The row of a key is the one found. -/
theorem Db.ledgerByKey_of_mem {db : Db} {r : CoinLedgerRow} (hr : r ∈ db.coinLedger.rows) :
    db.ledgerByKey r.idempotencyKey = some r := by
  cases hk : db.ledgerByKey r.idempotencyKey with
  | none => exact absurd rfl (Db.not_mem_of_ledgerByKey hk r hr)
  | some x =>
      obtain ⟨hx, hxk⟩ := Db.mem_of_ledgerByKey hk
      rw [Db.coin_of_key hx hr hxk]

namespace Marked

variable {env : Env} {op : Op} {s s' : Db}

/-- A live participation has no penalty. -/
theorem fresh (h : Marked s) {p : ParticipantRow} (hp : p ∈ s.participants.rows)
    (hlive : p.status ∈ LIVE_PARTICIPANT_STATUSES) :
    s.ledgerByKey (.participantPenalty p.id) = none := by
  cases hk : s.ledgerByKey (.participantPenalty p.id) with
  | none => rfl
  | some r =>
      obtain ⟨hr, hrk⟩ := Db.mem_of_ledgerByKey hk
      obtain ⟨q, hq, hid, hclosed, -⟩ := h.coins r hr p.id hrk
      obtain rfl : q = p := Table.eq_of_key hq hp hid
      exact absurd hlive hclosed.not_live

/-- A penalty row is the one its participation points at. -/
theorem pointed (h : Marked s) {p : ParticipantRow} {r : CoinLedgerRow}
    (hp : p ∈ s.participants.rows) (hr : r ∈ s.coinLedger.rows)
    (hk : r.idempotencyKey = .participantPenalty p.id) : p.penaltyLedgerId = some r.id := by
  have hfound := Db.ledgerByKey_of_mem hr
  rw [h.points p hp, ← hk, hfound]
  rfl

/-- What an operation charged is charged to a participation that is closed and keeps its
    guest. -/
theorem charged (h : Marked s) (hrun : Runs (op.act env) s () s') {pid : ParticipantId}
    (hop : op.penalizes = some pid) {q : ParticipantRow} (hq : q ∈ s.participants.rows)
    (hid : q.id = pid) :
    ∃ p ∈ s'.participants.rows, p.id = pid ∧ p.userId = q.userId ∧
      (p.status = .CANCELLED_BY_PARTICIPANT ∨ p.status = .NO_SHOW) := by
  obtain ⟨p, hp, hpid, hlive⟩ := Op.penalizes_live hrun hop
  have hfresh := h.fresh hp hlive
  rw [hpid] at hfresh
  obtain ⟨⟨x, hx, hxid, hst⟩, -⟩ := Op.points hrun hop hfresh
  have hsame : ∃ y ∈ s'.participants.rows, y.id = q.id ∧ y.userId = q.userId := by
    rcases Op.effect hrun with hc | ⟨k, -, hc⟩
    · obtain ⟨y, hy, hmove⟩ := hc.change.guest_fate hq
      exact ⟨y, hy, hmove.keeps.1, hmove.keeps.2.2⟩
    · obtain ⟨y, hy, hmove⟩ := hc.change.guest_fate hq
      exact ⟨y, hy, hmove.keeps.1, hmove.keeps.2.2⟩
  obtain ⟨y, hy, hyid, huser⟩ := hsame
  obtain rfl : y = x := Table.eq_of_key hy hx ((hyid.trans hid).trans hxid.symm)
  exact ⟨y, hy, hxid, huser, hst⟩

theorem step_points (h : Marked s) (hs : s.Linked) (hrun : Runs (op.act env) s () s') :
    ∀ p ∈ s'.participants.rows,
      p.penaltyLedgerId = (s'.ledgerByKey (.participantPenalty p.id)).map (·.id) := by
  intro p hp
  have hposts := Op.posts hs hrun
  cases hk : s.ledgerByKey (.participantPenalty p.id) with
  | some r =>
      -- charged before: the participation is closed, so its pointer stays
      obtain ⟨hr, hrk⟩ := Db.mem_of_ledgerByKey hk
      obtain ⟨q, hq, hid, hclosed, -⟩ := h.coins r hr p.id hrk
      have hfound : s'.ledgerByKey (.participantPenalty p.id) = some r := by
        rw [← hrk]
        exact Db.ledgerByKey_of_mem (hposts.coins.mem hr)
      have hpointer : q.penaltyLedgerId = some r.id := by
        refine h.pointed hq hr ?_
        rw [hid]
        exact hrk
      rw [hfound]
      rcases Op.closed_fate hs hrun hq hclosed with hkept | ⟨-, hover, -⟩
      · obtain rfl : q = p := Table.eq_of_key hkept hp hid
        exact hpointer
      · obtain rfl : q.attendedNow = p := Table.eq_of_key hover hp hid
        exact hpointer
  | none =>
      by_cases hop : op.penalizes = some p.id
      · exact (Op.points hrun hop hk).2 p hp rfl
      · have hsame : s'.ledgerByKey (.participantPenalty p.id) =
            s.ledgerByKey (.participantPenalty p.id) :=
          hposts.ledgerByKey_eq (by simp) fun r hr hrk => hop (hr.guestPenalty hrk).1
        rw [hsame, hk]
        rcases Op.pointer_origin hrun hp hop with ⟨q, hq, hid, heq⟩ | hnone
        · rw [heq, h.points q hq, hid, hk]
        · exact hnone

theorem step_coins (h : Marked s) (hs : s.Linked) (hrun : Runs (op.act env) s () s') :
    ∀ r ∈ s'.coinLedger.rows, ∀ pid, r.idempotencyKey = .participantPenalty pid →
      ∃ p ∈ s'.participants.rows, p.id = pid ∧ p.status.Closed ∧
        PenaltyRow (.participantPenalty pid) p.userId r ∧
        (p.status = .COMPLETED → s'.isReversed r.id = true) := by
  intro r hr pid hk
  have hposts := Op.posts hs hrun
  have hs' : s'.Linked := hposts.coins.linked hs
  rcases hposts.coins.mem_or_new hr with hold | ⟨-, hnew⟩ | ⟨o, -, hnew, -⟩
  · obtain ⟨p, hp, hid, hclosed, hrow, hdone⟩ := h.coins r hold pid hk
    rcases Op.closed_fate hs hrun hp hclosed with hkept | ⟨-, hover, hundone⟩
    · exact ⟨p, hkept, hid, hclosed, hrow, fun hst => hposts.coins.isReversed (hdone hst)⟩
    · refine ⟨p.attendedNow, hover, hid, .inr (.inr rfl), hrow, fun _ => ?_⟩
      refine hs'.isReversed_of_taken (hundone.coins r.id (h.pointed hp hold ?_))
      rw [hid]
      exact hk
  · obtain ⟨hop, q, hq, hid, hrow⟩ := hnew.guestPenalty hk
    obtain ⟨p, hp, hpid, huser, hst⟩ := h.charged hrun hop hq hid
    refine ⟨p, hp, hpid, by unfold ParticipantStatus.Closed; tauto, huser ▸ hrow, fun hdone => ?_⟩
    rcases hst with hst | hst <;> rw [hst] at hdone <;> cases hdone
  · have hreversal := ((hs' r hr).key_iff o.id).2 hnew
    rw [hk] at hreversal
    cases hreversal

theorem step_trust (h : Marked s) (hs : s.Linked) (hrun : Runs (op.act env) s () s') :
    ∀ t ∈ s'.trustLedger.rows, ∀ pid, t.idempotencyKey = .participantPenalty pid →
      ∃ p ∈ s'.participants.rows, p.id = pid ∧ p.status.Closed ∧ t.userId = p.userId ∧
        (p.status = .COMPLETED → t.delta < 0 →
          ∃ g ∈ s'.trustLedger.rows, g.idempotencyKey = .noShowDispute pid) := by
  intro t ht pid hk
  have hposts := Op.posts hs hrun
  rcases hposts.trust_or_new ht with hold | hnew
  · obtain ⟨p, hp, hid, hclosed, huser, hdone⟩ := h.trust t hold pid hk
    rcases Op.closed_fate hs hrun hp hclosed with hkept | ⟨-, hover, hundone⟩
    · refine ⟨p, hkept, hid, hclosed, huser, fun hst hneg => ?_⟩
      obtain ⟨g, hg, hgk⟩ := hdone hst hneg
      exact ⟨g, hposts.trust_mem hg, hgk⟩
    · refine ⟨p.attendedNow, hover, hid, .inr (.inr rfl), huser, fun _ hneg => ?_⟩
      rw [← hid] at hk ⊢
      exact hundone.trust t ht hk hneg
  · obtain ⟨hop, q, hq, hid, huser⟩ := hnew.guestPenalty hk
    obtain ⟨p, hp, hpid, hsame, hst⟩ := h.charged hrun hop hq hid
    refine ⟨p, hp, hpid, by unfold ParticipantStatus.Closed; tauto, huser.trans hsame.symm,
      fun hdone => ?_⟩
    rcases hst with hst | hst <;> rw [hst] at hdone <;> cases hdone

theorem step_back (h : Marked s) (hs : s.Linked) (hrun : Runs (op.act env) s () s') :
    ∀ g ∈ s'.trustLedger.rows, ∀ pid, g.idempotencyKey = .noShowDispute pid →
      (∃ p ∈ s'.participants.rows, p.id = pid ∧ p.status = .COMPLETED) ∧
      ∃ t ∈ s'.trustLedger.rows, t.idempotencyKey = .participantPenalty pid ∧ t.delta < 0 ∧
        GivesBack t g := by
  intro g hg pid hk
  have hposts := Op.posts hs hrun
  rcases hposts.trust_or_new hg with hold | hnew
  · obtain ⟨⟨p, hp, hid, hst⟩, t, ht, hrest⟩ := h.back g hold pid hk
    refine ⟨?_, t, hposts.trust_mem ht, hrest⟩
    rcases Op.closed_fate hs hrun hp (.inr (.inr hst)) with hkept | ⟨-, hover, -⟩
    · exact ⟨p, hkept, hid, hst⟩
    · exact ⟨p.attendedNow, hover, hid, rfl⟩
  · obtain ⟨p, hp, -, hover, hgk, huser, t, ht, htk, hneg, hdelta⟩ := hnew.givenBack hk
    have hid : p.id = pid := by
      rw [hk] at hgk
      exact (TrustKey.noShowDispute.inj hgk).symm
    subst hid
    refine ⟨⟨p.attendedNow, hover, rfl, rfl⟩, t, hposts.trust_mem ht, htk, hneg, ?_, hdelta⟩
    obtain ⟨q, hq, hqid, -, htuser, -⟩ := h.trust t ht p.id htk
    obtain rfl : q = p := Table.eq_of_key hq hp hqid
    exact huser.trans htuser.symm

theorem step (h : Marked s) (hs : s.Linked) (hrun : Runs (op.act env) s () s') : Marked s' :=
  ⟨h.step_points hs hrun, h.step_coins hs hrun, h.step_trust hs hrun, h.step_back hs hrun⟩

theorem initial : Marked Db.initial := by
  refine ⟨?_, ?_, ?_, ?_⟩ <;> simp [Db.initial]

end Marked

/-- Every ledger a run writes is linked, and every absence in it is marked. -/
theorem World.marked {w : World} (h : Reachable World.Init World.Step w) :
    w.db.Linked ∧ Marked w.db := by
  refine Reach.invariant (I := fun w : World => w.db.Linked ∧ Marked w.db) ?_ ?_ h
  · intro w hw
    rw [hw.1]
    exact ⟨by simp [Db.Linked, Db.initial], .initial⟩
  · rintro w c w' ⟨hs, hm⟩ - hstep
    obtain ⟨-, -, rfl⟩ := World.step_iff.1 hstep
    change (commit (c.op.act c.env) w.db).Linked ∧ Marked (commit (c.op.act c.env) w.db)
    rcases commit_cases (c.op.act c.env) w.db with ⟨_, hruns⟩ | hsame
    · exact ⟨(Op.posts hs hruns).coins.linked hs, hm.step hs hruns⟩
    · rw [hsame]
      exact ⟨hs, hm⟩

/-! ## Netting out -/

/-- The coin rows a participation's penalty left: the penalty and what reverses it. -/
def Db.markingRows (db : Db) (p : ParticipantId) : List CoinLedgerRow :=
  db.coinLedger.rows.filter fun r =>
    decide (r.idempotencyKey = .participantPenalty p) ||
      db.coinLedger.rows.any fun o =>
        decide (o.idempotencyKey = .participantPenalty p) && decide (r.reversesLedgerId = some o.id)

/-- The trust rows it left: the penalty and what gives it back. -/
def Db.markingTrust (db : Db) (p : ParticipantId) : List TrustLedgerRow :=
  db.trustLedger.rows.filter fun t =>
    decide (t.idempotencyKey = .participantPenalty p) || decide (t.idempotencyKey = .noShowDispute p)

theorem Db.mem_markingRows {db : Db} {p : ParticipantId} {r : CoinLedgerRow} :
    r ∈ db.markingRows p ↔ r ∈ db.coinLedger.rows ∧ (r.idempotencyKey = .participantPenalty p ∨
      ∃ o ∈ db.coinLedger.rows, o.idempotencyKey = .participantPenalty p ∧
        r.reversesLedgerId = some o.id) := by
  simp [Db.markingRows]

/-- The absence of the participation `p` of `guest`, undone: its coins sum to nothing, on
    the guest's own account, and the trust it took came back once, as far as the ceiling
    left room. -/
structure Db.NettedOut (db : Db) (p : ParticipantId) (guest : UserId) : Prop where
  coins : ((db.markingRows p).map (·.amount)).sum = 0
  account : ∀ r ∈ db.markingRows p, r.userId = guest
  trust : ∀ t ∈ db.trustLedger.rows, t.idempotencyKey = .participantPenalty p →
    t.userId = guest ∧ (t.delta < 0 → ∃ g ∈ db.trustLedger.rows,
      g.idempotencyKey = .noShowDispute p ∧ g.userId = guest ∧
      g.delta = min (-t.delta) (TRUST_MAX_SCORE - g.scoreBefore) ∧
      ∀ g' ∈ db.trustLedger.rows, g'.idempotencyKey = .noShowDispute p → g' = g)
  nothing : ∀ g ∈ db.trustLedger.rows, g.idempotencyKey = .noShowDispute p →
    ∃ t ∈ db.trustLedger.rows, t.idempotencyKey = .participantPenalty p ∧ t.delta < 0

section NetOut

variable {env : Env} {op : Op} {s s' : Db} {p : ParticipantRow}

/-- What a clamped credit comes to. -/
theorem GivesBack.amount {db : Db} {t g : TrustLedgerRow} (h : GivesBack t g) (hneg : t.delta < 0)
    (hg : g ∈ db.trustLedger.rows) : g.delta = min (-t.delta) (TRUST_MAX_SCORE - g.scoreBefore) := by
  have hcheck := db.trustLedger.valid g hg
  simp only [Row.check, TrustLedgerRow.constraints, Bool.and_eq_true, decide_eq_true_eq] at hcheck
  have hlow : 0 ≤ g.scoreBefore := hcheck.1.1.1.1.2
  have hhigh : g.scoreBefore ≤ 100 := hcheck.1.1.1.2
  rw [h.2]
  simp only [clampScore, TRUST_MIN_SCORE, TRUST_MAX_SCORE]
  omega

/-- The rows of a reversed penalty are the penalty and its one reversal. -/
theorem markingRows_perm (hs : s.Linked) {o : CoinLedgerRow} (ho : o ∈ s.coinLedger.rows)
    (hk : o.idempotencyKey = .participantPenalty p.id) (hrev : s.isReversed o.id = true) :
    ∃ r, (s.markingRows p.id).Perm [o, r] ∧ r.amount = -o.amount ∧ r.userId = o.userId := by
  obtain ⟨r, hr, hlink, hamount, huser, honly⟩ := hs.returnedOnce ho hrev
  refine ⟨r, ?_, hamount, huser⟩
  have hne : o ≠ r := by
    rintro rfl
    have hkey := ((hs o ho).key_iff o.id).2 hlink
    rw [hk] at hkey
    cases hkey
  have hnodup : (s.markingRows p.id).Nodup := (nodup_rows _).filter _
  rw [List.perm_ext_iff_of_nodup hnodup (by simp [hne])]
  intro x
  simp only [Db.mem_markingRows, List.mem_cons, List.not_mem_nil, or_false]
  constructor
  · rintro ⟨hx, hxk | ⟨o', ho', hok', hxl⟩⟩
    · exact .inl (Db.coin_of_key hx ho (hxk.trans hk.symm))
    · obtain rfl := Db.coin_of_key ho' ho (hok'.trans hk.symm)
      exact .inr (honly x hx hxl)
  · rintro (rfl | rfl)
    · exact ⟨ho, .inl hk⟩
    · exact ⟨hr, .inr ⟨o, ho, hk, hlink⟩⟩

theorem Marked.nettedOut (h : Marked s) (hs : s.Linked) (hp : p ∈ s.participants.rows)
    (hst : p.status = .COMPLETED) : s.NettedOut p.id p.userId := by
  have hrows : s.markingRows p.id = [] ∨ ∃ o r, (s.markingRows p.id).Perm [o, r] ∧
      r.amount = -o.amount ∧ r.userId = o.userId ∧ o.userId = p.userId := by
    cases hk : s.ledgerByKey (.participantPenalty p.id) with
    | none =>
        left
        rw [List.eq_nil_iff_forall_not_mem]
        intro r hr
        obtain ⟨hr, hrk | ⟨o, ho, hok, -⟩⟩ := Db.mem_markingRows.1 hr
        · exact Db.not_mem_of_ledgerByKey hk r hr hrk
        · exact Db.not_mem_of_ledgerByKey hk o ho hok
    | some o =>
        right
        obtain ⟨ho, hok⟩ := Db.mem_of_ledgerByKey hk
        obtain ⟨q, hq, hid, -, hrow, hdone⟩ := h.coins o ho p.id hok
        obtain rfl : q = p := Table.eq_of_key hq hp hid
        obtain ⟨r, hperm, hamount, huser⟩ := markingRows_perm hs ho hok (hdone hst)
        exact ⟨o, r, hperm, hamount, huser, hrow.user⟩
  refine ⟨?_, ?_, fun t ht hk => ?_, fun g hg hk => ?_⟩
  · rcases hrows with hnone | ⟨o, r, hperm, hamount, -, -⟩
    · simp [hnone]
    · rw [(hperm.map _).sum_eq]
      simp [hamount]
  · intro x hx
    rcases hrows with hnone | ⟨o, r, hperm, -, huser, howner⟩
    · simp [hnone] at hx
    · have hmem := hperm.mem_iff.1 hx
      simp only [List.mem_cons, List.not_mem_nil, or_false] at hmem
      rcases hmem with rfl | rfl
      · exact howner
      · exact huser.trans howner
  · obtain ⟨q, hq, hid, -, huser, hdone⟩ := h.trust t ht p.id hk
    obtain rfl : q = p := Table.eq_of_key hq hp hid
    refine ⟨huser, fun hneg => ?_⟩
    obtain ⟨g, hg, hgk⟩ := hdone hst hneg
    obtain ⟨-, t', ht', hk', hneg', hback⟩ := h.back g hg q.id hgk
    obtain rfl : t' = t := Db.trust_of_key ht' ht (hk'.trans hk.symm)
    exact ⟨g, hg, hgk, hback.1.trans huser, hback.amount hneg hg,
      fun g' hg' hgk' => Db.trust_of_key hg' hg (hgk'.trans hgk.symm)⟩
  · obtain ⟨-, t, ht, htk, hneg, -⟩ := h.back g hg p.id hk
    exact ⟨t, ht, htk, hneg⟩

/-- A settled participation stays, and so do the coin rows of its penalty. -/
theorem Marked.markingRows_final (h : Marked s) (hs : s.Linked) (hrun : Runs (op.act env) s () s')
    (hp : p ∈ s.participants.rows) (hst : p.status = .COMPLETED) :
    s'.markingRows p.id = s.markingRows p.id := by
  have hposts := Op.posts hs hrun
  have hs' : s'.Linked := hposts.coins.linked hs
  -- no operation charges a participation that is settled
  have hold : ∀ o ∈ s'.coinLedger.rows, o.idempotencyKey = .participantPenalty p.id →
      o ∈ s.coinLedger.rows := by
    intro o ho hk
    refine hposts.old_of_not_forward hs ho (by simp [hk]) fun hcharge => ?_
    obtain ⟨q, hq, hid, hlive⟩ := Op.penalizes_live hrun (hcharge.guestPenalty hk).1
    obtain rfl : q = p := Table.eq_of_key hq hp hid
    rw [hst] at hlive
    simp [LIVE_PARTICIPANT_STATUSES] at hlive
  obtain ⟨added, hrows, -⟩ := hposts.coins
  have hfresh : ∀ r ∈ added, r ∉ s.coinLedger.rows := by
    intro r hr hmem
    have hnodup := nodup_rows s'.coinLedger
    rw [hrows] at hnodup
    exact List.disjoint_of_nodup_append hnodup hmem hr
  have hnone : added.filter (fun r => decide (r.idempotencyKey = .participantPenalty p.id) ||
      (s.coinLedger.rows ++ added).any fun o => decide (o.idempotencyKey = .participantPenalty p.id) &&
        decide (r.reversesLedgerId = some o.id)) = [] := by
    rw [List.filter_eq_nil_iff]
    intro r hr
    have hr' : r ∈ s'.coinLedger.rows := by
      rw [hrows]
      exact List.mem_append_right _ hr
    simp only [Bool.or_eq_true, decide_eq_true_eq, List.any_eq_true, Bool.and_eq_true, not_or]
    refine ⟨fun hk => hfresh r hr (hold r hr' hk), ?_⟩
    -- the penalty was reversed before, and nothing is reversed twice
    rintro ⟨o, ho, hk, hlink⟩
    have homem : o ∈ s.coinLedger.rows := hold o (hrows ▸ ho) hk
    obtain ⟨q, hq, hid, -, -, hdone⟩ := h.coins o homem p.id hk
    obtain rfl : q = p := Table.eq_of_key hq hp hid
    have hrev := hdone hst
    simp only [Db.isReversed, List.any_eq_true, decide_eq_true_eq] at hrev
    obtain ⟨x, hx, hxl⟩ := hrev
    have hsame : r = x := reversal_unique s' (hposts.coins.mem hx) hr' (by simp [hxl])
      (hlink.trans hxl.symm)
    rw [hsame] at hr
    exact hfresh x hr hx
  unfold Db.markingRows
  rw [hrows, List.filter_append, hnone, List.append_nil]
  -- of the rows that were there, nothing new is asked
  refine List.filter_congr fun r _ => ?_
  congr 1
  rw [Bool.eq_iff_iff]
  simp only [List.any_eq_true, Bool.and_eq_true, decide_eq_true_eq]
  constructor
  · rintro ⟨o, ho, hk, hlink⟩
    exact ⟨o, hold o (hrows ▸ ho) hk, hk, hlink⟩
  · rintro ⟨o, ho, hk, hlink⟩
    exact ⟨o, List.mem_append_left _ ho, hk, hlink⟩

/-- Neither does its trust move again. -/
theorem Marked.markingTrust_final (hs : s.Linked) (hrun : Runs (op.act env) s () s')
    (hp : p ∈ s.participants.rows) (hst : p.status = .COMPLETED) :
    s'.markingTrust p.id = s.markingTrust p.id := by
  obtain ⟨added, hrows, hadded⟩ := (Op.posts hs hrun).trust
  have hnone : added.filter (fun t => decide (t.idempotencyKey = .participantPenalty p.id) ||
      decide (t.idempotencyKey = .noShowDispute p.id)) = [] := by
    rw [List.filter_eq_nil_iff]
    intro t ht
    simp only [Bool.or_eq_true, decide_eq_true_eq, not_or]
    refine ⟨fun hk => ?_, fun hk => ?_⟩
    · obtain ⟨q, hq, hid, hlive⟩ := Op.penalizes_live hrun ((hadded t ht).guestPenalty hk).1
      obtain rfl : q = p := Table.eq_of_key hq hp hid
      rw [hst] at hlive
      simp [LIVE_PARTICIPANT_STATUSES] at hlive
    · obtain ⟨q, hq, hover, -, hgk, -⟩ := (hadded t ht).givenBack hk
      have hid : q.id = p.id := by
        rw [hk] at hgk
        exact (TrustKey.noShowDispute.inj hgk).symm
      obtain rfl : q = p := Table.eq_of_key hq hp hid
      rcases hover with hover | hover <;> rw [hst] at hover <;> cases hover
  unfold Db.markingTrust
  rw [hrows, List.filter_append, hnone, List.append_nil]

end NetOut

/-! ## Runs -/

/-- The worlds that runs from `w` on reach. -/
abbrev World.Later (w : World) : World → Prop := Reachable (· = w) World.Step

theorem World.step_guest {w w' : World} {c : Call} (h : w.Step c w') {p : ParticipantRow}
    (hp : p ∈ w.db.participants.rows) :
    ∃ k, ∃ x ∈ w'.db.participants.rows, GuestMove c.env w.db k p x := by
  rcases World.step_effect h with hc | ⟨k, -, hc⟩
  · exact ⟨_, hc.change.guest_fate hp⟩
  · exact ⟨k, hc.change.guest_fate hp⟩

/-- A recorded absence either stands or was overturned. -/
theorem World.Later.absent {w w' : World} (h : w.Later w') {p : ParticipantRow}
    (hp : p ∈ w.db.participants.rows) (hst : p.status = .NO_SHOW) :
    ∃ q ∈ w'.db.participants.rows, q.id = p.id ∧ q.userId = p.userId ∧ q.status.Finished := by
  induction h with
  | start hs =>
      subst hs
      exact ⟨p, hp, rfl, rfl, .inr hst⟩
  | next _ _ hstep ih =>
      obtain ⟨q, hq, hid, huser, hfin⟩ := ih
      obtain ⟨k, x, hx, hmove⟩ := World.step_guest hstep hq
      have hkeeps := hmove.keeps
      exact ⟨x, hx, hkeeps.1.trans hid, hkeeps.2.2.trans huser, hmove.finished hfin⟩

/-- Whatever happens after a participation was settled, its penalty does not move. -/
theorem World.Later.settled {w w' : World} (h : w.Later w')
    (hw : Reachable World.Init World.Step w) {p : ParticipantRow}
    (hp : p ∈ w.db.participants.rows) (hst : p.status = .COMPLETED) :
    w'.db.markingRows p.id = w.db.markingRows p.id ∧
      w'.db.markingTrust p.id = w.db.markingTrust p.id := by
  have hall : ((∃ q ∈ w'.db.participants.rows, q.id = p.id ∧ q.status = .COMPLETED) ∧
      Reachable World.Init World.Step w') ∧ w'.db.markingRows p.id = w.db.markingRows p.id ∧
        w'.db.markingTrust p.id = w.db.markingTrust p.id := by
    induction h with
    | start hs =>
        subst hs
        exact ⟨⟨⟨p, hp, rfl, hst⟩, hw⟩, rfl, rfl⟩
    | @next w₁ w₂ c _ _ hstep ih =>
        obtain ⟨⟨⟨q, hq, hid, hq'⟩, hreach⟩, hcoins, htrust⟩ := ih
        obtain ⟨hs, hm⟩ := World.marked hreach
        have hnext : Reachable World.Init World.Step w₂ := .next hreach trivial hstep
        obtain ⟨-, -, rfl⟩ := World.step_iff.1 hstep
        rcases commit_cases (c.op.act c.env) w₁.db with ⟨_, hruns⟩ | hsame
        · have hkept : q ∈ (w₁.after c).db.participants.rows := by
            rcases Op.closed_fate hs hruns hq (.inr (.inr hq')) with hkept | ⟨hover, -⟩
            · exact hkept
            · rcases hover with hover | hover <;> rw [hq'] at hover <;> cases hover
          refine ⟨⟨⟨q, hkept, hid, hq'⟩, hnext⟩, ?_, ?_⟩
          · rw [← hcoins, ← hid]
            exact hm.markingRows_final hs hruns hq hq'
          · rw [← htrust, ← hid]
            exact Marked.markingTrust_final hs hruns hq hq'
        · have hdb : (w₁.after c).db = w₁.db := hsame
          rw [hdb]
          exact ⟨⟨⟨q, hq, hid, hq'⟩, hnext⟩, hcoins, htrust⟩
  exact hall.2

/-- An absence recorded in a run and overturned later, by whichever decision, nets out, and
    nothing that happens afterwards moves its penalty again. -/
theorem overturned_absence_nets_out {w w₁ w₂ : World} {p q : ParticipantRow}
    (h : Reachable World.Init World.Step w) (hp : p ∈ w.db.participants.rows)
    (hst : p.status = .NO_SHOW) (h₁ : w.Later w₁) (hq : q ∈ w₁.db.participants.rows)
    (hid : q.id = p.id) (hover : q.status ≠ .NO_SHOW) (h₂ : w₁.Later w₂) :
    w₁.db.NettedOut p.id p.userId ∧ w₂.db.markingRows p.id = w₁.db.markingRows p.id ∧
      w₂.db.markingTrust p.id = w₁.db.markingTrust p.id := by
  have hreach₁ : Reachable World.Init World.Step w₁ := Reach.trans h h₁
  obtain ⟨hs, hm⟩ := World.marked hreach₁
  obtain ⟨x, hx, hxid, huser, hfin⟩ := World.Later.absent h₁ hp hst
  obtain rfl : x = q := Table.eq_of_key hx hq (hxid.trans hid.symm)
  have hdone : x.status = .COMPLETED := hfin.resolve_right hover
  have hnet : w₁.db.NettedOut x.id x.userId := hm.nettedOut hs hx hdone
  have hfinal := World.Later.settled h₂ hreach₁ hx hdone
  rw [hxid, huser] at hnet
  rw [hxid] at hfinal
  exact ⟨hnet, hfinal⟩

theorem World.later_of_runList {w w' : World} {calls : List Call}
    (h : runList World.exec w calls = some w') : w.Later w' :=
  reachable_of_runList (fun _ _ _ h => h) (.start rfl) h

/-- What the penalty of the participation `p` took of trust was given back in full. -/
def Db.TrustRestored (db : Db) (p : ParticipantId) : Prop :=
  ∀ t ∈ db.trustLedger.rows, t.idempotencyKey = .participantPenalty p → t.delta < 0 →
    ∃ g ∈ db.trustLedger.rows, g.idempotencyKey = .noShowDispute p ∧ g.delta = -t.delta

instance (db : Db) (p : ParticipantId) : Decidable (db.TrustRestored p) :=
  inferInstanceAs (Decidable (∀ t ∈ db.trustLedger.rows, _))

/-- Settings under which a guest starts near the ceiling. -/
def trustingEnv (hours : Int) : Env :=
  { demoEnv hours with
    settings := { Settings.defaults with
      trust_initial_score := 95, trust_attendance_delta := 10, trust_attendance_daily_cap := 10 } }

/-- A guest is marked absent on one evening, of two they had a seat for. -/
def markedCalls : List Call :=
  [callAt 0 (.moveCoins (onboardingReward 1 100)), callAt 0 (.moveCoins (onboardingReward 2 100)),
   callAt 1 (.create 1 (demoEvent 100 2) false 7), callAt 1 (.create 1 (demoEvent 150 2) false 8),
   callAt 2 (.join 2 7 21), callAt 2 (.join 2 8 22), callAt 3 (.accept 1 21),
   callAt 3 (.accept 1 22), callAt 103 (.retireOne 7), ⟨trustingEnv 103, .markNoShow 1 21⟩,
   callAt 104 (.dispute 2 21 "I was there the whole evening.")]

/-- They attend the other, and a moderator upholds their dispute. -/
def overturnedCalls : List Call :=
  [callAt 153 (.retireOne 8), callAt 171 .scanAttendance, ⟨trustingEnv 171, .settleOne 8⟩,
   ⟨trustingEnv 172, .decideClaim 9 true 1 true "The guest was there."⟩]

/-- The participation 21 was marked absent in `w`, and is overturned in `w₁`. -/
def overturned (w w₁ : World) : Bool :=
  w.db.participants.rows.any (fun p => decide (p.id = 21) && decide (p.status = .NO_SHOW)) &&
    w₁.db.participants.rows.any (fun q => decide (q.id = 21) && decide (q.status ≠ .NO_SHOW))

theorem overturned_spec {w w₁ : World} (h : overturned w w₁ = true) :
    (∃ p ∈ w.db.participants.rows, p.id = 21 ∧ p.status = .NO_SHOW) ∧
      ∃ q ∈ w₁.db.participants.rows, q.id = 21 ∧ q.status ≠ .NO_SHOW := by
  simpa [overturned, and_assoc] using h

/-- A check that passes in two worlds of a run passes in worlds of a run. -/
theorem World.exists_of_later {calls later : List Call} {P : World → World → Bool}
    (h : (World.play calls).any (fun w => (runList World.exec w later).any (P w)) = true) :
    ∃ w w₁, Reachable World.Init World.Step w ∧ w.Later w₁ ∧ P w w₁ = true := by
  obtain ⟨w, hw, hlater⟩ := World.exists_of_play h
  obtain ⟨w₁, hw₁, hP⟩ := (Option.any_eq_true _ _).1 hlater
  exact ⟨w, w₁, World.reachable_of_play hw, World.later_of_runList hw₁, hP⟩

/-- The penalty of that guest was sixty coins, and it nets out. -/
theorem overturned_absence_nets_out_dispute : ∃ w₁ : World,
    w₁.db.NettedOut 21 2 ∧ (w₁.db.markingRows 21).map (·.amount) = [-60, 60] := by
  have hplay : (World.play markedCalls).any (fun w => (runList World.exec w overturnedCalls).any
      fun w₁ => overturned w w₁ && (w.db.participants.rows.any (fun p => decide (p.id = 21) &&
        decide (p.userId = 2)) && decide ((w₁.db.markingRows 21).map (·.amount) = [-60, 60]))) =
      true := by
    decide +kernel
  obtain ⟨w, w₁, hw, hlater, hcheck⟩ := World.exists_of_later hplay
  simp only [Bool.and_eq_true, List.any_eq_true, decide_eq_true_eq] at hcheck
  obtain ⟨hover, ⟨x, hx, hxid, hxuser⟩, hrows⟩ := hcheck
  obtain ⟨⟨p, hp, hid, hst⟩, q, hq, hqid, hqst⟩ := overturned_spec hover
  obtain rfl : x = p := Table.eq_of_key hx hp (hxid.trans hid.symm)
  have hnet := overturned_absence_nets_out hw hp hst hlater hq (hqid.trans hid.symm) hqst
    (.start rfl)
  refine ⟨w₁, ?_, hrows⟩
  rw [← hid, ← hxuser]
  exact hnet.1

/-- They had earned ten points meanwhile, so of the fifteen taken ten come back. -/
theorem overturned_absence_clamped :
    ¬ ∀ (w w₁ : World) (p q : ParticipantRow), Reachable World.Init World.Step w →
      p ∈ w.db.participants.rows → p.status = .NO_SHOW → w.Later w₁ →
      q ∈ w₁.db.participants.rows → q.id = p.id → q.status ≠ .NO_SHOW →
      w₁.db.TrustRestored p.id := by
  intro h
  have hplay : (World.play markedCalls).any (fun w => (runList World.exec w overturnedCalls).any
      fun w₁ => overturned w w₁ && !decide (w₁.db.TrustRestored 21)) = true := by
    decide +kernel
  obtain ⟨w, w₁, hw, hlater, hcheck⟩ := World.exists_of_later hplay
  rw [Bool.and_eq_true] at hcheck
  obtain ⟨⟨p, hp, hid, hst⟩, q, hq, hqid, hqst⟩ := overturned_spec hcheck.1
  have hfull := h w w₁ p q hw hp hst hlater hq (hqid.trans hid.symm) hqst
  rw [hid] at hfull
  simp [hfull] at hcheck

end Paayatam
