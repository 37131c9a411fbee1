/-
  Paayatam.Booking.Postings

  What every operation posts to the two ledgers.

  `Op.Charges`, `Op.TakesBack` and `Op.Scores` list, operation by operation,
  the forward coin rows it may append, the rows it may reverse, and the trust
  rows it may append.  `Op.posts` is the only fact an invariant about single
  ledger rows needs of the operations.
-/

import Paayatam.Booking.Overturning
import Paayatam.Booking.World

namespace Paayatam

open Lib

/-- Coins spent on the event `e` under `key`. -/
structure SpendOn (e : EventId) (key : CoinKey) (r : CoinLedgerRow) : Prop where
  key : r.idempotencyKey = key
  ref : r.ref = some (.event e)
  spent : r.amount < 0

/-- A half of the settlement `st`, as it was paid. -/
structure PaymentRow (st : Settlement) (r : CoinLedgerRow) : Prop where
  user : r.userId = st.hostUserId
  half : (r.idempotencyKey = .hostDepositRefund st.eventId ∧ r.amount = st.refund) ∨
    (r.idempotencyKey = .hostReward st.eventId ∧ r.amount = st.bonus)
  paid : 0 < r.amount

/-- The penalty of the guest of the participation `p`. -/
def GuestPenalty (s : Db) (p : ParticipantId) (r : CoinLedgerRow) : Prop :=
  ∃ q ∈ s.participants.rows, q.id = p ∧ PenaltyRow (.participantPenalty p) q.userId r

/-- The trust the guest of the participation `p` loses with the penalty. -/
def GuestPenaltyTrust (s : Db) (p : ParticipantId) (t : TrustLedgerRow) : Prop :=
  ∃ q ∈ s.participants.rows, q.id = p ∧ TrustUnder (.participantPenalty p) q.userId t

/-- The forward coin rows an operation may append. -/
def Op.Charges (s s' : Db) : Op → CoinLedgerRow → Prop
  | .create _ _ _ e, r => SpendOn e (.eventCreateSpend e) r ∨ SpendOn e (.channelPostSpend e 0) r
  | .cancelByHost host e _, r => PenaltyRow (.hostPenalty e) host r
  | .join user e p, r => JoinCharge p r ∧ r.amount < 0 ∧ r.idempotencyKey = .eventJoinSpend e user
  | .cancel _ p _, r => GuestPenalty s p r
  | .markNoShow _ p, r => GuestPenalty s p r
  | .decideClaim _ _ _ _ _, r => AbsentHostCharge s' r
  | .pay settlement, r => PaymentRow settlement r
  | .moveCoins m, r => RowOf m.input r ∧ r.amount = m.input.amount
  | _, _ => False

/-- The coin rows an operation may reverse. -/
def Op.TakesBack (s : Db) : Op → CoinLedgerRow → Prop
  | .cancelByHost _ _ _, o => PaidToTakePart o
  | .reject _ p, o => JoinCharge p o
  | .expireOne p, o => JoinCharge p o
  | .expireWaitlistedOne p, o => JoinCharge p o
  | .decideClaim _ _ _ _ _, o => MayReturn s o
  | _, _ => False

/-- The trust rows an operation may append. -/
def Op.Scores (s s' : Db) : Op → TrustLedgerRow → Prop
  | .cancelByHost host e _, t => TrustUnder (.hostPenalty e) host t
  | .cancel _ p _, t => GuestPenaltyTrust s p t
  | .settleOne _, t => IsSeedScore t ∨ ∃ p, t.idempotencyKey = .attendance p
  | .markNoShow _ p, t => GuestPenaltyTrust s p t
  | .decideClaim _ _ _ _ _, t => DecidedTrust s s' t
  | _, _ => False

section Operations

variable {env : Env} {K R : CoinLedgerRow → Prop} {T : TrustLedgerRow → Prop} {s s' : Db}

/-! ## Participations -/

theorem QueueOnly.posts (h : QueueOnly s s') : Posts K R T s s' := by
  rw [h]
  exact .of_eq rfl rfl

theorem fillFreedSeats_posts {ev : EventRow} {ids : List ParticipantId}
    (h : Runs (fillFreedSeats env ev) s ids s') : Posts K R T s s' :=
  (fillFreedSeats_promotes h).2.posts

theorem refundJoinCharge_posts {p : ParticipantId} {reason : String} {t : ActorType}
    {a : Option UserId} {n : Int} (h : Runs (refundJoinCharge env p reason t a) s n s') :
    Posts K (JoinCharge p) T s s' := by
  rw [refundJoinCharge, runs_get_bind] at h
  refine reverseCharges_posts h fun c hc => ?_
  have hmem := Db.mem_unrefundedJoinCharges.1 hc
  exact ⟨hmem.1, hmem.2.1⟩

theorem chargeJoin_posts {p : ParticipantRow} (h : Runs (chargeJoin env p) s () s') :
    Posts (fun r => JoinCharge p.id r ∧ r.amount < 0 ∧
      r.idempotencyKey = .eventJoinSpend p.eventId p.userId) R T s s' := by
  rw [chargeJoin, runs_ite] at h
  rcases h with ⟨hcost, h⟩ | ⟨-, h⟩
  · simp only [runs_bind, runs_pure] at h
    obtain ⟨_, _, happly, -, rfl⟩ := h
    refine (applyCoins_posts happly ⟨rfl, by simp⟩).mono (fun x hx => ?_) (fun _ hR => hR)
      fun _ hT => hT
    obtain ⟨⟨-, htype, hkey, href, -⟩, hamount⟩ := hx
    refine ⟨⟨htype, href⟩, ?_, hkey⟩
    rw [hamount]
    simpa using hcost
  · rw [runs_pure] at h
    rw [h.2]
    exact .refl _

theorem join_posts {u : UserId} {e : EventId} {n : ParticipantId} {d : ParticipationDetail}
    (h : Runs (join env u e n) s d s') :
    Posts (fun r => JoinCharge n r ∧ r.amount < 0 ∧ r.idempotencyKey = .eventJoinSpend e u) R T
      s s' := by
  simp only [join, assertAllowed, runs_guardTx_bind, runs_bind (m := loadJoiner _ _),
    runs_lockEvent_bind, runs_orThrow_bind, runs_bind (m := assertJoinable _ _),
    runs_assertJoinable, runs_bind (m := assertEligible _ _ _), runs_countRows_bind] at h
  obtain ⟨-, joiner, _, hj, ev, hev, _, _, ⟨-, rfl⟩, -, _, s₀, helig, h⟩ := h
  obtain rfl := loadJoiner_state hj
  obtain rfl := assertEligible_state helig
  obtain rfl : ev.id = e := Table.key_of_find? hev
  generalize hrow : requestRow env ev u n _ = row at h
  rw [runs_bind] at h
  obtain ⟨b, s₁, hins, h⟩ := h
  obtain ⟨t, rfl, -⟩ := runs_insertRowOrIgnore hins
  simp only [runs_guardTx_bind, runs_updateRow_bind, runs_emit_bind] at h
  obtain ⟨-, x, -, t', -, h⟩ := h
  rw [runs_bind] at h
  obtain ⟨_, s₂, hcharge, h⟩ := h
  have hposts := chargeJoin_posts (R := R) (T := T) hcharge
  rw [toDetail_state h]
  rw [← hrow] at hposts
  exact hposts.after_eq rfl rfl

theorem accept_posts {host : UserId} {pid : ParticipantId} {d : ParticipationDetail}
    (h : Runs (accept env host pid) s d s') : Posts K R T s s' := by
  obtain ⟨ev, p, r, hev, -, -, -, h⟩ := decideParticipation_spec h
  simp only [runs_assertParticipantTransition_bind, runs_bind (m := takeSeatUnlessHeld _ _)] at h
  obtain ⟨-, _, s₁, hseat, h⟩ := h
  simp only [runs_updateRow_bind, runs_emit_bind, runs_pure] at h
  obtain ⟨x, -, t, -, -, rfl⟩ := h
  simp only [takeSeatUnlessHeld, assertSeatAvailable, runs_ite, runs_guardTx_bind,
    runs_bind (m := takeSeat _), runs_pure] at hseat
  rcases hseat with ⟨-, -, rfl⟩ | ⟨-, -, _, _, htake, -, rfl⟩
  · exact .of_eq rfl rfl
  · obtain ⟨-, t', -, rfl, -⟩ := takeSeat_spec hev htake
    exact .of_eq rfl rfl

theorem seatSeedParticipant_posts {e : EventId} {u : UserId} {n : ParticipantId}
    (h : Runs (seatSeedParticipant env e u n) s () s') : Posts K R T s s' := by
  simp only [seatSeedParticipant, runs_lockEvent_bind, runs_orThrow_bind, assertSeatAvailable,
    runs_guardTx_bind, runs_bind (m := takeSeat _), runs_insertRow] at h
  obtain ⟨ev, hev, -, _, _, hseat, t', -, rfl⟩ := h
  obtain ⟨-, t, -, rfl, -⟩ := takeSeat_spec (Table.mem_of_find? hev) hseat
  exact .of_eq rfl rfl

theorem releaseSeatIfHeld_posts {ev ev' : EventRow} {st : ParticipantStatus}
    (hev : ev ∈ s.events.rows) (h : Runs (releaseSeatIfHeld ev st) s ev' s') :
    Posts K R T s s' ∧ s'.participants = s.participants := by
  rw [releaseSeatIfHeld, runs_ite] at h
  rcases h with ⟨-, h⟩ | ⟨-, h⟩
  · obtain ⟨t, -, rfl, -⟩ := releaseSeat_spec hev h
    exact ⟨.of_eq rfl rfl, rfl⟩
  · rw [runs_pure] at h
    rw [h.2]
    exact ⟨.refl _, rfl⟩

theorem reject_posts {host : UserId} {pid : ParticipantId} {d : ParticipationDetail}
    (h : Runs (reject env host pid) s d s') : Posts K (JoinCharge pid) T s s' := by
  obtain ⟨ev, p, r, hev, -, -, hp, happly⟩ := decideParticipation_spec h
  obtain rfl : p.id = pid := Table.key_of_find? hp
  simp only [runs_assertParticipantTransition_bind, runs_bind (m := releaseSeatIfHeld _ _),
    runs_updateRow_bind] at happly
  obtain ⟨-, ev', s₁, hrelease, x, -, t, -, hrest⟩ := happly
  rw [runs_bind] at hrest
  obtain ⟨n, s₂, hrefund, hrest⟩ := hrest
  rw [runs_bind] at hrest
  obtain ⟨ids, s₃, hfill, hrest⟩ := hrest
  rw [runs_emit_bind, runs_pure] at hrest
  rw [hrest.2]
  have h₁ : Posts K (JoinCharge p.id) T s s₁ := (releaseSeatIfHeld_posts hev hrelease).1
  have h₂ := h₁.trans ((refundJoinCharge_posts hrefund).after_eq rfl rfl)
  exact (h₂.trans (fillFreedSeats_posts hfill)).then_eq rfl rfl

theorem chargeBucket_posts {p : ParticipantId} {u : UserId} {b : Option CancellationBucket}
    {l : Option LedgerId} (h : Runs (chargeBucket env p u b) s l s') :
    Posts (PenaltyRow (.participantPenalty p) u) R (TrustUnder (.participantPenalty p) u) s s' := by
  cases b with
  | none =>
      rw [chargeBucket, runs_pure] at h
      rw [h.2]
      exact .refl _
  | some b =>
      simp only [chargeBucket, runs_bind, runs_pure] at h
      obtain ⟨_, _, hcharge, -, rfl⟩ := h
      exact chargeParticipant_posts hcharge

theorem cancel_posts {u : UserId} {pid : ParticipantId} {reason : Option String}
    {d : ParticipationDetail} (h : Runs (cancel env u pid reason) s d s') :
    Posts (GuestPenalty s pid) R (GuestPenaltyTrust s pid) s s' := by
  simp only [cancel, runs_lockEventByParticipant_bind, runs_orThrow_bind,
    runs_readParticipantByPublicId_bind, runs_guardTx_bind, runs_assertParticipantTransition_bind,
    runs_bind (m := releaseSeatIfHeld _ _), runs_bind (m := chargeBucket _ _ _ _),
    runs_updateRow_bind, runs_emit_bind] at h
  obtain ⟨ev, hev, p, hp, huser, -, ev', s₁, hrelease, l, s₂, hcharge, x, -, t, -, h⟩ := h
  rw [runs_bind] at h
  obtain ⟨ids, s₃, hfill, h⟩ := h
  rw [toDetail_state h]
  obtain rfl : p.id = pid := Table.key_of_find? hp
  have hmem : p ∈ s.participants.rows := Table.mem_of_find? hp
  have h₁ : Posts (GuestPenalty s p.id) R (GuestPenaltyTrust s p.id) s s₁ :=
    (releaseSeatIfHeld_posts (Db.eventOf_spec hev hp).1 hrelease).1
  have h₂ : Posts (GuestPenalty s p.id) R (GuestPenaltyTrust s p.id) s₁ s₂ := by
    refine (chargeBucket_posts hcharge).mono (fun r hr => ?_) (fun _ hR => hR) fun t ht => ?_
    · rw [← huser] at hr
      exact ⟨p, hmem, rfl, hr⟩
    · rw [← huser] at ht
      exact ⟨p, hmem, rfl, ht⟩
  exact (h₁.trans h₂).trans ((fillFreedSeats_posts hfill).after_eq rfl rfl)

theorem expireOne_posts {pid : ParticipantId} {b : Bool} (h : Runs (expireOne env pid) s b s') :
    Posts K (JoinCharge pid) T s s' := by
  simp only [expireOne, runs_lockEventByParticipant_bind] at h
  cases hev : s.eventOf pid with
  | none =>
      simp only [hev, runs_pure] at h
      rw [h.2]
      exact .refl _
  | some ev =>
      simp only [hev, runs_readParticipantByPublicId_bind, runs_ite, runs_pure] at h
      obtain ⟨p, hp, ⟨-, -, rfl⟩ | ⟨-, ⟨-, -, rfl⟩ | ⟨-, h⟩⟩⟩ := h
      · exact .refl _
      · exact .refl _
      · simp only [runs_assertParticipantTransition_bind, runs_updateRow_bind] at h
        obtain ⟨-, x, -, t, -, h⟩ := h
        rw [runs_bind] at h
        obtain ⟨n, s₁, hrefund, h⟩ := h
        rw [runs_emit_bind, runs_bind] at h
        obtain ⟨ids, s₂, hfill, h⟩ := h
        rw [runs_pure] at h
        rw [h.2]
        obtain rfl : p.id = pid := Table.key_of_find? hp
        have h₁ : Posts K (JoinCharge p.id) T s s₁ :=
          (refundJoinCharge_posts hrefund).after_eq rfl rfl
        exact h₁.trans ((fillFreedSeats_posts hfill).after_eq rfl rfl)

theorem expireWaitlistedOne_posts {pid : ParticipantId} {b : Bool}
    (h : Runs (expireWaitlistedOne env pid) s b s') : Posts K (JoinCharge pid) T s s' := by
  simp only [expireWaitlistedOne, runs_lockEventByParticipant_bind] at h
  cases hev : s.eventOf pid with
  | none =>
      simp only [hev, runs_pure] at h
      rw [h.2]
      exact .refl _
  | some ev =>
      simp only [hev, runs_readParticipantByPublicId_bind, runs_ite, runs_pure] at h
      obtain ⟨-, -, rfl⟩ | ⟨-, p, hp, ⟨-, -, rfl⟩ | ⟨-, h⟩⟩ := h
      · exact .refl _
      · exact .refl _
      · simp only [runs_assertParticipantTransition_bind, runs_updateRow_bind] at h
        obtain ⟨-, x, -, t, -, h⟩ := h
        rw [runs_bind] at h
        obtain ⟨n, s₁, hrefund, h⟩ := h
        rw [runs_emit_bind, runs_pure] at h
        rw [h.2]
        obtain rfl : p.id = pid := Table.key_of_find? hp
        have h₁ : Posts K (JoinCharge p.id) T s s₁ :=
          (refundJoinCharge_posts hrefund).after_eq rfl rfl
        exact h₁.then_eq rfl rfl

theorem promoteForEvent_posts {e : EventId} {n : Nat} (h : Runs (promoteForEvent env e) s n s') :
    Posts K R T s s' := by
  simp only [promoteForEvent, runs_lockEvent_bind] at h
  cases hev : s.events.find? e with
  | none =>
      simp only [hev, runs_pure] at h
      rw [h.2]
      exact .refl _
  | some ev =>
      simp only [hev, runs_ite, runs_pure, runs_bind] at h
      obtain ⟨-, -, rfl⟩ | ⟨-, ⟨-, -, rfl⟩ | ⟨-, ids, s₁, hfill, -, rfl⟩⟩ := h
      · exact .refl _
      · exact .refl _
      · exact fillFreedSeats_posts hfill

/-! ## Events -/

theorem chargeHostSpend_posts {host : UserId} {e : EventId} {cost : Nat} {type : CoinLedgerType}
    {reason : String} {key : CoinKey} (hforward : ∀ l, key ≠ .reversal l)
    (h : Runs (chargeHostSpend env host e cost type reason key) s () s') :
    Posts (SpendOn e key) R T s s' := by
  rw [chargeHostSpend, runs_ite] at h
  rcases h with ⟨hcost, h⟩ | ⟨-, h⟩
  · simp only [runs_bind, runs_pure] at h
    obtain ⟨_, _, happly, -, rfl⟩ := h
    refine (applyCoins_posts happly ⟨rfl, hforward⟩).mono (fun x hx => ?_) (fun _ hR => hR)
      fun _ hT => hT
    obtain ⟨⟨-, -, hkey, href, -⟩, hamount⟩ := hx
    refine ⟨hkey, href, ?_⟩
    rw [hamount]
    simpa using hcost
  · rw [runs_pure] at h
    rw [h.2]
    exact .refl _

theorem create_posts {host : UserId} {input : CreateEventInput} {seeded : Bool} {e r : EventId}
    (h : Runs (create env host input seeded e) s r s') :
    Posts (fun x => SpendOn e (.eventCreateSpend e) x ∨ SpendOn e (.channelPostSpend e 0) x) R T
      s s' := by
  simp only [create, runs_fromExcept_bind, runs_bind (m := assertHostCanAuthor _ _), assertAllowed,
    runs_guardTx_bind, runs_bind (m := whenTx _ _), runs_insertRow_bind,
    runs_assertEventTransition_bind, runs_updateRow_bind] at h
  obtain ⟨-, -, _, s₁, hauthor, -, _, s₂, hquota, loc, -, cat, -, h⟩ := h
  obtain rfl := assertHostCanAuthor_state hauthor
  obtain rfl : s₂ = s₁ := whenTx_rel (R := fun a b => b = a) rfl assertWithinQuota_state hquota
  generalize env.scanEventContent _ = decision at h
  obtain ⟨t, -, -, _, s₃, hedge, x, -, t', -, _, s₄, hcase, h⟩ := h
  obtain rfl : s₃ = HasTable.setTable t s₂ :=
    whenTx_rel (R := fun a b => b = a) rfl (fun hm => (runs_assertEventTransition.1 hm).2) hedge
  obtain ⟨hcases, -⟩ := whenTx_openCase_spec hcase
  rw [runs_bind] at h
  obtain ⟨_, s₅, hspend, h⟩ := h
  rw [runs_bind] at h
  obtain ⟨_, s₆, hpost, h⟩ := h
  rw [runs_pure] at h
  rw [h.2]
  have h₅ : Posts (fun x => SpendOn e (.eventCreateSpend e) x ∨ SpendOn e (.channelPostSpend e 0) x)
      R T s₄ s₅ :=
    (chargeHostSpend_posts (by simp) hspend).mono (fun _ hK => .inl hK) (fun _ hR => hR)
      fun _ hT => hT
  have h₆ : Posts (fun x => SpendOn e (.eventCreateSpend e) x ∨ SpendOn e (.channelPostSpend e 0) x)
      R T s₅ s₆ :=
    whenTx_rel (.refl _) (fun hm => (chargeHostSpend_posts (by simp) hm).mono
      (fun _ hK => .inr hK) (fun _ hR => hR) fun _ hT => hT) hpost
  refine (h₅.trans h₆).after_eq ?_ ?_
  · rw [hcases]
    rfl
  · rw [hcases]
    rfl

theorem update_posts {host : UserId} {e : EventId} {input : UpdateEventInput} {v : Option Nat}
    (h : Runs (update env host e input v) s () s') : Posts K R T s s' := by
  simp only [update, runs_findRow_bind, runs_orThrow_bind] at h
  obtain ⟨ev, -, h⟩ := h
  obtain ⟨plan, x, t, -, -, -, hs, -⟩ := finishUpdate_spec h
  rw [hs]
  exact .of_eq rfl rfl

theorem callOffGuest_posts {host : UserId} {reason : Option String} {p : ParticipantRow} {n : Int}
    (h : Runs (callOffGuest env host reason p) s n s') : Posts K PaidToTakePart T s s' := by
  simp only [callOffGuest, runs_assertParticipantTransition_bind, runs_bind (m := refundSeat _ _ _),
    runs_updateRow_bind, runs_pure] at h
  obtain ⟨-, _, s₁, hrefund, y, -, t, -, -, rfl⟩ := h
  have h₁ : Posts K PaidToTakePart T s s₁ := by
    rw [refundSeat, runs_ite] at hrefund
    rcases hrefund with ⟨-, hrefund⟩ | ⟨-, hrefund⟩
    · exact refundParticipant_posts hrefund
    · rw [runs_pure] at hrefund
      rw [hrefund.2]
      exact .refl _
  exact h₁.then_eq rfl rfl

theorem cancelByHost_posts {host : UserId} {e : EventId} {reason : Option String}
    {c : EventCancellation} (h : Runs (cancelByHost env host e reason) s c s') :
    Posts (PenaltyRow (.hostPenalty e) host) PaidToTakePart (TrustUnder (.hostPenalty e) host)
      s s' := by
  simp only [cancelByHost, runs_lockEvent_bind, runs_orThrow_bind, runs_guardTx_bind,
    runs_assertEventTransition_bind, runs_get_bind] at h
  obtain ⟨ev, hev, -, -, -, -, h⟩ := h
  obtain rfl : ev.id = e := Table.key_of_find? hev
  rw [runs_bind] at h
  obtain ⟨_, s₁, hlock, h⟩ := h
  rw [runs_bind] at h
  obtain ⟨refunded, s₂, hloop, h⟩ := h
  rw [runs_bind] at h
  obtain ⟨penalty, s₃, hcharge, h⟩ := h
  simp only [runs_updateRow_bind, runs_emit_bind, runs_pure] at h
  obtain ⟨x, -, t, -, -, rfl⟩ := h
  have hguests : Posts (PenaltyRow (.hostPenalty ev.id) host) PaidToTakePart
      (TrustUnder (.hostPenalty ev.id) host) s₁ s₂ := by
    refine Runs.foldlM_rel Posts.refl (fun h₁ h₂ => h₁.trans h₂) (fun p _ b b' a d hrun => ?_) hloop
    simp only [runs_bind, runs_pure] at hrun
    obtain ⟨n, _, hcall, -, rfl⟩ := hrun
    exact callOffGuest_posts hcall
  exact (((lockAccounts_posts hlock).trans hguests).trans (chargeHost_posts hcharge)).then_eq rfl rfl

/-! ## The clock, absences -/

theorem retireOne_posts {e : EventId} {o : Option EventStatus}
    (h : Runs (retireOne env e) s o s') : Posts K R T s s' := by
  simp only [retireOne, runs_lockEvent_bind] at h
  cases hev : s.events.find? e with
  | none =>
      simp only [hev, runs_pure] at h
      rw [h.2]
      exact .refl _
  | some ev =>
      simp only [hev, runs_ite, runs_pure, runs_countRows_bind] at h
      obtain ⟨-, -, rfl⟩ | ⟨-, ⟨-, -, rfl⟩ | ⟨-, ⟨-, -, rfl⟩ | ⟨-, ⟨-, -, rfl⟩ | ⟨-, h⟩⟩⟩⟩ := h
      · exact .refl _
      · exact .refl _
      · exact .refl _
      · exact .refl _
      · rw [← bind_assoc, runs_bind] at h
        obtain ⟨_, s₁, hpath, h⟩ := h
        rw [runs_pure] at h
        rw [h.2]
        obtain ⟨t, -, rfl⟩ := retire_path (Table.mem_of_find? hev) hpath
        exact .of_eq rfl rfl

theorem creditAttendance_posts {u : UserId} {p : ParticipantId}
    (h : Runs (creditAttendance env u p) s () s') :
    Posts K R (fun t => IsSeedScore t ∨ ∃ q, t.idempotencyKey = .attendance q) s s' := by
  simp only [creditAttendance, runs_ite, runs_pure] at h
  rcases h with ⟨-, -, rfl⟩ | ⟨-, h⟩
  · exact .refl _
  · simp only [runs_get_bind, runs_ite, runs_pure] at h
    rcases h with ⟨-, -, rfl⟩ | ⟨-, h⟩
    · exact .refl _
    · simp only [runs_bind, runs_pure] at h
      obtain ⟨_, _, happly, -, rfl⟩ := h
      refine (applyTrust_posts happly).1.mono (fun _ hK => hK) (fun _ hR => hR) fun t ht => ?_
      exact ht.imp_right fun hrow => ⟨p, hrow.1⟩

theorem settleGuest_posts {ev : EventRow} {p : ParticipantRow}
    (h : Runs (settleGuest env ev p) s () s') :
    Posts K R (fun t => IsSeedScore t ∨ ∃ q, t.idempotencyKey = .attendance q) s s' := by
  simp only [settleGuest, runs_assertParticipantTransition_bind, runs_updateRow_bind, runs_ite,
    runs_pure] at h
  obtain ⟨-, y, -, t, -, ⟨-, -, rfl⟩ | ⟨-, h⟩⟩ := h
  · exact .of_eq rfl rfl
  · rw [runs_bind] at h
    obtain ⟨_, s₁, hcredit, hopen⟩ := h
    have h₁ : Posts K R (fun t => IsSeedScore t ∨ ∃ q, t.idempotencyKey = .attendance q) s s₁ :=
      (creditAttendance_posts hcredit).after_eq rfl rfl
    rw [openForParticipant_state hopen]
    exact h₁.then_eq rfl rfl

theorem settleOne_posts {e : EventId} {us : List UserId} (h : Runs (settleOne env e) s us s') :
    Posts K R (fun t => IsSeedScore t ∨ ∃ q, t.idempotencyKey = .attendance q) s s' := by
  simp only [settleOne, runs_lockEvent_bind] at h
  cases hev : s.events.find? e with
  | none =>
      simp only [hev, runs_pure] at h
      rw [h.2]
      exact .refl _
  | some ev =>
      simp only [hev, runs_ite, runs_pure, runs_findRows_bind] at h
      obtain ⟨-, -, rfl⟩ | ⟨-, h⟩ := h
      · exact .refl _
      · rw [runs_bind] at h
        obtain ⟨_, s₁, hloop, h⟩ := h
        rw [runs_pure] at h
        rw [h.2]
        exact Runs.forM_rel Posts.refl (fun h₁ h₂ => h₁.trans h₂)
          (fun _ _ _ _ hrun => settleGuest_posts hrun) hloop

theorem markNoShow_posts {host : UserId} {pid : ParticipantId}
    (h : Runs (markNoShow env host pid) s () s') :
    Posts (GuestPenalty s pid) R (GuestPenaltyTrust s pid) s s' := by
  simp only [markNoShow, runs_lockEventByParticipant_bind, runs_orThrow_bind, runs_guardTx_bind,
    runs_readParticipantByPublicId_bind, runs_assertParticipantTransition_bind,
    runs_bind (m := chargeParticipant _ _ _ _), runs_updateRow_bind, runs_emit] at h
  obtain ⟨ev, -, -, p, hp, -, -, -, penalty, s₁, hcharge, x, -, t, -, rfl⟩ := h
  obtain rfl : p.id = pid := Table.key_of_find? hp
  have hmem : p ∈ s.participants.rows := Table.mem_of_find? hp
  have hposts : Posts (GuestPenalty s p.id) R (GuestPenaltyTrust s p.id) s s₁ := by
    refine (chargeParticipant_posts hcharge).mono (fun r hr => ?_) (fun _ hR => hR) fun t ht => ?_
    · exact ⟨p, hmem, rfl, hr⟩
    · exact ⟨p, hmem, rfl, ht⟩
  exact hposts.then_eq rfl rfl

/-! ## Claims and moderation -/

theorem writeClaim_posts {e : EventId} {k : NoShowClaimKind} {p : Option ParticipantId} {u : UserId}
    {text : String} {c : CaseId} (h : Runs (writeClaim env e k p u text c) s () s') :
    Posts K R T s s' := by
  simp only [writeClaim, runs_get_bind, runs_bind (m := insertRowOrIgnore _), runs_guardTx] at h
  obtain ⟨_, _, hins, -, rfl⟩ := h
  obtain ⟨t, rfl, -⟩ := runs_insertRowOrIgnore hins
  exact .of_eq rfl rfl

theorem openDispute_posts {t : ModerationSubjectType} {id n : Nat} {c : CaseId}
    (h : Runs (openDispute env t id n) s c s') : Posts K R T s s' := by
  simp only [openDispute, runs_get_bind, runs_insertRow_bind, runs_pure] at h
  obtain ⟨tbl, -, -, rfl⟩ := h
  exact .of_eq rfl rfl

theorem dispute_posts {u : UserId} {pid : ParticipantId} {text : String}
    (h : Runs (dispute env u pid text) s () s') : Posts K R T s s' := by
  simp only [dispute, runs_fromExcept_bind, runs_bind (m := loadDisputable _ _ _),
    runs_bind (m := openDispute _ _ _ _)] at h
  obtain ⟨_, -, p, s₀, hload, c, s₁, hopen, hclaim⟩ := h
  obtain ⟨rfl, -, -⟩ := loadDisputable_spec hload
  exact (openDispute_posts hopen).trans (writeClaim_posts hclaim)

theorem reportHostAbsent_posts {u : UserId} {pid : ParticipantId} {text : String}
    (h : Runs (reportHostAbsent env u pid text) s () s') : Posts K R T s s' := by
  simp only [reportHostAbsent, runs_fromExcept_bind, runs_bind (m := loadReportable _ _ _),
    runs_lockEvent_bind, runs_orThrow_bind, runs_findRows_bind, runs_bind (m := joinOrOpenCase _ _ _),
    runs_bind (m := writeClaim _ _ _ _ _ _ _), runs_countRows_bind, runs_updateRow_bind] at h
  obtain ⟨_, -, p, s₀, hload, ev, -, c, s₁, hcase, _, s₂, hclaim, x, -, t, -, h⟩ := h
  obtain rfl := loadReportable_state hload
  have h₁ : Posts K R T s₀ s₁ := by
    unfold joinOrOpenCase at hcase
    split at hcase
    · rw [runs_pure] at hcase
      rw [hcase.2]
      exact .refl _
    · exact openDispute_posts hcase
  have h₂ : Posts K R T s₂ s' := by
    rcases runs_whenTx.1 h with ⟨-, h⟩ | ⟨-, rfl⟩
    · rw [runs_emit] at h
      rw [h]
      exact .of_eq rfl rfl
    · exact .of_eq rfl rfl
  exact (h₁.trans (writeClaim_posts hclaim)).trans h₂

theorem Reviewed.posts {ev : EventRow} (h : Reviewed ev s s') : Posts K R T s s' := by
  obtain ⟨w, x, t, -, -, -, hs⟩ := h
  rw [hs]
  exact .of_eq rfl rfl

theorem moderateEvent_posts {may : Bool} {e : EventId} {a : ModerationAction} {reason : String}
    {st : EventStatus} (h : Runs (moderateEvent may e a reason) s st s') : Posts K R T s s' := by
  simp only [moderateEvent, runs_guardTx_bind, runs_findRow_bind, runs_orThrow_bind] at h
  obtain ⟨-, -, ev, -, h⟩ := h
  exact (finishModerate_spec h).posts

theorem decideCase_posts {admin : UserId} {may : Bool} {c : CaseId} {d : CaseDecision}
    {note : String} (h : Runs (decideCase env admin may c d note) s () s') : Posts K R T s s' := by
  simp only [decideCase, runs_guardTx_bind, runs_findRow_bind, runs_orThrow_bind,
    runs_updateRow_bind] at h
  obtain ⟨-, -, existing, -, -, -, x, -, t, -, h⟩ := h
  rcases runs_ite.1 h with ⟨-, h⟩ | ⟨-, h⟩
  · simp only [applyEventDecision, runs_findRow_bind] at h
    split at h
    · rw [runs_pure] at h
      rw [h.2]
      exact .of_eq rfl rfl
    · rcases finishEventDecision_spec h with rfl | hrev
      · exact .of_eq rfl rfl
      · exact hrev.posts.after_eq rfl rfl
  · rw [runs_pure] at h
    rw [h.2]
    exact .of_eq rfl rfl

theorem escalateEvent_posts {e : EventId} {n : Nat} {notify : Bool}
    (h : Runs (escalateEvent env e n notify) s () s') : Posts K R T s s' := by
  simp only [escalateEvent, runs_findRows_bind, runs_bind (m := countReports _ _ _ _),
    runs_findRow_bind, runs_orThrow_bind] at h
  obtain ⟨_, s₁, hcount, ev, -, h⟩ := h
  have h₁ : Posts K R T s s₁ := by
    rw [(countReports_spec hcount).1]
    exact .of_eq rfl rfl
  rcases finishEscalate_spec h with hs' | hrev
  · rw [hs']
    exact h₁.then_eq rfl rfl
  · exact h₁.trans hrev.posts

/-! ## Host rewards -/

theorem payHost_posts {st : Settlement} {amount n : Int} {type : CoinLedgerType} {reason : String}
    {key : CoinKey} (hforward : ∀ l, key ≠ .reversal l)
    (h : Runs (payHost env st amount type reason key) s n s') :
    Posts (fun r => r.userId = st.hostUserId ∧ r.idempotencyKey = key ∧ r.amount = amount ∧
      0 < r.amount) R T s s' := by
  rw [payHost, runs_ite] at h
  rcases h with ⟨hpos, h⟩ | ⟨-, h⟩
  · simp only [runs_bind, runs_pure] at h
    obtain ⟨_, _, happly, -, rfl⟩ := h
    refine (applyCoins_posts happly ⟨rfl, hforward⟩).mono (fun x hx => ?_) (fun _ hR => hR)
      fun _ hT => hT
    obtain ⟨⟨huser, -, hkey, -, -⟩, hamount⟩ := hx
    exact ⟨huser, hkey, hamount, by rw [hamount]; exact hpos⟩
  · rw [runs_pure] at h
    rw [h.2]
    exact .refl _

theorem paySettlement_posts {st : Settlement} {n : Int} (h : Runs (paySettlement env st) s n s') :
    Posts (PaymentRow st) R T s s' := by
  simp only [paySettlement, runs_bind (m := payHost _ _ _ _ _ _)] at h
  obtain ⟨_, s₁, hrefund, _, s₂, hbonus, h⟩ := h
  have h₁ : Posts (PaymentRow st) R T s s₁ :=
    (payHost_posts (by simp) hrefund).mono
      (fun r hr => ⟨hr.1, .inl ⟨hr.2.1, hr.2.2.1⟩, hr.2.2.2⟩) (fun _ hR => hR) fun _ hT => hT
  have h₂ : Posts (PaymentRow st) R T s₁ s₂ :=
    (payHost_posts (by simp) hbonus).mono
      (fun r hr => ⟨hr.1, .inr ⟨hr.2.1, hr.2.2.1⟩, hr.2.2.2⟩) (fun _ hR => hR) fun _ hT => hT
  rcases runs_ite.1 h with ⟨-, h⟩ | ⟨-, h⟩
  · rw [runs_pure] at h
    rw [h.2]
    exact h₁.trans h₂
  · rw [runs_emit_bind, runs_pure] at h
    rw [h.2]
    exact (h₁.trans h₂).then_eq rfl rfl

theorem moveCoins_posts {m : OutsideMovement} {r : CoinPenalty}
    (h : Runs (applyCoins env m.input) s r s') :
    Posts (fun x => RowOf m.input x ∧ x.amount = m.input.amount) R T s s' := by
  have hforward : ∀ l, m.input.idempotencyKey ≠ .reversal l := by
    rcases m.key_ok with ⟨k, hk⟩ | ⟨e, n, hk⟩ <;> simp [hk]
  exact applyCoins_posts h ⟨m.forward, hforward⟩

/-! ## Any operation -/

/-- Every operation posts what its row of the three tables says. -/
theorem Op.posts {op : Op} (hs : s.Linked) (h : Runs (op.act env) s () s') :
    Posts (op.Charges s s') (op.TakesBack s) (op.Scores s s') s s' := by
  cases op with
  | create =>
      obtain ⟨_, h⟩ := runs_drop.1 h
      exact create_posts h
  | update => exact update_posts h
  | cancelByHost =>
      obtain ⟨_, h⟩ := runs_drop.1 h
      exact cancelByHost_posts h
  | join =>
      obtain ⟨_, h⟩ := runs_drop.1 h
      exact join_posts h
  | accept =>
      obtain ⟨_, h⟩ := runs_drop.1 h
      exact accept_posts h
  | seatSeedParticipant => exact seatSeedParticipant_posts h
  | reject =>
      obtain ⟨_, h⟩ := runs_drop.1 h
      exact reject_posts h
  | cancel =>
      obtain ⟨_, h⟩ := runs_drop.1 h
      exact cancel_posts h
  | expireOne =>
      obtain ⟨_, h⟩ := runs_drop.1 h
      exact expireOne_posts h
  | expireWaitlistedOne =>
      obtain ⟨_, h⟩ := runs_drop.1 h
      exact expireWaitlistedOne_posts h
  | promoteForEvent =>
      obtain ⟨_, h⟩ := runs_drop.1 h
      exact promoteForEvent_posts h
  | retireOne =>
      obtain ⟨_, h⟩ := runs_drop.1 h
      exact retireOne_posts h
  | settleOne =>
      obtain ⟨_, h⟩ := runs_drop.1 h
      exact settleOne_posts h
  | markNoShow => exact markNoShow_posts h
  | dispute => exact dispute_posts h
  | reportHostAbsent => exact reportHostAbsent_posts h
  | decideClaim => exact (decideClaim_overturns hs h).posts
  | moderateEvent =>
      obtain ⟨_, h⟩ := runs_drop.1 h
      exact moderateEvent_posts h
  | decideCase => exact decideCase_posts h
  | escalateEvent => exact escalateEvent_posts h
  | pay =>
      obtain ⟨_, h⟩ := runs_drop.1 h
      exact paySettlement_posts h
  | moveCoins m =>
      obtain ⟨_, h⟩ := runs_drop.1 h
      exact moveCoins_posts h
  | scanAttendance | scanRewards | assess =>
      rw [Op.act, runs_pure] at h
      rw [h.2]
      exact .refl _

end Operations

end Paayatam
