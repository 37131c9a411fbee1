/-
  Paayatam.Booking.CancellationPreview

  The dialog before a withdrawal quotes what the withdrawal takes.

  The two read the same row through the same checks, so the quote can only be
  wrong where the charge is: a key that was used, or a write the database
  refuses.  In a reachable state neither happens.  A live participation has
  never been charged (`Marked.fresh`), its event has a seat to give back
  (`World.covered`), and the pass over the queue commits whatever it finds.

  What is taken may be less than what was quoted, in both currencies: coins are
  capped at the balance and trust at the score.
-/

import Paayatam.Booking.Covered
import Paayatam.Booking.JoinPreview
import Paayatam.Booking.MarkedAbsence
import Paayatam.Booking.PromotionOrder
import Paayatam.Economy.Charged

namespace Paayatam

open Lib

/-- A live participation has taken no trust. -/
theorem Marked.freshTrust {s : Db} (h : Marked s) {p : ParticipantRow}
    (hp : p ∈ s.participants.rows) (hlive : p.status ∈ LIVE_PARTICIPANT_STATUSES) :
    s.trustByKey (.participantPenalty p.id) = none := by
  cases hk : s.trustByKey (.participantPenalty p.id) with
  | none => rfl
  | some t =>
      have ht : t ∈ s.trustLedger.rows := List.mem_of_find?_eq_some hk
      have htk : t.idempotencyKey = .participantPenalty p.id := by
        simpa using List.find?_some hk
      obtain ⟨q, hq, hid, hclosed, -⟩ := h.trust t ht p.id htk
      obtain rfl : q = p := Table.eq_of_key hq hp hid
      exact absurd hlive hclosed.not_live

/-! ## The steps of a withdrawal -/

section Steps

variable {env : Env} {u : UserId} {pid : ParticipantId} {p : ParticipantRow} {ev : EventRow}
  {bucket : Option CancellationBucket} {price : PenaltyPrice} {k : TrustKey}
  {coinsCharged trustApplied : Int} {s s₀ s' s₁ : Db}

/-- What a charge takes is read off the accounts and the trust tables alone. -/
theorem Takes.congr (h : Takes env price u k s s' coinsCharged trustApplied)
    (haccounts : s.coinAccounts = s₀.coinAccounts) (hscores : s.trustScores = s₀.trustScores)
    (htrust : s.trustLedger = s₀.trustLedger) (haccounts' : s'.coinAccounts = s₁.coinAccounts)
    (htrust' : s'.trustLedger = s₁.trustLedger) :
    Takes env price u k s₀ s₁ coinsCharged trustApplied := by
  have hbalance : s.balanceOf u = s₀.balanceOf u := by
    unfold Db.balanceOf
    rw [haccounts]
  have hbalance' : s'.balanceOf u = s₁.balanceOf u := by
    unfold Db.balanceOf
    rw [haccounts']
  have hscore : s.scoreToMove env u = s₀.scoreToMove env u := by
    unfold Db.scoreToMove Db.scoreOf Db.trustByKey
    rw [hscores, htrust]
  have hpoints : s'.trustTaken k = s₁.trustTaken k := by
    unfold Db.trustTaken Db.trustByKey
    rw [htrust']
  refine ⟨?_, ?_, ?_, ?_⟩
  · rw [← hbalance]
    exact h.coins
  · rw [← hbalance, ← hbalance']
    exact h.balance
  · rw [← hscore]
    exact h.trust
  · rw [← hpoints]
    exact h.points

/-- The seat of a guest who sits is there to be given back. -/
theorem releaseSeatIfHeld_runs (hev : ev ∈ s.events.rows)
    (hseat : p.status = .ACCEPTED → 1 ≤ ev.acceptedCount) :
    ∃ ev' t, ev'.startsAt = ev.startsAt ∧
      Runs (releaseSeatIfHeld ev p.status) s ev' { s with events := t } := by
  by_cases hheld : holdsSeat p.status = true
  · have hbounds := EventRow.acceptedCount_bounds (s.events.valid ev hev)
    have hroom := hseat (holdsSeat_iff.1 hheld)
    have hcheck : Row.check { ev with acceptedCount := ev.acceptedCount - 1 } = true := by
      have hvalid := s.events.valid ev hev
      simp only [Row.check, EventRow.constraints, Bool.and_eq_true, decide_eq_true_eq] at hvalid ⊢
      have hlow : 0 ≤ ev.acceptedCount - 1 := by omega
      have hhigh : ev.acceptedCount - 1 ≤ ev.capacity := by omega
      tauto
    have hupdate : Succeeds (updateRow ev.id fun e : EventRow =>
        { e with acceptedCount := e.acceptedCount - 1 } : Act Unit) s :=
      succeeds_updateRow (Table.find?_of_mem hev) rfl hcheck fun _ => rfl
    obtain ⟨_, s₁, hrun⟩ := hupdate
    have hwrote := hrun
    obtain ⟨x, -, t, -, rfl⟩ := runs_updateRow.1 hrun
    refine ⟨{ ev with acceptedCount := ev.acceptedCount - 1 }, t, rfl, ?_⟩
    rw [releaseSeatIfHeld, if_pos hheld, releaseSeat]
    exact hwrote.runs_bind.2 (runs_pure.2 ⟨rfl, rfl⟩)
  · refine ⟨ev, s.events, rfl, ?_⟩
    rw [releaseSeatIfHeld, if_neg hheld]
    exact runs_pure.2 ⟨rfl, rfl⟩

theorem priceFor_nonneg (st : Settings) (b : CancellationBucket) :
    0 ≤ (priceFor st b).coins ∧ 0 ≤ (priceFor st b).trust := by
  cases b <;> exact ⟨Int.natCast_nonneg _, Int.natCast_nonneg _⟩

theorem priceOf_nonneg (st : Settings) (b : Option CancellationBucket) :
    0 ≤ (priceOf st b).coins ∧ 0 ≤ (priceOf st b).trust := by
  cases b with
  | none => exact ⟨le_refl 0, le_refl 0⟩
  | some b => exact priceFor_nonneg st b

/-- The charge of a participation that was never charged. -/
theorem chargeBucket_runs (env : Env) (u : UserId) (bucket : Option CancellationBucket)
    (hcoins : s.ledgerByKey (.participantPenalty pid) = none)
    (htrust : s.trustByKey (.participantPenalty pid) = none) :
    ∃ l s' c t, Runs (chargeBucket env pid u bucket) s l s' ∧
      Takes env (priceOf env.settings bucket) u (.participantPenalty pid) s s' c t ∧
      (bucket = none → l = none) := by
  cases bucket with
  | none =>
      refine ⟨none, s, 0, 0, runs_pure.2 ⟨rfl, rfl⟩, ⟨?_, ?_, ?_, ?_⟩, fun _ => rfl⟩
      · show (0 : Int) = min (s.balanceOf u) |0|
        rw [abs_zero, min_eq_right (s.balanceOf_nonneg u)]
      · rw [sub_zero]
      · show (0 : Int) = -min (s.scoreToMove env u) 0
        rw [min_eq_right (s.scoreToMove_range env u).1, neg_zero]
      · rw [Db.trustTaken, htrust]
        rfl
  | some b =>
      have hprice := (priceFor_nonneg env.settings b).2
      have hcharge : Succeeds (chargeParticipant env pid u b) s := by
        by_cases hb : b = .NO_SHOW
        · exact charge_succeeds (by simp [hb]) rfl (by simp [hb])
        · exact charge_succeeds (by simp [hb]) rfl (by simp [hb])
      obtain ⟨r, s', hrun⟩ := hcharge
      obtain ⟨-, -, htakes⟩ := charge_takes hrun hcoins htrust (by simp) rfl hprice
      refine ⟨r.ledgerId, s', r.coinsCharged, r.trustApplied, ?_, htakes, fun h => by cases h⟩
      rw [chargeBucket]
      exact hrun.runs_bind.2 (runs_pure.2 ⟨rfl, rfl⟩)

theorem withdrawn_check {reason : Option String} {l : Option LedgerId} (now : Instant)
    (hl : bucket = none → l = none) :
    Row.check (p.withdrawn now bucket reason l) = true := by
  have hpointer : (l.isNone || bucket.isSome) = true := by
    cases bucket with
    | none => simp [hl rfl]
    | some b => simp
  show (true && (some now).isSome && (p.promotedAt.isNone || true) &&
    (l.isNone || bucket.isSome)) = true
  rw [hpointer]
  simp

/-- What both the quote and the withdrawal find: a participation of the caller that can
    be withdrawn, its event, and nothing in the way. -/
structure MayWithdraw (u : UserId) (pid : ParticipantId) (s : Db) (p : ParticipantRow)
    (ev : EventRow) : Prop where
  found : s.participants.find? pid = some p
  event : s.events.find? p.eventId = some ev
  own : p.userId = u
  edge : canTransition PARTICIPANT_TRANSITIONS p.status .CANCELLED_BY_PARTICIPANT = true
  seat : p.status = .ACCEPTED → 1 ≤ ev.acceptedCount
  coins : s.ledgerByKey (.participantPenalty p.id) = none
  trust : s.trustByKey (.participantPenalty p.id) = none

/-- The withdrawal commits, in the bucket of the moment, and takes its price. -/
theorem MayWithdraw.cancels (h : MayWithdraw u pid s p ev) (env : Env) (reason : Option String) :
    ∃ d s' c t, Runs (cancel env u pid reason) s d s' ∧
      d.cancellationBucket = bucketFor p ev.startsAt env.now ∧
      Takes env (priceOf env.settings (bucketFor p ev.startsAt env.now)) u
        (.participantPenalty pid) s s' c t := by
  obtain rfl : p.id = pid := Table.key_of_find? h.found
  have hmem : ev ∈ s.events.rows := Table.mem_of_find? h.event
  have hlock : Runs (lockEventByParticipant p.id : Act (Option EventRow)) s (some ev) s := by
    rw [runs_lockEventByParticipant, Db.eventOf, h.found]
    exact ⟨h.event.symm, rfl⟩
  have hread : Runs (readParticipantByPublicId p.id) s p s := by
    rw [readParticipantByPublicId, runs_findRow_bind]
    exact runs_orThrow.2 ⟨h.found, rfl⟩
  obtain ⟨ev', t, hstart, hrelease⟩ := releaseSeatIfHeld_runs (p := p) hmem h.seat
  rw [← hstart]
  obtain ⟨l, s₂, c, n, hcharge, htakes, hpointer⟩ := chargeBucket_runs
    (s := { s with events := t }) env u (bucketFor p ev'.startsAt env.now) h.coins h.trust
  have hparticipants : s₂.participants = s.participants :=
    (chargeBucket_ordinary hcharge).participants
  have hwithdraw : Succeeds (updateRow p.id (ParticipantRow.withdrawn env.now
      (bucketFor p ev'.startsAt env.now) reason l) : Act Unit) s₂ := by
    refine succeeds_updateRow (r := p) ?_ rfl (withdrawn_check env.now hpointer) fun _ => rfl
    show s₂.participants.find? p.id = some p
    rw [hparticipants]
    exact h.found
  obtain ⟨_, s₃, hwithdrawn⟩ := hwithdraw
  have hwrote := hwithdrawn
  obtain ⟨x, -, t', -, rfl⟩ := runs_updateRow.1 hwithdrawn
  obtain ⟨ids, s₄, hfill, hfilled⟩ := freed_seats_filled_in_order env ev' (HasTable.setTable t'
    { s₂ with outbox := s₂.outbox ++
        [.participation_cancelled p.id ev'.id ev'.hostUserId p.status] })
  obtain ⟨d, hdetail, -, hbucket⟩ := toDetail_runs (ParticipantRow.withdrawn env.now
    (bucketFor p ev'.startsAt env.now) reason l p) ev'.id s₄
  refine ⟨d, s₄, c, n, ?_, hbucket, ?_⟩
  · unfold cancel
    refine hlock.runs_bind.2 (runs_orThrow_bind.2 ⟨ev, rfl, ?_⟩)
    refine hread.runs_bind.2 (runs_guardTx_bind.2 ⟨h.own, ?_⟩)
    refine runs_assertParticipantTransition_bind.2 ⟨h.edge, ?_⟩
    refine hrelease.runs_bind.2 (hcharge.runs_bind.2 (hwrote.runs_bind.2 ?_))
    exact runs_emit_bind.2 (hfill.runs_bind.2 hdetail)
  · have hqueue := hfilled.others
    rw [hqueue]
    exact htakes.congr rfl rfl rfl rfl rfl

/-- The quote is the bucket of the moment and its price. -/
theorem MayWithdraw.quotes (h : MayWithdraw u pid s p ev) (env : Env) :
    ∃ q, Runs (previewCancellation env u pid) s q s ∧
      q.bucket = bucketFor p ev.startsAt env.now ∧
      q.price = priceOf env.settings (bucketFor p ev.startsAt env.now) := by
  refine ⟨{ bucket := bucketFor p ev.startsAt env.now
            price := priceOf env.settings (bucketFor p ev.startsAt env.now)
            joinCharge := |totalOf (s.unrefundedJoinCharges p.id)|, status := p.status },
    ?_, rfl, rfl⟩
  unfold previewCancellation
  refine runs_findRow_bind.2 (runs_orThrow_bind.2 ⟨p, h.found, ?_⟩)
  refine runs_findRow_bind.2 (runs_orThrow_bind.2 ⟨ev, h.event, ?_⟩)
  refine runs_guardTx_bind.2 ⟨h.own, runs_assertParticipantTransition_bind.2 ⟨h.edge, ?_⟩⟩
  have hcharge : Runs (unrefundedJoinCharge p.id) s
      |totalOf (s.unrefundedJoinCharges p.id)| s := by
    rw [unrefundedJoinCharge, runs_get_bind]
    exact runs_pure.2 ⟨rfl, rfl⟩
  exact hcharge.runs_bind.2 (runs_pure.2 ⟨rfl, rfl⟩)

end Steps

/-! ## Quote and withdrawal -/

/-- `m` refuses with the error code `code`. -/
def RefusesWith {α : Type} (m : Act α) (s : Db) (code : ErrorCode) : Prop :=
  ∃ details, Refuses m s (.raised code details)

/-- The quote `m` and the act `m'` are refused together, with the same code. -/
def RefusedAlike {α β : Type} (m : Act α) (m' : Act β) (s : Db) : Prop :=
  (Succeeds m s ↔ Succeeds m' s) ∧ ∀ code, RefusesWith m s code ↔ RefusesWith m' s code

section Alike

variable {α β : Type} {m : Act α} {m' : Act β} {s : Db}

theorem RefusedAlike.of_succeeds (h : Succeeds m s) (h' : Succeeds m' s) : RefusedAlike m m' s := by
  refine ⟨⟨fun _ => h', fun _ => h⟩, fun code => ⟨?_, ?_⟩⟩
  · rintro ⟨details, hr⟩
    exact absurd h hr.not_succeeds
  · rintro ⟨details, hr⟩
    exact absurd h' hr.not_succeeds

/-- Both are refused with one code; what else the errors say may differ. -/
def BothRefuse (m : Act α) (m' : Act β) (s : Db) : Prop :=
  ∃ code details details', Refuses m s (.raised code details) ∧
    Refuses m' s (.raised code details')

theorem BothRefuse.not_succeeds (h : BothRefuse m m' s) : ¬ Succeeds m s := by
  obtain ⟨code, details, details', hm, -⟩ := h
  exact hm.not_succeeds

theorem BothRefuse.alike (hboth : BothRefuse m m' s) : RefusedAlike m m' s := by
  obtain ⟨code, details, details', h, h'⟩ := hboth
  refine ⟨⟨fun hs => absurd hs h.not_succeeds, fun hs => absurd hs h'.not_succeeds⟩,
    fun code' => ⟨?_, ?_⟩⟩
  · rintro ⟨d, hr⟩
    obtain ⟨rfl, -⟩ := AppError.raised.inj (hr.unique h)
    exact ⟨details', h'⟩
  · rintro ⟨d, hr⟩
    obtain ⟨rfl, -⟩ := AppError.raised.inj (hr.unique h')
    exact ⟨details, h⟩

end Alike

/-- `cancel` commits in the quoted bucket, takes the quoted coins or the balance, and
    `points` of trust. -/
def CancelsAsQuoted (env : Env) (u : UserId) (pid : ParticipantId) (reason : Option String)
    (s : Db) (q : CancellationPreview) (points : Int) : Prop :=
  ∃ d s', Runs (cancel env u pid reason) s d s' ∧ d.cancellationBucket = q.bucket ∧
    s'.balanceOf u = s.balanceOf u - min (s.balanceOf u) q.price.coins ∧
    s'.trustTaken (.participantPenalty pid) = points

section Guest

variable {env : Env} {u : UserId} {pid : ParticipantId} {p : ParticipantRow} {ev : EventRow}
  {reason : Option String} {s : Db}

theorem MayWithdraw.asQuoted (h : MayWithdraw u pid s p ev) {q : CancellationPreview} {s₁ : Db}
    (hq : Runs (previewCancellation env u pid) s q s₁) (reason : Option String) :
    s₁ = s ∧ CancelsAsQuoted env u pid reason s q (min (s.scoreToMove env u) q.price.trust) := by
  obtain ⟨q', hquote, hbucket, hprice⟩ := h.quotes env
  obtain ⟨rfl, hsame⟩ := hq.det hquote
  obtain ⟨d, s', c, t, hruns, hd, htakes⟩ := h.cancels env reason
  rw [← hprice] at htakes
  have hnonneg : 0 ≤ q.price.coins := by
    rw [hprice]
    exact (priceOf_nonneg _ _).1
  have hcoins := htakes.coins
  rw [abs_of_nonneg hnonneg] at hcoins
  refine ⟨hsame, d, s', hruns, hd.trans hbucket.symm, ?_, ?_⟩
  · rw [htakes.balance, hcoins]
  · rw [htakes.points, htakes.trust, neg_neg]

/-- A quote for nobody's participation, and a withdrawal of it. -/
theorem cancellation_not_found (h : s.participants.find? pid = none) :
    BothRefuse (previewCancellation env u pid) (cancel env u pid reason) s := by
  refine ⟨.NOT_FOUND, .none, .none, ?_, ?_⟩
  · have hfind : Runs (findRow pid : Act (Option ParticipantRow)) s none s :=
      runs_findRow.2 ⟨h.symm, rfl⟩
    unfold previewCancellation
    exact hfind.refuses_bind.2 (refuses_orThrow_bind.2 (.inl ⟨rfl, rfl⟩))
  · have hlock : Runs (lockEventByParticipant pid : Act (Option EventRow)) s none s := by
      rw [runs_lockEventByParticipant, Db.eventOf, h]
      exact ⟨rfl, rfl⟩
    unfold cancel
    exact hlock.refuses_bind.2 (refuses_orThrow_bind.2 (.inl ⟨rfl, rfl⟩))

/-- A participation of somebody else, or one that is over. -/
theorem cancellation_refused (hp : s.participants.find? pid = some p)
    (hev : s.events.find? p.eventId = some ev)
    (hno : ¬ (p.userId = u ∧
      canTransition PARTICIPANT_TRANSITIONS p.status .CANCELLED_BY_PARTICIPANT = true)) :
    BothRefuse (previewCancellation env u pid) (cancel env u pid reason) s := by
  have hfind : Runs (findRow pid : Act (Option ParticipantRow)) s (some p) s :=
    runs_findRow.2 ⟨hp.symm, rfl⟩
  have hrelated : Runs (findRow p.eventId : Act (Option EventRow)) s (some ev) s :=
    runs_findRow.2 ⟨hev.symm, rfl⟩
  have hlock : Runs (lockEventByParticipant pid : Act (Option EventRow)) s (some ev) s := by
    rw [runs_lockEventByParticipant, Db.eventOf, hp]
    exact ⟨hev.symm, rfl⟩
  have hread : Runs (readParticipantByPublicId pid) s p s := by
    rw [readParticipantByPublicId, runs_findRow_bind]
    exact runs_orThrow.2 ⟨hp, rfl⟩
  by_cases hown : p.userId = u
  · have hedge := fun h => hno ⟨hown, h⟩
    refine ⟨.INVALID_STATE_TRANSITION,
      .participantTransition none p.status .CANCELLED_BY_PARTICIPANT,
      .participantTransition (some p.id) p.status .CANCELLED_BY_PARTICIPANT, ?_, ?_⟩
    · unfold previewCancellation
      refine hfind.refuses_bind.2 (refuses_orThrow_bind.2 (.inr ⟨p, rfl, ?_⟩))
      refine hrelated.refuses_bind.2 (refuses_orThrow_bind.2 (.inr ⟨ev, rfl, ?_⟩))
      refine refuses_guardTx_bind.2 (.inr ⟨hown, ?_⟩)
      exact refuses_guardTx_bind.2 (.inl ⟨hedge, rfl⟩)
    · unfold cancel
      refine hlock.refuses_bind.2 (refuses_orThrow_bind.2 (.inr ⟨ev, rfl, ?_⟩))
      refine hread.refuses_bind.2 (refuses_guardTx_bind.2 (.inr ⟨hown, ?_⟩))
      exact refuses_guardTx_bind.2 (.inl ⟨hedge, rfl⟩)
  · refine ⟨.NOT_FOUND, .none, .none, ?_, ?_⟩
    · unfold previewCancellation
      refine hfind.refuses_bind.2 (refuses_orThrow_bind.2 (.inr ⟨p, rfl, ?_⟩))
      refine hrelated.refuses_bind.2 (refuses_orThrow_bind.2 (.inr ⟨ev, rfl, ?_⟩))
      exact refuses_guardTx_bind.2 (.inl ⟨hown, rfl⟩)
    · unfold cancel
      refine hlock.refuses_bind.2 (refuses_orThrow_bind.2 (.inr ⟨ev, rfl, ?_⟩))
      exact hread.refuses_bind.2 (refuses_guardTx_bind.2 (.inl ⟨hown, rfl⟩))

/-- In a reachable state quote and withdrawal are refused alike, or both go through. -/
theorem cancellation_cases {w : World} (h : Reachable World.Init World.Step w) (env : Env)
    (u : UserId) (pid : ParticipantId) (reason : Option String) :
    BothRefuse (previewCancellation env u pid) (cancel env u pid reason) w.db ∨
      ∃ p ev, MayWithdraw u pid w.db p ev := by
  obtain ⟨-, hmarked⟩ := World.marked h
  obtain ⟨hcovered, hanchored⟩ := World.covered h
  cases hp : w.db.participants.find? pid with
  | none => exact .inl (cancellation_not_found hp)
  | some p =>
      have hmem : p ∈ w.db.participants.rows := Table.mem_of_find? hp
      obtain ⟨ev, hev, hid⟩ := hanchored p hmem
      have hevent : w.db.events.find? p.eventId = some ev := by
        rw [← hid]
        exact Table.find?_of_mem hev
      by_cases hmay : p.userId = u ∧
          canTransition PARTICIPANT_TRANSITIONS p.status .CANCELLED_BY_PARTICIPANT = true
      · right
        have hlive : p.status ∈ LIVE_PARTICIPANT_STATUSES := by
          rcases live_of_canTransition_cancel hmay.2 with hst | hst | hst <;> rw [hst] <;> decide
        exact ⟨p, ev, hp, hevent, hmay.1, hmay.2, hcovered.seat hev hmem hid.symm,
          hmarked.fresh hmem hlive, hmarked.freshTrust hmem hlive⟩
      · exact .inl (cancellation_refused hp hevent hmay)

end Guest

end Paayatam
