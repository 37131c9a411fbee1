/-
  Paayatam.Booking.HostCancellationPreview

  The dialog before a host calls an event off quotes what calling it off takes,
  and both dialogs agree with the acts they quote for.

  Calling an event off refunds its seated guests before it charges the host, so
  the balance the penalty is capped at is the one after the refunds; a host is
  no guest of the own event unless a seed was planted in their name.  The
  charge's keys are unused because they are taken by the cancellation of the
  event, and nothing returns a called-off event to PUBLISHED.
-/

import Paayatam.Booking.CancellationPreview
import Paayatam.Economy.GivingBack

namespace Paayatam

open Lib

/-! ## Whose cancellation was charged -/

/-- A host was charged for calling an event off only if it is called off. -/
structure CallOffKeys (db : Db) : Prop where
  coins : ∀ r ∈ db.coinLedger.rows, ∀ e, r.idempotencyKey = .hostPenalty e →
    ∃ ev ∈ db.events.rows, ev.id = e ∧ ev.status = .CANCELLED_BY_HOST
  trust : ∀ t ∈ db.trustLedger.rows, ∀ e, t.idempotencyKey = .hostPenalty e →
    ∃ ev ∈ db.events.rows, ev.id = e ∧ ev.status = .CANCELLED_BY_HOST

section Keys

variable {env : Env} {op : Op} {k : Kind} {s s' : Db} {e : EventId}

/-- Only a cancellation charges under a cancellation's key. -/
theorem Op.Charges.hostPenalty {r : CoinLedgerRow} (h : op.Charges s s' r)
    (hk : r.idempotencyKey = .hostPenalty e) : ∃ host reason, op = .cancelByHost host e reason := by
  cases op with
  | cancelByHost host event reason =>
      have hkey := PenaltyRow.key h
      rw [hk] at hkey
      obtain rfl := CoinKey.hostPenalty.inj hkey
      exact ⟨host, reason, rfl⟩
  | join => simp [h.2.2] at hk
  | create => rcases h with h | h <;> simp [h.key] at hk
  | cancel | markNoShow =>
      obtain ⟨q, -, -, hrow⟩ := h
      simp [hrow.key] at hk
  | decideClaim =>
      obtain ⟨ev, -, -, hrow⟩ := h
      simp [hrow.key] at hk
  | pay settlement => rcases h.half with ⟨h, -⟩ | ⟨h, -⟩ <;> simp [h] at hk
  | moveCoins m =>
      rw [h.1.2.2.1] at hk
      rcases m.key_ok with ⟨k, hm⟩ | ⟨x, n, hm⟩ <;> simp [hm] at hk
  | _ => exact h.elim

/-- Only a cancellation takes trust under a cancellation's key. -/
theorem Op.Scores.hostPenalty {t : TrustLedgerRow} (h : op.Scores s s' t)
    (hk : t.idempotencyKey = .hostPenalty e) : ∃ host reason, op = .cancelByHost host e reason := by
  cases op with
  | cancelByHost host event reason =>
      rcases h with ⟨u, h⟩ | ⟨h, -⟩
      · simp [h] at hk
      · rw [hk] at h
        obtain rfl := TrustKey.hostPenalty.inj h
        exact ⟨host, reason, rfl⟩
  | cancel | markNoShow =>
      obtain ⟨q, -, -, ⟨u, h⟩ | ⟨h, -⟩⟩ := h <;> simp [h] at hk
  | settleOne => rcases h with ⟨u, h⟩ | ⟨p, h⟩ <;> simp [h] at hk
  | decideClaim =>
      rcases h with ⟨u, h⟩ | ⟨x, h⟩ | ⟨q, -, -, -, h, -⟩ <;> simp [h] at hk
  | _ => exact h.elim

/-- A called-off event stays called off. -/
theorem EventMove.stays_off {ev ev' : EventRow} (h : EventMove env s k ev ev')
    (hoff : ev.status = .CANCELLED_BY_HOST) : ev'.status = .CANCELLED_BY_HOST := by
  cases h with
  | same | requested | seats | stamped => exact hoff
  | cancelled => rfl
  | retired hst => rcases hst with hst | hst <;> rw [hoff] at hst <;> cases hst
  | edited hed =>
      rw [hoff] at hed
      cases hed
  | reviewed hedge hw =>
      rw [hoff] at hedge
      rcases hw with hw | hw | hw <;> rw [hw] at hedge <;> cases hedge

theorem CallOffKeys.step (h : CallOffKeys s) (hs : s.Linked) (hrun : Runs (op.act env) s () s') :
    CallOffKeys s' := by
  have hposts := Op.posts hs hrun
  have hs' : s'.Linked := hposts.coins.linked hs
  have hkept : ∀ ev ∈ s.events.rows, ev.status = .CANCELLED_BY_HOST →
      ∃ ev' ∈ s'.events.rows, ev'.id = ev.id ∧ ev'.status = .CANCELLED_BY_HOST := by
    intro ev hev hoff
    rcases Op.effect hrun with hc | ⟨k, -, hc⟩
    · obtain ⟨ev', hev', hmove⟩ := hc.change.event_fate hev
      exact ⟨ev', hev', hmove.id, hmove.stays_off hoff⟩
    · obtain ⟨ev', hev', hmove⟩ := hc.change.event_fate hev
      exact ⟨ev', hev', hmove.id, hmove.stays_off hoff⟩
  have hcalled : ∀ e, (∃ host reason, op = .cancelByHost host e reason) →
      ∃ ev ∈ s'.events.rows, ev.id = e ∧ ev.status = .CANCELLED_BY_HOST := by
    rintro e ⟨host, reason, rfl⟩
    obtain ⟨c, hcancel⟩ := runs_drop.1 hrun
    have heffect := (cancelByHost_effect hcancel).change
    generalize hkind : Kind.callOff e = k at heffect
    cases heffect with
    | @callOff ev _ _ _ _ _ he =>
        obtain rfl := Kind.callOff.inj hkind
        exact ⟨ev.cancelled, he.self, rfl, rfl⟩
    | _ => cases hkind
  refine ⟨fun r hr e hk => ?_, fun t ht e hk => ?_⟩
  · rcases hposts.coins.mem_or_new hr with hold | ⟨-, hnew⟩ | ⟨o, -, hnew, -⟩
    · obtain ⟨ev, hev, hid, hoff⟩ := h.coins r hold e hk
      obtain ⟨ev', hev', hid', hoff'⟩ := hkept ev hev hoff
      exact ⟨ev', hev', hid'.trans hid, hoff'⟩
    · exact hcalled e (hnew.hostPenalty hk)
    · have hreversal := ((hs' r hr).key_iff o.id).2 hnew
      rw [hk] at hreversal
      cases hreversal
  · obtain ⟨added, hrows, hadded⟩ := hposts.trust
    rw [hrows, List.mem_append] at ht
    rcases ht with hold | hnew
    · obtain ⟨ev, hev, hid, hoff⟩ := h.trust t hold e hk
      obtain ⟨ev', hev', hid', hoff'⟩ := hkept ev hev hoff
      exact ⟨ev', hev', hid'.trans hid, hoff'⟩
    · exact hcalled e ((hadded t hnew).hostPenalty hk)

theorem World.callOffKeys {w : World} (h : Reachable World.Init World.Step w) :
    w.db.Linked ∧ CallOffKeys w.db := by
  refine Reach.invariant (I := fun w : World => w.db.Linked ∧ CallOffKeys w.db) ?_ ?_ h
  · intro w hw
    rw [hw.1]
    exact ⟨by simp [Db.Linked, Db.initial], by simp [Db.initial], by simp [Db.initial]⟩
  · rintro w c w' ⟨hs, hm⟩ - hstep
    obtain ⟨-, -, rfl⟩ := World.step_iff.1 hstep
    change (commit (c.op.act c.env) w.db).Linked ∧ CallOffKeys (commit (c.op.act c.env) w.db)
    rcases commit_cases (c.op.act c.env) w.db with ⟨_, hruns⟩ | hsame
    · exact ⟨(Op.posts hs hruns).coins.linked hs, hm.step hs hruns⟩
    · rw [hsame]
      exact ⟨hs, hm⟩

end Keys

/-! ## Calling the guests off -/

/-- A row about the participation of one of the seated `guests`. -/
def AboutSeat (guests : List ParticipantRow) (r : CoinLedgerRow) : Prop :=
  ∃ p ∈ guests, p.status = .ACCEPTED ∧ r.ref = some (.event_participant p.id)

section Guests

variable {env : Env} {host : UserId} {reason : Option String} {p : ParticipantRow}
  {guests : List ParticipantRow} {n m : Int} {s s' : Db}

/-- A guest who is called off breaks no constraint of a participation. -/
theorem calledOff_check (h : Row.check p = true) (hlive : p.status ∈ LIVE_PARTICIPANT_STATUSES)
    (now : Instant) (reason : Option String) :
    Row.check (p.calledOff p.status now reason) = true := by
  simp only [LIVE_PARTICIPANT_STATUSES, List.mem_cons, List.not_mem_nil, or_false] at hlive
  simp only [Row.check, ParticipantRow.constraints] at h
  simp only [Row.check, ParticipantRow.constraints, ParticipantRow.calledOff, cancelledStatus]
  rcases hlive with hst | hst | hst <;> simp_all

theorem refundSeat_credits (h : Runs (refundSeat env host p) s n s') :
    OnlyCredits (AboutSeat [p]) s s' := by
  rw [refundSeat, runs_ite] at h
  rcases h with ⟨hst, h⟩ | ⟨-, h⟩
  · exact (refundParticipant_credits h).mono fun r hr => ⟨p, by simp, hst, hr⟩
  · rw [runs_pure] at h
    rw [h.2]
    exact .refl s

theorem callOffGuest_credits (h : Runs (callOffGuest env host reason p) s n s') :
    OnlyCredits (AboutSeat [p]) s s' := by
  simp only [callOffGuest, runs_assertParticipantTransition_bind, runs_bind (m := refundSeat _ _ _),
    runs_updateRow_bind, runs_pure] at h
  obtain ⟨-, _, s₁, hrefund, y, -, t, -, -, rfl⟩ := h
  exact (refundSeat_credits hrefund).trans (.of_accounts rfl rfl rfl rfl fun _ => rfl)

theorem lockAccounts_credits {Q : CoinLedgerRow → Prop} {us : List UserId}
    (h : Runs (lockAccounts us) s () s') : OnlyCredits Q s s' := by
  refine Runs.forM_rel (R := OnlyCredits Q) .refl .trans (fun u _ t t' hrun => ?_) h
  have honly := ensureCoinAccount_coinsOnly hrun
  refine .of_accounts ?_ ?_ ?_ ?_ fun v => ensureCoinAccount_balanceOf hrun
  · rw [honly]
  · rw [honly]
  · rw [honly]
  · rw [honly]

/-- The guests that are left to call off are there, and live. -/
structure Waiting (todo : List ParticipantRow) (s : Db) : Prop where
  linked : s.Linked
  distinct : todo.Nodup
  live : ∀ p ∈ todo, p ∈ s.participants.rows ∧ p.status ∈ LIVE_PARTICIPANT_STATUSES

theorem cancelled_edge {st : ParticipantStatus} (h : st ∈ LIVE_PARTICIPANT_STATUSES) :
    canTransition PARTICIPANT_TRANSITIONS st (cancelledStatus st) = true := by
  revert h
  cases st <;> decide

theorem callOffGuest_succeeds (h : Waiting (p :: guests) s) :
    Succeeds (callOffGuest env host reason p) s := by
  obtain ⟨hmem, hlive⟩ := h.live p (by simp)
  have hedge : canTransition PARTICIPANT_TRANSITIONS p.status (cancelledStatus p.status) = true :=
    cancelled_edge hlive
  have hback : Succeeds (refundSeat env host p) s := by
    rw [refundSeat]
    exact succeeds_ite (fun _ => refundParticipant_succeeds h.linked) fun _ => succeeds_pure
  rw [callOffGuest, assertParticipantTransition, succeeds_guardTx_bind]
  refine ⟨hedge, hback.bind fun n s₁ hrefund => ?_⟩
  have hfound : s₁.participants.find? p.id = some p := by
    rw [(refundSeat_spec hrefund).1.participants]
    exact Table.find?_of_mem hmem
  have hcheck := calledOff_check (s.participants.valid p hmem) hlive env.now reason
  exact (succeeds_updateRow hfound rfl hcheck fun _ => rfl).bind fun _ _ _ => succeeds_pure

theorem Waiting.tail (h : Waiting (p :: guests) s)
    (hrun : Runs (callOffGuest env host reason p) s n s') : Waiting guests s' := by
  have hback := callOffGuest_credits hrun
  obtain ⟨hnot, hnodup⟩ := List.nodup_cons.1 h.distinct
  refine ⟨hback.linked h.linked, hnodup, fun q hq => ?_⟩
  obtain ⟨hmem, hlive⟩ := h.live q (by simp [hq])
  have hp := (h.live p (by simp)).1
  have hne : q ≠ p := fun heq => hnot (heq ▸ hq)
  rcases (callOffGuest_step hrun).participants with ⟨y, hy, hw⟩ | ⟨-, hsame⟩
  · obtain rfl : y = p := find?_self (Table.find?_of_mem hp) hy
    exact ⟨hw.other hmem hne, hlive⟩
  · rw [hsame]
    exact ⟨hmem, hlive⟩

/-- The loop over the guests. -/
theorem callOffGuests_runs (env : Env) (host : UserId) (reason : Option String) (n : Int)
    (h : Waiting guests s) :
    ∃ k s', Runs (guests.foldlM (fun total participant => do
        let n ← callOffGuest env host reason participant
        return total + n) n) s k s' ∧ OnlyCredits (AboutSeat guests) s s' := by
  have hloop : Succeeds (guests.foldlM (fun total participant => do
      let n ← callOffGuest env host reason participant
      return total + n) n) s := by
    refine Succeeds.foldlM (I := Waiting) ?_ ?_ h
    · intro b x rest t hI
      exact (callOffGuest_succeeds hI).bind fun _ _ _ => succeeds_pure
    · intro b b' x rest t t' hI hrun
      simp only [runs_bind, runs_pure] at hrun
      obtain ⟨k, _, hcall, -, rfl⟩ := hrun
      exact hI.tail hcall
  obtain ⟨k, s', hruns⟩ := hloop
  refine ⟨k, s', hruns, ?_⟩
  refine Runs.foldlM_rel (R := OnlyCredits (AboutSeat guests)) .refl .trans ?_ hruns
  intro x hx b b' t t' hrun
  simp only [runs_bind, runs_pure] at hrun
  obtain ⟨k, _, hcall, -, rfl⟩ := hrun
  refine (callOffGuest_credits hcall).mono ?_
  rintro r ⟨q, hq, hst, href⟩
  obtain rfl := List.mem_singleton.1 hq
  exact ⟨q, hx, hst, href⟩

end Guests

/-! ## Quote and cancellation -/

/-- The guests of an event who have a seat. -/
def Db.seated (db : Db) (e : EventId) : List ParticipantRow :=
  (db.liveGuests e).filter fun p => decide (p.status = .ACCEPTED)

/-- What calling the event off costs, by what `seated` finds. -/
def hostPriceOf (st : Settings) (bucket : CancellationBucket) (affected : Nat) : PenaltyPrice :=
  if 0 < affected then hostPriceFor st bucket else ⟨0, 0⟩

theorem hostPriceOf_trust_nonneg (st : Settings) (b : CancellationBucket) (n : Nat) :
    0 ≤ (hostPriceOf st b n).trust := by
  unfold hostPriceOf hostPriceFor
  split
  · split <;> exact Int.natCast_nonneg _
  · exact le_refl 0

/-- What the dialog counts are the guests the act will find seated. -/
theorem seated_length (db : Db) (e : EventId) :
    db.participants.rows.countP (fun p => decide (p.eventId = e) && decide (p.status = .ACCEPTED)) =
      (db.seated e).length := by
  rw [Db.seated, ← List.countP_eq_length_filter, Db.liveGuests,
    (List.perm_insertionSort _ _).countP_eq, List.countP_filter]
  apply List.countP_congr
  intro p _
  by_cases hst : p.status = .ACCEPTED <;> simp [hst, LIVE_PARTICIPANT_STATUSES]

/-- What both the quote and the cancellation find: an event of the caller that can be
    called off and has not begun. -/
structure MayCallOff (env : Env) (host : UserId) (e : EventId) (s : Db) (ev : EventRow) :
    Prop where
  found : s.events.find? e = some ev
  kept : ev.deletedAt = none
  own : ev.hostUserId = host
  edge : canTransition EVENT_TRANSITIONS ev.status .CANCELLED_BY_HOST = true
  ahead : env.now < ev.startsAt
  coins : s.ledgerByKey (.hostPenalty ev.id) = none
  trust : s.trustByKey (.hostPenalty ev.id) = none
  linked : s.Linked

section Host

variable {env : Env} {host : UserId} {e : EventId} {ev : EventRow} {reason : Option String}
  {s : Db}

theorem calledOffEvent_check (h : Row.check ev = true) :
    Row.check { ev with status := .CANCELLED_BY_HOST, acceptedCount := 0,
                        version := ev.version + 1 } = true := by
  have hcapacity := EventRow.acceptedCount_bounds h
  simp only [Row.check, EventRow.constraints, Bool.and_eq_true, decide_eq_true_eq] at h ⊢
  have hroom : (0 : Int) ≤ ev.capacity := by omega
  simp_all

/-- The cancellation commits, in the bucket of the moment, and takes its price off what the
    refunds left the host. -/
theorem MayCallOff.cancels (h : MayCallOff env host e s ev) (reason : Option String) :
    ∃ c s' s₁, Runs (cancelByHost env host e reason) s c s' ∧
      OnlyCredits (AboutSeat (s.liveGuests e)) s s₁ ∧
      c.bucket = bucketForLateness ev.startsAt env.now ∧
      c.hadSeats = (s.seated e).length ∧
      c.coinsRequested = (hostPriceOf env.settings c.bucket c.hadSeats).coins ∧
      Takes env (hostPriceOf env.settings c.bucket c.hadSeats) host (.hostPenalty e) s₁ s'
        c.coinsCharged c.trustApplied := by
  obtain rfl : ev.id = e := Table.key_of_find? h.found
  have hmem : ev ∈ s.events.rows := Table.mem_of_find? h.found
  obtain ⟨_, s₀, hlock⟩ := lockAccounts_succeeds (host :: (s.seated ev.id).map (·.userId)) s
  have hlocked : OnlyCredits (AboutSeat (s.liveGuests ev.id)) s s₀ := lockAccounts_credits hlock
  have hsame : Books Ordinary s s₀ := lockAccounts_books hlock
  have hwaiting : Waiting (s.liveGuests ev.id) s₀ := by
    refine ⟨hlocked.linked h.linked, liveGuests_nodup _ _, fun p hp => ?_⟩
    obtain ⟨hp, hguest⟩ := mem_liveGuests.1 hp
    rw [hsame.participants]
    exact ⟨hp, (isGuestOf_iff.1 hguest).2⟩
  obtain ⟨k, s₁, hloop, hguests⟩ := callOffGuests_runs env host reason 0 hwaiting
  have hback : OnlyCredits (AboutSeat (s.liveGuests ev.id)) s s₁ := hlocked.trans hguests
  have hfreshCoins : s₁.ledgerByKey (.hostPenalty ev.id) = none :=
    hback.keys _ (fun l hl => by cases hl) h.coins
  have hfreshTrust : s₁.trustByKey (.hostPenalty ev.id) = none := by
    unfold Db.trustByKey
    rw [hback.trust]
    exact h.trust
  have hcharge : Succeeds (chargeHost env ev.id host (bucketForLateness ev.startsAt env.now)
      (s.seated ev.id).length) s₁ := charge_succeeds (by simp) rfl (by simp)
  obtain ⟨r, s₂, hcharge⟩ := hcharge
  obtain ⟨hprice, hbucket, htakes⟩ := charge_takes hcharge hfreshCoins hfreshTrust (by simp) rfl
    (hostPriceOf_trust_nonneg env.settings _ _)
  have hevents : s₂.events = s.events := by
    rw [(chargeHost_ordinary hcharge).events, hback.events]
  have hupdate : Succeeds (updateRow ev.id fun e : EventRow =>
      { e with status := .CANCELLED_BY_HOST, acceptedCount := 0, version := e.version + 1 }
      : Act Unit) s₂ := by
    refine succeeds_updateRow (r := ev) ?_ rfl (calledOffEvent_check (s.events.valid ev hmem))
      fun _ => rfl
    show s₂.events.find? ev.id = some ev
    rw [hevents]
    exact h.found
  obtain ⟨_, s₃, hwrite⟩ := hupdate
  have hwrote := hwrite
  obtain ⟨x, -, t, -, rfl⟩ := runs_updateRow.1 hwrite
  refine ⟨{ cancelled := (s.liveGuests ev.id).length, hadSeats := (s.seated ev.id).length
            coinsCharged := r.coinsCharged, coinsRequested := r.price.coins
            trustApplied := r.trustApplied, coinsRefunded := k
            bucket := bucketForLateness ev.startsAt env.now },
    { (HasTable.setTable t s₂ : Db) with outbox := s₂.outbox ++
        [.event_cancelled_by_host ev.id ((s.liveGuests ev.id).map fun p =>
          (p.id, p.userId, decide (p.status = .ACCEPTED)))] },
    s₁, ?_, hback, rfl, rfl, ?_, ?_⟩
  · unfold cancelByHost
    refine runs_lockEvent_bind.2 (runs_orThrow_bind.2 ⟨ev, h.found, ?_⟩)
    refine runs_guardTx_bind.2 ⟨h.kept, runs_guardTx_bind.2 ⟨h.own, ?_⟩⟩
    refine runs_assertEventTransition_bind.2 ⟨h.edge, runs_guardTx_bind.2 ⟨h.ahead, ?_⟩⟩
    refine runs_get_bind.2 (hlock.runs_bind.2 (hloop.runs_bind.2 (hcharge.runs_bind.2 ?_)))
    exact hwrote.runs_bind.2 (runs_emit_bind.2 (runs_pure.2 ⟨rfl, rfl⟩))
  · rw [hprice]
    rfl
  · exact htakes.congr rfl rfl rfl rfl rfl

/-- The quote is the bucket of the moment and what the seats make it cost. -/
theorem MayCallOff.quotes (h : MayCallOff env host e s ev) :
    Runs (previewHostCancellation env host e) s
      { bucket := bucketForLateness ev.startsAt env.now, affected := (s.seated e).length
        price := hostPriceOf env.settings (bucketForLateness ev.startsAt env.now)
          (s.seated e).length } s := by
  obtain rfl : ev.id = e := Table.key_of_find? h.found
  unfold previewHostCancellation
  refine runs_findRow_bind.2 (runs_orThrow_bind.2 ⟨ev, h.found, ?_⟩)
  refine runs_guardTx_bind.2 ⟨⟨h.kept, h.own⟩, ?_⟩
  refine runs_assertEventTransition_bind.2 ⟨h.edge, runs_guardTx_bind.2 ⟨h.ahead, ?_⟩⟩
  rw [runs_countRows_bind, table_participants, seated_length]
  exact runs_pure.2 ⟨rfl, rfl⟩

theorem callOff_not_found (h : s.events.find? e = none) :
    BothRefuse (previewHostCancellation env host e) (cancelByHost env host e reason) s := by
  have hfind : Runs (findRow e : Act (Option EventRow)) s none s := runs_findRow.2 ⟨h.symm, rfl⟩
  have hlock : Runs (lockEvent e : Act (Option EventRow)) s none s := runs_lockEvent.2 ⟨h.symm, rfl⟩
  refine ⟨.EVENT_NOT_FOUND, .none, .none, ?_, ?_⟩
  · unfold previewHostCancellation
    exact hfind.refuses_bind.2 (refuses_orThrow_bind.2 (.inl ⟨rfl, rfl⟩))
  · unfold cancelByHost
    exact hlock.refuses_bind.2 (refuses_orThrow_bind.2 (.inl ⟨rfl, rfl⟩))

/-- An event that is deleted, of somebody else, past its end, or under way. -/
theorem callOff_refused (hev : s.events.find? e = some ev)
    (hno : ¬ (ev.deletedAt = none ∧ ev.hostUserId = host ∧
      canTransition EVENT_TRANSITIONS ev.status .CANCELLED_BY_HOST = true ∧
      env.now < ev.startsAt)) :
    BothRefuse (previewHostCancellation env host e) (cancelByHost env host e reason) s := by
  have hfind : Runs (findRow e : Act (Option EventRow)) s (some ev) s :=
    runs_findRow.2 ⟨hev.symm, rfl⟩
  have hlock : Runs (lockEvent e : Act (Option EventRow)) s (some ev) s :=
    runs_lockEvent.2 ⟨hev.symm, rfl⟩
  by_cases hkept : ev.deletedAt = none
  · by_cases hown : ev.hostUserId = host
    · by_cases hedge : canTransition EVENT_TRANSITIONS ev.status .CANCELLED_BY_HOST = true
      · have hstarted : ¬ env.now < ev.startsAt := fun h => hno ⟨hkept, hown, hedge, h⟩
        refine ⟨.EVENT_ALREADY_STARTED, .none, .none, ?_, ?_⟩
        · unfold previewHostCancellation
          refine hfind.refuses_bind.2 (refuses_orThrow_bind.2 (.inr ⟨ev, rfl, ?_⟩))
          refine refuses_guardTx_bind.2 (.inr ⟨⟨hkept, hown⟩, ?_⟩)
          refine refuses_guardTx_bind.2 (.inr ⟨hedge, ?_⟩)
          exact refuses_guardTx_bind.2 (.inl ⟨hstarted, rfl⟩)
        · unfold cancelByHost
          refine hlock.refuses_bind.2 (refuses_orThrow_bind.2 (.inr ⟨ev, rfl, ?_⟩))
          refine refuses_guardTx_bind.2 (.inr ⟨hkept, refuses_guardTx_bind.2 (.inr ⟨hown, ?_⟩)⟩)
          refine refuses_guardTx_bind.2 (.inr ⟨hedge, ?_⟩)
          exact refuses_guardTx_bind.2 (.inl ⟨hstarted, rfl⟩)
      · refine ⟨.INVALID_STATE_TRANSITION, .eventTransition none ev.status .CANCELLED_BY_HOST,
          .eventTransition (some ev.id) ev.status .CANCELLED_BY_HOST, ?_, ?_⟩
        · unfold previewHostCancellation
          refine hfind.refuses_bind.2 (refuses_orThrow_bind.2 (.inr ⟨ev, rfl, ?_⟩))
          refine refuses_guardTx_bind.2 (.inr ⟨⟨hkept, hown⟩, ?_⟩)
          exact refuses_guardTx_bind.2 (.inl ⟨hedge, rfl⟩)
        · unfold cancelByHost
          refine hlock.refuses_bind.2 (refuses_orThrow_bind.2 (.inr ⟨ev, rfl, ?_⟩))
          refine refuses_guardTx_bind.2 (.inr ⟨hkept, refuses_guardTx_bind.2 (.inr ⟨hown, ?_⟩)⟩)
          exact refuses_guardTx_bind.2 (.inl ⟨hedge, rfl⟩)
    · refine ⟨.EVENT_NOT_FOUND, .none, .none, ?_, ?_⟩
      · unfold previewHostCancellation
        refine hfind.refuses_bind.2 (refuses_orThrow_bind.2 (.inr ⟨ev, rfl, ?_⟩))
        exact refuses_guardTx_bind.2 (.inl ⟨fun h => hown h.2, rfl⟩)
      · unfold cancelByHost
        refine hlock.refuses_bind.2 (refuses_orThrow_bind.2 (.inr ⟨ev, rfl, ?_⟩))
        refine refuses_guardTx_bind.2 (.inr ⟨hkept, ?_⟩)
        exact refuses_guardTx_bind.2 (.inl ⟨hown, rfl⟩)
  · refine ⟨.EVENT_NOT_FOUND, .none, .none, ?_, ?_⟩
    · unfold previewHostCancellation
      refine hfind.refuses_bind.2 (refuses_orThrow_bind.2 (.inr ⟨ev, rfl, ?_⟩))
      exact refuses_guardTx_bind.2 (.inl ⟨fun h => hkept h.1, rfl⟩)
    · unfold cancelByHost
      refine hlock.refuses_bind.2 (refuses_orThrow_bind.2 (.inr ⟨ev, rfl, ?_⟩))
      exact refuses_guardTx_bind.2 (.inl ⟨hkept, rfl⟩)

/-- A key that only a cancelled event takes is free while the event can be cancelled. -/
theorem CallOffKeys.free (h : CallOffKeys s) (hev : ev ∈ s.events.rows)
    (hedge : canTransition EVENT_TRANSITIONS ev.status .CANCELLED_BY_HOST = true) :
    s.ledgerByKey (.hostPenalty ev.id) = none ∧ s.trustByKey (.hostPenalty ev.id) = none := by
  have hlive : ∀ ev' ∈ s.events.rows, ev'.id = ev.id → ev'.status ≠ .CANCELLED_BY_HOST := by
    intro ev' hev' hid hoff
    obtain rfl : ev' = ev := Table.eq_of_key hev' hev hid
    rw [hoff] at hedge
    cases hedge
  constructor
  · cases hfound : s.ledgerByKey (.hostPenalty ev.id) with
    | none => rfl
    | some r =>
        obtain ⟨hr, hkey⟩ := Db.mem_of_ledgerByKey hfound
        obtain ⟨ev', hev', hid, hoff⟩ := h.coins r hr ev.id hkey
        exact absurd hoff (hlive ev' hev' hid)
  · cases hfound : s.trustByKey (.hostPenalty ev.id) with
    | none => rfl
    | some t =>
        have hkey : t.idempotencyKey = .hostPenalty ev.id := by simpa using List.find?_some hfound
        obtain ⟨ev', hev', hid, hoff⟩ := h.trust t (List.mem_of_find?_eq_some hfound) ev.id hkey
        exact absurd hoff (hlive ev' hev' hid)

/-- In a reachable state quote and cancellation are refused alike, or both go through. -/
theorem callOff_cases {w : World} (h : Reachable World.Init World.Step w) (env : Env)
    (host : UserId) (e : EventId) (reason : Option String) :
    BothRefuse (previewHostCancellation env host e) (cancelByHost env host e reason) w.db ∨
      ∃ ev, MayCallOff env host e w.db ev := by
  obtain ⟨hlinked, hkeys⟩ := World.callOffKeys h
  cases hev : w.db.events.find? e with
  | none => exact .inl (callOff_not_found hev)
  | some ev =>
      by_cases hmay : ev.deletedAt = none ∧ ev.hostUserId = host ∧
          canTransition EVENT_TRANSITIONS ev.status .CANCELLED_BY_HOST = true ∧
          env.now < ev.startsAt
      · obtain ⟨hkept, hown, hedge, hahead⟩ := hmay
        obtain ⟨hcoins, htrust⟩ := hkeys.free (Table.mem_of_find? hev) hedge
        exact .inr ⟨ev, hev, hkept, hown, hedge, hahead, hcoins, htrust, hlinked⟩
      · exact .inl (callOff_refused hev hmay)

/-- `cancelByHost` commits in the quoted bucket, finds the quoted seats, takes the quoted
    coins or what the refunds left of the balance, and `points` of trust. -/
def CallsOffAsQuoted (env : Env) (host : UserId) (e : EventId) (reason : Option String) (s : Db)
    (q : HostCancellationPreview) (points : Int) : Prop :=
  ∃ c s' b, Runs (cancelByHost env host e reason) s c s' ∧ c.bucket = q.bucket ∧
    c.hadSeats = q.affected ∧ c.coinsRequested = q.price.coins ∧
    s'.balanceOf host = b - min b |q.price.coins| ∧ s.balanceOf host ≤ b ∧
    ((∀ r ∈ s.coinLedger.rows, r.amount < 0 → AboutSeat (s.liveGuests e) r → r.userId ≠ host) →
      b = s.balanceOf host) ∧
    s'.trustTaken (.hostPenalty e) = points

theorem MayCallOff.asQuoted (h : MayCallOff env host e s ev) {q : HostCancellationPreview}
    {s₁ : Db} (hq : Runs (previewHostCancellation env host e) s q s₁) (reason : Option String) :
    s₁ = s ∧
      CallsOffAsQuoted env host e reason s q (min (s.scoreToMove env host) q.price.trust) := by
  obtain ⟨rfl, hsame⟩ := hq.det h.quotes
  obtain ⟨c, s', s₂, hruns, hback, hbucket, hseats, hcoins, htakes⟩ := h.cancels reason
  rw [hbucket, hseats] at hcoins htakes
  have hscore : s₂.scoreToMove env host = s.scoreToMove env host := by
    unfold Db.scoreToMove Db.scoreOf Db.trustByKey
    rw [hback.scores, hback.trust]
  refine ⟨hsame, c, s', s₂.balanceOf host, hruns, hbucket, hseats, hcoins, ?_, hback.rises host,
    hback.untouched host, ?_⟩
  · rw [htakes.balance, htakes.coins]
  · rw [htakes.points, htakes.trust, hscore, neg_neg]

end Host

/-- Each dialog is refused together with the act it quotes for, and otherwise the act
    applies what was quoted: coins up to the balance, trust up to the score. -/
theorem cancellation_preview_agrees {w : World} (h : Reachable World.Init World.Step w) (env : Env)
    (u : UserId) (pid : ParticipantId) (host : UserId) (e : EventId) (reason : Option String) :
    (RefusedAlike (previewCancellation env u pid) (cancel env u pid reason) w.db ∧
      ∀ q s', Runs (previewCancellation env u pid) w.db q s' → s' = w.db ∧
        CancelsAsQuoted env u pid reason w.db q
          (min (w.db.scoreToMove env u) q.price.trust)) ∧
    (RefusedAlike (previewHostCancellation env host e) (cancelByHost env host e reason) w.db ∧
      ∀ q s', Runs (previewHostCancellation env host e) w.db q s' → s' = w.db ∧
        CallsOffAsQuoted env host e reason w.db q
          (min (w.db.scoreToMove env host) q.price.trust)) := by
  refine ⟨?_, ?_⟩
  · rcases cancellation_cases h env u pid reason with hboth | ⟨p, ev, hmay⟩
    · exact ⟨hboth.alike, fun q s' hq => absurd hq.succeeds hboth.not_succeeds⟩
    · obtain ⟨q, hquote, -, -⟩ := hmay.quotes env
      obtain ⟨d, s', -, -, hruns, -, -⟩ := hmay.cancels env reason
      exact ⟨.of_succeeds hquote.succeeds hruns.succeeds, fun q s' hq => hmay.asQuoted hq reason⟩
  · rcases callOff_cases h env host e reason with hboth | ⟨ev, hmay⟩
    · exact ⟨hboth.alike, fun q s' hq => absurd hq.succeeds hboth.not_succeeds⟩
    · obtain ⟨c, s', -, hruns, -⟩ := hmay.cancels reason
      exact ⟨.of_succeeds hmay.quotes.succeeds hruns.succeeds,
        fun q s' hq => hmay.asQuoted hq reason⟩

/-- A guest is accepted for the evening at hour 100. -/
def seatedGuestCalls : List Call :=
  [callAt 0 (.moveCoins (onboardingReward 1 100)), callAt 0 (.moveCoins (onboardingReward 2 100)),
   callAt 1 (.create 1 (demoEvent 100 2) false 7), callAt 2 (.join 2 7 21), callAt 3 (.accept 1 21)]

/-- An hour before the start, at a settings' price. -/
def hourBefore (lateTrust : Nat) : Env :=
  { demoEnv 99 with settings := { Settings.defaults with cancellation_trust_lt_3h := lateTrust } }

/-- The score the guest's withdrawal starts from, and the trust quoted for it. -/
def quotedTrust (env : Env) (w : World) : Option (Int × Int) :=
  match (previewCancellation env 2 21).run w.db with
  | .ok (q, _) => some (w.db.scoreToMove env 2, q.price.trust)
  | .error _ => none

theorem quote_of_quotedTrust {env : Env} {w : World} {score trust : Int}
    (h : quotedTrust env w = some (score, trust)) :
    ∃ q s', Runs (previewCancellation env 2 21) w.db q s' ∧ w.db.scoreToMove env 2 = score ∧
      q.price.trust = trust := by
  unfold quotedTrust at h
  split at h
  · next q s' hrun =>
      obtain ⟨hscore, htrust⟩ := Prod.mk.inj (Option.some.inj h)
      exact ⟨q, s', hrun, hscore, htrust⟩
  · cases h

/-- Sixty points are quoted to a guest who has fifty. -/
theorem quoted_trust_above_score :
    ¬ ∀ w : World, Reachable World.Init World.Step w → ∀ env u pid reason q s',
      Runs (previewCancellation env u pid) w.db q s' →
        CancelsAsQuoted env u pid reason w.db q q.price.trust := by
  intro hclaim
  have hplay : (World.play seatedGuestCalls).any (fun w =>
      decide (quotedTrust (hourBefore 60) w = some (50, 60))) = true := by decide
  obtain ⟨w, hw, hend⟩ := World.exists_of_play hplay
  obtain ⟨q, s₁, hq, hscore, htrust⟩ := quote_of_quotedTrust (of_decide_eq_true hend)
  obtain ⟨d, s', hruns, -, -, hpoints⟩ :=
    hclaim w (World.reachable_of_play hw) (hourBefore 60) 2 21 none q s₁ hq
  rcases cancellation_cases (World.reachable_of_play hw) (hourBefore 60) 2 21 none with
    hboth | ⟨p, ev, hmay⟩
  · exact hboth.not_succeeds hq.succeeds
  · obtain ⟨-, d', s₂, hruns', -, -, hpoints'⟩ := hmay.asQuoted hq none
    obtain ⟨-, rfl⟩ := hruns.det hruns'
    rw [hpoints, hscore, htrust] at hpoints'
    omega

theorem succeeds_of_isOk {α : Type} {m : Act α} {s : Db} (h : (m.run s).isOk = true) :
    Succeeds m s := by
  cases hrun : m.run s with
  | ok a => exact ⟨a.1, a.2, hrun⟩
  | error err =>
      rw [hrun] at h
      cases h

/-- At the defaults the guest and the host are both quoted, and both quotes are applied. -/
theorem cancellation_preview_agrees_late : ∃ w, World.play seatedGuestCalls = some w ∧
    (∃ q, Runs (previewCancellation (demoEnv 99) 2 21) w.db q w.db ∧
      CancelsAsQuoted (demoEnv 99) 2 21 none w.db q
        (min (w.db.scoreToMove (demoEnv 99) 2) q.price.trust)) ∧
    ∃ q, Runs (previewHostCancellation (demoEnv 99) 1 7) w.db q w.db ∧
      CallsOffAsQuoted (demoEnv 99) 1 7 none w.db q
        (min (w.db.scoreToMove (demoEnv 99) 1) q.price.trust) := by
  have hplay : (World.play seatedGuestCalls).any (fun w =>
      ((previewCancellation (demoEnv 99) 2 21).run w.db).isOk &&
        ((previewHostCancellation (demoEnv 99) 1 7).run w.db).isOk) = true := by decide
  obtain ⟨w, hw, hend⟩ := World.exists_of_play hplay
  rw [Bool.and_eq_true] at hend
  obtain ⟨q, s₁, hq⟩ := succeeds_of_isOk hend.1
  obtain ⟨q', s₂, hq'⟩ := succeeds_of_isOk hend.2
  have hagree := cancellation_preview_agrees (World.reachable_of_play hw) (demoEnv 99) 2 21 1 7 none
  obtain ⟨rfl, hguest⟩ := hagree.1.2 q s₁ hq
  obtain ⟨rfl, hhost⟩ := hagree.2.2 q' s₂ hq'
  exact ⟨w, hw, ⟨q, hq, hguest⟩, q', hq', hhost⟩

end Paayatam
