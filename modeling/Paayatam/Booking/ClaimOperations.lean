/-
  Paayatam.Booking.ClaimOperations

  The operations of `NoShowClaimService` as changes: filing a dispute or a
  report moves only cases and claims, an upheld dispute overturns one absence,
  and an upheld host absence stamps the event, takes back what its host was
  paid, and overturns every absence the host recorded.
-/

import Paayatam.Booking.EventOperations

namespace Paayatam

open Lib

/-! ## Absence claims -/

theorem assertNotClaimed_state {k : NoShowClaimKind} {e : EventId} {u : UserId} {s s' : Db}
    (h : Runs (assertNotClaimed k e u) s () s') : s' = s := by
  simp only [assertNotClaimed, runs_countRows_bind, runs_guardTx] at h
  exact h.2

/-- Events, participations and coins stand still. -/
structure Still (s s' : Db) : Prop where
  events : s'.events = s.events
  participants : s'.participants = s.participants
  ledger : s'.coinLedger = s.coinLedger

theorem Still.trans {s₁ s₂ s₃ : Db} (h₁ : Still s₁ s₂) (h₂ : Still s₂ s₃) : Still s₁ s₃ :=
  ⟨h₂.events.trans h₁.events, h₂.participants.trans h₁.participants, h₂.ledger.trans h₁.ledger⟩

theorem Still.effect {env : Env} {s s' : Db} (h : Still s s') (hd : DisputesKept s s') :
    Effect env .books s s' :=
  ⟨.books h.events h.participants (.of_eq h.ledger), hd⟩

theorem writeClaim_still {env : Env} {e : EventId} {k : NoShowClaimKind} {p : Option ParticipantId}
    {u : UserId} {text : String} {c : CaseId} {s s' : Db}
    (h : Runs (writeClaim env e k p u text c) s () s') : Still s s' ∧ s'.cases = s.cases := by
  simp only [writeClaim, runs_get_bind, runs_bind (m := insertRowOrIgnore _), runs_guardTx] at h
  obtain ⟨_, _, hins, -, rfl⟩ := h
  obtain ⟨t, rfl, -⟩ := runs_insertRowOrIgnore hins
  exact ⟨⟨rfl, rfl, rfl⟩, rfl⟩

theorem openDispute_spec {env : Env} {t : ModerationSubjectType} {id n : Nat} {c : CaseId}
    {s s' : Db} (h : Runs (openDispute env t id n) s c s') :
    Still s s' ∧ ∃ r : CaseRow, r.subjectType = t ∧ r.subjectId = id ∧
      s'.cases.rows = s.cases.rows ++ [r] := by
  simp only [openDispute, runs_get_bind, runs_insertRow_bind, runs_pure] at h
  obtain ⟨tbl, ht, -, rfl⟩ := h
  exact ⟨⟨rfl, rfl, rfl⟩, _, rfl, rfl, ht⟩

theorem loadDisputable_spec {env : Env} {u : UserId} {pid : ParticipantId} {p : ParticipantRow}
    {s s' : Db} (h : Runs (loadDisputable env u pid) s p s') :
    s' = s ∧ p ∈ s.participants.rows ∧ p.status = .NO_SHOW := by
  simp only [loadDisputable, runs_findRow_bind, runs_orThrow_bind, runs_guardTx_bind,
    runs_bind (m := assertNotClaimed _ _ _), runs_pure] at h
  obtain ⟨_, hp, -, hst, _, -, -, _, _, hclaim, rfl, rfl⟩ := h
  exact ⟨assertNotClaimed_state hclaim, Table.mem_of_find? hp, hst⟩

/-- A dispute is filed about an absence, and moves nothing else. -/
theorem dispute_effect {env : Env} {u : UserId} {pid : ParticipantId} {text : String} {s s' : Db}
    (h : Runs (dispute env u pid text) s () s') : Effect env .books s s' := by
  simp only [dispute, runs_fromExcept_bind, runs_bind (m := loadDisputable _ _ _)] at h
  obtain ⟨_, -, p, s₀, hload, h⟩ := h
  obtain ⟨rfl, hp, hst⟩ := loadDisputable_spec hload
  rw [runs_bind] at h
  obtain ⟨c, s₁, hopen, h⟩ := h
  obtain ⟨hstill₁, r, -, hsubject, hrows⟩ := openDispute_spec hopen
  obtain ⟨hstill₂, hcases⟩ := writeClaim_still h
  refine (hstill₁.trans hstill₂).effect fun x hx ht hs => ?_
  rw [hcases, hrows, List.mem_append, List.mem_singleton] at hx
  rcases hx with hx | rfl
  · exact .inl ⟨x, hx, ht, hs, rfl⟩
  · exact .inr ⟨p, hp, hsubject.symm, hst⟩

theorem loadReportable_state {env : Env} {u : UserId} {pid : ParticipantId} {p : ParticipantRow}
    {s s' : Db} (h : Runs (loadReportable env u pid) s p s') : s' = s := by
  simp only [loadReportable, runs_findRow_bind, runs_orThrow_bind, runs_guardTx_bind,
    runs_bind (m := assertNotClaimed _ _ _), runs_pure] at h
  obtain ⟨_, -, -, -, _, -, -, -, -, _, _, hclaim, -, rfl⟩ := h
  exact assertNotClaimed_state hclaim

theorem joinOrOpenCase_spec {env : Env} {e : EventId} {o : Option CaseRow} {c : CaseId} {s s' : Db}
    (h : Runs (joinOrOpenCase env e o) s c s') : Still s s' ∧ DisputesKept s s' := by
  cases o with
  | none =>
      obtain ⟨hstill, r, hsubject, -, hrows⟩ := openDispute_spec h
      exact ⟨hstill, disputes_of_insert hrows (.inr (by simp [hsubject]))⟩
  | some c =>
      rw [joinOrOpenCase, runs_pure] at h
      rw [h.2]
      exact ⟨⟨rfl, rfl, rfl⟩, .of_eq rfl⟩

theorem reportHostAbsent_effect {env : Env} {u : UserId} {pid : ParticipantId} {text : String}
    {s s' : Db} (h : Runs (reportHostAbsent env u pid text) s () s') : Effect env .books s s' := by
  simp only [reportHostAbsent, runs_fromExcept_bind, runs_bind (m := loadReportable _ _ _),
    runs_lockEvent_bind, runs_orThrow_bind, runs_findRows_bind] at h
  obtain ⟨_, -, p, s₀, hload, ev, -, h⟩ := h
  obtain rfl := loadReportable_state hload
  rw [runs_bind] at h
  obtain ⟨c, s₁, hcase, h⟩ := h
  obtain ⟨hstill₁, hdisputes⟩ := joinOrOpenCase_spec hcase
  rw [runs_bind] at h
  obtain ⟨_, s₂, hclaim, h⟩ := h
  obtain ⟨hstill₂, hcases₂⟩ := writeClaim_still hclaim
  simp only [runs_countRows_bind, runs_updateRow_bind, table_cases, hcases₂] at h
  obtain ⟨x, -, t, ht, h⟩ := h
  have hs' : Still s₂ s' ∧ s'.cases = t := by
    rcases runs_whenTx.1 h with ⟨-, h⟩ | ⟨-, rfl⟩
    · rw [runs_emit] at h
      rw [h]
      exact ⟨⟨rfl, rfl, rfl⟩, rfl⟩
    · exact ⟨⟨rfl, rfl, rfl⟩, rfl⟩
  refine ((hstill₁.trans hstill₂).trans hs'.1).effect fun y hy hty hsy => ?_
  have hkept : CasesKept s₁ s' := by
    rw [← hs'.2] at ht
    exact casesKept_of_rewrites ht fun _ => ⟨rfl, rfl, rfl⟩
  obtain ⟨z, hz, htz, hsz, hiz⟩ := hkept y hy
  rw [← hiz]
  exact hdisputes z hz (htz.trans hty) (hsz.trans hsy)

/-! ## Decided claims -/

theorem returnPenalty_ordinary {env : Env} {admin : UserId} {l : Option LedgerId} {n : Int}
    {s s' : Db} (h : Runs (returnPenalty env admin l) s n s') : Books Ordinary s s' := by
  cases l with
  | none =>
      rw [returnPenalty, runs_pure] at h
      rw [h.2]
      exact .refl _
  | some l =>
      simp only [returnPenalty, runs_findRow_bind, runs_orThrow_bind, runs_get_bind, runs_ite,
        runs_pure] at h
      obtain ⟨c, -, ⟨-, -, rfl⟩ | ⟨-, h⟩⟩ := h
      · exact .refl _
      · simp only [runs_bind, runs_pure] at h
        obtain ⟨_, _, hreverse, -, rfl⟩ := h
        exact (reverse_books hreverse).1.mono fun r hr => IsReversal.ordinary ⟨_, hr⟩

theorem returnTrust_trustOnly {env : Env} {admin : UserId} {p : ParticipantRow} {s s' : Db}
    (h : Runs (returnTrust env admin p) s () s') : TrustOnly s s' := by
  simp only [returnTrust, runs_get_bind] at h
  cases hk : s.trustByKey (.participantPenalty p.id) with
  | none =>
      simp only [hk, runs_pure] at h
      rw [h.2]
      exact .refl _
  | some taken =>
      simp only [hk, runs_ite, runs_pure] at h
      rcases h with ⟨-, h⟩ | ⟨-, -, rfl⟩
      · simp only [runs_bind, runs_pure] at h
        obtain ⟨_, _, happly, -, rfl⟩ := h
        exact applyTrust_trustOnly happly
      · exact .refl _

theorem seated_of_canTransition_completed {st : ParticipantStatus}
    (h : canTransition PARTICIPANT_TRANSITIONS st .COMPLETED = true) :
    st = .ACCEPTED ∨ st = .NO_SHOW := by
  cases st <;> simp_all [canTransition, PARTICIPANT_TRANSITIONS]

/-- An undone no-show: the participation counts as attended, and coins and trust
    are all that moved beside it. -/
theorem reverseNoShow_spec {env : Env} {admin : UserId} {pid : ParticipantId} {n : Int} {s s' : Db}
    (h : Runs (reverseNoShow env admin pid) s n s') :
    ∃ p t, s.participants.find? pid = some p ∧ (p.status = .ACCEPTED ∨ p.status = .NO_SHOW) ∧
      s.participants.Rewrites p ParticipantRow.attendedNow t ∧
      ∃ s₁, Books Ordinary s s₁ ∧ s' = { s₁ with participants := t } := by
  simp only [reverseNoShow, runs_findRow_bind, runs_orThrow_bind,
    runs_assertParticipantTransition_bind, runs_bind (m := returnPenalty _ _ _),
    runs_bind (m := returnTrust _ _ _), runs_updateRow_bind, runs_pure] at h
  obtain ⟨p, hp, hcan, _, s₁, hpenalty, _, s₂, htrust, x, hx, t, ht, -, rfl⟩ := h
  have hbooks : Books Ordinary s s₂ :=
    (returnPenalty_ordinary hpenalty).trans (returnTrust_trustOnly htrust).books
  simp only [table_participants, hbooks.participants] at hp hx ht
  obtain rfl : x = p := find?_self hp hx
  exact ⟨x, t, hp, seated_of_canTransition_completed hcan, ht, s₂, hbooks, rfl⟩

theorem settleDispute_spec {env : Env} {admin : UserId} {c : CaseId} {pid : ParticipantId}
    {upheld : Bool} {s s' : Db} (h : Runs (settleDispute env admin c pid upheld) s () s')
    (hcase : ∃ c ∈ s.cases.rows, c.trigger = .DISPUTE ∧ c.subjectType = .PARTICIPATION ∧
      c.subjectId = pid) :
    (Change env .books s s' ∨ ∃ p, Change env (.overturn p) s s') ∧ s'.cases = s.cases := by
  simp only [settleDispute, runs_findRow_bind, runs_orThrow_bind, runs_lockEvent_bind] at h
  obtain ⟨seat, hseat, ev, -, h⟩ := h
  rcases runs_ite.1 h with ⟨-, h⟩ | ⟨-, h⟩
  · rw [runs_bind] at h
    obtain ⟨n, s₂, hreverse, h⟩ := h
    obtain ⟨p, t, hp, hst, ht, s₁, hbooks, rfl⟩ := reverseNoShow_spec hreverse
    rw [runs_emit_bind, runs_emit] at h
    rw [h]
    obtain rfl : p.id = pid := Table.key_of_find? hp
    exact ⟨.inr ⟨p.id, .overturn hst hcase hbooks.events ht hbooks.ledger⟩, hbooks.cases⟩
  · rw [runs_emit] at h
    rw [h]
    exact ⟨.inl (.books rfl rfl (.of_eq rfl)), rfl⟩

/-- How an upheld absence rewrites a row read as `r`. -/
def releasedAs (r : ParticipantRow) (p : ParticipantRow) : ParticipantRow :=
  if r.status = .NO_SHOW then p.attendedNow else p

theorem casesKept_of_rewritesAll {s s' : Db} {p : CaseRow → Bool} {f : CaseRow → CaseRow}
    (h : s.cases.RewritesAll p f s'.cases)
    (hf : ∀ c, (f c).trigger = c.trigger ∧ (f c).subjectType = c.subjectType ∧
      (f c).subjectId = c.subjectId) : CasesKept s s' := by
  intro x hx
  rcases h.cases hx with ⟨c, hc, -, rfl⟩ | ⟨hx, -⟩
  · obtain ⟨ht, hs, hi⟩ := hf c
    exact ⟨c, hc, ht.symm, hs.symm, hi.symm⟩
  · exact ⟨x, hx, rfl, rfl, rfl⟩

theorem releaseSeatedGuest_step {env : Env} {admin : UserId} {c : CaseId} {p : ParticipantRow}
    {s s' : Db} (h : Runs (releaseSeatedGuest env admin c p) s () s') :
    GuestStep releasedAs (fun _ => True) p s s' := by
  simp only [releaseSeatedGuest, runs_bind (m := refundParticipant _ _ _ _ _),
    runs_bind (m := undoRecordedAbsence _ _ _ _), runs_emit] at h
  obtain ⟨_, s₁, hrefund, _, s₂, hundo, rfl⟩ := h
  have h₁ : Books Ordinary s s₁ := (refundParticipant_books hrefund).1.mono fun r hr => hr.ordinary
  rcases runs_ite.1 hundo with ⟨hst, hundo⟩ | ⟨hst, hundo⟩
  · simp only [runs_bind (m := reverseNoShow _ _ _), runs_updateRows_bind, runs_pure] at hundo
    obtain ⟨_, s₃, hreverse, tc, htc, -, rfl⟩ := hundo
    obtain ⟨q, t, hq, -, ht, s₄, hbooks, rfl⟩ := reverseNoShow_spec hreverse
    have hall := h₁.trans hbooks
    rw [h₁.participants] at hq ht
    refine ⟨.inl ⟨q, hq, ?_⟩, hall.events, hall.ledger, ?_, fun _ hs hneg => ?_⟩
    · have hf : releasedAs p = ParticipantRow.attendedNow := by
        funext x
        simp [releasedAs, hst]
      rw [hf]
      exact ht
    · refine (CasesKept.of_eq hall.cases).trans (casesKept_of_rewritesAll htc fun _ => ?_)
      exact ⟨rfl, rfl, rfl⟩
    · have hback : s₁.Refunded p.id := refundParticipant_refunded hrefund hs hneg
      exact Db.Refunded.grow (s := s₁) hback hbooks.ledger fun r hr => hr.not_joinCharge _
  · rw [runs_pure] at hundo
    obtain ⟨-, rfl⟩ := hundo
    refine ⟨.inr ⟨by simp [releasedAs, hst], h₁.participants⟩, h₁.events, h₁.ledger,
      .of_eq h₁.cases, fun _ hs hneg => ?_⟩
    have hback : s₂.Refunded p.id := refundParticipant_refunded hrefund hs hneg
    exact hback

/-- The payments that stand are all that is not reversed. -/
theorem hostUnpaid_of_reversed {s s' : Db} {e : EventId} {P : CoinLedgerRow → Prop}
    (hl : LedgerGrows P s s') (hP : ∀ r, P r → ¬ HostPayment e r) (hs : s.Linked)
    (htaken : ∀ r ∈ s.standingHostPayments e, s'.ReversalTaken r.id) : s'.HostUnpaid e := by
  intro r hr hpay
  rcases hl.mem_or_new hr with hold | hnew
  · cases hrev : s.isReversed r.id with
    | true => exact hl.isReversed hrev
    | false =>
        refine (hl.linked hs).isReversed_of_taken (htaken r ?_)
        simpa [Db.standingHostPayments, hold, hrev, HostPayment] using hpay
  · exact absurd hpay (hP r hnew)

/-- Rewriting the seated guests as `releasedAs` says is rewriting the absent ones. -/
theorem rewritesAll_released {t t' : Table ParticipantRow} {e : EventId}
    (h : t.RewritesAll (isGuestOf e SEATED) (fun r => releasedAs r r) t') :
    t.RewritesAll (isGuestOf e [.NO_SHOW]) ParticipantRow.attendedNow t' := by
  rw [Table.RewritesAll, h]
  apply List.map_congr_left
  intro r _
  by_cases hst : r.status = .NO_SHOW <;> simp [Table.updateIf, isGuestOf, releasedAs, SEATED, hst]

/-- What an upheld absence of the host of `ev` comes to. -/
structure UpheldAbsence (env : Env) (ev : EventRow) (s s' : Db) : Prop where
  unstamped : ev.hostAbsentAt = none
  events : s.events.Rewrites ev (EventRow.hostAbsent env.now) s'.events
  participants : s.participants.RewritesAll (isGuestOf ev.id [.NO_SHOW]) ParticipantRow.attendedNow
    s'.participants
  ledger : LedgerGrows Ordinary s s'
  cases : CasesKept s s'
  unpaid : s.Linked → s'.HostUnpaid ev.id
  refunded : s.Linked → s.JoinDebits → ∀ p ∈ s.participants.rows, isGuestOf ev.id SEATED p = true →
    s'.Refunded p.id

/-- The charge an upheld absence starts with. -/
abbrev chargeAbsentHost (env : Env) (admin : UserId) (ev : EventRow) : Act ChargedPenalty :=
  charge env .NO_SHOW (hostPriceFor env.settings .NO_SHOW)
    { userId := ev.hostUserId, amount := 0, type := .NO_SHOW_PENALTY
      reasonCode := HOST_ABSENT_REASON, idempotencyKey := .hostAbsentPenalty ev.id
      actorType := .ADMIN, actorId := some admin, ref := some (.event ev.id) }
    { userId := ev.hostUserId, delta := 0, type := .NO_SHOW
      reasonCode := HOST_ABSENT_REASON, idempotencyKey := .hostAbsent ev.id
      actorType := .ADMIN, actorId := some admin, ref := some (.event ev.id) }

/-- An upheld absence, statement by statement: the accounts, the charge, the payments taken
    back, the stamp, and the guests. -/
theorem settleHostAbsence_parts {env : Env} {admin : UserId} {c : CaseId} {ev : EventRow}
    {s s' : Db} (hev : ev ∈ s.events.rows)
    (h : Runs (settleHostAbsence env admin c ev.id true) s () s') :
    ev.hostAbsentAt = none ∧ ∃ us s₁ penalty s₂ n s₃ te s₄, Runs (lockAccounts us) s () s₁ ∧
      Runs (chargeAbsentHost env admin ev) s₁ penalty s₂ ∧
      Runs (reverseCharges env (s₂.standingHostPayments ev.id) HOST_ABSENT_REASON .ADMIN
        (some admin)) s₂ n s₃ ∧
      s.events.Rewrites ev (EventRow.hostAbsent env.now) te ∧
      Runs ((s.participants.rows.filter (isGuestOf ev.id SEATED)).forM
        (releaseSeatedGuest env admin c)) { s₃ with events := te } () s₄ ∧
      ∃ m, s' = { s₄ with outbox := s₄.outbox ++ [m] } := by
  have hfind : s.events.find? ev.id = some ev := Table.find?_of_mem hev
  simp only [settleHostAbsence, runs_lockEvent_bind, runs_orThrow_bind, if_true,
    runs_guardTx_bind, runs_findRows_bind, runs_bind (m := lockAccounts _),
    runs_bind (m := charge _ _ _ _ _), runs_get_bind] at h
  obtain ⟨x, hx, hnone, _, s₁, hlock, penalty, s₂, hcharge, h⟩ := h
  obtain rfl : ev = x := Option.some.inj (hfind.symm.trans hx)
  rw [runs_bind] at h
  obtain ⟨n, s₃, hreverse, h⟩ := h
  have hevents : s₃.events = s.events :=
    ((reverseCharges_books hreverse).1.events.trans
      (charge_books hcharge ⟨rfl, by simp⟩).events).trans
      (lockAccounts_books (P := Ordinary) hlock).events
  simp only [runs_updateRow_bind, table_events, hevents] at h
  obtain ⟨x, hx, te, hte, h⟩ := h
  obtain rfl : x = ev := find?_self hfind hx
  rw [runs_bind] at h
  obtain ⟨_, s₄, hloop, h⟩ := h
  rw [runs_emit] at h
  exact ⟨hnone, _, s₁, penalty, s₂, n, s₃, te, s₄, hlock, hcharge, hreverse, hte, hloop, _, h⟩

theorem settleHostAbsence_upheld {env : Env} {admin : UserId} {c : CaseId} {ev : EventRow}
    {s s' : Db} (hev : ev ∈ s.events.rows)
    (h : Runs (settleHostAbsence env admin c ev.id true) s () s') : UpheldAbsence env ev s s' := by
  obtain ⟨hnone, us, s₁, penalty, s₂, n, s₃, te, s₄, hlock, hcharge, hreverse, hte, hloop, m, h⟩ :=
    settleHostAbsence_parts hev h
  have h₂ : Books Ordinary s s₂ := by
    refine (lockAccounts_books hlock).trans ((charge_books hcharge ⟨rfl, by simp⟩).mono ?_)
    intro r hr
    exact ⟨by simp [hr.2.1], fun e' => by simp [hr.2.2.1]⟩
  obtain ⟨hb₃, htaken⟩ := reverseCharges_books hreverse
  have h₃ : Books Ordinary s₂ s₃ := hb₃.mono fun r hr => hr.ordinary
  have hall := h₂.trans h₃
  rw [← hall.participants, runs_forM_iff_foldlM] at hloop
  have hguests := GuestLoop.run (f := releasedAs) (s := { s₃ with events := te })
    ((nodup_rows s₃.participants).filter _) (fun y hy => (List.mem_filter.1 hy).1)
    (fun r y => by unfold releasedAs; split <;> rfl)
    (fun y _ _ _ _ _ hrun => releaseSeatedGuest_step hrun) hloop
  have hparts := rewritesAll_released (hguests.participants.all fun r hr => mem_guests hr)
  simp only [hall.participants] at hparts
  have hledger : LedgerGrows Ordinary s s₄ := hall.ledger.trans hguests.ledger
  have hlinked : s.Linked → s₃.Linked := hall.ledger.linked
  rw [h]
  refine ⟨hnone, ?_, hparts, hledger, ?_, fun hs => ?_, fun hs hneg p hp hseated => ?_⟩
  · rw [hguests.events]
    exact hte
  · exact (CasesKept.of_eq hall.cases).trans hguests.cases
  · -- every standing payment was reversed before the loop, which pays nobody
    have hunpaid : s₃.HostUnpaid ev.id :=
      hostUnpaid_of_reversed h₃.ledger (fun r hr => hr.not_hostPayment _) (h₂.ledger.linked hs)
        htaken
    exact Db.HostUnpaid.grow (s := s₃) hunpaid hguests.ledger fun r hr => hr.not_hostPayment _
  · have hmem : p ∈ s₃.participants.rows := by
      rw [hall.participants]
      exact hp
    have hdebits : s₃.JoinDebits := hneg.grow hall.ledger fun r hr ht => absurd ht hr.1
    exact hguests.refunded (hlinked hs) hdebits p ((mem_guests hmem).2 hseated) trivial

/-- A dismissed report of an absent host moves nothing: messages are sent. -/
theorem settleHostAbsence_dismissed {env : Env} {admin : UserId} {c : CaseId} {e : EventId}
    {s s' : Db} (h : Runs (settleHostAbsence env admin c e false) s () s') :
    s' = { s with outbox := s'.outbox } := by
  simp only [settleHostAbsence, runs_lockEvent_bind, runs_orThrow_bind, Bool.false_eq_true,
    if_false, runs_findRows_bind] at h
  obtain ⟨ev, -, h⟩ := h
  rw [runs_bind] at h
  obtain ⟨_, s₁, hloop, h⟩ := h
  have hs₁ : s₁ = { s with outbox := s₁.outbox } := by
    refine Runs.forM_rel (R := fun a b : Db => b = { a with outbox := b.outbox })
      (fun _ => rfl) (fun h₁ h₂ => by rw [h₂, h₁]) (fun c _ a b hrun => ?_) hloop
    rw [runs_emit] at hrun
    rw [hrun]
  rw [runs_emit] at h
  rw [h, hs₁]

theorem settleHostAbsence_spec {env : Env} {admin : UserId} {c : CaseId} {e : EventId}
    {upheld : Bool} {s s' : Db} (h : Runs (settleHostAbsence env admin c e upheld) s () s') :
    (Change env .books s s' ∨ Change env (.stamp e) s s') ∧ CasesKept s s' := by
  cases upheld with
  | true =>
      have hfound := h
      simp only [settleHostAbsence, runs_lockEvent_bind, runs_orThrow_bind] at hfound
      obtain ⟨ev, hev, -⟩ := hfound
      obtain rfl : ev.id = e := Table.key_of_find? hev
      have hup := settleHostAbsence_upheld (Table.mem_of_find? hev) h
      exact ⟨.inr (.stamp hup.unstamped hup.events hup.participants hup.ledger hup.unpaid), hup.cases⟩
  | false =>
      rw [settleHostAbsence_dismissed h]
      exact ⟨.inl (.books rfl rfl (.of_eq rfl)), .of_eq rfl⟩

/-- Closing the case after the settlement is part of the settlement. -/
theorem Change.close_case {env : Env} {k : Kind} {s s₁ : Db} {t : Table CaseRow}
    (hk : k = .books ∨ (∃ p, k = .overturn p) ∨ ∃ e, k = .stamp e) (h : Change env k s s₁) :
    Change env k s { s₁ with cases := t } := by
  cases h with
  | books he hp hl => exact .books he hp hl
  | overturn hst hcase he hp hl => exact .overturn hst hcase he hp hl
  | stamp hnone he hp hl hunpaid => exact .stamp hnone he hp hl hunpaid
  | _ => simp at hk

theorem decideClaim_effect {env : Env} {admin : UserId} {may : Bool} {c : CaseId} {upheld : Bool}
    {note : String} {s s' : Db} (h : Runs (decideClaim env admin may c upheld note) s () s') :
    Effect env .books s s' ∨ (∃ p, Effect env (.overturn p) s s') ∨
      ∃ e, Effect env (.stamp e) s s' := by
  simp only [decideClaim, runs_guardTx_bind, runs_findRow_bind, runs_orThrow_bind] at h
  obtain ⟨-, -, m, hm, htrigger, -, h⟩ := h
  rw [runs_bind] at h
  obtain ⟨_, s₁, hsettle, h⟩ := h
  simp only [runs_updateRow] at h
  obtain ⟨x, -, t, ht, rfl⟩ := h
  have hclose : CasesKept s₁ { s₁ with cases := t } :=
    casesKept_of_rewrites (d := { s₁ with cases := t }) ht fun _ => ⟨rfl, rfl, rfl⟩
  cases hsub : m.subjectType with
  | PARTICIPATION =>
      simp only [settleClaim, hsub] at hsettle
      obtain ⟨hchange, hcases⟩ := settleDispute_spec hsettle
        ⟨m, Table.mem_of_find? hm, htrigger, hsub, rfl⟩
      have hkept := ((CasesKept.of_eq hcases).trans hclose).disputes
      rcases hchange with hbooks | ⟨p, hover⟩
      · exact .inl ⟨hbooks.close_case (.inl rfl), hkept⟩
      · exact .inr (.inl ⟨p, hover.close_case (.inr (.inl ⟨p, rfl⟩)), hkept⟩)
  | EVENT =>
      simp only [settleClaim, hsub] at hsettle
      obtain ⟨hchange, hcases⟩ := settleHostAbsence_spec hsettle
      have hkept := (hcases.trans hclose).disputes
      rcases hchange with hbooks | hstamp
      · exact .inl ⟨hbooks.close_case (.inl rfl), hkept⟩
      · exact .inr (.inr ⟨_, hstamp.close_case (.inr (.inr ⟨_, rfl⟩)), hkept⟩)
  | USER => simp [settleClaim, hsub] at hsettle
  | MESSAGE => simp [settleClaim, hsub] at hsettle
  | REVIEW => simp [settleClaim, hsub] at hsettle

end Paayatam
