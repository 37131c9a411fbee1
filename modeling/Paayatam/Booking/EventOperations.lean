/-
  Paayatam.Booking.EventOperations

  Every operation of the event, lifecycle, reward and moderation services is
  one `Change`, or changes nothing a `Change` speaks of.

  Three operations loop over the guests of an event: settling attendance,
  calling an event off, and upholding a host's absence (in
  `Booking.ClaimOperations`).  Each is one bulk update of the guests it read
  (`GuestLoop`), whatever the iterations did to coins, trust and cases
  meanwhile.
-/

import Paayatam.Booking.Operations

namespace Paayatam

open Lib

/-! ## Loops over guests -/

/-- A loop over guests read in `s` has processed `done`: each was rewritten as
    `f` says, those in `Q` have their charges back, and besides that only coins,
    trust, cases and the outbox moved. -/
structure GuestLoop (f : ParticipantRow → ParticipantRow → ParticipantRow)
    (Q : ParticipantRow → Prop) (s : Db) (done : List ParticipantRow) (s₁ : Db) : Prop where
  participants : Table.Rewritten s.participants f done s₁.participants
  events : s₁.events = s.events
  ledger : LedgerGrows Ordinary s s₁
  cases : CasesKept s s₁
  refunded : s.Linked → s.JoinDebits → ∀ x ∈ done, Q x → s₁.Refunded x.id

/-- What one iteration over the guest `x` does. -/
structure GuestStep (f : ParticipantRow → ParticipantRow → ParticipantRow)
    (Q : ParticipantRow → Prop) (x : ParticipantRow) (s s' : Db) : Prop where
  participants : (∃ y, s.participants.find? x.id = some y ∧
      s.participants.Rewrites y (f x) s'.participants) ∨
    (f x x = x ∧ s'.participants = s.participants)
  events : s'.events = s.events
  ledger : LedgerGrows Ordinary s s'
  cases : CasesKept s s'
  refunded : Q x → s.Linked → s.JoinDebits → s'.Refunded x.id

namespace GuestLoop

variable {f : ParticipantRow → ParticipantRow → ParticipantRow} {Q : ParticipantRow → Prop}
  {s s₁ s₂ : Db} {done xs : List ParticipantRow} {x : ParticipantRow}

theorem start : GuestLoop f Q s [] s where
  participants := .start _ _
  events := rfl
  ledger := .of_eq rfl
  cases := .of_eq rfl
  refunded _ _ := by simp

theorem step (h : GuestLoop f Q s done s₁) (hkey : ∀ r y, (f r y).id = y.id)
    (hx : x ∈ s.participants.rows) (hxd : x ∉ done) (hw : GuestStep f Q x s₁ s₂) :
    GuestLoop f Q s (done ++ [x]) s₂ where
  participants := by
    rcases hw.participants with ⟨y, hy, hrw⟩ | ⟨hfix, heq⟩
    · exact h.participants.step hkey hx hxd hy hrw
    · rw [heq]
      exact h.participants.skip hfix
  events := hw.events.trans h.events
  ledger := h.ledger.trans hw.ledger
  cases := h.cases.trans hw.cases
  refunded := by
    intro hs hneg z hz hQ
    rcases List.mem_append.1 hz with hz | hz
    · exact (h.refunded hs hneg z hz hQ).grow hw.ledger fun r hr => hr.not_joinCharge _
    · obtain rfl := List.mem_singleton.1 hz
      exact hw.refunded hQ (h.ledger.linked hs) (hneg.grow h.ledger fun r hr ht => absurd ht hr.1)

/-- The loop rule: an iteration that is a `GuestStep` makes the loop a
    `GuestLoop`. -/
theorem run {β : Type} {body : β → ParticipantRow → Act β} {b c : β} (hnodup : xs.Nodup)
    (hsub : ∀ x ∈ xs, x ∈ s.participants.rows) (hkey : ∀ r y, (f r y).id = y.id)
    (hbody : ∀ x ∈ xs, ∀ b b' s₁ s₂, Runs (body b x) s₁ b' s₂ → GuestStep f Q x s₁ s₂)
    (h : Runs (xs.foldlM body b) s c s₁) : GuestLoop f Q s xs s₁ := by
  refine Runs.foldlM_induction (I := GuestLoop f Q s) ?_ start h
  intro done x rest b b' s₁ s₂ hxs hI hrun
  have hmem : x ∈ xs := by simp [hxs]
  rw [hxs] at hnodup
  have hxd : x ∉ done := fun hd => List.disjoint_of_nodup_append hnodup hd (by simp)
  exact hI.step hkey (hsub x hmem) hxd (hbody x hmem b b' s₁ s₂ hrun)

end GuestLoop

/-- `xs.forM body`, as the loop over an accumulator it ignores. -/
theorem runs_forM_iff_foldlM {α : Type} {body : α → Act Unit} :
    ∀ {xs : List α} {s s' : Db},
      Runs (xs.forM body) s () s' ↔ Runs (xs.foldlM (fun _ x => body x) ()) s () s' := by
  intro xs
  induction xs with
  | nil => simp
  | cons x xs ih =>
      intro s s'
      simp only [runs_forM_cons, runs_foldlM_cons, ih, Unique.exists_iff]

/-- The guests of one status set, as a loop reads them. -/
theorem mem_guests {t : Table ParticipantRow} {e : EventId} {sts : List ParticipantStatus}
    {r : ParticipantRow} (hr : r ∈ t.rows) :
    r ∈ t.rows.filter (isGuestOf e sts) ↔ isGuestOf e sts r = true := by
  simp [hr]

theorem nodup_rows {ρ κ : Type} [Row ρ κ] [DecidableEq κ] (t : Table ρ) : t.rows.Nodup :=
  t.distinct.imp fun h he => h.1 (by rw [he])

/-! ## Settling attendance -/

theorem creditAttendance_trustOnly {env : Env} {u : UserId} {p : ParticipantId} {s s' : Db}
    (h : Runs (creditAttendance env u p) s () s') : TrustOnly s s' := by
  simp only [creditAttendance, runs_ite, runs_pure] at h
  rcases h with ⟨-, -, rfl⟩ | ⟨-, h⟩
  · exact .refl _
  · simp only [runs_get_bind, runs_ite, runs_pure] at h
    rcases h with ⟨-, -, rfl⟩ | ⟨-, h⟩
    · exact .refl _
    · simp only [runs_bind, runs_pure] at h
      obtain ⟨_, _, happly, -, rfl⟩ := h
      exact applyTrust_trustOnly happly

theorem openForParticipant_state {env : Env} {p : ParticipantId} {e : EventId} {at' : Instant}
    {s s' : Db} (h : Runs (openForParticipant env p e at') s () s') :
    s' = { s with reviewPairs := s'.reviewPairs } := by
  simp only [openForParticipant, runs_bind, runs_pure] at h
  obtain ⟨_, _, hins, -, rfl⟩ := h
  obtain ⟨t, rfl, -⟩ := runs_insertRowOrIgnore hins
  rfl

theorem settleGuest_step {env : Env} {ev : EventRow} {p : ParticipantRow} {s s' : Db}
    (h : Runs (settleGuest env ev p) s () s') :
    GuestStep (fun _ => ParticipantRow.attendedNow) (fun _ => False) p s s' := by
  simp only [settleGuest, runs_assertParticipantTransition_bind, runs_updateRow_bind, runs_ite,
    runs_pure] at h
  obtain ⟨-, y, hy, t, ht, ⟨-, -, rfl⟩ | ⟨-, h⟩⟩ := h
  · exact ⟨.inl ⟨y, hy, ht⟩, rfl, .of_eq rfl, .of_eq rfl, False.elim⟩
  · rw [runs_bind] at h
    obtain ⟨_, s₁, hcredit, hopen⟩ := h
    have h₁ := creditAttendance_trustOnly hcredit
    have h₂ := openForParticipant_state hopen
    rw [h₂, h₁]
    exact ⟨.inl ⟨y, hy, ht⟩, rfl, .of_eq rfl, .of_eq rfl, False.elim⟩

theorem settleOne_effect {env : Env} {e : EventId} {s s' : Db} {us : List UserId}
    (h : Runs (settleOne env e) s us s') : s' = s ∨ Effect env (.complete e) s s' := by
  simp only [settleOne, runs_lockEvent_bind] at h
  cases hev : s.events.find? e with
  | none =>
      simp only [hev, runs_pure] at h
      exact .inl h.2
  | some ev =>
      simp only [hev, runs_ite, runs_pure, runs_findRows_bind] at h
      obtain ⟨-, -, rfl⟩ | ⟨-, h⟩ := h
      · exact .inl rfl
      · rw [runs_bind] at h
        obtain ⟨_, s₁, hloop, h⟩ := h
        rw [runs_pure] at h
        obtain ⟨-, rfl⟩ := h
        obtain rfl : ev.id = e := Table.key_of_find? hev
        rw [← isGuestOf_singleton, runs_forM_iff_foldlM] at hloop
        have hdone := GuestLoop.run (f := fun _ => ParticipantRow.attendedNow)
          ((nodup_rows _).filter _) (fun x hx => (List.mem_filter.1 hx).1)
          (fun _ _ => rfl) (fun x _ _ _ _ _ hrun => settleGuest_step hrun) hloop
        refine .inr ⟨.complete hdone.events ?_ hdone.ledger, hdone.cases.disputes⟩
        exact hdone.participants.all fun r hr => mem_guests hr

/-! ## Absence, retirement -/

theorem accepted_of_canTransition_noShow {st : ParticipantStatus}
    (h : canTransition PARTICIPANT_TRANSITIONS st .NO_SHOW = true) : st = .ACCEPTED := by
  cases st <;> simp_all [canTransition, PARTICIPANT_TRANSITIONS]

theorem markNoShow_effect {env : Env} {host : UserId} {pid : ParticipantId} {s s' : Db}
    (h : Runs (markNoShow env host pid) s () s') : Effect env (.absent pid) s s' := by
  simp only [markNoShow, runs_lockEventByParticipant_bind, runs_orThrow_bind, runs_guardTx_bind,
    runs_readParticipantByPublicId_bind, runs_assertParticipantTransition_bind] at h
  obtain ⟨ev, hev, -, p, hp, hcan, hover, -, h⟩ := h
  obtain ⟨hmem, hid⟩ := Db.eventOf_spec hev hp
  obtain rfl : p.id = pid := Table.key_of_find? hp
  rw [runs_bind] at h
  obtain ⟨penalty, s₁, hcharge, h⟩ := h
  have hbooks := chargeParticipant_ordinary hcharge
  simp only [runs_updateRow_bind, runs_emit, table_participants, hbooks.participants] at h
  obtain ⟨x, hx, t, ht, rfl⟩ := h
  obtain rfl : x = p := find?_self hp hx
  exact ⟨.absent hmem hid (accepted_of_canTransition_noShow hcan) hover hbooks.events ht
    hbooks.ledger, .of_eq hbooks.cases⟩

/-- A committed retirement path leaves the event with its final status. -/
theorem retire_path {ev : EventRow} {next : EventStatus} {s s' : Db}
    (hev : ev ∈ s.events.rows)
    (h : Runs (do
      assertRetirePath ev next
      updateRow ev.id fun e : EventRow => { e with status := next, version := e.version + 1 })
      s () s') :
    ∃ t, s.events.Rewrites ev (EventRow.retired next) t ∧ s' = { s with events := t } := by
  rw [runs_bind] at h
  obtain ⟨_, s₁, hpath, h⟩ := h
  rw [assertRetirePath, runs_ite] at hpath
  rcases hpath with ⟨-, hpath⟩ | ⟨-, hpath⟩
  · -- through ONGOING: two updates of the same row
    simp only [runs_assertEventTransition_bind, runs_updateRow_bind, runs_assertEventTransition]
      at hpath
    obtain ⟨-, x, hx, t₁, ht₁, -, rfl⟩ := hpath
    obtain rfl : x = ev := find?_self (Table.find?_of_mem hev) hx
    simp only [runs_updateRow] at h
    obtain ⟨y, hy, t₂, ht₂, rfl⟩ := h
    exact ⟨t₂, ht₁.trans ht₂ hy rfl, rfl⟩
  · simp only [runs_assertEventTransition] at hpath
    obtain ⟨-, rfl⟩ := hpath
    simp only [runs_updateRow] at h
    obtain ⟨x, hx, t, ht, rfl⟩ := h
    obtain rfl : x = ev := find?_self (Table.find?_of_mem hev) hx
    exact ⟨t, ht, rfl⟩

theorem retireOne_effect {env : Env} {e : EventId} {s s' : Db} {o : Option EventStatus}
    (h : Runs (retireOne env e) s o s') : s' = s ∨ Effect env (.retire e) s s' := by
  simp only [retireOne, runs_lockEvent_bind] at h
  cases hev : s.events.find? e with
  | none =>
      simp only [hev, runs_pure] at h
      exact .inl h.2
  | some ev =>
      simp only [hev, runs_ite, runs_pure, runs_countRows_bind] at h
      obtain ⟨-, -, rfl⟩ | ⟨-, ⟨-, -, rfl⟩ | ⟨hst, ⟨-, -, rfl⟩ | ⟨hstart, ⟨-, -, rfl⟩ | ⟨-, h⟩⟩⟩⟩ := h
      · exact .inl rfl
      · exact .inl rfl
      · exact .inl rfl
      · exact .inl rfl
      · rw [← bind_assoc, runs_bind] at h
        obtain ⟨_, s₁, hpath, h⟩ := h
        rw [runs_pure] at h
        obtain ⟨-, rfl⟩ := h
        obtain ⟨t, ht, rfl⟩ := retire_path (Table.mem_of_find? hev) hpath
        obtain rfl : ev.id = e := Table.key_of_find? hev
        refine .inr ⟨.retire (by tauto) (not_lt.1 hstart) ?_ ht rfl rfl, .of_eq rfl⟩
        rw [guestCount, isGuestOf_singleton]
        rfl

/-! ## Calling an event off -/

theorem refundSeat_spec {env : Env} {host : UserId} {p : ParticipantRow} {n : Int} {s s' : Db}
    (h : Runs (refundSeat env host p) s n s') :
    Books Ordinary s s' ∧ (p.status = .ACCEPTED → s.Linked → s.JoinDebits → s'.Refunded p.id) := by
  rw [refundSeat, runs_ite] at h
  rcases h with ⟨-, h⟩ | ⟨hst, h⟩
  · exact ⟨(refundParticipant_books h).1.mono fun r hr => hr.ordinary,
      fun _ hs hneg => refundParticipant_refunded h hs hneg⟩
  · rw [runs_pure] at h
    rw [h.2]
    exact ⟨.refl _, fun ha => absurd ha hst⟩

/-- How a loop that calls guests off rewrites a row read as `r`. -/
def calledOffAs (now : Instant) (reason : Option String) (r : ParticipantRow) :
    ParticipantRow → ParticipantRow :=
  ParticipantRow.calledOff r.status now reason

theorem callOffGuest_step {env : Env} {host : UserId} {reason : Option String} {p : ParticipantRow}
    {n : Int} {s s' : Db} (h : Runs (callOffGuest env host reason p) s n s') :
    GuestStep (calledOffAs env.now reason) (fun q => q.status = .ACCEPTED) p s s' := by
  simp only [callOffGuest, runs_assertParticipantTransition_bind, runs_bind (m := refundSeat _ _ _),
    runs_updateRow_bind, runs_pure] at h
  obtain ⟨-, _, s₁, hrefund, y, hy, t, ht, -, rfl⟩ := h
  obtain ⟨hbooks, hback⟩ := refundSeat_spec hrefund
  simp only [table_participants, hbooks.participants] at hy ht
  exact ⟨.inl ⟨y, hy, ht⟩, hbooks.events, hbooks.ledger, .of_eq hbooks.cases, hback⟩

theorem mem_liveGuests {db : Db} {e : EventId} {p : ParticipantRow} :
    p ∈ db.liveGuests e ↔
      p ∈ db.participants.rows ∧ isGuestOf e LIVE_PARTICIPANT_STATUSES p = true := by
  simp [Db.liveGuests, isGuestOf]

theorem liveGuests_nodup (db : Db) (e : EventId) : (db.liveGuests e).Nodup :=
  (List.perm_insertionSort _ _).nodup_iff.2 ((nodup_rows _).filter _)

theorem cancelByHost_effect {env : Env} {host : UserId} {e : EventId} {reason : Option String}
    {s s' : Db} {c : EventCancellation} (h : Runs (cancelByHost env host e reason) s c s') :
    Effect env (.callOff e) s s' := by
  simp only [cancelByHost, runs_lockEvent_bind, runs_orThrow_bind, runs_guardTx_bind,
    runs_assertEventTransition_bind, runs_get_bind] at h
  obtain ⟨ev, hev, -, -, hedge, hstart, h⟩ := h
  obtain rfl : ev.id = e := Table.key_of_find? hev
  rw [runs_bind] at h
  obtain ⟨_, s₁, hlock, h⟩ := h
  have h₁ : Books Ordinary s s₁ := lockAccounts_books hlock
  rw [runs_bind] at h
  obtain ⟨refunded, s₂, hloop, h⟩ := h
  have hguests : GuestLoop (calledOffAs env.now reason) (fun q => q.status = .ACCEPTED) s₁
      (s.liveGuests ev.id) s₂ := by
    refine GuestLoop.run (liveGuests_nodup _ _) (fun x hx => ?_) (fun _ _ => rfl) ?_ hloop
    · rw [h₁.participants]
      exact (mem_liveGuests.1 hx).1
    · intro x _ b b' s₁ s₂ hrun
      simp only [runs_bind, runs_pure] at hrun
      obtain ⟨n, _, hcall, -, rfl⟩ := hrun
      exact callOffGuest_step hcall
  rw [runs_bind] at h
  obtain ⟨penalty, s₃, hcharge, h⟩ := h
  have h₃ := chargeHost_ordinary hcharge
  simp only [runs_updateRow_bind, runs_emit_bind, runs_pure, table_events, h₃.events,
    hguests.events, h₁.events] at h
  obtain ⟨x, hx, t, ht, -, rfl⟩ := h
  obtain rfl : x = ev := find?_self hev hx
  have hledger : LedgerGrows Ordinary s s₃ := (h₁.ledger.trans hguests.ledger).trans h₃.ledger
  refine ⟨@Change.callOff env x reason _ _ hstart hedge ht ?_ hledger ?_, ?_⟩
  · have hall := hguests.participants.all (p := isGuestOf x.id LIVE_PARTICIPANT_STATUSES) ?_
    · rw [h₁.participants] at hall
      change s.participants.RewritesAll _ _ s₃.participants
      rw [h₃.participants]
      exact hall
    · intro r hr
      rw [h₁.participants] at hr
      simp [mem_liveGuests, hr]
  · intro hs hneg p hp hid hst
    have hmem : p ∈ s.liveGuests x.id :=
      mem_liveGuests.2 ⟨hp, isGuestOf_iff.2 ⟨hid, by simp [hst, LIVE_PARTICIPANT_STATUSES]⟩⟩
    have hneg₁ := hneg.grow h₁.ledger fun r hr ht => absurd ht hr.1
    have hback := hguests.refunded (h₁.ledger.linked hs) hneg₁ p hmem hst
    exact hback.grow h₃.ledger fun r hr => hr.not_joinCharge _
  · exact ((CasesKept.of_eq h₁.cases).trans (hguests.cases.trans (.of_eq h₃.cases))).disputes

/-! ## Creating and editing -/

/-- A new case that is not a dispute opens no dispute. -/
theorem disputes_of_insert {s s' : Db} {c : CaseRow} (h : s'.cases.rows = s.cases.rows ++ [c])
    (hc : c.trigger ≠ .DISPUTE ∨ c.subjectType ≠ .PARTICIPATION) : DisputesKept s s' := by
  intro x hx ht hs
  rw [h, List.mem_append, List.mem_singleton] at hx
  rcases hx with hx | rfl
  · exact .inl ⟨x, hx, ht, hs, rfl⟩
  · exact absurd (And.intro ht hs) (by tauto)

theorem openCase_spec {env : Env} {e : EventId} {s s' : Db} (h : Runs (openCase env e) s () s') :
    s' = { s with cases := s'.cases } ∧ DisputesKept s s' := by
  simp only [openCase, runs_get_bind, runs_insertRow] at h
  obtain ⟨t, ht, rfl⟩ := h
  exact ⟨rfl, disputes_of_insert ht (.inl (by simp))⟩

/-- A case is opened only about flagged or blocked content. -/
theorem whenTx_openCase_spec {env : Env} {e : EventId} {c : Prop} [Decidable c] {s s' : Db}
    (h : Runs (whenTx c (openCase env e)) s () s') :
    s' = { s with cases := s'.cases } ∧ DisputesKept s s' := by
  rcases runs_whenTx.1 h with ⟨-, h⟩ | ⟨-, rfl⟩
  · exact openCase_spec h
  · exact ⟨rfl, .of_eq rfl⟩

theorem chargeHostSpend_ordinary {env : Env} {host : UserId} {e : EventId} {cost : Nat}
    {type : CoinLedgerType} {reason : String} {key : CoinKey} {s s' : Db}
    (hkey : key = .eventCreateSpend e ∨ ∃ n, key = .channelPostSpend e n)
    (htype : type ≠ .EVENT_JOIN_SPEND)
    (h : Runs (chargeHostSpend env host e cost type reason key) s () s') : Books Ordinary s s' := by
  rw [chargeHostSpend, runs_ite] at h
  rcases h with ⟨-, h⟩ | ⟨-, h⟩
  · simp only [runs_bind, runs_pure] at h
    obtain ⟨_, _, happly, -, rfl⟩ := h
    have hforward : ∀ l, key ≠ .reversal l := by
      rcases hkey with rfl | ⟨n, rfl⟩ <;> simp
    refine (applyCoins_books happly ⟨rfl, hforward⟩).mono fun r hr => ⟨?_, fun e' => ?_⟩
    · rw [hr.2.1]
      exact htype
    · rw [hr.2.2.1]
      rcases hkey with rfl | ⟨n, rfl⟩ <;> simp
  · rw [runs_pure] at h
    rw [h.2]
    exact .refl _

theorem outcomeFor_status (d : ScanDecision) :
    (outcomeFor d).status = .PUBLISHED ∨ (outcomeFor d).status = .PENDING_MODERATION := by
  cases d <;> simp [outcomeFor]

theorem assertHostCanAuthor_state {env : Env} {host : UserId} {s s' : Db}
    (h : Runs (assertHostCanAuthor env host) s () s') : s' = s := by
  simp only [assertHostCanAuthor, runs_orThrow_bind, runs_guardTx] at h
  obtain ⟨_, -, -, rfl⟩ := h
  rfl

theorem assertWithinQuota_state {env : Env} {host : UserId} {s s' : Db}
    (h : Runs (assertWithinQuota env host) s () s') : s' = s := by
  simp only [assertWithinQuota, runs_countRows_bind, runs_guardTx_bind, runs_guardTx] at h
  exact h.2.2

/-- A step taken or skipped keeps what both keep. -/
theorem whenTx_rel {c : Prop} [Decidable c] {m : Act Unit} {s s' : Db} {R : Db → Db → Prop}
    (hrefl : R s s) (hm : Runs m s () s' → R s s') (h : Runs (whenTx c m) s () s') : R s s' := by
  rcases runs_whenTx.1 h with ⟨-, h⟩ | ⟨-, rfl⟩
  · exact hm h
  · exact hrefl

theorem create_effect {env : Env} {host : UserId} {input : CreateEventInput} {seeded : Bool}
    {e : EventId} {s s' : Db} {r : EventId} (h : Runs (create env host input seeded e) s r s') :
    Effect env (.create e) s s' := by
  simp only [create, runs_fromExcept_bind, runs_bind (m := assertHostCanAuthor _ _), assertAllowed,
    runs_guardTx_bind, runs_bind (m := whenTx _ _), runs_insertRow_bind,
    runs_assertEventTransition_bind, runs_updateRow_bind] at h
  obtain ⟨-, -, _, s₁, hauthor, -, _, s₂, hquota, loc, -, cat, -, h⟩ := h
  obtain rfl := assertHostCanAuthor_state hauthor
  obtain rfl : s₂ = s₁ := whenTx_rel (R := fun a b => b = a) rfl assertWithinQuota_state hquota
  generalize env.scanEventContent _ = decision at h
  obtain ⟨t, ht, -, _, s₃, hedge, x, hx, t', ht', _, s₄, hcase, h⟩ := h
  obtain rfl : s₃ = HasTable.setTable t s₂ :=
    whenTx_rel (R := fun a b => b = a) rfl (fun hm => (runs_assertEventTransition.1 hm).2) hedge
  obtain ⟨hcases, hdisputes⟩ := whenTx_openCase_spec hcase
  rw [runs_bind] at h
  obtain ⟨_, s₅, hspend, h⟩ := h
  rw [runs_bind] at h
  obtain ⟨_, s₆, hpost, h⟩ := h
  rw [runs_pure] at h
  obtain ⟨-, rfl⟩ := h
  have h₅ := chargeHostSpend_ordinary (.inl rfl) (by simp) hspend
  have h₆ : Books Ordinary s₅ s' := whenTx_rel (.refl _)
    (chargeHostSpend_ordinary (.inr ⟨0, rfl⟩) (by simp)) hpost
  have hbooks := h₅.trans h₆
  have hevents := Table.Rewrites.of_insert ht hx ht'
  rw [hcases] at hbooks
  refine ⟨.create (s := s₂) rfl rfl rfl (outcomeFor_status decision)
    ((congrArg Table.rows hbooks.events).trans hevents) hbooks.participants hbooks.ledger, ?_⟩
  · -- the cases are those the scan left; coins do not touch them
    intro c hc
    rw [hbooks.cases] at hc
    exact hdisputes c hc

/-- What an accepted edit is allowed to write. -/
theorem planUpdate_spec {env : Env} {host : UserId} {input : UpdateEventInput} {v : Option Nat}
    {ev : EventRow} {plan : UpdatePlan} (h : planUpdate env host input v ev = .ok plan) :
    isEditable ev.status = true ∧ plan.edit.capacity = input.capacity ∧
      (∀ c ∈ plan.edit.capacity, ev.acceptedCount ≤ c) ∧
      ∀ o ∈ plan.edit.outcome, o.status = .PUBLISHED ∨ o.status = .PENDING_MODERATION := by
  simp only [planUpdate, require_bind_eq_ok] at h
  obtain ⟨-, -, hed, h⟩ := h
  obtain ⟨_, -, h⟩ := except_bind_eq_ok.1 h
  rw [require_bind_eq_ok] at h
  obtain ⟨hcap, h⟩ := h
  obtain ⟨loc, -, h⟩ := except_bind_eq_ok.1 h
  obtain ⟨cat, -, h⟩ := except_bind_eq_ok.1 h
  split at h
  · obtain ⟨_, -, h⟩ := except_bind_eq_ok.1 h
    obtain rfl := Except.ok.inj h
    refine ⟨hed, rfl, hcap, fun o ho => ?_⟩
    obtain rfl := Option.some.inj ho
    exact outcomeFor_status _
  · obtain rfl := Except.ok.inj h
    exact ⟨hed, rfl, hcap, by simp⟩

/-- What an edit decided from the row `ev` does to the row it finds. -/
theorem finishUpdate_spec {env : Env} {host : UserId} {input : UpdateEventInput} {v : Option Nat}
    {ev : EventRow} {s s' : Db} (h : Runs (finishUpdate env host input v ev) s () s') :
    ∃ plan x t, planUpdate env host input v ev = .ok plan ∧ s.events.find? ev.id = some x ∧
      s.events.Rewrites x plan.edit.apply t ∧ s' = { s with events := t, cases := s'.cases } ∧
      DisputesKept s s' := by
  simp only [finishUpdate, runs_fromExcept_bind, runs_updateRow_bind] at h
  obtain ⟨plan, hplan, x, hx, t, ht, hcase⟩ := h
  obtain ⟨hs, hdisputes⟩ := whenTx_openCase_spec hcase
  exact ⟨plan, x, t, hplan, hx, ht, hs, hdisputes⟩

theorem update_effect {env : Env} {host : UserId} {e : EventId} {input : UpdateEventInput}
    {v : Option Nat} {s s' : Db} (h : Runs (update env host e input v) s () s') :
    Effect env (.edit e input.capacity) s s' := by
  simp only [update, runs_findRow_bind, runs_orThrow_bind] at h
  obtain ⟨ev, hev, h⟩ := h
  obtain ⟨plan, x, t, hplan, hx, ht, hs, hdisputes⟩ := finishUpdate_spec h
  obtain ⟨hed, hcapEq, hcap, hout⟩ := planUpdate_spec hplan
  obtain rfl : ev.id = e := Table.key_of_find? hev
  obtain rfl : x = ev := find?_self hev hx
  rw [← hcapEq]
  refine ⟨?_, hdisputes⟩
  rw [hs]
  exact .edit hed hcap hout ht rfl rfl

/-! ## Moderation -/

/-- A status a moderator may write, along an edge; an event is put back only approved. -/
structure StatusWrite.Allowed (ev : EventRow) (w : StatusWrite) : Prop where
  edge : canTransition EVENT_TRANSITIONS ev.status w.status = true
  status : w.status = .HIDDEN ∨ w.status = .PUBLISHED ∨ w.status = .REJECTED
  approved : w.status = .PUBLISHED → w.moderationStatus = some .APPROVED

theorem planModerate_spec {a : ModerationAction} {ev : EventRow} {w : StatusWrite}
    (h : planModerate a ev = .ok w) : w.Allowed ev := by
  simp only [planModerate, checkEventTransition, require_bind_eq_ok] at h
  obtain ⟨-, hedge, h⟩ := h
  obtain rfl := Except.ok.inj h
  refine ⟨hedge, ?_, ?_⟩ <;> cases a <;> simp [ModerationAction.target]

theorem planEventDecision_spec {d : CaseDecision} {ev : EventRow} {w : StatusWrite}
    (h : planEventDecision d ev = .ok (some w)) : w.Allowed ev := by
  rw [planEventDecision] at h
  split at h
  · cases h
  · simp only [checkEventTransition, require_bind_eq_ok] at h
    obtain ⟨hedge, h⟩ := h
    obtain rfl := Option.some.inj (Except.ok.inj h)
    refine ⟨hedge, ?_, ?_⟩ <;> cases d <;> simp

theorem planEscalate_spec {ev : EventRow} {w : StatusWrite}
    (h : planEscalate ev = .ok (some w)) : w.Allowed ev := by
  rw [planEscalate] at h
  split at h
  · simp only [checkEventTransition, require_bind_eq_ok] at h
    obtain ⟨hedge, h⟩ := h
    obtain rfl := Option.some.inj (Except.ok.inj h)
    exact ⟨hedge, .inl rfl, by simp⟩
  · cases h

theorem announce_state {ev : EventRow} {a : ModerationAction} {s s' : Db}
    (h : Runs (announce ev a) s () s') : s' = { s with outbox := s'.outbox } := by
  cases a <;> simp only [announce, runs_emit, runs_pure] at h
  · rw [h]
  · rw [h]
  · obtain ⟨-, rfl⟩ := h
    rfl

/-- A status decided from the row `ev` was written on the row found by then. -/
def Reviewed (ev : EventRow) (s s' : Db) : Prop :=
  ∃ w x t, StatusWrite.Allowed ev w ∧ s.events.find? ev.id = some x ∧
    s.events.Rewrites x w.apply t ∧ s' = { s with events := t, outbox := s'.outbox }

/-- Messages sent after a review leave it one. -/
theorem Reviewed.emits {ev : EventRow} {s s₁ s' : Db} (h : Reviewed ev s s₁)
    (hs' : s' = { s₁ with outbox := s'.outbox }) : Reviewed ev s s' := by
  obtain ⟨w, x, t, hw, hx, ht, hs⟩ := h
  refine ⟨w, x, t, hw, hx, ht, ?_⟩
  rw [hs', hs]

/-- A review whose row did not change meanwhile is a change. -/
theorem Reviewed.change (env : Env) {ev : EventRow} {s s' : Db} (h : Reviewed ev s s')
    (hev : ev ∈ s.events.rows) : Change env (.review ev.id) s s' := by
  obtain ⟨w, x, t, ⟨hedge, hst, -⟩, hx, ht, hs⟩ := h
  obtain rfl : x = ev := find?_self (Table.find?_of_mem hev) hx
  rw [hs]
  exact .review hedge hst ht rfl rfl

theorem Reviewed.cases {ev : EventRow} {s s' : Db} (h : Reviewed ev s s') : s'.cases = s.cases := by
  obtain ⟨w, x, t, -, -, -, hs⟩ := h
  rw [hs]

theorem finishModerate_spec {a : ModerationAction} {ev : EventRow} {s s' : Db} {st : EventStatus}
    (h : Runs (finishModerate a ev) s st s') : Reviewed ev s s' := by
  simp only [finishModerate, runs_fromExcept_bind, runs_updateRow_bind,
    runs_bind (m := announce _ _), runs_pure] at h
  obtain ⟨w, hw, x, hx, t, ht, _, s₁, hann, -, rfl⟩ := h
  exact ⟨w, x, t, planModerate_spec hw, hx, ht, announce_state hann⟩

theorem moderateEvent_effect {may : Bool} {e : EventId} {a : ModerationAction} {reason : String}
    {env : Env} {s s' : Db} {st : EventStatus} (h : Runs (moderateEvent may e a reason) s st s') :
    Effect env (.review e) s s' := by
  simp only [moderateEvent, runs_guardTx_bind, runs_findRow_bind, runs_orThrow_bind] at h
  obtain ⟨-, -, ev, hev, h⟩ := h
  obtain rfl : ev.id = e := Table.key_of_find? hev
  have hrev := finishModerate_spec h
  exact ⟨hrev.change env (Table.mem_of_find? hev), .of_eq hrev.cases⟩

/-- A decided write, when there is one, is a review of its event. -/
theorem writeDecision_spec {ev : EventRow} {o : Option StatusWrite} {s s' : Db}
    (ho : ∀ w, o = some w → w.Allowed ev) (h : Runs (writeDecision ev o) s () s') :
    s' = s ∨ Reviewed ev s s' := by
  cases o with
  | none =>
      rw [writeDecision, runs_pure] at h
      exact .inl h.2
  | some w =>
      simp only [writeDecision, runs_updateRow_bind] at h
      obtain ⟨x, hx, t, ht, h⟩ := h
      refine .inr ⟨w, x, t, ho w rfl, hx, ht, ?_⟩
      rcases runs_whenTx.1 h with ⟨-, h⟩ | ⟨-, rfl⟩
      · rw [runs_emit] at h
        rw [h]
        rfl
      · rfl

/-- Cases rewritten before a review leave it one. -/
theorem Change.review_frame {env : Env} {e : EventId} {s s₁ s' : Db}
    (hs : s₁ = { s with cases := s₁.cases }) (h : Change env (.review e) s₁ s') :
    Change env (.review e) s s' := by
  cases h with
  | review hedge hw he hp hl =>
      rw [hs] at he hp hl
      exact .review hedge hw he hp hl

theorem finishEventDecision_spec {d : CaseDecision} {ev : EventRow} {s s' : Db}
    (h : Runs (finishEventDecision d ev) s () s') : s' = s ∨ Reviewed ev s s' := by
  simp only [finishEventDecision, runs_fromExcept_bind] at h
  obtain ⟨o, ho, h⟩ := h
  exact writeDecision_spec (fun w hw => planEventDecision_spec (hw ▸ ho)) h

theorem applyEventDecision_effect (env : Env) {e : EventId} {d : CaseDecision} {s s' : Db}
    (h : Runs (applyEventDecision e d) s () s') :
    s' = s ∨ (Change env (.review e) s s' ∧ s'.cases = s.cases) := by
  simp only [applyEventDecision, runs_findRow_bind, table_events] at h
  cases hev : s.events.find? e with
  | none =>
      simp only [hev, runs_pure] at h
      exact .inl h.2
  | some ev =>
      simp only [hev] at h
      obtain rfl : ev.id = e := Table.key_of_find? hev
      exact (finishEventDecision_spec h).imp_right fun hrev =>
        ⟨hrev.change env (Table.mem_of_find? hev), hrev.cases⟩

/-- A case rewritten without moving what it is about. -/
theorem casesKept_of_rewrites {s d : Db} {c : CaseRow} {f : CaseRow → CaseRow}
    (h : s.cases.Rewrites c f d.cases)
    (hf : ∀ c, (f c).trigger = c.trigger ∧ (f c).subjectType = c.subjectType ∧
      (f c).subjectId = c.subjectId) : CasesKept s d := by
  intro x hx
  rcases h.cases hx with rfl | ⟨hx, -⟩
  · obtain ⟨ht, hs, hi⟩ := hf c
    exact ⟨c, h.mem, ht.symm, hs.symm, hi.symm⟩
  · exact ⟨x, hx, rfl, rfl, rfl⟩

theorem decideCase_effect {env : Env} {admin : UserId} {may : Bool} {c : CaseId}
    {d : CaseDecision} {note : String} {s s' : Db}
    (h : Runs (decideCase env admin may c d note) s () s') :
    Effect env .books s s' ∨ ∃ e, Effect env (.review e) s s' := by
  simp only [decideCase, runs_guardTx_bind, runs_findRow_bind, runs_orThrow_bind,
    runs_updateRow_bind] at h
  obtain ⟨-, -, existing, hex, -, -, x, hx, t, ht, h⟩ := h
  have hkept : CasesKept s { s with cases := t } :=
    casesKept_of_rewrites (d := { s with cases := t }) ht fun _ => ⟨rfl, rfl, rfl⟩
  have hquiet : Effect env .books s { s with cases := t } :=
    ⟨.books rfl rfl (.of_eq rfl), hkept.disputes⟩
  rcases runs_ite.1 h with ⟨-, h⟩ | ⟨-, h⟩
  · rcases applyEventDecision_effect env h with rfl | ⟨hchange, hcases⟩
    · exact .inl hquiet
    · refine .inr ⟨_, hchange.review_frame (s := s) rfl, ?_⟩
      exact (hkept.trans (.of_eq hcases)).disputes
  · rw [runs_pure] at h
    rw [h.2]
    exact .inl hquiet

theorem countReports_spec {env : Env} {e : EventId} {n : Nat} {o : Option CaseRow} {s s' : Db}
    (h : Runs (countReports env e n o) s () s') :
    s' = { s with cases := s'.cases } ∧ DisputesKept s s' := by
  cases o with
  | none =>
      simp only [countReports, runs_get_bind, runs_insertRow] at h
      obtain ⟨t, ht, rfl⟩ := h
      exact ⟨rfl, disputes_of_insert ht (.inl (by simp))⟩
  | some c =>
      simp only [countReports, runs_updateRow] at h
      obtain ⟨x, -, t, ht, rfl⟩ := h
      refine ⟨rfl, (casesKept_of_rewrites (d := { s with cases := t }) ht ?_).disputes⟩
      exact fun _ => ⟨rfl, rfl, rfl⟩

/-- A reported event is hidden, or only its host is told. -/
theorem finishEscalate_spec {n : Nat} {notify : Bool} {ev : EventRow} {s s' : Db}
    (h : Runs (finishEscalate n notify ev) s () s') :
    s' = { s with outbox := s'.outbox } ∨ Reviewed ev s s' := by
  simp only [finishEscalate, runs_fromExcept_bind] at h
  obtain ⟨o, ho, h⟩ := h
  rw [runs_bind] at h
  obtain ⟨_, s₁, hwrite, h⟩ := h
  have hemit : s' = { s₁ with outbox := s'.outbox } := by
    rcases runs_whenTx.1 h with ⟨-, h⟩ | ⟨-, rfl⟩
    · rw [runs_emit] at h
      rw [h]
    · rfl
  rcases writeDecision_spec (fun w hw => planEscalate_spec (hw ▸ ho)) hwrite with rfl | hrev
  · exact .inl hemit
  · exact .inr (hrev.emits hemit)

theorem escalateEvent_effect {env : Env} {e : EventId} {n : Nat} {notify : Bool} {s s' : Db}
    (h : Runs (escalateEvent env e n notify) s () s') :
    Effect env .books s s' ∨ Effect env (.review e) s s' := by
  simp only [escalateEvent, runs_findRows_bind, runs_bind (m := countReports _ _ _ _),
    runs_findRow_bind, runs_orThrow_bind] at h
  obtain ⟨_, s₁, hcount, ev, hev, h⟩ := h
  obtain ⟨hs₁, hdisputes⟩ := countReports_spec hcount
  obtain rfl : ev.id = e := Table.key_of_find? hev
  rcases finishEscalate_spec h with hs' | hrev
  · left
    rw [hs']
    refine ⟨.books ?_ ?_ (.of_eq ?_), hdisputes⟩ <;> rw [hs₁]
  · right
    refine ⟨(hrev.change env (Table.mem_of_find? hev)).review_frame hs₁, fun c hc => ?_⟩
    exact hdisputes c (hrev.cases ▸ hc)

/-! ## Host rewards -/

theorem payHost_books {env : Env} {st : Settlement} {amount n : Int} {type : CoinLedgerType}
    {reason : String} {key : CoinKey} {s s' : Db}
    (hkey : key = .hostDepositRefund st.eventId ∨ key = .hostReward st.eventId)
    (htype : type ≠ .EVENT_JOIN_SPEND)
    (h : Runs (payHost env st amount type reason key) s n s') :
    Books (fun r => HostPayment st.eventId r ∧ r.type ≠ .EVENT_JOIN_SPEND) s s' := by
  rw [payHost, runs_ite] at h
  rcases h with ⟨-, h⟩ | ⟨-, h⟩
  · simp only [runs_bind, runs_pure] at h
    obtain ⟨_, _, happly, -, rfl⟩ := h
    have hforward : ∀ l, key ≠ .reversal l := by
      rcases hkey with rfl | rfl <;> simp
    refine (applyCoins_books happly ⟨rfl, hforward⟩).mono fun r hr => ⟨?_, ?_⟩
    · rw [HostPayment, hr.2.2.1]
      exact hkey
    · rw [hr.2.1]
      exact htype
  · rw [runs_pure] at h
    rw [h.2]
    exact .refl _

theorem paySettlement_effect {env : Env} {st : Settlement} {n : Int} {s s' : Db}
    (h : Runs (paySettlement env st) s n s') : Effect env (.pay st.eventId) s s' := by
  simp only [paySettlement, runs_bind (m := payHost _ _ _ _ _ _)] at h
  obtain ⟨_, s₁, hrefund, _, s₂, hbonus, h⟩ := h
  have hbooks := (payHost_books (.inl rfl) (by simp) hrefund).trans
    (payHost_books (.inr rfl) (by simp) hbonus)
  rcases runs_ite.1 h with ⟨-, h⟩ | ⟨-, h⟩
  · rw [runs_pure] at h
    rw [h.2]
    exact ⟨.pay hbooks.events hbooks.participants hbooks.ledger, hbooks.disputes⟩
  · rw [runs_emit_bind, runs_pure] at h
    rw [h.2]
    exact ⟨.pay hbooks.events hbooks.participants hbooks.ledger, hbooks.disputes⟩

end Paayatam
