/-
  Paayatam.Booking.Overturning

  What a decided claim does to guests, coins and trust, guest by guest.

  A decision overturns absences: an upheld dispute one of them, an upheld
  host absence every one the host recorded.  `Overturns` says what that means
  for a single participation: either its row stands as it was, or it counts as
  attended, its penalty is reversed and the trust it took was given back.  The
  relation composes, so one lemma about `reverseNoShow` is all the loop over
  the seated guests needs.
-/

import Paayatam.Economy.Postings
import Paayatam.Booking.ClaimOperations

namespace Paayatam

open Lib

/-- A participation whose absence a decision may still overturn. -/
def ParticipantStatus.Overturnable (st : ParticipantStatus) : Prop := st = .ACCEPTED ∨ st = .NO_SHOW

/-- The penalty and the trust that the participation `p` cost are back. -/
structure Undone (p : ParticipantRow) (db : Db) : Prop where
  coins : ∀ l, p.penaltyLedgerId = some l → db.ReversalTaken l
  trust : ∀ t ∈ db.trustLedger.rows, t.idempotencyKey = .participantPenalty p.id → t.delta < 0 →
    ∃ g ∈ db.trustLedger.rows, g.idempotencyKey = .noShowDispute p.id

/-- A coin row a decision may reverse: a charge for taking part, a payment to the host,
    or the penalty of a guest who may still be overturned. -/
def MayReturn (s : Db) (o : CoinLedgerRow) : Prop :=
  PaidToTakePart o ∨ (∃ e, HostPayment e o) ∨
    ∃ p ∈ s.participants.rows, p.status.Overturnable ∧ p.penaltyLedgerId = some o.id

/-- The row `g` gives back what the row `t` took, as far as the range lets it. -/
def GivesBack (t g : TrustLedgerRow) : Prop :=
  g.userId = t.userId ∧ g.delta = clampScore (g.scoreBefore - t.delta) - g.scoreBefore

/-- The trust an overturned guest is given. -/
def GivenBack (s s' : Db) (g : TrustLedgerRow) : Prop :=
  ∃ p ∈ s.participants.rows, p.status.Overturnable ∧ p.attendedNow ∈ s'.participants.rows ∧
    g.idempotencyKey = .noShowDispute p.id ∧ g.userId = p.userId ∧
    ∃ t ∈ s.trustLedger.rows, t.idempotencyKey = .participantPenalty p.id ∧ t.delta < 0 ∧
      g.delta = clampScore (g.scoreBefore - t.delta) - g.scoreBefore

/-- The trust rows of a decision. -/
def DecidedTrust (s s' : Db) (t : TrustLedgerRow) : Prop :=
  IsSeedScore t ∨ (∃ e, t.idempotencyKey = .hostAbsent e) ∨ GivenBack s s' t

theorem DecidedTrust.not_penalty {s s' : Db} {t : TrustLedgerRow} (h : DecidedTrust s s' t)
    (p : ParticipantId) : t.idempotencyKey ≠ .participantPenalty p := by
  rcases h with ⟨u, h⟩ | ⟨e, h⟩ | ⟨q, -, -, -, h, -⟩ <;> simp [h]

/-- What a decision did, guest by guest: forward coin rows are all in `K`. -/
structure Overturns (K : CoinLedgerRow → Prop) (s s' : Db) : Prop where
  posts : Posts K (MayReturn s) (DecidedTrust s s') s s'
  kept : ∀ q ∈ s'.participants.rows, q ∈ s.participants.rows ∨
    ∃ p ∈ s.participants.rows, p.status.Overturnable ∧ q = p.attendedNow
  fate : ∀ p ∈ s.participants.rows, p ∈ s'.participants.rows ∨
    (p.status.Overturnable ∧ p.attendedNow ∈ s'.participants.rows ∧ Undone p s')

namespace Overturns

variable {K : CoinLedgerRow → Prop} {s s₁ s' : Db} {p : ParticipantRow}

/-- A step that moves no participation, and posts what a decision may. -/
theorem of_posts (h : Posts K (MayReturn s) (DecidedTrust s s') s s')
    (hp : s'.participants = s.participants) : Overturns K s s' where
  posts := h
  kept q hq := .inl (hp ▸ hq)
  fate p hmem := .inl (by rw [hp]; exact hmem)

theorem refl (s : Db) : Overturns K s s := of_posts (.refl s) rfl

/-- A guest who may still be overturned was not touched. -/
theorem untouched (h : Overturns K s s₁) (hp : p ∈ s₁.participants.rows)
    (hst : p.status.Overturnable) : p ∈ s.participants.rows := by
  rcases h.kept p hp with hold | ⟨q, -, -, rfl⟩
  · exact hold
  · rcases hst with hst | hst <;> cases hst

theorem undone_mono (h : Overturns K s s') (hu : Undone p s) : Undone p s' where
  coins l hl := h.posts.coins.reversalTaken (hu.coins l hl)
  trust t ht hkey hneg := by
    have hold : t ∈ s.trustLedger.rows :=
      (h.posts.trust_or_new ht).resolve_right fun hnew => hnew.not_penalty p.id hkey
    obtain ⟨g, hg, hgk⟩ := hu.trust t hold hkey hneg
    exact ⟨g, h.posts.trust_mem hg, hgk⟩

/-- An attended guest stays attended. -/
theorem attended (h : Overturns K s₁ s') (hp : p.attendedNow ∈ s₁.participants.rows) :
    p.attendedNow ∈ s'.participants.rows := by
  rcases h.fate _ hp with hold | ⟨hst, -⟩
  · exact hold
  · rcases hst with hst | hst <;> cases hst

theorem trans (h₁ : Overturns K s s₁) (h₂ : Overturns K s₁ s') : Overturns K s s' where
  posts := by
    have hreturn : ∀ o, MayReturn s₁ o → MayReturn s o := by
      rintro o (ho | ho | ⟨p, hp, hst, hl⟩)
      · exact .inl ho
      · exact .inr (.inl ho)
      · exact .inr (.inr ⟨p, h₁.untouched hp hst, hst, hl⟩)
    have hfirst : ∀ t, DecidedTrust s s₁ t → DecidedTrust s s' t := by
      rintro t (ht | ht | ⟨p, hp, hst, hq, hrest⟩)
      · exact .inl ht
      · exact .inr (.inl ht)
      · exact .inr (.inr ⟨p, hp, hst, h₂.attended hq, hrest⟩)
    have hsecond : ∀ t, DecidedTrust s₁ s' t → DecidedTrust s s' t := by
      rintro t (ht | ht | ⟨p, hp, hst, hq, hk, hu, taken, htaken, htk, hrest⟩)
      · exact .inl ht
      · exact .inr (.inl ht)
      · -- what was taken was taken before the decision
        have hold : taken ∈ s.trustLedger.rows :=
          (h₁.posts.trust_or_new htaken).resolve_right fun hnew => hnew.not_penalty p.id htk
        exact .inr (.inr ⟨p, h₁.untouched hp hst, hst, hq, hk, hu, taken, hold, htk, hrest⟩)
    exact (h₁.posts.mono (fun _ hK => hK) (fun _ hR => hR) hfirst).trans
      (h₂.posts.mono (fun _ hK => hK) hreturn hsecond)
  kept q hq := by
    rcases h₂.kept q hq with hmid | ⟨p, hp, hst, rfl⟩
    · exact h₁.kept q hmid
    · exact .inr ⟨p, h₁.untouched hp hst, hst, rfl⟩
  fate p hp := by
    rcases h₁.fate p hp with hmid | ⟨hst, hq, hu⟩
    · exact h₂.fate p hmid
    · exact .inr ⟨hst, h₂.attended hq, h₂.undone_mono hu⟩

theorem mono {K' : CoinLedgerRow → Prop} (h : Overturns K s s') (hK : ∀ r, K r → K' r) :
    Overturns K' s s' :=
  ⟨h.posts.mono hK (fun _ hR => hR) fun _ hT => hT, h.kept, h.fate⟩

/-- Before or after a decision, cases, events, review windows and messages may move. -/
theorem then_eq (h : Overturns K s s₁) (hp : s'.participants = s₁.participants)
    (hc : s'.coinLedger = s₁.coinLedger) (ht : s'.trustLedger = s₁.trustLedger) :
    Overturns K s s' :=
  h.trans (of_posts (.of_eq hc ht) hp)

end Overturns

/-! ## Undoing one absence -/

section Undo

variable {env : Env} {K R : CoinLedgerRow → Prop} {T : TrustLedgerRow → Prop} {s s' : Db}

/-- A returned penalty is the row pointed at, and is reversed afterwards. -/
theorem returnPenalty_posts {admin : UserId} {o : Option LedgerId} {n : Int}
    (h : Runs (returnPenalty env admin o) s n s')
    (hR : ∀ r ∈ s.coinLedger.rows, o = some r.id → R r) :
    Posts K R T s s' ∧ (s.Linked → ∀ l, o = some l → s'.ReversalTaken l) := by
  cases o with
  | none =>
      rw [returnPenalty, runs_pure] at h
      rw [h.2]
      exact ⟨.refl _, by simp⟩
  | some l =>
      simp only [returnPenalty, runs_findRow_bind, runs_orThrow_bind, runs_get_bind, runs_ite,
        runs_pure] at h
      obtain ⟨c, -, ⟨hrev, -, rfl⟩ | ⟨-, h⟩⟩ := h
      · -- reversed before: the row that reverses it has its key
        refine ⟨.refl _, fun hs k hk => ?_⟩
        obtain rfl := Option.some.inj hk
        simp only [Db.isReversed, List.any_eq_true, decide_eq_true_eq] at hrev
        obtain ⟨r, hr, hlink⟩ := hrev
        exact ⟨r, hr, ((hs r hr).key_iff l).2 hlink⟩
      · simp only [runs_bind, runs_pure] at h
        obtain ⟨_, _, hreverse, -, rfl⟩ := h
        refine ⟨reverse_posts hreverse fun r hr hid => hR r hr (by rw [hid]), fun _ k hk => ?_⟩
        obtain rfl := Option.some.inj hk
        exact (reverse_books hreverse).2

/-- What is given back goes under the dispute's key; a penalty that took trust leaves one. -/
theorem returnTrust_posts {admin : UserId} {p : ParticipantRow}
    (h : Runs (returnTrust env admin p) s () s') :
    Posts K R (fun g => IsSeedScore g ∨ (g.idempotencyKey = .noShowDispute p.id ∧
        g.userId = p.userId ∧ ∃ t ∈ s.trustLedger.rows, t.idempotencyKey = .participantPenalty p.id ∧
          t.delta < 0 ∧ g.delta = clampScore (g.scoreBefore - t.delta) - g.scoreBefore)) s s' ∧
      ∀ t ∈ s'.trustLedger.rows, t.idempotencyKey = .participantPenalty p.id → t.delta < 0 →
        ∃ g ∈ s'.trustLedger.rows, g.idempotencyKey = .noShowDispute p.id := by
  simp only [returnTrust, runs_get_bind] at h
  cases hk : s.trustByKey (.participantPenalty p.id) with
  | none =>
      simp only [hk, runs_pure] at h
      rw [h.2]
      refine ⟨.refl _, fun t ht hkey => ?_⟩
      have hnone := List.find?_eq_none.1 hk t ht
      simp [hkey] at hnone
  | some taken =>
      have hmem : taken ∈ s.trustLedger.rows := List.mem_of_find?_eq_some hk
      have htk : taken.idempotencyKey = .participantPenalty p.id := by
        simpa using List.find?_some hk
      -- the key is unique: the row found is every row of it
      have hsame : ∀ t ∈ s.trustLedger.rows, t.idempotencyKey = .participantPenalty p.id →
          t = taken := by
        intro t ht hkey
        refine Table.eq_of_collide ht hmem ?_
        simp [Row.collide, hkey, htk]
      simp only [hk, runs_ite, runs_pure] at h
      rcases h with ⟨hneg, h⟩ | ⟨hnneg, -, rfl⟩
      · simp only [runs_bind, runs_pure] at h
        obtain ⟨_, _, happly, -, rfl⟩ := h
        obtain ⟨hposts, g, hg, hgk⟩ := applyTrust_posts (K := K) (R := R) happly
        refine ⟨hposts.mono (fun _ hK => hK) (fun _ hR => hR) fun t ht => ?_, fun _ _ _ _ => ?_⟩
        · refine ht.imp_right fun hrow => ⟨hrow.1, hrow.2.1, taken, hmem, htk, hneg, ?_⟩
          rw [hrow.2.2, sub_eq_add_neg t.scoreBefore]
        · exact ⟨g, hg, hgk⟩
      · refine ⟨.refl _, fun t ht hkey hlt => ?_⟩
        rw [hsame t ht hkey] at hlt
        exact absurd hlt hnneg

/-- One undone absence. -/
theorem reverseNoShow_overturns {admin : UserId} {pid : ParticipantId} {n : Int} (hs : s.Linked)
    (h : Runs (reverseNoShow env admin pid) s n s') : Overturns K s s' := by
  simp only [reverseNoShow, runs_findRow_bind, runs_orThrow_bind,
    runs_assertParticipantTransition_bind, runs_bind (m := returnPenalty _ _ _),
    runs_bind (m := returnTrust _ _ _), runs_updateRow_bind, runs_pure] at h
  obtain ⟨p, hp, hcan, _, s₁, hpenalty, _, s₂, htrust, x, hx, t, ht, -, rfl⟩ := h
  have hst : p.status.Overturnable := seated_of_canTransition_completed hcan
  have hmem : p ∈ s.participants.rows := Table.mem_of_find? hp
  have hbooks : Books Ordinary s s₂ :=
    (returnPenalty_ordinary hpenalty).trans (returnTrust_trustOnly htrust).books
  simp only [table_participants, hbooks.participants] at hp hx ht
  obtain rfl : x = p := find?_self hp hx
  -- the coin half writes no trust row at all
  obtain ⟨hposts₁, htaken⟩ := returnPenalty_posts (K := K) (R := MayReturn s) (T := fun _ => False)
    hpenalty fun r _ hr => .inr (.inr ⟨x, hmem, hst, hr⟩)
  obtain ⟨hposts₂, hback⟩ := returnTrust_posts (K := K) (R := MayReturn s) htrust
  refine ⟨?_, fun q hq => ?_, fun q hq => ?_⟩
  · have h₁ : Posts K (MayReturn s) (DecidedTrust s { s₂ with participants := t }) s s₁ :=
      hposts₁.mono (fun _ hK => hK) (fun _ hR => hR) fun _ hT => hT.elim
    refine (h₁.trans (hposts₂.mono (fun _ hK => hK) (fun _ hR => hR) fun g hg => ?_)).then_eq
      rfl rfl
    rcases hg with hg | ⟨hk, hu, taken, hmt, hrest⟩
    · exact .inl hg
    · have hold : taken ∈ s.trustLedger.rows := (hposts₁.trust_or_new hmt).resolve_right id
      exact .inr (.inr ⟨x, hmem, hst, ht.self, hk, hu, taken, hold, hrest⟩)
  · rcases ht.cases hq with rfl | ⟨hold, -⟩
    · exact .inr ⟨x, hmem, hst, rfl⟩
    · exact .inl hold
  · by_cases hqx : q = x
    · subst hqx
      refine .inr ⟨hst, ht.self, fun l hl => ?_, hback⟩
      exact hposts₂.coins.reversalTaken (htaken hs l hl)
    · exact .inl (ht.other hq hqx)

end Undo

/-! ## Decisions -/

section Decisions

variable {env : Env} {K : CoinLedgerRow → Prop} {s s' : Db}

theorem settleDispute_overturns {admin : UserId} {c : CaseId} {pid : ParticipantId} {upheld : Bool}
    (hs : s.Linked) (h : Runs (settleDispute env admin c pid upheld) s () s') :
    Overturns K s s' := by
  simp only [settleDispute, runs_findRow_bind, runs_orThrow_bind, runs_lockEvent_bind] at h
  obtain ⟨seat, -, ev, -, h⟩ := h
  rcases runs_ite.1 h with ⟨-, h⟩ | ⟨-, h⟩
  · rw [runs_bind] at h
    obtain ⟨n, s₁, hreverse, h⟩ := h
    rw [runs_emit_bind, runs_emit] at h
    rw [h]
    exact (reverseNoShow_overturns hs hreverse).then_eq rfl rfl rfl
  · rw [runs_emit] at h
    rw [h]
    exact (Overturns.refl s).then_eq rfl rfl rfl

/-- One seated guest of an absent host: what they paid comes back, and so does what an
    absence the host recorded took. -/
theorem releaseSeatedGuest_overturns {admin : UserId} {c : CaseId} {p : ParticipantRow}
    (hs : s.Linked) (h : Runs (releaseSeatedGuest env admin c p) s () s') :
    Overturns K s s' ∧ s'.events = s.events := by
  have hevents := (releaseSeatedGuest_step h).events
  simp only [releaseSeatedGuest, runs_bind (m := refundParticipant _ _ _ _ _),
    runs_bind (m := undoRecordedAbsence _ _ _ _), runs_emit] at h
  obtain ⟨_, s₁, hrefund, _, s₂, hundo, rfl⟩ := h
  have hbooks := (refundParticipant_books hrefund).1
  have h₁ : Overturns K s s₁ := by
    refine .of_posts ((refundParticipant_posts hrefund).mono (fun _ hK => hK) ?_ fun _ hT => hT)
      hbooks.participants
    exact fun _ ho => .inl ho
  refine ⟨?_, hevents⟩
  rcases runs_ite.1 hundo with ⟨-, hundo⟩ | ⟨-, hundo⟩
  · simp only [runs_bind (m := reverseNoShow _ _ _), runs_updateRows_bind, runs_pure] at hundo
    obtain ⟨_, s₃, hreverse, tc, -, -, rfl⟩ := hundo
    have h₂ := reverseNoShow_overturns (K := K) (hbooks.ledger.linked hs) hreverse
    exact (h₁.trans h₂).then_eq rfl rfl rfl
  · rw [runs_pure] at hundo
    rw [hundo.2]
    exact h₁.then_eq rfl rfl rfl

/-- The penalty of a host whose event is stamped. -/
def AbsentHostCharge (s : Db) (r : CoinLedgerRow) : Prop :=
  ∃ ev ∈ s.events.rows, ev.hostAbsentAt ≠ none ∧
    PenaltyRow (.hostAbsentPenalty ev.id) ev.hostUserId r

theorem settleHostAbsence_overturns {admin : UserId} {c : CaseId} {e : EventId} {upheld : Bool}
    (hs : s.Linked) (h : Runs (settleHostAbsence env admin c e upheld) s () s') :
    Overturns (AbsentHostCharge s') s s' := by
  cases upheld with
  | true =>
      have hfound := h
      simp only [settleHostAbsence, runs_lockEvent_bind, runs_orThrow_bind] at hfound
      obtain ⟨ev, hev, -⟩ := hfound
      obtain rfl : ev.id = e := Table.key_of_find? hev
      obtain ⟨-, us, s₁, penalty, s₂, n, s₃, te, s₄, hlock, hcharge, hreverse, hte, hloop, m, h⟩ :=
        settleHostAbsence_parts (Table.mem_of_find? hev) h
      -- the books first: accounts, the host's penalty, the payments taken back
      have hbooks₁ := lockAccounts_books (P := Ordinary) hlock
      have hbooks₂ := charge_books hcharge ⟨rfl, by simp⟩
      have hbooks₃ := (reverseCharges_books hreverse).1
      have h₁ : Overturns (PenaltyRow (.hostAbsentPenalty ev.id) ev.hostUserId) s s₁ :=
        .of_posts (lockAccounts_posts hlock) hbooks₁.participants
      have h₂ : Overturns (PenaltyRow (.hostAbsentPenalty ev.id) ev.hostUserId) s₁ s₂ := by
        refine .of_posts ((charge_posts hcharge ⟨rfl, by simp⟩).mono (fun x hx => ?_)
          (fun _ hR => hR) fun t ht => ?_) hbooks₂.participants
        · obtain ⟨⟨huser, htype, hkey, -, -⟩, hamount⟩ := hx
          exact ⟨hkey, huser, .inr htype, hamount⟩
        · exact ht.imp_right fun hrow => .inl ⟨ev.id, hrow.1⟩
      have h₃ : Overturns (PenaltyRow (.hostAbsentPenalty ev.id) ev.hostUserId) s₂ s₃ := by
        refine .of_posts (reverseCharges_posts hreverse fun r hr => ?_) hbooks₃.participants
        simp only [Db.standingHostPayments, List.mem_filter, Bool.and_eq_true, Bool.or_eq_true,
          decide_eq_true_eq] at hr
        exact ⟨hr.1, .inr (.inl ⟨ev.id, hr.2.1⟩)⟩
      have hall : Overturns (PenaltyRow (.hostAbsentPenalty ev.id) ev.hostUserId) s
          { s₃ with events := te } := ((h₁.trans h₂).trans h₃).then_eq rfl rfl rfl
      -- then the guests, one by one
      have hguests : Overturns (PenaltyRow (.hostAbsentPenalty ev.id) ev.hostUserId)
          { s₃ with events := te } s₄ ∧ s₄.events = te ∧ s₄.Linked := by
        refine Runs.forM_rel (R := fun a b : Db => a.Linked →
          Overturns (PenaltyRow (.hostAbsentPenalty ev.id) ev.hostUserId) a b ∧
            b.events = a.events ∧ b.Linked) (fun a ha => ⟨.refl a, rfl, ha⟩) ?_ ?_ hloop ?_
        · intro a b d hab hbd ha
          obtain ⟨hab, heab, hb⟩ := hab ha
          obtain ⟨hbd, hebd, hd⟩ := hbd hb
          exact ⟨hab.trans hbd, hebd.trans heab, hd⟩
        · intro p _ a b hrun ha
          obtain ⟨hover, hevents⟩ := releaseSeatedGuest_overturns (K := PenaltyRow
            (.hostAbsentPenalty ev.id) ev.hostUserId) ha hrun
          exact ⟨hover, hevents, hover.posts.coins.linked ha⟩
        · exact hall.posts.coins.linked hs
      have hdone : Overturns (PenaltyRow (.hostAbsentPenalty ev.id) ev.hostUserId) s s' := by
        rw [h]
        exact (hall.trans hguests.1).then_eq rfl rfl rfl
      refine hdone.mono fun r hr => ⟨ev.hostAbsent env.now, ?_, by simp [EventRow.hostAbsent], hr⟩
      rw [h]
      change _ ∈ s₄.events.rows
      rw [hguests.2.1]
      exact hte.self
  | false =>
      simp only [settleHostAbsence, runs_lockEvent_bind, runs_orThrow_bind, Bool.false_eq_true,
        if_false, runs_findRows_bind] at h
      obtain ⟨ev, hev, h⟩ := h
      rw [runs_bind] at h
      obtain ⟨_, s₁, hloop, h⟩ := h
      have hs₁ : s₁ = { s with outbox := s₁.outbox } := by
        refine Runs.forM_rel (R := fun a b : Db => b = { a with outbox := b.outbox })
          (fun _ => rfl) (fun h₁ h₂ => by rw [h₂, h₁]) (fun c _ a b hrun => ?_) hloop
        rw [runs_emit] at hrun
        rw [hrun]
      rw [runs_emit] at h
      rw [h, hs₁]
      exact (Overturns.refl s).then_eq rfl rfl rfl

/-- A decided claim, guest by guest. -/
theorem decideClaim_overturns {admin : UserId} {may : Bool} {c : CaseId} {upheld : Bool}
    {note : String} (hs : s.Linked) (h : Runs (decideClaim env admin may c upheld note) s () s') :
    Overturns (AbsentHostCharge s') s s' := by
  simp only [decideClaim, runs_guardTx_bind, runs_findRow_bind, runs_orThrow_bind] at h
  obtain ⟨-, -, m, -, -, -, h⟩ := h
  rw [runs_bind] at h
  obtain ⟨_, s₁, hsettle, h⟩ := h
  simp only [runs_updateRow] at h
  obtain ⟨x, -, t, -, rfl⟩ := h
  have hclose : ∀ {K : CoinLedgerRow → Prop}, Overturns K s s₁ →
      Overturns K s { s₁ with cases := t } := fun ho => ho.then_eq rfl rfl rfl
  cases hsub : m.subjectType with
  | PARTICIPATION =>
      simp only [settleClaim, hsub] at hsettle
      exact hclose (settleDispute_overturns hs hsettle)
  | EVENT =>
      simp only [settleClaim, hsub] at hsettle
      exact hclose (settleHostAbsence_overturns hs hsettle)
  | USER => simp [settleClaim, hsub] at hsettle
  | MESSAGE => simp [settleClaim, hsub] at hsettle
  | REVIEW => simp [settleClaim, hsub] at hsettle

end Decisions

end Paayatam
