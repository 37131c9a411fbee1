/-
  Paayatam.Reviews.Reveal

  What writing, editing, expiring and revealing do to the reviews.

  `Beside T` is the frame: neither a review nor a pair nor a side of one moved,
  and the trust rows added satisfy `T`.  A submission and an expiry are one
  thing, a `PairWrite`: perhaps a new review, one new row of the pair that its
  constraints accept, and perhaps the reveal of what that row holds.
-/

import Paayatam.Reviews.Service
import Paayatam.Economy.Postings
import Paayatam.Lib.Respects

namespace Paayatam

open Lib

namespace Reviews

/-! ## The frame -/

/-- The trust ledger only grew, by rows that all satisfy `T`. -/
def TrustGrows (T : TrustLedgerRow → Prop) (s s' : Db) : Prop :=
  ∃ added, s'.trustLedger.rows = s.trustLedger.rows ++ added ∧ ∀ t ∈ added, T t

namespace TrustGrows

variable {T T' : TrustLedgerRow → Prop} {s s₁ s' : Db}

theorem of_eq (h : s'.trustLedger = s.trustLedger) : TrustGrows T s s' :=
  ⟨[], by rw [h, List.append_nil], by simp⟩

theorem mono (h : TrustGrows T s s') (hT : ∀ t, T t → T' t) : TrustGrows T' s s' := by
  obtain ⟨added, hrows, hadded⟩ := h
  exact ⟨added, hrows, fun t ht => hT t (hadded t ht)⟩

theorem trans (h₁ : TrustGrows T s s₁) (h₂ : TrustGrows T s₁ s') : TrustGrows T s s' := by
  obtain ⟨a₁, hr₁, ha₁⟩ := h₁
  obtain ⟨a₂, hr₂, ha₂⟩ := h₂
  refine ⟨a₁ ++ a₂, by rw [hr₂, hr₁, List.append_assoc], fun t ht => ?_⟩
  exact (List.mem_append.1 ht).elim (ha₁ t) (ha₂ t)

theorem mem (h : TrustGrows T s s') {t : TrustLedgerRow} (ht : t ∈ s.trustLedger.rows) :
    t ∈ s'.trustLedger.rows := by
  obtain ⟨added, hrows, -⟩ := h
  rw [hrows]
  exact List.mem_append_left _ ht

theorem mem_or_new (h : TrustGrows T s s') {t : TrustLedgerRow} (ht : t ∈ s'.trustLedger.rows) :
    t ∈ s.trustLedger.rows ∨ T t := by
  obtain ⟨added, hrows, hadded⟩ := h
  rw [hrows, List.mem_append] at ht
  exact ht.imp_right (hadded t)

end TrustGrows

/-- Reviews, pairs, participations and events stand still, and the new trust rows
    satisfy `T`. -/
structure Beside (T : TrustLedgerRow → Prop) (s s' : Db) : Prop where
  reviews : s'.reviews = s.reviews
  pairs : s'.reviewPairs = s.reviewPairs
  participants : s'.participants = s.participants
  events : s'.events = s.events
  trust : TrustGrows T s s'

/-- A trust row that is not about a review. -/
def OtherTrust (t : TrustLedgerRow) : Prop := ∀ k, t.idempotencyKey ≠ .review k

/-- The trust row of a review, as the settings rate it. -/
def RatingRow (env : Env) (review : ReviewRow) (t : TrustLedgerRow) : Prop :=
  t.idempotencyKey = .review review.id ∧ t.userId = review.revieweeUserId ∧
    ratingTrust env.settings review.rating = some t.asked

section Frame

variable {T : TrustLedgerRow → Prop} {s s₁ s' : Db} {env : Env}

instance : Std.Refl (Beside T) := ⟨fun _ => ⟨rfl, rfl, rfl, rfl, .of_eq rfl⟩⟩

instance : IsTrans Db (Beside T) := ⟨fun _ _ _ h₁ h₂ =>
  ⟨h₂.reviews.trans h₁.reviews, h₂.pairs.trans h₁.pairs,
    h₂.participants.trans h₁.participants, h₂.events.trans h₁.events, h₁.trust.trans h₂.trust⟩⟩

theorem Beside.of_coins (h : CoinsOnly s s') : Beside T s s' := by
  rw [h]
  exact ⟨rfl, rfl, rfl, rfl, .of_eq rfl⟩

theorem openSubjectCase_beside {trigger : ModerationTrigger} {type : ModerationSubjectType}
    {k n : Nat} : Respects (Beside T) (openSubjectCase env trigger type k n) :=
  .bind .get fun _ => .writeTable fun _ _ => ⟨rfl, rfl, rfl, rfl, .of_eq rfl⟩

theorem payReward_beside {u : UserId} {k : ReviewId} :
    Respects (Beside T) (payReward env u k) := by
  refine .bind .get fun _ => .ite (fun _ => ?_) fun _ => .pure
  exact .bind (fun _ _ _ hrun => .of_coins (applyCoins_spec hrun).1.coinsOnly) fun _ => .pure

theorem emit_beside {m : DomainEvent} : Respects (Beside T) (emit m) := by
  intro s u s' hrun
  rw [runs_emit.1 hrun]
  exact ⟨rfl, rfl, rfl, rfl, .of_eq rfl⟩

/-- The trust movement of a review asks for what its rating is worth. -/
theorem applyRatingTrust_beside {review : ReviewRow} :
    Respects (Beside fun t => OtherTrust t ∨ RatingRow env review t)
      (applyRatingTrust env review) := by
  unfold applyRatingTrust
  split
  · exact .pure
  · next delta hdelta =>
      refine .ite (fun _ => .pure) fun _ => .bind (fun s r s' hrun => ?_) fun _ => .pure
      have honly := applyTrust_trustOnly hrun
      have hposts := (applyTrust_asks (K := fun _ => False) (R := fun _ => False) hrun).1
      have hgrows : TrustGrows (fun t => IsSeedScore t ∨ TrustRowFor (ratingMovement review delta) t)
          s s' := hposts.trust
      refine ⟨by rw [honly], by rw [honly], by rw [honly], by rw [honly], ?_⟩
      refine hgrows.mono fun t hnew => ?_
      rcases hnew with ⟨u, hseed⟩ | ⟨hrow, hasked⟩
      · left
        intro k
        simp [hseed]
      · right
        refine ⟨hrow.1, hrow.2.1, ?_⟩
        rw [hdelta, hasked]
        rfl

/-- A rating that is worth something leaves its row. -/
theorem applyRatingTrust_moved {review : ReviewRow} {delta : Int}
    (hdelta : ratingTrust env.settings review.rating = some delta) (hne : delta ≠ 0)
    (h : Runs (applyRatingTrust env review) s () s') :
    ∃ t ∈ s'.trustLedger.rows, t.idempotencyKey = .review review.id := by
  simp only [applyRatingTrust, hdelta, if_neg hne, runs_bind, runs_pure] at h
  obtain ⟨_, s₁, hmove, -, rfl⟩ := h
  exact (applyTrust_asks (K := fun _ => False) (R := fun _ => False) hmove).2

end Frame

/-! ## Revealing -/

/-- A reveal takes the row as it was read for one that is still blind. -/
def reveals (rows : List ReviewRow) (k : ReviewId) : Bool :=
  rows.any fun x => decide (x.id = k) && decide (x.status = .SUBMITTED)

/-- What a reveal of `rows` makes of a review. -/
def touched (now : Instant) (rows : List ReviewRow) (r : ReviewRow) : ReviewRow :=
  if reveals rows r.id then revealed now r else r

/-- A trust row a reveal of `rows` may add. -/
def RevealRow (env : Env) (rows : List ReviewRow) (t : TrustLedgerRow) : Prop :=
  OtherTrust t ∨ ∃ x ∈ rows, x.status = .SUBMITTED ∧ RatingRow env x t

/-- Every blind row whose rating is worth something has a trust row. -/
def Moved (env : Env) (rows : List ReviewRow) (s : Db) : Prop :=
  ∀ x ∈ rows, x.status = .SUBMITTED → ∀ delta, ratingTrust env.settings x.rating = some delta →
    delta ≠ 0 → ∃ t ∈ s.trustLedger.rows, t.idempotencyKey = .review x.id

/-- The reveal of `rows`, as they were read. -/
structure Revealing (env : Env) (affectsTrust : Bool) (rows : List ReviewRow) (s s' : Db) :
    Prop where
  reviews : ∀ k, s'.reviews.find? k = (s.reviews.find? k).map (touched env.now rows)
  pairs : s'.reviewPairs = s.reviewPairs
  participants : s'.participants = s.participants
  events : s'.events = s.events
  trust : TrustGrows (RevealRow env rows) s s'
  moved : affectsTrust = true → Moved env rows s'

section Reveal

variable {env : Env} {affectsTrust : Bool} {rows : List ReviewRow} {s s₁ s' : Db}

theorem touched_id {now : Instant} {r : ReviewRow} : (touched now rows r).id = r.id := by
  unfold touched
  split <;> rfl

theorem touched_cons {now : Instant} {x r : ReviewRow} :
    touched now rows (touched now [x] r) = touched now (x :: rows) r := by
  by_cases hx : reveals [x] r.id = true
  · have hcons : reveals (x :: rows) r.id = true := by
      simp only [reveals, List.any_cons, List.any_nil, Bool.or_false] at hx
      simp [reveals, hx]
    simp only [touched, hx, hcons, if_true]
    split <;> rfl
  · have hcons : reveals (x :: rows) r.id = reveals rows r.id := by
      simp only [reveals, List.any_cons, List.any_nil, Bool.or_false] at hx
      simp [reveals, hx]
    have hsame : touched now [x] r = r := if_neg hx
    rw [hsame, touched, touched, hcons]

theorem Revealing.of_beside (h : Beside OtherTrust s s') : Revealing env affectsTrust [] s s' where
  reviews k := by
    have hid : touched env.now [] = id := funext fun r => by simp [touched, reveals]
    rw [h.reviews, hid, Option.map_id, id]
  pairs := h.pairs
  participants := h.participants
  events := h.events
  trust := h.trust.mono fun _ => .inl
  moved _ x hx := by cases hx

theorem RevealRow.mono {rows' : List ReviewRow} (h : ∀ x ∈ rows, x ∈ rows') {t : TrustLedgerRow}
    (ht : RevealRow env rows t) : RevealRow env rows' t := by
  rcases ht with hother | ⟨x, hx, hrow⟩
  · exact .inl hother
  · exact .inr ⟨x, h x hx, hrow⟩

theorem Revealing.cons {x : ReviewRow} (h₁ : Revealing env affectsTrust [x] s s₁)
    (h₂ : Revealing env affectsTrust rows s₁ s') :
    Revealing env affectsTrust (x :: rows) s s' where
  reviews k := by
    rw [h₂.reviews, h₁.reviews, Option.map_map]
    exact congrArg (fun f => Option.map f (s.reviews.find? k)) (funext fun r => touched_cons)
  pairs := h₂.pairs.trans h₁.pairs
  participants := h₂.participants.trans h₁.participants
  events := h₂.events.trans h₁.events
  trust := by
    have hhead : TrustGrows (RevealRow env (x :: rows)) s s₁ :=
      h₁.trust.mono fun _ => .mono fun y hy => List.mem_singleton.1 hy ▸ List.mem_cons_self
    exact hhead.trans (h₂.trust.mono fun _ => .mono fun y hy => List.mem_cons_of_mem x hy)
  moved ha y hy hsub delta hdelta hne := by
    rcases List.mem_cons.1 hy with rfl | hy
    · obtain ⟨t, ht, hkey⟩ := h₁.moved ha y (List.mem_singleton.2 rfl) hsub delta hdelta hne
      exact ⟨t, h₂.trust.mem ht, hkey⟩
    · exact h₂.moved ha y hy hsub delta hdelta hne

theorem Revealing.then_beside (h : Revealing env affectsTrust rows s s₁)
    (hb : Beside OtherTrust s₁ s') : Revealing env affectsTrust rows s s' where
  reviews k := by rw [hb.reviews, h.reviews]
  pairs := hb.pairs.trans h.pairs
  participants := hb.participants.trans h.participants
  events := hb.events.trans h.events
  trust := h.trust.trans (hb.trust.mono fun _ => .inl)
  moved ha x hx hsub delta hdelta hne := by
    obtain ⟨t, ht, hkey⟩ := h.moved ha x hx hsub delta hdelta hne
    exact ⟨t, hb.trust.mem ht, hkey⟩

theorem revealReview_spec {x : ReviewRow} (h : Runs (revealReview env affectsTrust x) s () s') :
    Revealing env affectsTrust [x] s s' := by
  rw [revealReview, runs_ite] at h
  rcases h with ⟨hst, h⟩ | ⟨hst, h⟩
  · -- a review that was not read as blind is passed over
    rw [(runs_pure.1 h).2]
    have hid : touched env.now [x] = id := funext fun r => by simp [touched, reveals, hst]
    refine ⟨fun k => ?_, rfl, rfl, rfl, .of_eq rfl, fun _ y hy hsub => ?_⟩
    · rw [hid, Option.map_id, id]
    · rw [List.mem_singleton.1 hy] at hsub
      exact absurd hsub hst
  · have hsub : x.status = .SUBMITTED := not_not.1 hst
    rw [assertReviewTransition, runs_guardTx_bind, runs_updateRow_bind] at h
    obtain ⟨-, r, hr, t, ht, h⟩ := h
    have htrust : Beside (fun t => OtherTrust t ∨ RatingRow env x t)
        (HasTable.setTable t s) s' :=
      Respects.whenTx (fun _ => applyRatingTrust_beside) h
    have hkey : r.id = x.id := Table.key_of_find? hr
    refine ⟨fun k => ?_, htrust.pairs, htrust.participants, htrust.events,
      htrust.trust.mono fun u hu => ?_, fun ha y hy hsub' delta hdelta hne => ?_⟩
    · rw [htrust.reviews]
      change t.find? k = _
      rw [ht.find? rfl k]
      change (if r.id = k then _ else _) = _
      split
      · next hk =>
          have hfound : s.reviews.find? k = some r := by
            rw [← hk, hkey]
            exact hr
          have hhit : reveals [x] r.id = true := by simp [reveals, hkey, hsub]
          simp [hfound, touched, hhit]
      · next hk =>
          change s.reviews.find? k = _
          cases hf : s.reviews.find? k with
          | none => rfl
          | some y =>
              have hy : y.id = k := Table.key_of_find? hf
              have hmiss : reveals [x] y.id = false := by
                simp only [reveals, List.any_cons, List.any_nil, Bool.or_false,
                  Bool.and_eq_false_iff, decide_eq_false_iff_not]
                exact .inl fun hxy => hk (hkey.trans (hxy.trans hy))
              simp [touched, hmiss]
    · exact hu.imp_right fun hrow => ⟨x, List.mem_singleton.2 rfl, hsub, hrow⟩
    · rw [List.mem_singleton.1 hy] at hdelta ⊢
      rcases runs_whenTx.1 h with ⟨-, hrun⟩ | ⟨hno, -⟩
      · exact applyRatingTrust_moved hdelta hne hrun
      · exact absurd ha hno

theorem revealReviews_spec :
    ∀ {rows : List ReviewRow} {s s' : Db},
      Runs (rows.forM (revealReview env affectsTrust)) s () s' →
        Revealing env affectsTrust rows s s' := by
  intro rows
  induction rows with
  | nil =>
      intro s s' h
      rw [(runs_forM_nil.1 h)]
      exact .of_beside (Std.Refl.refl s)
  | cons x rows ih =>
      intro s s' h
      obtain ⟨s₁, hx, hrest⟩ := runs_forM_cons.1 h
      exact .cons (revealReview_spec hx) (ih hrest)

theorem revealPair_spec {p : ParticipantId} {outcome : ReviewPairStatus} {stale : List ReviewRow}
    (h : Runs (revealPair env p outcome stale) s () s') :
    ∃ pair, s.reviewPairs.find? p = some pair ∧
      Revealing env (decide (outcome = .REVEALED) ||
          decide (env.settings.review_partial_reveal_affects_trust = 1))
        ((reviewsOf s pair).map (asRead stale)) s s' := by
  simp only [revealPair, runs_findRow_bind, runs_orThrow_bind, runs_get_bind,
    table_reviewPairs] at h
  obtain ⟨pair, hpair, _, -, _, -, h⟩ := h
  rw [runs_bind] at h
  obtain ⟨_, s₁, hrows, hemit⟩ := h
  exact ⟨pair, hpair, (revealReviews_spec hrows).then_beside (emit_beside hemit)⟩

end Reveal

/-! ## Writing a pair -/

/-- The status lets everybody read what the pair holds. -/
def isRevealed (status : ReviewPairStatus) : Bool := REVEALED_PAIR_STATUSES.contains status

/-- The review `k`, once a new one has been inserted. -/
def withNew (s : Db) (new : Option (ReviewerRole × ReviewRow)) (k : ReviewId) : Option ReviewRow :=
  match new with
  | some (_, r) => if r.id = k then some r else s.reviews.find? k
  | none => s.reviews.find? k

/-- The rows a write of `pair` reveals, as they were read. -/
def revealedRows (s : Db) (new : Option (ReviewerRole × ReviewRow)) (pair : ReviewPairRow)
    (stale : List ReviewRow) : List ReviewRow :=
  if isRevealed pair.status then
    ([pair.hostReviewId, pair.guestReviewId].filterMap fun k => k.bind (withNew s new)).map
      (asRead stale)
  else []

/-- Perhaps a new review was inserted, and nothing else moved of the reviews. -/
structure Inserted (new : Option (ReviewerRole × ReviewRow)) (s s' : Db) : Prop where
  reviews : ∀ k, s'.reviews.find? k = withNew s new k
  pairs : s'.reviewPairs = s.reviewPairs
  participants : s'.participants = s.participants
  events : s'.events = s.events
  trust : TrustGrows OtherTrust s s'

/-- The pair `pair` became `pair'`, perhaps with a new review, and what it holds was
    revealed if its new status says so. -/
structure PairWrite (env : Env) (new : Option (ReviewerRole × ReviewRow))
    (pair pair' : ReviewPairRow) (stale : List ReviewRow) (s s' : Db) : Prop where
  found : s.reviewPairs.find? pair.participantId = some pair
  same : pair'.participantId = pair.participantId
  check : pair'.constraints = true
  pairs : ∀ q, s'.reviewPairs.find? q =
    if pair.participantId = q then some pair' else s.reviewPairs.find? q
  reviews : ∀ k, s'.reviews.find? k =
    (withNew s new k).map (touched env.now (revealedRows s new pair' stale))
  participants : s'.participants = s.participants
  events : s'.events = s.events
  trust : TrustGrows (RevealRow env (revealedRows s new pair' stale)) s s'
  moved : pair'.status = .REVEALED → Moved env (revealedRows s new pair' stale) s'

section Writing

variable {env : Env} {new : Option (ReviewerRole × ReviewRow)} {stale : List ReviewRow}
  {s s₁ s₂ s' : Db}

theorem Inserted.refl (s : Db) : Inserted none s s := ⟨fun _ => rfl, rfl, rfl, rfl, .of_eq rfl⟩

theorem Inserted.then_beside (h : Inserted new s s₁) (hb : Beside OtherTrust s₁ s') :
    Inserted new s s' where
  reviews k := by rw [hb.reviews, h.reviews]
  pairs := hb.pairs.trans h.pairs
  participants := hb.participants.trans h.participants
  events := hb.events.trans h.events
  trust := h.trust.trans hb.trust

/-- The update of the pair, what lies beside it, and the reveal. -/
theorem pairWrite_of {p : ParticipantId} {pair : ReviewPairRow} {f : ReviewPairRow → ReviewPairRow}
    {t : Table ReviewPairRow} {c : Prop} [Decidable c] {outcome : ReviewPairStatus}
    (hi : Inserted new s s₁) (hpair : s₁.reviewPairs.find? p = some pair)
    (ht : s₁.reviewPairs.Rewrites pair f t) (hkey : (f pair).participantId = pair.participantId)
    (hb : Beside OtherTrust (HasTable.setTable t s₁) s₂) (hc : c ↔ isRevealed (f pair).status = true)
    (ho : (f pair).status = .REVEALED → outcome = .REVEALED)
    (hreveal : Runs (whenTx c (revealPair env p outcome stale)) s₂ () s') :
    PairWrite env new pair (f pair) stale s s' := by
  have hp : pair.participantId = p := Table.key_of_find? hpair
  have hfind : ∀ q, t.find? q =
      if pair.participantId = q then some (f pair) else s.reviewPairs.find? q := by
    intro q
    rw [← hi.pairs]
    exact ht.find? hkey q
  have hrows : ∀ k, s₂.reviews.find? k = withNew s new k := by
    intro k
    rw [hb.reviews]
    exact hi.reviews k
  have hdone : Revealing env (decide ((f pair).status = .REVEALED))
      (revealedRows s new (f pair) stale) s₂ s' := by
    rcases runs_whenTx.1 hreveal with ⟨hyes, hrun⟩ | ⟨hno, rfl⟩
    · obtain ⟨held, hheld, hdone⟩ := revealPair_spec hrun
      obtain rfl : f pair = held := by
        rw [hb.pairs] at hheld
        have hself : t.find? p = some (f pair) := ht.find?_self hkey hp
        exact Option.some.inj (hself.symm.trans hheld)
      have hsame : withNew s new = s₂.reviews.find? := funext fun k => (hrows k).symm
      rw [revealedRows, if_pos (hc.1 hyes), hsame]
      refine ⟨hdone.reviews, hdone.pairs, hdone.participants, hdone.events, hdone.trust,
        fun hst => hdone.moved ?_⟩
      rw [ho (of_decide_eq_true hst)]
      rfl
    · rw [revealedRows, if_neg fun h => hno (hc.2 h)]
      exact .of_beside (Std.Refl.refl _)
  refine ⟨?_, hkey, ?_, fun q => ?_, fun k => ?_, ?_, ?_, ?_, fun hst => hdone.moved ?_⟩
  · rw [hp, ← hi.pairs]
    exact hpair
  · exact t.valid _ ht.self
  · rw [hdone.pairs, hb.pairs]
    exact hfind q
  · rw [hdone.reviews, hrows]
  · rw [hdone.participants, hb.participants]
    exact hi.participants
  · rw [hdone.events, hb.events]
    exact hi.events
  · have hbefore : TrustGrows OtherTrust s s₂ := hi.trust.trans hb.trust
    exact (hbefore.mono fun _ => .inl).trans hdone.trust
  · exact decide_eq_true hst

end Writing

/-! ## The operations -/

/-- A committed submission. -/
structure Submitted (env : Env) (userId : UserId) (input : SubmitReviewInput) (context : Writable)
    (stale : List ReviewRow) (s s' : Db) : Prop where
  write : ∃ review pair,
    review = newReview env userId input context (freshId (s.reviews.rows.map (·.id))) ∧
    pair.participantId = context.participantId ∧
    PairWrite env (some (context.role, review)) pair (written env context review.id pair) stale s s'
  blind : context.pairStatus = .PENDING ∨ context.pairStatus = .PARTIAL
  alone : ∀ x ∈ s.reviews.rows, x.participantId = context.participantId →
    x.reviewerUserId ≠ userId

/-- A committed edit. -/
structure Edited (env : Env) (input : SubmitReviewInput) (reviewId : ReviewId) (s s' : Db) :
    Prop where
  reviews : ∃ review, s.reviews.find? reviewId = some review ∧ ∀ k, s'.reviews.find? k =
    if reviewId = k then some (edited env input review) else s.reviews.find? k
  pairs : s'.reviewPairs = s.reviewPairs
  participants : s'.participants = s.participants
  events : s'.events = s.events
  trust : TrustGrows OtherTrust s s'

/-- The row an expiry writes. -/
def expired (now : Instant) (status : ReviewPairStatus) (pair : ReviewPairRow) : ReviewPairRow :=
  { pair with status := expiredStatus status, revealedAt := some now }

section Operations

variable {env : Env} {input : SubmitReviewInput} {stale : List ReviewRow} {s s' : Db}

theorem inserted_of_insert {role : ReviewerRole} {r : ReviewRow} {t : Table ReviewRow}
    (h : t.rows = s.reviews.rows ++ [r]) : Inserted (some (role, r)) s { s with reviews := t } where
  reviews k := Table.find?_of_insert h k
  pairs := rfl
  participants := rfl
  events := rfl
  trust := .of_eq rfl

theorem written_participantId {context : Writable} {k : ReviewId} {pair : ReviewPairRow} :
    (written env context k pair).participantId = pair.participantId := by
  cases hrole : context.role <;> simp [written, fillSlot, hrole]

theorem written_status {context : Writable} {k : ReviewId} {pair : ReviewPairRow} :
    (written env context k pair).status = nextStatus context.pairStatus := rfl

theorem finishSubmit_spec {userId : UserId} {context : Writable} {own : OwnReview}
    (h : Runs (finishSubmit env userId input context stale) s own s') :
    Submitted env userId input context stale s s' := by
  simp only [finishSubmit, runs_get_bind] at h
  rw [runs_bind] at h
  obtain ⟨b, s₁, hins, h⟩ := h
  rw [runs_guardTx_bind] at h
  obtain ⟨hb, h⟩ := h
  obtain ⟨t, rfl, ⟨-, ht⟩ | ⟨hno, -⟩⟩ := runs_insertRowOrIgnore hins
  · rw [runs_bind] at h
    obtain ⟨_, s₂, hcase, h⟩ := h
    have hbeside : Beside OtherTrust { s with reviews := t } s₂ :=
      Respects.whenTx (fun _ => openSubjectCase_beside) hcase
    rw [assertReviewPairTransition, runs_guardTx_bind, runs_updateRow_bind] at h
    obtain ⟨hcan, pair, hpair, t', ht', h⟩ := h
    rw [runs_bind] at h
    obtain ⟨_, s₃, hpay, h⟩ := h
    rw [runs_bind] at h
    obtain ⟨_, s₄, hreveal, h⟩ := h
    obtain rfl : s' = s₄ := (runs_pure.1 h).2
    have hblind : context.pairStatus = .PENDING ∨ context.pairStatus = .PARTIAL := by
      cases hst : context.pairStatus <;> simp [hst, canTransition, REVIEW_PAIR_TRANSITIONS,
        nextStatus] at hcan ⊢
    have hinserted : Inserted (some (context.role, _)) _ _ := inserted_of_insert ht
    have hi := hinserted.then_beside hbeside
    refine ⟨⟨_, pair, rfl, Table.key_of_find? hpair, ?_⟩, hblind, fun x hx hxp hxu => ?_⟩
    · refine pairWrite_of hi hpair ht' written_participantId (payReward_beside hpay) ?_
        (fun _ => rfl) hreveal
      rw [written_status]
      rcases hblind with hst | hst <;> rw [hst] <;> decide
    · have hcompat := (Table.compatible_of_insert ht hx).2
      simp [Row.collide, newReview, hxp, hxu] at hcompat
  · rw [hno] at hb
    cases hb

theorem finishEdit_spec {read : ReviewRow} {own : OwnReview}
    (h : Runs (finishEdit env input read) s own s') : Edited env input read.id s s' := by
  rw [finishEdit, runs_updateRow_bind] at h
  obtain ⟨r, hr, t, ht, h⟩ := h
  rw [runs_bind] at h
  obtain ⟨_, s₁, hcase, h⟩ := h
  obtain rfl : s' = s₁ := (runs_pure.1 h).2
  have hbeside : Beside OtherTrust (HasTable.setTable t s) s' :=
    Respects.whenTx (fun _ => openSubjectCase_beside) hcase
  refine ⟨⟨r, hr, fun k => ?_⟩, hbeside.pairs, hbeside.participants, hbeside.events,
    hbeside.trust⟩
  have hkey : r.id = read.id := Table.key_of_find? hr
  rw [hbeside.reviews, ← hkey]
  exact ht.find? rfl k

/-- An expiry leaves everything alone, or writes the pair. -/
theorem finishSettle_spec {read : ReviewPairRow} {o : Option ReviewPairStatus}
    (h : Runs (finishSettle env read stale) s o s') :
    s' = s ∨ ((read.status = .PENDING ∨ read.status = .PARTIAL) ∧
      ∃ pair, pair.participantId = read.participantId ∧
        PairWrite env none pair (expired env.now read.status pair) stale s s') := by
  rw [finishSettle, runs_ite] at h
  rcases h with ⟨-, h⟩ | ⟨hopen, h⟩
  · exact .inl (runs_pure.1 h).2
  · rw [runs_ite] at h
    rcases h with ⟨-, h⟩ | ⟨-, h⟩
    · exact .inl (runs_pure.1 h).2
    · have hblind : read.status = .PENDING ∨ read.status = .PARTIAL := by
        by_cases hst : read.status = .PENDING
        · exact .inl hst
        · exact .inr (not_not.1 fun hst' => hopen ⟨hst, hst'⟩)
      simp only [assertReviewPairTransition, runs_guardTx_bind, runs_updateRow_bind] at h
      obtain ⟨-, pair, hpair, t, ht, h⟩ := h
      rw [runs_bind] at h
      obtain ⟨_, s₁, hreveal, h⟩ := h
      obtain rfl : s' = s₁ := (runs_pure.1 h).2
      refine .inr ⟨hblind, pair, Table.key_of_find? hpair, ?_⟩
      refine pairWrite_of (.refl s) hpair ht rfl (Std.Refl.refl _) ?_ (fun hst => hst) hreveal
      show expiredStatus read.status = .EXPIRED_PARTIAL ↔ isRevealed (expiredStatus read.status) = true
      rcases hblind with hst | hst <;> rw [hst] <;> decide

end Operations

end Reviews

end Paayatam
