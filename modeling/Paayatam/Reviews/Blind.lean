/-
  Paayatam.Reviews.Blind

  What holds of the reviews between transactions: every review is the half of
  its pair its author is on, and is readable exactly when the pair's status
  says so.

  The constraint on the pair, that its status matches what it holds, does most
  of the work: a write that was decided from a stale status and would leave a
  pair with both halves short of REVEALED is refused by the database.
-/

import Paayatam.Reviews.Reveal
import Paayatam.Booking.Footprint

namespace Paayatam

open Lib

namespace Reviews

/-! ## Pairs the constraints accept -/

section Constraints

variable {pair : ReviewPairRow} {role role' : ReviewerRole} {k k' : ReviewId}

theorem matchesContents (h : pair.constraints = true) : pair.statusMatchesContents = true := by
  simp only [ReviewPairRow.constraints, Bool.and_eq_true] at h
  exact h.1.2

theorem slot_of_pending (h : pair.constraints = true) (hst : pair.status = .PENDING) :
    slot pair role = none := by
  have hm := matchesContents h
  simp only [ReviewPairRow.statusMatchesContents, hst, Bool.and_eq_true, Option.isNone_iff_eq_none]
    at hm
  cases role with
  | HOST => exact hm.1
  | GUEST => exact hm.2

/-- A pair both of whose halves are written is REVEALED. -/
theorem revealed_of_both (h : pair.constraints = true) (hhost : (slot pair .HOST).isSome = true)
    (hguest : (slot pair .GUEST).isSome = true) : pair.status = .REVEALED := by
  have hm := matchesContents h
  obtain ⟨a, ha⟩ := Option.isSome_iff_exists.1 hhost
  obtain ⟨b, hb⟩ := Option.isSome_iff_exists.1 hguest
  simp only [slot] at ha hb
  cases hst : pair.status <;> simp [ReviewPairRow.statusMatchesContents, hst, ha, hb] at hm ⊢

theorem both_of_revealed (h : pair.constraints = true) (hst : pair.status = .REVEALED) :
    (slot pair role).isSome = true := by
  have hm := matchesContents h
  simp only [ReviewPairRow.statusMatchesContents, hst, Bool.and_eq_true] at hm
  cases role with
  | HOST => exact hm.1
  | GUEST => exact hm.2

/-- A pair with one half written was not closed empty, and is not waiting for both. -/
theorem status_of_slot (h : pair.constraints = true) (hk : slot pair role = some k) :
    pair.status = .PARTIAL ∨ pair.status = .REVEALED ∨ pair.status = .EXPIRED_PARTIAL := by
  have hm := matchesContents h
  cases role <;> simp only [slot] at hk <;> cases hst : pair.status <;>
    simp [ReviewPairRow.statusMatchesContents, hst, hk] at hm ⊢

/-- A pair that expired with one half holds one review. -/
theorem one_of_expired (h : pair.constraints = true) (hst : pair.status = .EXPIRED_PARTIAL)
    (hk : slot pair role = some k) (hk' : slot pair role' = some k') : role = role' := by
  by_contra hne
  have hboth : (slot pair .HOST).isSome = true ∧ (slot pair .GUEST).isSome = true := by
    cases role <;> cases role' <;> simp_all
  have hrev := revealed_of_both h hboth.1 hboth.2
  rw [hst] at hrev
  cases hrev

end Constraints

theorem pair_constraints {s : Db} {p : ParticipantId} {pair : ReviewPairRow}
    (h : s.reviewPairs.find? p = some pair) : pair.constraints = true :=
  s.reviewPairs.valid _ (Table.mem_of_find? h)

/-! ## Sides -/

theorem roleIn_eq_some {s : Db} {p : ParticipantId} {u : UserId} {role : ReviewerRole} :
    roleIn s p u = some role ↔ ∃ q, s.participants.find? p = some q ∧
      ∃ ev, s.events.find? q.eventId = some ev ∧
        (if ev.hostUserId = u then some ReviewerRole.HOST
          else if q.userId = u then some .GUEST else none) = some role := by
  simp [roleIn, Option.bind_eq_some_iff]

/-- Nobody changes sides. -/
def RolesKept (s s' : Db) : Prop :=
  ∀ p u role, roleIn s p u = some role → roleIn s' p u = some role

/-- A participation keeps its guest and its event, an event its host. -/
theorem rolesKept_of {s s' : Db}
    (hp : ∀ p q, s.participants.find? p = some q → ∃ q', s'.participants.find? p = some q' ∧
      q'.userId = q.userId ∧ q'.eventId = q.eventId)
    (he : ∀ e ev, s.events.find? e = some ev → ∃ ev', s'.events.find? e = some ev' ∧
      ev'.hostUserId = ev.hostUserId) : RolesKept s s' := by
  intro p u role h
  obtain ⟨q, hq, ev, hev, hrole⟩ := roleIn_eq_some.1 h
  obtain ⟨q', hq', huser, hevent⟩ := hp p q hq
  obtain ⟨ev', hev', hhost⟩ := he _ ev hev
  refine roleIn_eq_some.2 ⟨q', hq', ev', by rw [hevent, hev'], ?_⟩
  rw [hhost, huser]
  exact hrole

theorem rolesKept_of_eq {s s' : Db} (hp : s'.participants = s.participants)
    (he : s'.events = s.events) : RolesKept s s' := by
  intro p u role h
  rw [roleIn_eq_some] at h ⊢
  rw [hp, he]
  exact h

/-! ## The frame of every other operation -/

/-- What the operations outside the service do: they open empty pairs. -/
structure ReviewsKept (s s' : Db) : Prop where
  reviews : s'.reviews = s.reviews
  pairs : ∀ q pair, s.reviewPairs.find? q = some pair → s'.reviewPairs.find? q = some pair
  opened : ∀ q pair, s'.reviewPairs.find? q = some pair →
    s.reviewPairs.find? q = some pair ∨ pair.status = .PENDING
  roles : RolesKept s s'
  trust : TrustGrows OtherTrust s s'

namespace ReviewsKept

instance : Std.Refl ReviewsKept :=
  ⟨fun _ => ⟨rfl, fun _ _ h => h, fun _ _ h => .inl h, fun _ _ _ h => h, .of_eq rfl⟩⟩

instance : IsTrans Db ReviewsKept := ⟨fun _ _ _ h₁ h₂ =>
  ⟨h₂.reviews.trans h₁.reviews, fun q pair h => h₂.pairs q pair (h₁.pairs q pair h),
    fun q pair h => (h₂.opened q pair h).elim (h₁.opened q pair) .inr,
    fun p u role h => h₂.roles p u role (h₁.roles p u role h), h₁.trust.trans h₂.trust⟩⟩

variable {s s' : Db}

/-- Reviews, pairs and the trust ledger stand still, and nobody changes sides. -/
theorem of_roles (hr : s'.reviews = s.reviews) (hp : s'.reviewPairs = s.reviewPairs)
    (ht : s'.trustLedger = s.trustLedger) (h : RolesKept s s') : ReviewsKept s s' := by
  refine ⟨hr, fun q pair hq => ?_, fun q pair hq => .inl ?_, h, .of_eq ht⟩
  · rw [hp]
    exact hq
  · rw [← hp]
    exact hq

theorem of_eq (hr : s'.reviews = s.reviews) (hp : s'.reviewPairs = s.reviewPairs)
    (ht : s'.trustLedger = s.trustLedger) (hq : s'.participants = s.participants)
    (he : s'.events = s.events) : ReviewsKept s s' :=
  of_roles hr hp ht (rolesKept_of_eq hq he)

end ReviewsKept

/-- What an insert leaves of the rows that were there. -/
theorem find?_kept_of_insert {ρ κ : Type} [DecidableEq κ] [Row ρ κ] {t t' : Table ρ} {r x : ρ}
    {k : κ} (h : t'.rows = t.rows ++ [r]) (hx : t.find? k = some x) : t'.find? k = some x := by
  have hne : Row.key r ≠ k := by
    intro hk
    have hcompat := (Table.compatible_of_insert h (Table.mem_of_find? hx)).1
    exact hcompat ((Table.key_of_find? hx).trans hk.symm)
  rw [Table.find?_of_insert h, if_neg hne]
  exact hx

section Instance

variable {s s' : Db}

theorem participants_kept_of_insert {t : Table ParticipantRow} {r : ParticipantRow}
    (h : t.rows = s.participants.rows ++ [r]) : ReviewsKept s { s with participants := t } :=
  .of_roles rfl rfl rfl (rolesKept_of
    (fun _ q hq => ⟨q, find?_kept_of_insert h hq, rfl, rfl⟩) fun _ ev hev => ⟨ev, hev, rfl⟩)

theorem events_kept_of_insert {t : Table EventRow} {r : EventRow}
    (h : t.rows = s.events.rows ++ [r]) : ReviewsKept s { s with events := t } :=
  .of_roles rfl rfl rfl (rolesKept_of (fun _ q hq => ⟨q, hq, rfl, rfl⟩)
    fun _ ev hev => ⟨ev, find?_kept_of_insert h hev, rfl⟩)

theorem participants_kept_of_update {t : Table ParticipantRow} {r : ParticipantRow}
    {f : ParticipantRow → ParticipantRow} (h : s.participants.Rewrites r f t)
    (hf : ∀ x, (f x).id = x.id ∧ (f x).userId = x.userId ∧ (f x).eventId = x.eventId) :
    ReviewsKept s { s with participants := t } := by
  refine .of_roles rfl rfl rfl (rolesKept_of (fun p q hq => ?_) fun _ ev hev => ⟨ev, hev, rfl⟩)
  have hfind := h.find? (hf r).1 p
  by_cases hk : r.id = p
  · obtain rfl : q = r := Table.eq_of_key (Table.mem_of_find? hq) h.mem
      ((Table.key_of_find? hq).trans hk.symm)
    exact ⟨f q, hfind.trans (if_pos hk), (hf q).2⟩
  · exact ⟨q, (hfind.trans (if_neg hk)).trans hq, rfl, rfl⟩

theorem events_kept_of_update {t : Table EventRow} {r : EventRow} {f : EventRow → EventRow}
    (h : s.events.Rewrites r f t) (hf : ∀ x, (f x).id = x.id ∧ (f x).hostUserId = x.hostUserId) :
    ReviewsKept s { s with events := t } := by
  refine .of_roles rfl rfl rfl (rolesKept_of (fun _ q hq => ⟨q, hq, rfl, rfl⟩) fun e ev hev => ?_)
  have hfind := h.find? (hf r).1 e
  by_cases hk : r.id = e
  · obtain rfl : ev = r := Table.eq_of_key (Table.mem_of_find? hev) h.mem
      ((Table.key_of_find? hev).trans hk.symm)
    exact ⟨f ev, hfind.trans (if_pos hk), (hf ev).2⟩
  · exact ⟨ev, (hfind.trans (if_neg hk)).trans hev, rfl⟩

theorem pairs_kept_of_insert {t : Table ReviewPairRow} {p : ReviewPairRow}
    (h : t.rows = s.reviewPairs.rows ++ [p]) (hst : p.status = .PENDING) :
    ReviewsKept s { s with reviewPairs := t } where
  reviews := rfl
  pairs _ _ hq := find?_kept_of_insert h hq
  opened q pair hq := by
    have hfind := Table.find?_of_insert h q
    by_cases hk : p.participantId = q
    · right
      rw [← Option.some.inj ((hfind.trans (if_pos hk)).symm.trans hq)]
      exact hst
    · exact .inl ((hfind.trans (if_neg hk)).symm.trans hq)
  roles := rolesKept_of_eq rfl rfl
  trust := .of_eq rfl

end Instance

instance : AdmitsDecisions ReviewsKept where
  insertEvent := by
    intro r s u s' hrun
    obtain ⟨t, ht, rfl⟩ := runs_insertRow.1 hrun
    exact events_kept_of_insert ht
  updateEvent hf s _ s' hrun := by
    obtain ⟨r, -, t, ht, rfl⟩ := runs_updateRow.1 hrun
    exact events_kept_of_update ht hf
  insertParticipant := by
    intro r s u s' hrun
    obtain ⟨t, ht, rfl⟩ := runs_insertRow.1 hrun
    exact participants_kept_of_insert ht
  requestParticipant := by
    intro r s u s' hrun
    obtain ⟨t, rfl, ⟨-, ht⟩ | ⟨-, rfl, -⟩⟩ := runs_insertRowOrIgnore hrun
    · exact participants_kept_of_insert ht
    · exact Std.Refl.refl s
  updateParticipant hf s _ s' hrun := by
    obtain ⟨r, -, t, ht, rfl⟩ := runs_updateRow.1 hrun
    exact participants_kept_of_update ht hf
  coins h := by
    rw [h]
    exact .of_eq rfl rfl rfl rfl rfl
  trust hkey s _ s' hrun := by
    have honly := applyTrust_trustOnly hrun
    have hgrows : TrustGrows (fun t => IsSeedScore t ∨ TrustRowFor _ t) s s' :=
      (applyTrust_asks (K := fun _ => False) (R := fun _ => False) hrun).1.trust
    refine ⟨by rw [honly], fun q pair hq => ?_, fun q pair hq => .inl ?_, ?_, hgrows.mono ?_⟩
    · rw [honly]
      exact hq
    · rw [honly] at hq
      exact hq
    · rw [honly]
      exact rolesKept_of_eq rfl rfl
    · rintro t (⟨u, hseed⟩ | ⟨hrow, -⟩) k
      · simp [hseed]
      · rw [hrow.1]
        exact hkey k
  openCase _ := .writeTable fun _ _ => .of_eq rfl rfl rfl rfl rfl
  countReports := @fun _ _ => .writeTable fun _ _ => .of_eq rfl rfl rfl rfl rfl
  fileClaim := @fun _ => .insertRowOrIgnore fun _ _ => .of_eq rfl rfl rfl rfl rfl
  openWindow hst s _ s' hrun := by
    obtain ⟨t, rfl, ⟨-, ht⟩ | ⟨-, rfl, -⟩⟩ := runs_insertRowOrIgnore hrun
    · exact pairs_kept_of_insert ht hst
    · exact Std.Refl.refl s
  emit := by
    intro m s u s' hrun
    rw [runs_emit.1 hrun]
    exact .of_eq rfl rfl rfl rfl rfl
  updateCase := @fun _ _ => .writeTable fun _ _ => .of_eq rfl rfl rfl rfl rfl
  updateCases := @fun _ _ => .writeTable fun _ _ => .of_eq rfl rfl rfl rfl rfl

/-! ## The invariant -/

/-- Every review is its author's half of its pair, and is revealed exactly when the
    pair is; no trust was moved for a review that is not. -/
structure Blind (s : Db) : Prop where
  slots : ∀ {p pair role k}, s.reviewPairs.find? p = some pair → slot pair role = some k →
    ∃ r, s.reviews.find? k = some r ∧ r.participantId = p ∧
      roleIn s p r.reviewerUserId = some role
  placed : ∀ {k r}, s.reviews.find? k = some r → ∃ pair role,
    s.reviewPairs.find? r.participantId = some pair ∧ slot pair role = some k
  status : ∀ {k r pair}, s.reviews.find? k = some r →
    s.reviewPairs.find? r.participantId = some pair →
    r.status = if isRevealed pair.status then .REVEALED else .SUBMITTED
  trust : ∀ t ∈ s.trustLedger.rows, ∀ k, t.idempotencyKey = .review k →
    ∃ r, s.reviews.find? k = some r ∧ r.status = .REVEALED

theorem Blind.initial : Blind Db.initial where
  slots h := by cases h
  placed h := by cases h
  status h := by cases h
  trust t ht := by cases ht

/-- The operations outside the service keep the invariant. -/
theorem Blind.kept {s s' : Db} (h : Blind s) (hk : ReviewsKept s s') : Blind s' where
  slots := by
    intro p pair role k hpair hslot
    rcases hk.opened p pair hpair with hold | hnew
    · obtain ⟨r, hr, hrp, hrole⟩ := h.slots hold hslot
      refine ⟨r, ?_, hrp, hk.roles _ _ _ hrole⟩
      rw [hk.reviews]
      exact hr
    · rw [slot_of_pending (pair_constraints hpair) hnew] at hslot
      cases hslot
  placed := by
    intro k r hr
    rw [hk.reviews] at hr
    obtain ⟨pair, role, hpair, hslot⟩ := h.placed hr
    exact ⟨pair, role, hk.pairs _ _ hpair, hslot⟩
  status := by
    intro k r pair hr hpair
    rw [hk.reviews] at hr
    obtain ⟨pair₀, role, hpair₀, -⟩ := h.placed hr
    obtain rfl := Option.some.inj (hpair.symm.trans (hk.pairs _ _ hpair₀))
    exact h.status hr hpair₀
  trust t ht k hkey := by
    rcases hk.trust.mem_or_new ht with hold | hother
    · rw [hk.reviews]
      exact h.trust t hold k hkey
    · exact absurd hkey (hother k)

/-- Two rows of one review: what it says, of whom and by whom. -/
structure SameReview (r r' : ReviewRow) : Prop where
  participantId : r'.participantId = r.participantId
  reviewerUserId : r'.reviewerUserId = r.reviewerUserId
  revieweeUserId : r'.revieweeUserId = r.revieweeUserId
  rating : r'.rating = r.rating
  tags : r'.tags = r.tags
  comment : r'.comment = r.comment

theorem SameReview.refl (r : ReviewRow) : SameReview r r := ⟨rfl, rfl, rfl, rfl, rfl, rfl⟩

theorem SameReview.trans {a b c : ReviewRow} (h₁ : SameReview a b) (h₂ : SameReview b c) :
    SameReview a c :=
  ⟨h₂.participantId.trans h₁.participantId, h₂.reviewerUserId.trans h₁.reviewerUserId,
    h₂.revieweeUserId.trans h₁.revieweeUserId, h₂.rating.trans h₁.rating,
    h₂.tags.trans h₁.tags, h₂.comment.trans h₁.comment⟩

/-! ## Editing -/

section Edit

variable {env : Env} {input : SubmitReviewInput} {k₀ : ReviewId} {s s' : Db}

/-- An edit keeps who wrote a review, about whom, and its status. -/
theorem Edited.old (h : Edited env input k₀ s s') {k : ReviewId} {r : ReviewRow}
    (hr : s.reviews.find? k = some r) : ∃ r', s'.reviews.find? k = some r' ∧
      r'.participantId = r.participantId ∧ r'.reviewerUserId = r.reviewerUserId ∧
      r'.revieweeUserId = r.revieweeUserId ∧ r'.status = r.status ∧ (k ≠ k₀ → r' = r) := by
  obtain ⟨review, hreview, hfind⟩ := h.reviews
  by_cases hk : k₀ = k
  · subst hk
    obtain rfl := Option.some.inj (hr.symm.trans hreview)
    exact ⟨edited env input r, (hfind k₀).trans (if_pos rfl), rfl, rfl, rfl, rfl,
      fun hne => absurd rfl hne⟩
  · exact ⟨r, ((hfind k).trans (if_neg hk)).trans hr, rfl, rfl, rfl, rfl, fun _ => rfl⟩

theorem Edited.origin (h : Edited env input k₀ s s') {k : ReviewId} {r' : ReviewRow}
    (hr' : s'.reviews.find? k = some r') : ∃ r, s.reviews.find? k = some r := by
  obtain ⟨review, hreview, hfind⟩ := h.reviews
  by_cases hk : k₀ = k
  · rw [← hk]
    exact ⟨review, hreview⟩
  · exact ⟨r', ((hfind k).trans (if_neg hk)).symm.trans hr'⟩

theorem Blind.edit (hs : Blind s) (h : Edited env input k₀ s s') : Blind s' where
  slots := by
    intro p pair role k hpair hslot
    rw [h.pairs] at hpair
    obtain ⟨r, hr, hrp, hrole⟩ := hs.slots hpair hslot
    obtain ⟨r', hr', hp, hu, -, -, -⟩ := h.old hr
    refine ⟨r', hr', hp.trans hrp, ?_⟩
    rw [hu]
    exact rolesKept_of_eq h.participants h.events _ _ _ hrole
  placed := by
    intro k r' hr'
    obtain ⟨r, hr⟩ := h.origin hr'
    obtain ⟨r₁, hr₁, hp, -, -, -, -⟩ := h.old hr
    obtain rfl := Option.some.inj (hr'.symm.trans hr₁)
    obtain ⟨pair, role, hpair, hslot⟩ := hs.placed hr
    refine ⟨pair, role, ?_, hslot⟩
    rw [hp, h.pairs]
    exact hpair
  status := by
    intro k r' pair hr' hpair
    obtain ⟨r, hr⟩ := h.origin hr'
    obtain ⟨r₁, hr₁, hp, -, -, hst, -⟩ := h.old hr
    obtain rfl := Option.some.inj (hr'.symm.trans hr₁)
    rw [hp, h.pairs] at hpair
    rw [hst]
    exact hs.status hr hpair
  trust t ht k hkey := by
    rcases h.trust.mem_or_new ht with hold | hother
    · obtain ⟨r, hr, hst⟩ := hs.trust t hold k hkey
      obtain ⟨r', hr', -, -, -, hst', -⟩ := h.old hr
      exact ⟨r', hr', hst'.trans hst⟩
    · exact absurd hkey (hother k)

end Edit

/-! ## Writing a pair -/

/-- The new row of a pair against its old one: the new review takes the free half of
    its author, the other half stays, and nothing is blinded again. -/
structure Fills (s : Db) (new : Option (ReviewerRole × ReviewRow)) (pair pair' : ReviewPairRow) :
    Prop where
  added : ∀ role r, new = some (role, r) → slot pair' role = some r.id ∧
    r.participantId = pair.participantId ∧
    roleIn s pair.participantId r.reviewerUserId = some role ∧ r.status = .SUBMITTED ∧
    s.reviews.find? r.id = none
  free : ∀ role r, new = some (role, r) → slot pair role = none
  kept : ∀ role, (∀ r, new ≠ some (role, r)) → slot pair' role = slot pair role
  onward : isRevealed pair.status = true → isRevealed pair'.status = true

/-- The rows read earlier are still there, with the status they were read with, and about
    whom they were. -/
def StillThere (s : Db) (stale : List ReviewRow) : Prop :=
  ∀ x ∈ stale, ∃ r, s.reviews.find? x.id = some r ∧ r.status = x.status ∧
    r.revieweeUserId = x.revieweeUserId

section Write

variable {env : Env} {new : Option (ReviewerRole × ReviewRow)} {pair pair' : ReviewPairRow}
  {stale : List ReviewRow} {s s' : Db} {k : ReviewId} {r : ReviewRow}

theorem withNew_id (h : withNew s new k = some r) : r.id = k := by
  unfold withNew at h
  split at h
  · split at h
    · next hk =>
        obtain rfl := Option.some.inj h
        exact hk
    · exact Table.key_of_find? h
  · exact Table.key_of_find? h

theorem withNew_old (hf : Fills s new pair pair') (h : s.reviews.find? k = some r) :
    withNew s new k = some r := by
  unfold withNew
  split
  · next role n =>
      have hne : n.id ≠ k := by
        intro hk
        have hnone := (hf.added role n rfl).2.2.2.2
        rw [hk, h] at hnone
        cases hnone
      rw [if_neg hne]
      exact h
  · exact h

theorem withNew_cases (h : withNew s new k = some r) :
    s.reviews.find? k = some r ∨ ∃ role, new = some (role, r) := by
  unfold withNew at h
  split at h
  · next role n =>
      split at h
      · obtain rfl := Option.some.inj h
        exact .inr ⟨role, rfl⟩
      · exact .inl h
  · exact .inl h

theorem asRead_id (stale : List ReviewRow) : (asRead stale r).id = r.id := by
  unfold asRead
  cases hf : stale.find? fun x => decide (x.id = r.id) with
  | none => rfl
  | some x => simpa using List.find?_some hf

/-- A review as it was read is the review, or an earlier row of it. -/
theorem asRead_cases (stale : List ReviewRow) (r : ReviewRow) :
    asRead stale r = r ∨ ∃ x ∈ stale, x.id = r.id ∧ asRead stale r = x := by
  unfold asRead
  cases hfind : stale.find? fun x => decide (x.id = r.id) with
  | none => exact .inl rfl
  | some x =>
      have hxid : x.id = r.id := by simpa using List.find?_some hfind
      exact .inr ⟨x, List.mem_of_find?_eq_some hfind, hxid, rfl⟩

/-- A review was read with the status it has, and about whom it is. -/
theorem asRead_status (hstale : StillThere s stale) (hf : Fills s new pair pair')
    (h : withNew s new k = some r) : (asRead stale r).status = r.status ∧
      (asRead stale r).revieweeUserId = r.revieweeUserId := by
  rcases asRead_cases stale r with hsame | ⟨x, hx, hxid, hread⟩
  · rw [hsame]
    exact ⟨rfl, rfl⟩
  · obtain ⟨y, hy, hst, hreviewee⟩ := hstale x hx
    have hsame := withNew_old hf hy
    rw [hxid, withNew_id h, h] at hsame
    rw [hread, ← hst, ← hreviewee, Option.some.inj hsame]
    exact ⟨rfl, rfl⟩

theorem mem_revealedRows {x : ReviewRow} : x ∈ revealedRows s new pair' stale ↔
    isRevealed pair'.status = true ∧ ∃ role k r, slot pair' role = some k ∧
      withNew s new k = some r ∧ x = asRead stale r := by
  unfold revealedRows
  split
  · next hst =>
      simp only [hst, true_and, List.mem_map, List.mem_filterMap, List.mem_cons, List.not_mem_nil,
        or_false]
      constructor
      · rintro ⟨r, ⟨o, ho, hbind⟩, rfl⟩
        obtain ⟨k, rfl, hk⟩ := Option.bind_eq_some_iff.1 hbind
        rcases ho with ho | ho
        · exact ⟨.HOST, k, r, ho.symm, hk, rfl⟩
        · exact ⟨.GUEST, k, r, ho.symm, hk, rfl⟩
      · rintro ⟨role, k, r, hslot, hk, rfl⟩
        refine ⟨r, ⟨some k, ?_, hk⟩, rfl⟩
        cases role with
        | HOST => exact .inl hslot.symm
        | GUEST => exact .inr hslot.symm
  · next hst => simp [hst]

/-- The halves of the new row are the reviews of its participation. -/
theorem Fills.slots (hf : Fills s new pair pair') (hs : Blind s)
    (hpair : s.reviewPairs.find? pair.participantId = some pair) {role : ReviewerRole}
    (hslot : slot pair' role = some k) : ∃ r, withNew s new k = some r ∧
      r.participantId = pair.participantId ∧
      roleIn s pair.participantId r.reviewerUserId = some role := by
  by_cases hnew : ∃ n, new = some (role, n)
  · obtain ⟨n, rfl⟩ := hnew
    obtain ⟨hid, hp, hrole, -, -⟩ := hf.added role n rfl
    obtain rfl := Option.some.inj (hid.symm.trans hslot)
    exact ⟨n, by simp [withNew], hp, hrole⟩
  · rw [hf.kept role fun n hn => hnew ⟨n, hn⟩] at hslot
    obtain ⟨r, hr, hp, hrole⟩ := hs.slots hpair hslot
    exact ⟨r, withNew_old hf hr, hp, hrole⟩

/-- Every review of the participation is a half of the new row. -/
theorem Fills.placed (hf : Fills s new pair pair') (hs : Blind s)
    (hpair : s.reviewPairs.find? pair.participantId = some pair) (h : withNew s new k = some r)
    (hp : r.participantId = pair.participantId) : ∃ role, slot pair' role = some k := by
  rcases withNew_cases h with hold | ⟨role, hnew⟩
  · obtain ⟨held, role, hheld, hslot⟩ := hs.placed hold
    rw [hp, hpair] at hheld
    obtain rfl := Option.some.inj hheld
    refine ⟨role, ?_⟩
    rw [hf.kept role fun n hn => ?_]
    · exact hslot
    · rw [hf.free role n hn] at hslot
      cases hslot
  · rw [← withNew_id h]
    exact ⟨role, (hf.added role r hnew).1⟩

/-- A review of another participation is not touched. -/
theorem touched_other (hf : Fills s new pair pair') (hs : Blind s)
    (hpair : s.reviewPairs.find? pair.participantId = some pair) (h : withNew s new k = some r)
    (hp : r.participantId ≠ pair.participantId) {now : Instant} :
    touched now (revealedRows s new pair' stale) r = r := by
  refine if_neg fun hreveals => ?_
  obtain ⟨x, hx, hxr⟩ := List.any_eq_true.1 hreveals
  obtain ⟨-, role, k', r', hslot, hr', rfl⟩ := mem_revealedRows.1 hx
  simp only [Bool.and_eq_true, decide_eq_true_eq, asRead_id] at hxr
  obtain ⟨r'', hr'', hp', -⟩ := hf.slots hs hpair hslot
  have hk : k' = k := by rw [← withNew_id hr', hxr.1, withNew_id h]
  rw [hk, h] at hr''
  obtain rfl := Option.some.inj hr''
  exact hp hp'

/-- A review of the participation gets the status its pair has. -/
theorem touched_status (hf : Fills s new pair pair') (hs : Blind s) (hstale : StillThere s stale)
    (hpair : s.reviewPairs.find? pair.participantId = some pair) (h : withNew s new k = some r)
    (hp : r.participantId = pair.participantId) {now : Instant} :
    (touched now (revealedRows s new pair' stale) r).status =
      if isRevealed pair'.status then .REVEALED else .SUBMITTED := by
  have hbefore : r.status = .SUBMITTED ∨ (isRevealed pair.status = true ∧ r.status = .REVEALED) := by
    rcases withNew_cases h with hold | ⟨role, hnew⟩
    · have hst := hs.status hold (hp ▸ hpair)
      by_cases hrev : isRevealed pair.status = true
      · exact .inr ⟨hrev, by rw [hst, if_pos hrev]⟩
      · exact .inl (by rw [hst, if_neg hrev])
    · exact .inl (hf.added role r hnew).2.2.2.1
  by_cases hrev : isRevealed pair'.status = true
  · rw [if_pos hrev]
    rcases hbefore with hsub | ⟨-, hdone⟩
    · obtain ⟨role, hslot⟩ := hf.placed hs hpair h hp
      have hmem : asRead stale r ∈ revealedRows s new pair' stale :=
        mem_revealedRows.2 ⟨hrev, role, k, r, hslot, h, rfl⟩
      have hhit : reveals (revealedRows s new pair' stale) r.id = true := by
        refine List.any_eq_true.2 ⟨_, hmem, ?_⟩
        rw [asRead_id, (asRead_status hstale hf h).1, hsub]
        simp
      rw [touched, if_pos hhit]
      rfl
    · unfold touched
      split
      · rfl
      · exact hdone
  · rw [if_neg hrev]
    have hnone : revealedRows s new pair' stale = [] := if_neg hrev
    rw [hnone]
    rcases hbefore with hsub | ⟨hdone, -⟩
    · exact hsub
    · exact absurd (hf.onward hdone) hrev

theorem touched_same {now : Instant} {rows : List ReviewRow} : SameReview r (touched now rows r) := by
  unfold touched
  split
  · exact ⟨rfl, rfl, rfl, rfl, rfl, rfl⟩
  · exact .refl r

/-- What a write of a pair does to a review that was there. -/
theorem PairWrite.old (hw : PairWrite env new pair pair' stale s s')
    (hf : Fills s new pair pair') (hs : Blind s) (h : s.reviews.find? k = some r) :
    ∃ r', s'.reviews.find? k = some r' ∧ SameReview r r' ∧
      (r.status = .REVEALED → r'.status = .REVEALED) ∧
      (r.participantId ≠ pair.participantId → r' = r) := by
  refine ⟨touched env.now (revealedRows s new pair' stale) r, ?_, touched_same, fun hst => ?_,
    fun hp => ?_⟩
  · rw [hw.reviews, withNew_old hf h]
    rfl
  · unfold touched
    split
    · rfl
    · exact hst
  · exact touched_other hf hs hw.found (withNew_old hf h) hp

/-- A write of a pair keeps the invariant. -/
theorem Blind.write (hs : Blind s) (hw : PairWrite env new pair pair' stale s s')
    (hf : Fills s new pair pair') (hstale : StillThere s stale) : Blind s' where
  slots := by
    intro p held role k hheld hslot
    have hroles := rolesKept_of_eq hw.participants hw.events
    rw [hw.pairs] at hheld
    split at hheld
    · next hp =>
        obtain rfl := Option.some.inj hheld
        obtain ⟨r, hr, hrp, hrole⟩ := hf.slots hs hw.found hslot
        refine ⟨_, by rw [hw.reviews, hr]; rfl, ?_, ?_⟩
        · rw [touched_same.participantId, hrp, hp]
        · rw [touched_same.reviewerUserId, ← hp]
          exact hroles _ _ _ hrole
    · obtain ⟨r, hr, hrp, hrole⟩ := hs.slots hheld hslot
      obtain ⟨r', hr', hsame, -, -⟩ := hw.old hf hs hr
      refine ⟨r', hr', hsame.participantId.trans hrp, ?_⟩
      rw [hsame.reviewerUserId]
      exact hroles _ _ _ hrole
  placed := by
    intro k r' hr'
    rw [hw.reviews, Option.map_eq_some_iff] at hr'
    obtain ⟨r, hr, rfl⟩ := hr'
    rw [touched_same.participantId, hw.pairs]
    split
    · next hp =>
        obtain ⟨role, hslot⟩ := hf.placed hs hw.found hr hp.symm
        exact ⟨pair', role, rfl, hslot⟩
    · next hp =>
        rcases withNew_cases hr with hold | ⟨role, hnew⟩
        · exact hs.placed hold
        · exact absurd (hf.added role r hnew).2.1.symm hp
  status := by
    intro k r' held hr' hheld
    rw [hw.reviews, Option.map_eq_some_iff] at hr'
    obtain ⟨r, hr, rfl⟩ := hr'
    rw [touched_same.participantId, hw.pairs] at hheld
    split at hheld
    · next hp =>
        obtain rfl := Option.some.inj hheld
        exact touched_status hf hs hstale hw.found hr hp.symm
    · next hp =>
        rw [touched_other hf hs hw.found hr fun h => hp h.symm]
        rcases withNew_cases hr with hold | ⟨role, hnew⟩
        · exact hs.status hold hheld
        · exact absurd (hf.added role r hnew).2.1.symm hp
  trust t ht k hkey := by
    rcases hw.trust.mem_or_new ht with hold | hother | ⟨x, hx, hsub, hrow⟩
    · obtain ⟨r, hr, hst⟩ := hs.trust t hold k hkey
      obtain ⟨r', hr', -, hrev, -⟩ := hw.old hf hs hr
      exact ⟨r', hr', hrev hst⟩
    · exact absurd hkey (hother k)
    · obtain ⟨hrev, role, k', r, hslot, hr, rfl⟩ := mem_revealedRows.1 hx
      have hk : k' = k := by
        have hkeys := hrow.1.symm.trans hkey
        rw [asRead_id, withNew_id hr] at hkeys
        exact TrustKey.review.inj hkeys
      obtain ⟨r₁, hr₁, hp, -⟩ := hf.slots hs hw.found hslot
      obtain rfl := Option.some.inj (hr.symm.trans hr₁)
      refine ⟨_, by rw [hw.reviews, ← hk, hr]; rfl, ?_⟩
      rw [touched_status hf hs hstale hw.found hr hp, if_pos hrev]

end Write

end Reviews

end Paayatam
