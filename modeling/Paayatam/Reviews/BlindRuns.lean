/-
  Paayatam.Reviews.BlindRuns

  What every run of submissions, edits and expiries leaves of the reviews.

  Whatever came between, a pair with both halves is revealed and nothing else
  of a pair is readable but the single half of an expired one.  That a
  revealed review stands as it was, and that its trust row is for the rating
  it shows, needs the writes to be fresh: an edit that lands after the reveal
  rewrites what is readable, and one that lands in the middle of it leaves the
  trust of the rating before.
-/

import Paayatam.Reviews.Interleaving

namespace Paayatam

open Lib

namespace Reviews

/-- What holds of the reviews in a state. -/
structure BlindReviews (w : ReviewWorld) : Prop where
  /-- A pair both of whose halves are written is REVEALED. -/
  complete : ∀ a ∈ w.db.reviews.rows, ∀ b ∈ w.db.reviews.rows, a ≠ b →
    a.participantId = b.participantId →
    ∃ pair, w.pair a.participantId = some pair ∧ pair.status = .REVEALED
  /-- A review is readable by the person it is about in a REVEALED pair, or as the only
      review of a pair whose deadline has passed. -/
  readable : ∀ u, ∀ r ∈ visibleAbout w.db u, ∃ pair, w.pair r.participantId = some pair ∧
    (pair.status = .REVEALED ∨ (pair.status = .EXPIRED_PARTIAL ∧
      ∀ r' ∈ w.db.reviews.rows, r'.participantId = r.participantId → r' = r))

/-- What a run leaves of the reviews it revealed. -/
structure RevealedReviews (tr : List (ReviewWorld × ReviewMove × ReviewWorld)) (w : ReviewWorld) :
    Prop where
  /-- A review whose pair was revealed says what it said then. -/
  settled : ∀ x ∈ tr, ∀ k r pair, x.1.review k = some r → x.1.pair r.participantId = some pair →
    isRevealed pair.status = true →
    ∃ r', w.review k = some r' ∧ SameReview r r' ∧ r'.status = .REVEALED
  /-- A trust row of a review is for the rating the review has, under the settings it was
      revealed under. -/
  rated : ∀ t ∈ w.db.trustLedger.rows, ∀ k, t.idempotencyKey = .review k →
    ∃ r, w.review k = some r ∧
      ∃ x ∈ tr, ∃ i f, x.2.1 = .finish i ∧ x.1.locals i = some f ∧ RatingRow f.env r t
  /-- A review that was revealed with its counterpart has its trust row, when its rating is
      worth something. -/
  moved : ∀ x ∈ tr, ∀ k r pair, (∀ r₀, x.1.review k = some r₀ → r₀.status = .SUBMITTED) →
    x.2.2.review k = some r → r.status = .REVEALED → x.2.2.pair r.participantId = some pair →
    pair.status = .REVEALED → ∃ i f, x.2.1 = .finish i ∧ x.1.locals i = some f ∧
      ∀ delta, ratingTrust f.env.settings r.rating = some delta → delta ≠ 0 →
        ∃ t ∈ w.db.trustLedger.rows, RatingRow f.env r t

/-! ## States -/

section States

variable {s : Db}

theorem Blind.complete (h : Blind s) {a b : ReviewRow} (ha : a ∈ s.reviews.rows)
    (hb : b ∈ s.reviews.rows) (hne : a ≠ b) (hp : a.participantId = b.participantId) :
    ∃ pair, s.reviewPairs.find? a.participantId = some pair ∧ pair.status = .REVEALED := by
  obtain ⟨pair, role, hpair, hslot⟩ := h.placed (Table.find?_of_mem ha)
  obtain ⟨pair', role', hpair', hslot'⟩ := h.placed (Table.find?_of_mem hb)
  rw [← hp, hpair] at hpair'
  obtain rfl := Option.some.inj hpair'
  have hroles : role ≠ role' := by
    rintro rfl
    have hid : Row.key a = Row.key b := Option.some.inj (hslot.symm.trans hslot')
    exact hne (Table.eq_of_key ha hb hid)
  refine ⟨pair, hpair, revealed_of_both (pair_constraints hpair) ?_ ?_⟩
  · cases role with
    | HOST => rw [hslot]; rfl
    | GUEST =>
        cases role' with
        | HOST => rw [hslot']; rfl
        | GUEST => exact absurd rfl hroles
  · cases role with
    | GUEST => rw [hslot]; rfl
    | HOST =>
        cases role' with
        | GUEST => rw [hslot']; rfl
        | HOST => exact absurd rfl hroles

theorem Blind.readable (h : Blind s) {u : UserId} {r : ReviewRow} (hr : r ∈ visibleAbout s u) :
    ∃ pair, s.reviewPairs.find? r.participantId = some pair ∧
      (pair.status = .REVEALED ∨ (pair.status = .EXPIRED_PARTIAL ∧
        ∀ r' ∈ s.reviews.rows, r'.participantId = r.participantId → r' = r)) := by
  obtain ⟨hmem, hvisible⟩ := List.mem_filter.1 hr
  simp only [visible, Bool.and_eq_true, List.any_eq_true, Bool.or_eq_true, decide_eq_true_eq]
    at hvisible
  obtain ⟨-, -, pair, hpair, hhalf, hst⟩ := hvisible
  have hfind : s.reviewPairs.find? pair.participantId = some pair := Table.find?_of_mem hpair
  obtain ⟨role, hslot⟩ : ∃ role, slot pair role = some r.id :=
    hhalf.elim (fun hh => ⟨.HOST, hh⟩) fun hg => ⟨.GUEST, hg⟩
  obtain ⟨r₁, hr₁, hp, -⟩ := h.slots hfind hslot
  obtain rfl : r₁ = r := Table.eq_of_key (Table.mem_of_find? hr₁) hmem (Table.key_of_find? hr₁)
  refine ⟨pair, by rw [hp]; exact hfind, ?_⟩
  have hcases : pair.status = .REVEALED ∨ pair.status = .EXPIRED_PARTIAL := by
    simpa [REVEALED_PAIR_STATUSES] using hst
  refine hcases.imp_right fun hexpired => ⟨hexpired, fun r' hr' hp' => ?_⟩
  obtain ⟨pair', role', hpair', hslot'⟩ := h.placed (Table.find?_of_mem hr')
  rw [hp', hp, hfind] at hpair'
  obtain rfl := Option.some.inj hpair'
  obtain rfl := one_of_expired (pair_constraints hfind) hexpired hslot hslot'
  have hid : Row.key r' = Row.key r₁ := Option.some.inj (hslot'.symm.trans hslot)
  exact Table.eq_of_key hr' hmem hid

end States

/-! ## One step -/

section Step

variable {w w' : ReviewWorld} {m : ReviewMove}

/-- A revealed review goes on saying what it says. -/
theorem Turn.revealed (h : Turn w m w') (hs : Sound w) (hfresh : Fresh w m) {k : ReviewId}
    {r : ReviewRow} (hr : w.review k = some r) (hst : r.status = .REVEALED) :
    ∃ r', w'.review k = some r' ∧ SameReview r r' ∧ r'.status = .REVEALED := by
  cases h with
  | kept h =>
      refine ⟨r, ?_, .refl r, hst⟩
      rw [ReviewWorld.review, h.reviews]
      exact hr
  | edited hm hf hwork h =>
      rename_i i f input read
      subst hm
      have hne : k ≠ read.id := by
        -- a fresh edit does not find its review revealed
        rintro rfl
        have hblind := hfresh f hf
        have hfound : w.db.reviews.find? read.id = some r := hr
        simp [InFlight.fresh, hwork, hfound, hst] at hblind
      obtain ⟨r', hr', -, -, -, hst', hsame⟩ := h.old hr
      obtain rfl := hsame hne
      exact ⟨r', hr', .refl r', hst⟩
  | written hm hf hheld hpair h hfills =>
      obtain ⟨r', hr', hsame, hrev, -⟩ := h.old hfills hs.blind hr
      exact ⟨r', hr', hsame, hrev hst⟩

theorem Turn.trustGrows (h : Turn w m w') :
    ∃ T, TrustGrows T w.db w'.db := by
  cases h with
  | kept h => exact ⟨_, h.trust⟩
  | edited hm hf hwork h => exact ⟨_, h.trust⟩
  | written hm hf hheld hpair h hfills => exact ⟨_, h.trust⟩

/-- A review a fresh write reveals was read with the rating it has. -/
theorem rating_asRead {f : InFlight} {r : ReviewRow} {new : Option (ReviewerRole × ReviewRow)}
    {pair pair' : ReviewPairRow} {k : ReviewId} (hfresh : f.fresh w.db = true)
    (hpair : f.work.pairId.isSome = true) (hfills : Fills w.db new pair pair')
    (h : withNew w.db new k = some r) : (asRead f.stale r).rating = r.rating := by
  rcases asRead_cases f.stale r with hsame | ⟨x, hx, hxid, hread⟩
  · rw [hsame]
  · have hall : f.stale.all (fun x => (w.db.reviews.find? x.id).any fun r =>
        decide (r.rating = x.rating)) = true := by
      cases hwork : f.work with
      | submit => simpa [InFlight.fresh, hwork] using hfresh
      | settleOne => simpa [InFlight.fresh, hwork] using hfresh
      | edit => simp [hwork, ReviewWork.pairId] at hpair
    have hany := List.all_eq_true.1 hall x hx
    obtain ⟨y, hy, hrating⟩ := (Option.any_eq_true _ _).1 hany
    have hsame := withNew_old hfills hy
    rw [hxid, withNew_id h, h] at hsame
    obtain rfl := Option.some.inj hsame
    rw [hread]
    exact (of_decide_eq_true hrating).symm

/-- A new trust row of a review is for its rating, as it stands after the move. -/
theorem Turn.rated (h : Turn w m w') (hs : Sound w) (hfresh : Fresh w m) {t : TrustLedgerRow}
    (ht : t ∈ w'.db.trustLedger.rows) {k : ReviewId} (hkey : t.idempotencyKey = .review k) :
    t ∈ w.db.trustLedger.rows ∨ ∃ i f r, m = .finish i ∧ w.locals i = some f ∧
      w'.review k = some r ∧ RatingRow f.env r t := by
  cases h with
  | kept h => exact (h.trust.mem_or_new ht).imp_right fun hother => absurd hkey (hother k)
  | edited hm hf hwork h =>
      exact (h.trust.mem_or_new ht).imp_right fun hother => absurd hkey (hother k)
  | written hm hf hheld hpair h hfills =>
      rename_i i f new pair pair'
      subst hm
      rcases h.trust.mem_or_new ht with hold | hother | ⟨x, hx, hsub, hrow⟩
      · exact .inl hold
      · exact absurd hkey (hother k)
      · obtain ⟨hrev, role, k', r, hslot, hr, rfl⟩ := mem_revealedRows.1 hx
        have hk : k' = k := by
          have hkeys := hrow.1.symm.trans hkey
          rw [asRead_id, withNew_id hr] at hkeys
          exact TrustKey.review.inj hkeys
        have hread := asRead_status (hs.own i f hf).stillThere hfills hr
        have hrating := rating_asRead (hfresh f hf) (by rw [hpair]; rfl) hfills hr
        refine .inr ⟨i, f, touched f.env.now (revealedRows w.db new pair' f.stale) r, rfl, hf,
          ?_, ?_, ?_, ?_⟩
        · rw [ReviewWorld.review, h.reviews, ← hk, hr]
          rfl
        · rw [touched_id, ← asRead_id f.stale]
          exact hrow.1
        · rw [touched_same.revieweeUserId, ← hread.2]
          exact hrow.2.1
        · rw [touched_same.rating, ← hrating]
          exact hrow.2.2

/-- A review a move reveals with its counterpart has its trust row. -/
theorem Turn.moved (h : Turn w m w') (hs : Sound w) (hfresh : Fresh w m) {k : ReviewId}
    {r : ReviewRow} {held : ReviewPairRow}
    (hbefore : ∀ r₀, w.review k = some r₀ → r₀.status = .SUBMITTED) (hr : w'.review k = some r)
    (hst : r.status = .REVEALED) (hheldpair : w'.pair r.participantId = some held)
    (hrevealed : held.status = .REVEALED) : ∃ i f, m = .finish i ∧ w.locals i = some f ∧
      ∀ delta, ratingTrust f.env.settings r.rating = some delta → delta ≠ 0 →
        ∃ t ∈ w'.db.trustLedger.rows, RatingRow f.env r t := by
  have hturn := h
  cases h with
  | kept h =>
      rw [ReviewWorld.review, h.reviews] at hr
      have hsub := hbefore r hr
      rw [hst] at hsub
      cases hsub
  | edited hm hf hwork h =>
      obtain ⟨r₀, hr₀⟩ := h.origin hr
      obtain ⟨r₁, hr₁, -, -, -, hst₁, -⟩ := h.old hr₀
      obtain rfl := Option.some.inj (hr.symm.trans hr₁)
      have hsub := hbefore r₀ hr₀
      rw [← hst₁, hst] at hsub
      cases hsub
  | written hm hf hheld hpair h hfills =>
      rename_i i f new pair pair'
      subst hm
      refine ⟨i, f, rfl, hf, fun delta hdelta hne => ?_⟩
      rw [ReviewWorld.review, h.reviews, Option.map_eq_some_iff] at hr
      obtain ⟨r₀, hr₀, rfl⟩ := hr
      have hsub : r₀.status = .SUBMITTED := by
        rcases withNew_cases hr₀ with hold | ⟨role, hnew⟩
        · exact hbefore r₀ hold
        · exact (hfills.added role r₀ hnew).2.2.2.1
      have hhit : reveals (revealedRows w.db new pair' f.stale) r₀.id = true := by
        by_contra hmiss
        rw [touched, if_neg hmiss, hsub] at hst
        cases hst
      obtain ⟨x, hx, hxr⟩ := List.any_eq_true.1 hhit
      simp only [Bool.and_eq_true, decide_eq_true_eq] at hxr
      obtain ⟨hrev, role, k', r₁, hslot, hr₁, rfl⟩ := mem_revealedRows.1 hx
      have hk : k' = k := by
        rw [← withNew_id hr₁, ← asRead_id f.stale, hxr.1, withNew_id hr₀]
      rw [hk, hr₀] at hr₁
      obtain rfl := Option.some.inj hr₁
      obtain ⟨r₂, hr₂, hp, -⟩ := hfills.slots hs.blind h.found hslot
      rw [hk, hr₀] at hr₂
      obtain rfl := Option.some.inj hr₂
      have hstatus : pair'.status = .REVEALED := by
        rw [touched_same.participantId, hp, ReviewWorld.pair, h.pairs, if_pos rfl] at hheldpair
        rw [Option.some.inj hheldpair]
        exact hrevealed
      have hrating := rating_asRead (hfresh f hf) (by rw [hpair]; rfl) hfills hr₀
      rw [touched_same.rating, ← hrating] at hdelta
      obtain ⟨t, ht, hkey⟩ := h.moved hstatus _ hx hxr.2 delta hdelta hne
      rw [hxr.1, withNew_id hr₀] at hkey
      rcases hturn.rated hs hfresh ht hkey with hold | ⟨i', f', r', hm', hf', hr', hrow⟩
      · -- no trust was moved for a review that was blind
        obtain ⟨y, hy, hyst⟩ := hs.blind.trust t hold k hkey
        rw [hbefore y hy] at hyst
        cases hyst
      · obtain rfl := ReviewMove.finish.inj hm'
        obtain rfl := Option.some.inj (hf.symm.trans hf')
        rw [ReviewWorld.review, h.reviews, hr₀] at hr'
        obtain rfl := Option.some.inj hr'
        exact ⟨t, ht, hrow⟩

end Step

/-! ## Runs -/

theorem RatingRow.same {env : Env} {r r' : ReviewRow} {t : TrustLedgerRow} (h : RatingRow env r t)
    (hid : r'.id = r.id) (hsame : SameReview r r') : RatingRow env r' t := by
  refine ⟨?_, ?_, ?_⟩
  · rw [hid]
    exact h.1
  · rw [hsame.revieweeUserId]
    exact h.2.1
  · rw [hsame.rating]
    exact h.2.2

section Runs

variable {tr : List (ReviewWorld × ReviewMove × ReviewWorld)} {w w' : ReviewWorld}

theorem sound_of_reach (h : Reachable ReviewWorld.Init ReviewWorld.Step w) : Sound w := by
  refine h.invariant (I := Sound) (fun w hinit => ?_) fun w m w' hs _ hstep =>
    (step_turn hs hstep).2
  obtain ⟨hworld, -, hidle⟩ := hinit
  refine ⟨?_, fun i f hf => ?_, fun i f p hf => ?_⟩
  · rw [ReviewWorld.db, hworld.1]
    exact .initial
  · rw [hidle i] at hf
    cases hf
  · rw [hidle i] at hf
    cases hf

theorem review_id {k : ReviewId} {r : ReviewRow} (h : w.review k = some r) : r.id = k :=
  Table.key_of_find? h

/-- One more fresh step. -/
theorem RevealedReviews.step {m : ReviewMove} (h : RevealedReviews tr w) (hs : Sound w)
    (hturn : Turn w m w') (hfresh : Fresh w m) :
    RevealedReviews (tr ++ [(w, m, w')]) w' where
  settled x hx k r pair hr hpair hst := by
    have hat : ∃ r₁, w.review k = some r₁ ∧ SameReview r r₁ ∧ r₁.status = .REVEALED := by
      rcases List.mem_append.1 hx with hx | hx
      · exact h.settled x hx k r pair hr hpair hst
      · obtain rfl := List.mem_singleton.1 hx
        refine ⟨r, hr, .refl r, ?_⟩
        rw [hs.blind.status hr hpair, if_pos hst]
    obtain ⟨r₁, hr₁, hsame, hst₁⟩ := hat
    obtain ⟨r', hr', hsame', hst'⟩ := hturn.revealed hs hfresh hr₁ hst₁
    exact ⟨r', hr', hsame.trans hsame', hst'⟩
  rated t ht k hkey := by
    rcases hturn.rated hs hfresh ht hkey with hold | ⟨i, f, r, hm, hf, hr, hrow⟩
    · obtain ⟨r, hr, x, hx, i, f, hm, hf, hrow⟩ := h.rated t hold k hkey
      obtain ⟨r₀, hr₀, hst⟩ := hs.blind.trust t hold k hkey
      obtain rfl := Option.some.inj (hr.symm.trans hr₀)
      obtain ⟨r', hr', hsame, -⟩ := hturn.revealed hs hfresh hr hst
      refine ⟨r', hr', x, List.mem_append_left _ hx, i, f, hm, hf, hrow.same ?_ hsame⟩
      rw [review_id hr', review_id hr]
    · exact ⟨r, hr, _, List.mem_append_right _ (List.mem_singleton.2 rfl), i, f, hm, hf, hrow⟩
  moved x hx k r pair hbefore hr hst hpair hrev := by
    obtain ⟨T, hgrows⟩ := hturn.trustGrows
    rcases List.mem_append.1 hx with hx | hx
    · obtain ⟨i, f, hm, hf, hrows⟩ := h.moved x hx k r pair hbefore hr hst hpair hrev
      refine ⟨i, f, hm, hf, fun delta hdelta hne => ?_⟩
      obtain ⟨t, ht, hrow⟩ := hrows delta hdelta hne
      exact ⟨t, hgrows.mem ht, hrow⟩
    · obtain rfl := List.mem_singleton.1 hx
      exact hturn.moved hs hfresh hbefore hr hst hpair hrev

theorem revealedReviews_of_run
    (h : Lib.Run ReviewWorld.Init ReviewWorld.Step (fun _ _ => True) tr w) :
    (∀ x ∈ tr, Fresh x.1 x.2.1) → RevealedReviews tr w := by
  induction h with
  | start hinit =>
      intro _
      refine ⟨fun x hx => absurd hx (by simp), fun t ht => ?_, fun x hx => absurd hx (by simp)⟩
      rw [ReviewWorld.db, hinit.1.1] at ht
      cases ht
  | next hrun _ hstep ih =>
      intro hfresh
      have hs := sound_of_reach hrun.reach
      refine (ih fun x hx => hfresh x (List.mem_append_left _ hx)).step hs (step_turn hs hstep).1 ?_
      exact hfresh _ (List.mem_append_right _ (List.mem_singleton.2 rfl))

/-- In every run of submissions, edits and expiries among all other operations, a pair with
    both halves is revealed, and only such a pair or the one half of an expired one is
    readable; and where every write was fresh, what is revealed stands, with the trust its
    rating is worth. -/
theorem reviews_stay_blind
    (h : Lib.Run ReviewWorld.Init ReviewWorld.Step (fun _ _ => True) tr w) :
    BlindReviews w ∧ ((∀ x ∈ tr, Fresh x.1 x.2.1) → RevealedReviews tr w) := by
  have hblind := (sound_of_reach h.reach).blind
  exact ⟨⟨fun a ha b hb hne hp => hblind.complete ha hb hne hp, fun u r hr => hblind.readable hr⟩,
    revealedReviews_of_run h⟩

end Runs

/-- A guest comes to an event, and the two may review each other. -/
def attendedMoves : List ReviewMove :=
  [callAt 0 (.moveCoins (onboardingReward 1 100)), callAt 0 (.moveCoins (onboardingReward 2 100)),
   callAt 1 (.create 1 (demoEvent 100 2) false 7), callAt 2 (.join 2 7 21),
   callAt 3 (.accept 1 21), callAt 103 (.retireOne 7), callAt 121 .scanAttendance,
   callAt 121 (.settleOne 7)].map .call

/-- Both write at once: the second is refused by the database, and tries again after the
    first has changed its stars. -/
def bothMoves : List ReviewMove := attendedMoves ++
  [.read 0 (demoEnv 122) (.submit 1 21 { rating := 5 }),
   .read 1 (demoEnv 122) (.submit 2 21 { rating := 4 }), .lock 0, .finish 0, .lock 1, .finish 1,
   .read 2 (demoEnv 122) (.edit 1 21 { rating := 4 }), .finish 2,
   .read 1 (demoEnv 122) (.submit 2 21 { rating := 4 }), .lock 1, .finish 1]

/-- The host writes half an hour before the deadline and starts to edit; the sweep reveals
    the review before the edit lands. -/
def expiredMoves : List ReviewMove :=
  let lastMinute : Env := { demoEnv 270 with now := 270 * msPerHour - 30 * msPerMinute }
  attendedMoves ++
    [.read 0 lastMinute (.submit 1 21 { rating := 5 }), .lock 0, .finish 0,
     .read 1 lastMinute (.edit 1 21 { rating := 1 }), .read 2 (demoEnv 270) (.settleOne 21),
     .lock 2, .finish 2, .finish 1]

theorem reviews_stay_blind_both : ∃ tr w, BlindReviews w ∧ RevealedReviews tr w ∧
    (∃ pair, w.pair 21 = some pair ∧ pair.status = .REVEALED) := by
  have hplay : (runList ReviewWorld.exec ReviewWorld.initial bothMoves).any (fun w =>
      (w.pair 21).any fun pair => decide (pair.status = .REVEALED)) = true := by decide +kernel
  obtain ⟨w, hw, hpair⟩ := (Option.any_eq_true _ _).1 hplay
  obtain ⟨pair, hpair, hst⟩ := (Option.any_eq_true _ _).1 hpair
  have hrun := run_of_runList (G := fun _ _ => True) (g := fun _ _ => true)
    (fun _ _ _ h => h) (fun _ _ _ => trivial) (.start ReviewWorld.init_initial)
    (by decide +kernel) hw
  obtain ⟨hblind, hrevealed⟩ := reviews_stay_blind hrun
  exact ⟨_, w, hblind, hrevealed (by decide +kernel), pair, hpair, of_decide_eq_true hst⟩

/-- A review is readable although its pair is not REVEALED, and its rating changes after it
    became so. -/
theorem review_readable_alone : ∃ tr w,
    Lib.Run ReviewWorld.Init ReviewWorld.Step (fun _ _ => True) tr w ∧
    (∃ r ∈ visibleAbout w.db 2, ∃ pair, w.pair r.participantId = some pair ∧
      pair.status = .EXPIRED_PARTIAL ∧ r.rating = 1) ∧
    ∃ x ∈ tr, ∃ r ∈ visibleAbout x.1.db 2, r.rating = 5 := by
  have hplay : (runList ReviewWorld.exec ReviewWorld.initial expiredMoves).any (fun w =>
      (visibleAbout w.db 2).any fun r => (w.pair r.participantId).any fun pair =>
        decide (pair.status = .EXPIRED_PARTIAL) && decide (r.rating = 1)) = true := by
    decide +kernel
  obtain ⟨w, hw, hplay⟩ := (Option.any_eq_true _ _).1 hplay
  obtain ⟨r, hr, hplay⟩ := List.any_eq_true.1 hplay
  obtain ⟨pair, hpair, hplay⟩ := (Option.any_eq_true _ _).1 hplay
  simp only [Bool.and_eq_true, decide_eq_true_eq] at hplay
  have hrun := run_of_runList (G := fun _ _ => True) (g := fun _ _ => true)
    (fun _ _ _ h => h) (fun _ _ _ => trivial) (.start ReviewWorld.init_initial)
    (by decide +kernel) hw
  have hread : (traceList ReviewWorld.exec ReviewWorld.initial expiredMoves).any (fun x =>
      (visibleAbout x.1.db 2).any fun r => decide (r.rating = 5)) = true := by decide +kernel
  obtain ⟨x, hx, hread⟩ := List.any_eq_true.1 hread
  obtain ⟨r', hr', hrating⟩ := List.any_eq_true.1 hread
  exact ⟨_, w, hrun, ⟨r, hr, pair, hpair, hplay⟩, x, List.mem_append_right _ hx, r', hr',
    of_decide_eq_true hrating⟩

end Reviews

end Paayatam
