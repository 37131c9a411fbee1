/-
  Paayatam.Economy.Postings

  What a transaction posted to the two ledgers.

  `Posts K R T s s'` says that the ledgers only grew from `s` to `s'`: by coin
  rows that are forward movements in `K` or reversals of rows in `R`, and by
  trust rows in `T`.  It is stated for every primitive that moves coins or
  trust, composes like the transactions do, and is what an invariant about
  single ledger rows is proved from.
-/

import Paayatam.Economy.Penalty

namespace Paayatam

open Lib

/-- The rows a transaction added: forward ones in `K`, reversals of rows in `R`, and
    trust rows in `T`. -/
structure Posts (K R : CoinLedgerRow → Prop) (T : TrustLedgerRow → Prop) (s s' : Db) : Prop where
  coins : LedgerGrows (fun r => (r.reversesLedgerId = none ∧ K r) ∨
    ∃ o ∈ s'.coinLedger.rows, r.reversesLedgerId = some o.id ∧ R o) s s'
  trust : ∃ added, s'.trustLedger.rows = s.trustLedger.rows ++ added ∧ ∀ t ∈ added, T t

namespace Posts

variable {K K' R R' : CoinLedgerRow → Prop} {T T' : TrustLedgerRow → Prop} {s s₁ s' : Db}

theorem of_eq (hc : s'.coinLedger = s.coinLedger) (ht : s'.trustLedger = s.trustLedger) :
    Posts K R T s s' :=
  ⟨.of_eq hc, [], by simp [ht], by simp⟩

theorem refl (s : Db) : Posts K R T s s := .of_eq rfl rfl

theorem mono (h : Posts K R T s s') (hK : ∀ r, K r → K' r) (hR : ∀ r, R r → R' r)
    (hT : ∀ t, T t → T' t) : Posts K' R' T' s s' := by
  refine ⟨h.coins.mono fun r hr => ?_, ?_⟩
  · cases hr with
    | inl hr => exact .inl ⟨hr.1, hK r hr.2⟩
    | inr hr =>
        obtain ⟨o, ho, hlink, hR'⟩ := hr
        exact .inr ⟨o, ho, hlink, hR o hR'⟩
  · obtain ⟨added, hrows, hadded⟩ := h.trust
    exact ⟨added, hrows, fun t ht => hT t (hadded t ht)⟩

theorem trans (h₁ : Posts K R T s s₁) (h₂ : Posts K R T s₁ s') : Posts K R T s s' := by
  refine ⟨?_, ?_⟩
  · have hkept : LedgerGrows (fun r => (r.reversesLedgerId = none ∧ K r) ∨
        ∃ o ∈ s'.coinLedger.rows, r.reversesLedgerId = some o.id ∧ R o) s s₁ := by
      refine h₁.coins.mono fun r hr => hr.imp_right ?_
      rintro ⟨o, ho, hlink, hR⟩
      exact ⟨o, h₂.coins.mem ho, hlink, hR⟩
    exact hkept.trans h₂.coins
  · obtain ⟨a₁, hr₁, ha₁⟩ := h₁.trust
    obtain ⟨a₂, hr₂, ha₂⟩ := h₂.trust
    refine ⟨a₁ ++ a₂, by rw [hr₂, hr₁, List.append_assoc], fun t ht => ?_⟩
    rw [List.mem_append] at ht
    exact ht.elim (ha₁ t) (ha₂ t)

/-- A step that leaves both ledgers alone, after or before. -/
theorem then_eq (h : Posts K R T s s₁) (hc : s'.coinLedger = s₁.coinLedger)
    (ht : s'.trustLedger = s₁.trustLedger) : Posts K R T s s' :=
  h.trans (.of_eq hc ht)

theorem after_eq (h : Posts K R T s₁ s') (hc : s₁.coinLedger = s.coinLedger)
    (ht : s₁.trustLedger = s.trustLedger) : Posts K R T s s' :=
  (Posts.of_eq hc ht).trans h

theorem trust_or_new (h : Posts K R T s s') {t : TrustLedgerRow} (ht : t ∈ s'.trustLedger.rows) :
    t ∈ s.trustLedger.rows ∨ T t := by
  obtain ⟨added, hrows, hadded⟩ := h.trust
  rw [hrows, List.mem_append] at ht
  exact ht.imp_right (hadded t)

theorem trust_mem (h : Posts K R T s s') {t : TrustLedgerRow} (ht : t ∈ s.trustLedger.rows) :
    t ∈ s'.trustLedger.rows := by
  obtain ⟨added, hrows, -⟩ := h.trust
  rw [hrows]
  exact List.mem_append_left _ ht

/-- A row whose key no reversal has, and which no forward movement of `K` is, was there. -/
theorem old_of_not_forward (h : Posts K R T s s') (hs : s.Linked) {r : CoinLedgerRow}
    (hr : r ∈ s'.coinLedger.rows) (hkey : ∀ l, r.idempotencyKey ≠ .reversal l) (hK : ¬ K r) :
    r ∈ s.coinLedger.rows := by
  have hlink := h.coins.linked hs r hr
  rcases h.coins.mem_or_new hr with hold | ⟨-, hnew⟩ | ⟨o, -, hnew, -⟩
  · exact hold
  · exact absurd hnew hK
  · exact absurd ((hlink.key_iff o.id).2 hnew) (hkey o.id)

/-- A reversal that is new reverses a row of `R`. -/
theorem reversed_or_new (h : Posts K R T s s') {o : CoinLedgerRow} (ho : o ∈ s'.coinLedger.rows)
    (hrev : s'.isReversed o.id = true) : s.isReversed o.id = true ∨ R o := by
  simp only [Db.isReversed, List.any_eq_true, decide_eq_true_eq] at hrev ⊢
  obtain ⟨r, hr, hlink⟩ := hrev
  rcases h.coins.mem_or_new hr with hold | ⟨hnone, -⟩ | ⟨x, hx, hxl, hR⟩
  · exact .inl ⟨r, hold, hlink⟩
  · rw [hnone] at hlink
    cases hlink
  · rw [hxl] at hlink
    have hid : x.id = o.id := Option.some.inj hlink
    have hsame : x = o := Table.eq_of_key hx ho hid
    rw [hsame] at hR
    exact .inr hR

end Posts

/-! ## Coins -/

section Coins

variable {env : Env} {K R : CoinLedgerRow → Prop} {T : TrustLedgerRow → Prop} {s s' : Db}

theorem CoinsOnly.trustLedger (h : CoinsOnly s s') : s'.trustLedger = s.trustLedger := by
  rw [h]

theorem TrustOnly.coinLedger (h : TrustOnly s s') : s'.coinLedger = s.coinLedger := by
  rw [h]

/-- No account is overdrawn. -/
theorem Db.balanceOf_nonneg (db : Db) (u : UserId) : 0 ≤ db.balanceOf u := by
  unfold Db.balanceOf
  cases hu : db.coinAccounts.find? u with
  | none => simp
  | some a =>
      have hvalid := db.coinAccounts.valid a (Table.mem_of_find? hu)
      simpa [Row.check] using hvalid

/-- The row a forward movement appends: its input's, with the amount capped at a balance. -/
def PostedRow (input : CoinMovementInput) (pr : Option Int) (r : CoinLedgerRow) : Prop :=
  RowOf input r ∧ ∃ b, 0 ≤ b ∧ r.amount = cappedAmount input.amount pr b

theorem Movement.posts {input : CoinMovementInput} {pr : Option Int} {r : CoinPenalty}
    (h : Movement env input pr s r s') (hf : input.Forward) :
    Posts (PostedRow input pr) R T s s' := by
  have htrust := h.coinsOnly.trustLedger
  rcases h.outcome with ⟨hl, -, -⟩ | ⟨-, -, id, -, hrows⟩
  · exact .of_eq hl htrust
  · refine ⟨⟨_, hrows, fun x hx => ?_⟩, [], by simp [htrust], by simp⟩
    obtain rfl := List.mem_singleton.1 hx
    refine ⟨.inl ⟨hf.1, ⟨rfl, rfl, rfl, rfl, rfl⟩, _, s.balanceOf_nonneg _, rfl⟩, ?_⟩
    refine ⟨fun l => ⟨fun hk => absurd hk (hf.2 l), fun hk => ?_⟩, fun l hl => ?_⟩
    · simp [ledgerRow, hf.1] at hk
    · simp [ledgerRow, hf.1] at hl

theorem applyCoins_posts {input : CoinMovementInput} {r : CoinPenalty}
    (h : Runs (applyCoins env input) s r s') (hf : input.Forward) :
    Posts (fun x => RowOf input x ∧ x.amount = input.amount) R T s s' := by
  refine ((applyCoins_spec h).1.posts hf).mono (fun x hx => ?_) (fun _ hR => hR) fun _ hT => hT
  obtain ⟨hrow, b, -, hamount⟩ := hx
  exact ⟨hrow, hamount⟩

/-- A penalty never gives coins. -/
theorem penalize_posts {input : CoinMovementInput} {r : CoinPenalty}
    (h : Runs (penalize env input) s r s') (hf : input.Forward) :
    Posts (fun x => RowOf input x ∧ x.amount ≤ 0) R T s s' := by
  simp only [penalize, runs_ite] at h
  rcases h with ⟨-, h⟩ | ⟨-, h⟩
  · simp only [runs_get_bind, runs_pure] at h
    rw [h.2]
    exact .refl _
  · have hposts : Posts (PostedRow { input with amount := -|input.amount| } (some |input.amount|))
        R T s s' := (applyWithin_spec h).2.posts hf
    refine hposts.mono (fun x hx => ?_) (fun _ hR => hR) fun _ hT => hT
    obtain ⟨hrow, b, hb, hamount⟩ := hx
    refine ⟨hrow, ?_⟩
    rw [hamount]
    simp only [cappedAmount, Option.isSome_some, if_true]
    have habs := abs_nonneg input.amount
    omega

/-- The row of a key, after a row of that key was appended where none was. -/
theorem Db.ledgerByKey_append {r : CoinLedgerRow}
    (hrows : s'.coinLedger.rows = s.coinLedger.rows ++ [r])
    (hfresh : s.ledgerByKey r.idempotencyKey = none) :
    s'.ledgerByKey r.idempotencyKey = some r := by
  unfold Db.ledgerByKey at hfresh ⊢
  rw [hrows, List.find?_append, hfresh]
  simp

theorem Db.ledgerByKey_congr (h : s'.coinLedger = s.coinLedger) (k : CoinKey) :
    s'.ledgerByKey k = s.ledgerByKey k := by
  unfold Db.ledgerByKey
  rw [h]

/-- A movement answers with the row of its key, as the ledger then has it. -/
theorem Movement.answers {input : CoinMovementInput} {pr : Option Int} {r : CoinPenalty}
    (h : Movement env input pr s r s') :
    r.ledgerId = (s'.ledgerByKey input.idempotencyKey).map (·.id) := by
  rcases h.outcome with ⟨hl, -, ⟨x, hx, hid⟩ | ⟨hx, hid, -⟩⟩ | ⟨hnone, -, id, hid, hrows⟩
  · rw [hid, Db.ledgerByKey_congr hl, hx]
    rfl
  · rw [hid, Db.ledgerByKey_congr hl, hx]
    rfl
  · have hkey := Db.ledgerByKey_append hrows hnone
    rw [ledgerRow_idempotencyKey] at hkey
    rw [hid, hkey]
    rfl

/-- A free penalty answers with no row, which is right while there is none. -/
theorem penalize_answers {input : CoinMovementInput} {r : CoinPenalty}
    (h : Runs (penalize env input) s r s') (hfresh : s.ledgerByKey input.idempotencyKey = none) :
    r.ledgerId = (s'.ledgerByKey input.idempotencyKey).map (·.id) := by
  simp only [penalize, runs_ite] at h
  rcases h with ⟨-, h⟩ | ⟨-, h⟩
  · simp only [runs_get_bind, runs_pure] at h
    obtain ⟨rfl, rfl⟩ := h
    rw [hfresh]
    rfl
  · exact (applyWithin_spec h).2.answers

/-- A reversal reverses the row it is told to. -/
theorem reverse_posts {l : LedgerId} {reason : String} {at' : ActorType} {ai : Option UserId}
    {r : CoinPenalty} (h : Runs (reverse env l reason at' ai) s r s')
    (hR : ∀ o ∈ s.coinLedger.rows, o.id = l → R o) : Posts K R T s s' := by
  obtain ⟨o, ho, htype, hmove⟩ := reverse_spec h
  have hid : o.id = l := Table.key_of_find? ho
  have hmem := Table.mem_of_find? ho
  have htrust := hmove.coinsOnly.trustLedger
  have hgrows := (reverse_books h).1.ledger
  rcases hmove.outcome with ⟨hl, -, -⟩ | ⟨-, -, id, -, hrows⟩
  · exact .of_eq hl htrust
  · obtain ⟨added, hadded, hnew⟩ := hgrows
    have hsame : added = [_] := List.append_cancel_left (hadded.symm.trans hrows)
    subst hsame
    refine ⟨⟨_, hrows, fun x hx => ⟨.inr ⟨o, ?_, ?_, hR o hmem hid⟩, (hnew x hx).2⟩⟩,
      [], by simp [htrust], by simp⟩
    · rw [hrows]
      exact List.mem_append_left _ hmem
    · rw [List.mem_singleton.1 hx]
      rfl

/-- A loop of reversals reverses the charges it was given. -/
theorem reverseCharges_posts {charges : List CoinLedgerRow} {reason : String} {at' : ActorType}
    {ai : Option UserId} {n : Int} (h : Runs (reverseCharges env charges reason at' ai) s n s')
    (hR : ∀ c ∈ charges, c ∈ s.coinLedger.rows ∧ R c) : Posts K R T s s' := by
  have hinv : Posts K R T s s' ∧ ∀ c ∈ charges, c ∈ s'.coinLedger.rows := by
    refine Runs.foldlM_induction (I := fun _ s₁ => Posts K R T s s₁ ∧
      ∀ c ∈ charges, c ∈ s₁.coinLedger.rows) ?_ ⟨.refl _, fun c hc => (hR c hc).1⟩ h
    rintro done c rest b b' s₁ s₂ hxs ⟨hI, hmem⟩ hrun
    have hc : c ∈ charges := by simp [hxs]
    simp only [runs_bind, runs_pure] at hrun
    obtain ⟨_, _, hrev, -, rfl⟩ := hrun
    have hstep : Posts K R T s₁ s₂ := by
      refine reverse_posts hrev fun o ho hid => ?_
      rw [Table.eq_of_key ho (hmem c hc) hid]
      exact (hR c hc).2
    exact ⟨hI.trans hstep, fun x hx => hstep.coins.mem (hmem x hx)⟩
  exact hinv.1

end Coins

/-! ## Trust -/

section Trust

variable {env : Env} {K R : CoinLedgerRow → Prop} {T : TrustLedgerRow → Prop} {s s' : Db}

/-- The row `input` appends: its delta is what the range left of it. -/
def TrustRowOf (input : TrustMovementInput) (t : TrustLedgerRow) : Prop :=
  t.idempotencyKey = input.idempotencyKey ∧ t.userId = input.userId ∧
    t.delta = clampScore (t.scoreBefore + input.delta) - t.scoreBefore

/-- The row of a starting score. -/
def IsSeedScore (t : TrustLedgerRow) : Prop := ∃ u, t.idempotencyKey = .initial u

/-- What a trust row was asked for, before the range took its part of it. -/
def TrustLedgerRow.asked (t : TrustLedgerRow) : Int := t.requestedDelta.getD t.delta

/-- The row `input` appends, and what it was asked for. -/
def TrustRowFor (input : TrustMovementInput) (t : TrustLedgerRow) : Prop :=
  TrustRowOf input t ∧ t.asked = input.delta

theorem writeTrustRow_posts {input : TrustMovementInput} {b : Int} {r : TrustLedgerRow}
    (h : Runs (writeTrustRow env input b) s r s') :
    Posts K R (TrustRowFor input) s s' ∧ r ∈ s'.trustLedger.rows ∧ TrustRowFor input r := by
  have hcoins := (writeTrustRow_trustOnly h).coinLedger
  simp only [writeTrustRow, runs_get_bind, runs_insertRow_bind, runs_updateRow_bind,
    runs_pure] at h
  obtain ⟨t, ht, _, -, t', -, hr, rfl⟩ := h
  have hrow : TrustRowFor input r := by
    rw [hr]
    refine ⟨⟨rfl, rfl, rfl⟩, ?_⟩
    simp only [TrustLedgerRow.asked]
    split
    · next hsame => exact hsame
    · rfl
  rw [← hr] at ht
  refine ⟨⟨.of_eq hcoins, _, ht, fun x hx => ?_⟩, ?_, hrow⟩
  · rw [List.mem_singleton.1 hx]
    exact hrow
  · change r ∈ t.rows
    rw [ht]
    simp

theorem seedIfNeeded_posts {u : UserId} {b r : Int} (h : Runs (seedIfNeeded env u b) s r s') :
    Posts K R IsSeedScore s s' := by
  simp only [seedIfNeeded, runs_ite] at h
  rcases h with ⟨-, h⟩ | ⟨-, h⟩
  · rw [runs_pure] at h
    rw [h.2]
    exact .refl _
  · rw [runs_get_bind] at h
    split at h
    · rw [runs_pure] at h
      rw [h.2]
      exact .refl _
    · rw [runs_bind] at h
      obtain ⟨_, _, hw, h⟩ := h
      rw [runs_pure] at h
      rw [h.2]
      refine (writeTrustRow_posts hw).1.mono (fun _ hK => hK) (fun _ hR => hR) fun t ht => ?_
      exact ⟨u, ht.1.1⟩

/-- A trust movement appends its row, unless its key is recorded; after it, it is. -/
theorem applyTrust_asks {input : TrustMovementInput} {r : TrustMovement}
    (h : Runs (applyTrust env input) s r s') :
    Posts K R (fun t => IsSeedScore t ∨ TrustRowFor input t) s s' ∧
      ∃ t ∈ s'.trustLedger.rows, t.idempotencyKey = input.idempotencyKey := by
  simp only [applyTrust, runs_guardTx_bind, runs_bind (m := insertRowOrIgnore _)] at h
  obtain ⟨-, _, s₁, hens, h⟩ := h
  obtain ⟨t, rfl, -⟩ := runs_insertRowOrIgnore hens
  rw [runs_get_bind, runs_bind] at h
  obtain ⟨score, s₂, hseed, h⟩ := h
  have hopen : Posts K R (fun t => IsSeedScore t ∨ TrustRowFor input t) s
      (HasTable.setTable t s) := .of_eq rfl rfl
  have h₂ : Posts K R (fun t => IsSeedScore t ∨ TrustRowFor input t) s s₂ :=
    hopen.trans ((seedIfNeeded_posts hseed).mono (fun _ hK => hK) (fun _ hR => hR)
      fun _ ht => .inl ht)
  rw [runs_get_bind] at h
  cases hk : s₂.trustByKey input.idempotencyKey with
  | some existing =>
      simp only [hk, runs_pure] at h
      rw [h.2]
      exact ⟨h₂, existing, List.mem_of_find?_eq_some hk, by simpa using List.find?_some hk⟩
  | none =>
      simp only [hk, runs_bind, runs_pure] at h
      obtain ⟨written, _, hw, -, rfl⟩ := h
      obtain ⟨hposts, hmem, hrow⟩ := writeTrustRow_posts (K := K) (R := R) hw
      refine ⟨h₂.trans (hposts.mono (fun _ hK => hK) (fun _ hR => hR) fun _ ht => .inr ht), ?_⟩
      exact ⟨written, hmem, hrow.1.1⟩

theorem applyTrust_posts {input : TrustMovementInput} {r : TrustMovement}
    (h : Runs (applyTrust env input) s r s') :
    Posts K R (fun t => IsSeedScore t ∨ TrustRowOf input t) s s' ∧
      ∃ t ∈ s'.trustLedger.rows, t.idempotencyKey = input.idempotencyKey := by
  obtain ⟨hposts, hthere⟩ := applyTrust_asks (K := K) (R := R) h
  exact ⟨hposts.mono (fun _ hK => hK) (fun _ hR => hR) fun _ ht => ht.imp_right And.left, hthere⟩

end Trust

/-! ## Charges and refunds -/

section Charges

variable {env : Env} {K R : CoinLedgerRow → Prop} {T : TrustLedgerRow → Prop} {s s' : Db}

theorem lockAccounts_posts {us : List UserId} (h : Runs (lockAccounts us) s () s') :
    Posts K R T s s' := by
  refine Runs.forM_rel (R := Posts K R T) Posts.refl (fun h₁ h₂ => h₁.trans h₂) ?_ h
  intro u _ s₁ s₂ hrun
  rw [ensureCoinAccount_coinsOnly hrun]
  exact .of_eq rfl rfl

/-- The two rows a charge may leave. -/
def ChargedTrust (price : Int) (trust : TrustMovementInput) (t : TrustLedgerRow) : Prop :=
  IsSeedScore t ∨ TrustRowOf { trust with delta := -price } t

theorem charge_posts {b : CancellationBucket} {price : PenaltyPrice} {coins : CoinMovementInput}
    {trust : TrustMovementInput} {r : ChargedPenalty}
    (h : Runs (charge env b price coins trust) s r s') (hf : coins.Forward) :
    Posts (fun x => RowOf coins x ∧ x.amount ≤ 0) R (ChargedTrust price.trust trust) s s' := by
  simp only [charge, runs_bind, runs_pure] at h
  obtain ⟨_, s₁, hpen, _, s₂, htrust, -, rfl⟩ := h
  have h₁ : Posts (fun x => RowOf coins x ∧ x.amount ≤ 0) R (ChargedTrust price.trust trust) s s₁ :=
    (penalize_posts hpen hf).mono (fun _ hx => hx) (fun _ hR => hR) fun _ hT => hT
  refine h₁.trans ?_
  rw [chargeTrust, runs_ite] at htrust
  rcases htrust with ⟨-, htrust⟩ | ⟨-, htrust⟩
  · simp only [runs_bind, runs_pure] at htrust
    obtain ⟨_, _, happly, -, rfl⟩ := htrust
    exact (applyTrust_posts happly).1
  · rw [runs_pure] at htrust
    rw [htrust.2]
    exact .refl _

theorem charge_answers {b : CancellationBucket} {price : PenaltyPrice} {coins : CoinMovementInput}
    {trust : TrustMovementInput} {r : ChargedPenalty}
    (h : Runs (charge env b price coins trust) s r s')
    (hfresh : s.ledgerByKey coins.idempotencyKey = none) :
    r.ledgerId = (s'.ledgerByKey coins.idempotencyKey).map (·.id) := by
  simp only [charge, runs_bind, runs_pure] at h
  obtain ⟨_, s₁, hpen, _, s₂, htrust, rfl, rfl⟩ := h
  have hledger : s'.coinLedger = s₁.coinLedger := (chargeTrust_trustOnly htrust).coinLedger
  have hanswers := penalize_answers hpen hfresh
  rw [Db.ledgerByKey_congr hledger]
  exact hanswers

/-- A penalty taken from the user `u` under `key`. -/
structure PenaltyRow (key : CoinKey) (u : UserId) (r : CoinLedgerRow) : Prop where
  key : r.idempotencyKey = key
  user : r.userId = u
  type : IsPenalty r
  taken : r.amount ≤ 0

/-- A trust row of `u` under `key`, or the user's starting score. -/
def TrustUnder (key : TrustKey) (u : UserId) (t : TrustLedgerRow) : Prop :=
  IsSeedScore t ∨ (t.idempotencyKey = key ∧ t.userId = u)

theorem chargeParticipant_posts {p : ParticipantId} {u : UserId} {b : CancellationBucket}
    {r : ChargedPenalty} (h : Runs (chargeParticipant env p u b) s r s') :
    Posts (PenaltyRow (.participantPenalty p) u) R (TrustUnder (.participantPenalty p) u) s s' := by
  refine (charge_posts h ⟨rfl, by simp⟩).mono (fun x hx => ?_) (fun _ hR => hR) fun t ht => ?_
  · obtain ⟨⟨huser, htype, hkey, -, -⟩, hamount⟩ := hx
    refine ⟨hkey, huser, ?_, hamount⟩
    rw [IsPenalty, htype]
    by_cases hb : b = .NO_SHOW <;> simp [hb]
  · exact ht.imp_right fun hrow => ⟨hrow.1, hrow.2.1⟩

theorem chargeHost_posts {e : EventId} {u : UserId} {b : CancellationBucket} {n : Nat}
    {r : ChargedPenalty} (h : Runs (chargeHost env e u b n) s r s') :
    Posts (PenaltyRow (.hostPenalty e) u) R (TrustUnder (.hostPenalty e) u) s s' := by
  refine (charge_posts h ⟨rfl, by simp⟩).mono (fun x hx => ?_) (fun _ hR => hR) fun t ht => ?_
  · obtain ⟨⟨huser, htype, hkey, -, -⟩, hamount⟩ := hx
    exact ⟨hkey, huser, .inl htype, hamount⟩
  · exact ht.imp_right fun hrow => ⟨hrow.1, hrow.2.1⟩

/-- A charge for taking part: a guest may have it back. -/
def PaidToTakePart (o : CoinLedgerRow) : Prop :=
  (∃ p, o.ref = some (.event_participant p)) ∧ o.type ≠ .CANCELLATION_PENALTY ∧
    o.type ≠ .NO_SHOW_PENALTY ∧ o.amount < 0

theorem refundParticipant_posts {p : ParticipantId} {a : UserId} {t : ActorType} {reason : String}
    {n : Int} (h : Runs (refundParticipant env p a t reason) s n s') :
    Posts K PaidToTakePart T s s' := by
  rw [refundParticipant, runs_get_bind] at h
  refine reverseCharges_posts h fun c hc => ?_
  simp only [Db.refundableCharges, List.mem_filter, Bool.and_eq_true, decide_eq_true_eq,
    Bool.not_eq_true'] at hc
  obtain ⟨hmem, ⟨⟨href, hneg⟩, htype⟩, -⟩ := hc
  refine ⟨hmem, ⟨p, href⟩, ?_, ?_, hneg⟩
  · intro ht
    simp [ht] at htype
  · intro ht
    simp [ht] at htype

end Charges

end Paayatam
