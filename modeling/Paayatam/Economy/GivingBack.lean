/-
  Paayatam.Economy.GivingBack

  What giving charges back does to the accounts.

  A refund reverses debits, so it only credits: no balance falls, and the debits
  on the ledger are the ones that were there.  An account none of the reversed
  rows is on keeps its balance, and the trust tables are not touched.
-/

import Paayatam.Economy.Funds

namespace Paayatam

open Lib

/-- Debits that satisfy `Q` were given back, and nothing else happened to the ledgers or
    to an event. -/
structure OnlyCredits (Q : CoinLedgerRow → Prop) (s s' : Db) : Prop where
  events : s'.events = s.events
  scores : s'.trustScores = s.trustScores
  trust : s'.trustLedger = s.trustLedger
  linked : s.Linked → s'.Linked
  debits : ∀ r ∈ s'.coinLedger.rows, r.amount < 0 → r ∈ s.coinLedger.rows
  /-- A key that is no reversal's stays as free as it was. -/
  keys : ∀ k, (∀ l, k ≠ .reversal l) → s.ledgerByKey k = none → s'.ledgerByKey k = none
  rises : ∀ v, s.balanceOf v ≤ s'.balanceOf v
  untouched : ∀ v, (∀ r ∈ s.coinLedger.rows, r.amount < 0 → Q r → r.userId ≠ v) →
    s'.balanceOf v = s.balanceOf v

namespace OnlyCredits

variable {Q Q' : CoinLedgerRow → Prop} {s s₁ s' : Db}

theorem of_accounts (hevents : s'.events = s.events) (hscores : s'.trustScores = s.trustScores)
    (htrust : s'.trustLedger = s.trustLedger) (hcoins : s'.coinLedger = s.coinLedger)
    (hbalance : ∀ v, s'.balanceOf v = s.balanceOf v) : OnlyCredits Q s s' where
  events := hevents
  scores := hscores
  trust := htrust
  linked h := by
    unfold Db.Linked
    rw [hcoins]
    exact h
  debits r hr _ := hcoins ▸ hr
  keys k _ h := by
    rw [Db.ledgerByKey_congr hcoins]
    exact h
  rises v := by rw [hbalance v]
  untouched v _ := hbalance v

theorem refl (s : Db) : OnlyCredits Q s s :=
  .of_accounts rfl rfl rfl rfl fun _ => rfl

theorem mono (h : OnlyCredits Q s s') (hQ : ∀ r, Q r → Q' r) : OnlyCredits Q' s s' where
  events := h.events
  scores := h.scores
  trust := h.trust
  linked := h.linked
  debits := h.debits
  keys := h.keys
  rises := h.rises
  untouched v hv := h.untouched v fun r hr hneg hq => hv r hr hneg (hQ r hq)

theorem trans (h₁ : OnlyCredits Q s s₁) (h₂ : OnlyCredits Q s₁ s') : OnlyCredits Q s s' where
  events := h₂.events.trans h₁.events
  scores := h₂.scores.trans h₁.scores
  trust := h₂.trust.trans h₁.trust
  linked h := h₂.linked (h₁.linked h)
  debits r hr hneg := h₁.debits r (h₂.debits r hr hneg) hneg
  keys k hk h := h₂.keys k hk (h₁.keys k hk h)
  rises v := (h₁.rises v).trans (h₂.rises v)
  untouched v hv := by
    have hkept : ∀ r ∈ s₁.coinLedger.rows, r.amount < 0 → Q r → r.userId ≠ v :=
      fun r hr hneg hq => hv r (h₁.debits r hr hneg) hneg hq
    exact (h₂.untouched v hkept).trans (h₁.untouched v hv)

end OnlyCredits

section Refunds

variable {env : Env} {Q : CoinLedgerRow → Prop} {reason : String} {at' : ActorType}
  {ai : Option UserId} {s s' : Db}

/-- The movement that reverses `o`, whether it was made now or before. -/
theorem reversal_balanceOf {o : CoinLedgerRow} {r : CoinPenalty}
    (ho : o ∈ s.coinLedger.rows) (h : Runs (reverse env o.id reason at' ai) s r s') (v : UserId) :
    s'.balanceOf v = s.balanceOf v - o.amount ∧ o.userId = v ∨ s'.balanceOf v = s.balanceOf v := by
  simp only [reverse, runs_findRow_bind, runs_orThrow_bind, runs_guardTx_bind,
    table_coinLedger] at h
  obtain ⟨x, hx, -, h⟩ := h
  obtain rfl : o = x := Table.eq_of_key ho (Table.mem_of_find? hx) (Table.key_of_find? hx).symm
  simp only [applyCoins, runs_bind, runs_guardTx, runs_pure] at h
  obtain ⟨_, _, happly, _, _, ⟨-, rfl⟩, -, rfl⟩ := h
  have hbalance := applyWithin_balanceOf happly v
  by_cases hmoves : o.userId = v ∧ s.ledgerByKey (.reversal o.id) = none
  · left
    refine ⟨?_, hmoves.1⟩
    rw [hbalance]
    exact (if_pos hmoves).trans (by simp [cappedAmount, reversalOf, sub_eq_add_neg])
  · right
    rw [hbalance]
    exact if_neg hmoves

/-- One debit is given back. -/
theorem reverse_credits {o : CoinLedgerRow} {r : CoinPenalty} (ho : o ∈ s.coinLedger.rows)
    (hneg : o.amount < 0) (hq : Q o) (h : Runs (reverse env o.id reason at' ai) s r s') :
    OnlyCredits Q s s' := by
  have hgrows : LedgerGrows (Reverses o.id) s s' := (reverse_books h).1.ledger
  obtain ⟨x, -, -, hmove⟩ := reverse_spec h
  have honly : s'.events = s.events ∧ s'.trustScores = s.trustScores ∧
      s'.trustLedger = s.trustLedger := by
    rw [hmove.coinsOnly]
    exact ⟨rfl, rfl, rfl⟩
  obtain ⟨added, hrows, hadded⟩ := hgrows
  refine ⟨honly.1, honly.2.1, honly.2.2, LedgerGrows.linked ⟨added, hrows, hadded⟩,
    fun y hy hyneg => ?_, fun k hk hfree => ?_, fun v => ?_, fun v hv => ?_⟩
  · rw [hrows, List.mem_append] at hy
    rcases hy with hold | hnew
    · exact hold
    · -- what was appended is the reverse of a debit
      obtain ⟨⟨-, hkey⟩, hlinked⟩ := hadded y hnew
      obtain ⟨o', ho', hid, -, -, hamount⟩ := hlinked.original o.id ((hlinked.key_iff o.id).1 hkey)
      have hmem : o ∈ s'.coinLedger.rows := by
        rw [hrows]
        exact List.mem_append_left _ ho
      obtain rfl : o' = o := Table.eq_of_key ho' hmem hid
      omega
  · cases hfound : s'.ledgerByKey k with
    | none => rfl
    | some y =>
        obtain ⟨hy, hkey⟩ := Db.mem_of_ledgerByKey hfound
        rw [hrows, List.mem_append] at hy
        rcases hy with hold | hnew
        · exact absurd hkey (Db.not_mem_of_ledgerByKey hfree y hold)
        · exact absurd (hkey.symm.trans (hadded y hnew).1.2) (hk o.id)
  · rcases reversal_balanceOf ho h v with ⟨hb, -⟩ | hb <;> rw [hb]
    omega
  · rcases reversal_balanceOf ho h v with ⟨-, huser⟩ | hb
    · exact absurd huser (hv o ho hneg hq)
    · exact hb

/-- A list of debits is given back. -/
theorem reverseCharges_credits {charges : List CoinLedgerRow} {n : Int}
    (hcharges : ∀ c ∈ charges, c ∈ s.coinLedger.rows ∧ c.amount < 0 ∧ Q c)
    (h : Runs (reverseCharges env charges reason at' ai) s n s') : OnlyCredits Q s s' := by
  have hloop : OnlyCredits Q s s' ∧ LedgerGrows (fun _ => True) s s' := by
    refine Runs.foldlM_induction
      (I := fun _ t => OnlyCredits Q s t ∧ LedgerGrows (fun _ => True) s t) ?_
      ⟨.refl s, .of_eq rfl⟩ h
    intro done c rest b b' t t' hsplit hI hrun
    obtain ⟨hback, hgrows⟩ := hI
    obtain ⟨hc, hneg, hq⟩ := hcharges c (by simp [hsplit])
    simp only [runs_bind, runs_pure] at hrun
    obtain ⟨_, _, hrev, -, rfl⟩ := hrun
    exact ⟨hback.trans (reverse_credits (hgrows.mem hc) hneg hq hrev),
      hgrows.trans ((reverse_books hrev).1.ledger.mono fun _ _ => trivial)⟩
  exact hloop.1

/-- What taking part cost is given back. -/
theorem refundParticipant_credits {p : ParticipantId} {a : UserId} {n : Int}
    (h : Runs (refundParticipant env p a at' reason) s n s') :
    OnlyCredits (fun r => r.ref = some (.event_participant p)) s s' := by
  rw [refundParticipant, runs_get_bind] at h
  refine reverseCharges_credits (fun c hc => ?_) h
  simp only [Db.refundableCharges, List.mem_filter, Bool.and_eq_true, decide_eq_true_eq] at hc
  obtain ⟨hmem, ⟨⟨href, hneg⟩, -⟩, -⟩ := hc
  exact ⟨hmem, hneg, href⟩

end Refunds

end Paayatam
