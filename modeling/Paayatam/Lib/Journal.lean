/-
  Paayatam.Lib.Journal

  A journal of movements beside the figures it explains, written by
  transactions that run at once.

  A transaction locks the accounts it moves until it ends, and sees the
  committed journal followed by its own entries.  `Journal.Sound` is what the
  committed tables satisfy; `Draft.Sound` is what a transaction holds over them:
  its entries continue the committed chain of every account it has locked, and
  touch no other.  Two drafts are apart when they hold no account in common and
  no entries that collide.
-/

import Paayatam.Lib.Chain
import Mathlib.Data.List.Basic
import Mathlib.Logic.Function.Basic
import Mathlib.Order.Defs.Unbundled

namespace Paayatam.Lib

/-- What an entry says: whose it is, the figures it found and left, which others it can stand
    beside, and what it satisfies by itself. -/
structure EntryKind (κ ρ M : Type) where
  owner : ρ → κ
  before : ρ → M
  after : ρ → M
  Compatible : ρ → ρ → Prop
  Valid : ρ → Prop
  symm : ∀ r q, Compatible r q → Compatible q r

/-- The committed figures and entries. -/
structure Journal (κ ρ M : Type) where
  accounts : κ → Option M
  entries : List ρ

/-- The accounts a transaction has locked, with the figures it has given them, and the entries
    it has written. -/
structure Draft (κ ρ M : Type) where
  held : κ → Option M
  pending : List ρ

namespace EntryKind

variable {κ ρ M : Type} [DecidableEq κ] (kind : EntryKind κ ρ M)

/-- The entries of one account, in order. -/
def entriesOf (u : κ) (rows : List ρ) : List ρ := rows.filter fun r => decide (kind.owner r = u)

abbrev Leads (a : M) (rows : List ρ) (b : M) : Prop := Chain kind.before kind.after a rows b

theorem entriesOf_append (u : κ) (l l' : List ρ) :
    kind.entriesOf u (l ++ l') = kind.entriesOf u l ++ kind.entriesOf u l' := by
  simp [entriesOf]

theorem entriesOf_concat_self (l : List ρ) (r : ρ) :
    kind.entriesOf (kind.owner r) (l ++ [r]) = kind.entriesOf (kind.owner r) l ++ [r] := by
  simp [entriesOf]

theorem entriesOf_concat_ne {u : κ} {r : ρ} (h : kind.owner r ≠ u) (l : List ρ) :
    kind.entriesOf u (l ++ [r]) = kind.entriesOf u l := by
  simp [entriesOf, h]

end EntryKind

section Journals

variable {κ ρ M : Type} [DecidableEq κ] [Zero M]

/-- A committed figure; an absent account is at zero. -/
def Journal.figure (st : Journal κ ρ M) (u : κ) : M := (st.accounts u).getD 0

namespace Draft

/-- A figure, as the transaction sees it. -/
def figure (d : Draft κ ρ M) (st : Journal κ ρ M) (u : κ) : M := (d.held u).getD (st.figure u)

/-- The journal, as the transaction sees it. -/
def entries (d : Draft κ ρ M) (st : Journal κ ρ M) : List ρ := st.entries ++ d.pending

/-- Nothing locked and nothing written. -/
def empty : Draft κ ρ M := ⟨fun _ => none, []⟩

def lock (d : Draft κ ρ M) (st : Journal κ ρ M) (u : κ) : Draft κ ρ M :=
  { d with held := Function.update d.held u (some (d.figure st u)) }

/-- One more entry, with the figure it leaves. -/
def write (kind : EntryKind κ ρ M) (d : Draft κ ρ M) (r : ρ) : Draft κ ρ M where
  held := Function.update d.held (kind.owner r) (some (kind.after r))
  pending := d.pending ++ [r]

end Draft

/-- The journal after the transaction commits. -/
def Journal.publish (st : Journal κ ρ M) (d : Draft κ ρ M) : Journal κ ρ M where
  accounts u := (d.held u).or (st.accounts u)
  entries := st.entries ++ d.pending

/-- What the committed tables satisfy. -/
structure Journal.Sound (kind : EntryKind κ ρ M) (st : Journal κ ρ M) : Prop where
  chain : ∀ u, kind.Leads 0 (kind.entriesOf u st.entries) (st.figure u)
  valid : ∀ r ∈ st.entries, kind.Valid r
  distinct : st.entries.Pairwise kind.Compatible

/-- One account, as a transaction has it: untouched, or continued to the figure it has given it. -/
def Draft.AccountSound (kind : EntryKind κ ρ M) (st : Journal κ ρ M) (pending : List ρ) (u : κ) :
    Option M → Prop
  | none => kind.entriesOf u pending = []
  | some b => kind.Leads (st.figure u) (kind.entriesOf u pending) b

/-- What a transaction holds over the committed tables. -/
structure Draft.Sound (kind : EntryKind κ ρ M) (st : Journal κ ρ M) (d : Draft κ ρ M) : Prop where
  accounts : ∀ u, AccountSound kind st d.pending u (d.held u)
  valid : ∀ r ∈ d.pending, kind.Valid r
  distinct : (d.entries st).Pairwise kind.Compatible

/-- No account in common, and no entries that collide. -/
structure Draft.Apart (kind : EntryKind κ ρ M) (d d' : Draft κ ρ M) : Prop where
  held : ∀ u, d.held u = none ∨ d'.held u = none
  pending : ∀ r ∈ d.pending, ∀ q ∈ d'.pending, kind.Compatible r q

variable {kind : EntryKind κ ρ M} {st : Journal κ ρ M} {d d' : Draft κ ρ M} {u : κ} {r : ρ}

theorem Journal.Sound.initial : Journal.Sound kind ⟨fun _ => none, []⟩ :=
  ⟨fun _ => .nil, (nofun), .nil⟩

namespace Draft

theorem Sound.empty (h : st.Sound kind) : Sound kind st .empty := by
  refine ⟨fun _ => rfl, (nofun), ?_⟩
  rw [entries, Draft.empty, List.append_nil]
  exact h.distinct

/-- What the transaction sees of an account is a figure its chain has reached. -/
theorem Sound.account (h : Sound kind st d) (u : κ) :
    kind.Leads (st.figure u) (kind.entriesOf u d.pending) (d.figure st u) := by
  have hu := h.accounts u
  unfold figure
  cases hheld : d.held u with
  | none =>
      rw [hheld] at hu
      rw [show kind.entriesOf u d.pending = [] from hu]
      exact .nil
  | some b =>
      rw [hheld] at hu
      exact hu

theorem Sound.lock (h : Sound kind st d) : Sound kind st (d.lock st u) := by
  refine ⟨fun v => ?_, h.valid, h.distinct⟩
  by_cases hv : v = u
  · subst hv
    simpa [Draft.lock, AccountSound] using h.account v
  · simpa [Draft.lock, hv] using h.accounts v

/-- One more entry, which found the figure the transaction sees. -/
theorem Sound.write (h : Sound kind st d) (hbefore : kind.before r = d.figure st (kind.owner r))
    (hvalid : kind.Valid r) (hcompat : ∀ q ∈ d.entries st, kind.Compatible r q) :
    Sound kind st (d.write kind r) := by
  refine ⟨fun u => ?_, fun q hq => ?_, ?_⟩
  · by_cases hu : u = kind.owner r
    · subst hu
      have hchain := (h.account (kind.owner r)).concat hbefore
      rw [← kind.entriesOf_concat_self] at hchain
      simpa [Draft.write, AccountSound] using hchain
    · simp only [AccountSound, Draft.write, Function.update_of_ne hu,
        kind.entriesOf_concat_ne (Ne.symm hu)]
      exact h.accounts u
  · rcases List.mem_append.1 hq with hq | hq
    · exact h.valid q hq
    · obtain rfl := List.mem_singleton.1 hq
      exact hvalid
  · show (st.entries ++ (d.pending ++ [r])).Pairwise _
    rw [← List.append_assoc, List.pairwise_append]
    refine ⟨h.distinct, List.pairwise_singleton _ _, fun q hq x hx => ?_⟩
    obtain rfl := List.mem_singleton.1 hx
    exact kind.symm _ _ (hcompat q hq)

omit [DecidableEq κ] [Zero M] in
theorem Apart.symm (h : Apart kind d d') : Apart kind d' d where
  held u := (h.held u).symm
  pending r hr q hq := kind.symm _ _ (h.pending q hq r hr)

omit [DecidableEq κ] [Zero M] in
theorem Apart.empty : Apart kind .empty d := ⟨fun _ => .inl rfl, (nofun)⟩

/-- The account a transaction locks is held by no other. -/
theorem Apart.lock (h : Apart kind d d') (hfree : d'.held u = none) :
    Apart kind (d.lock st u) d' := by
  refine ⟨fun v => ?_, h.pending⟩
  by_cases hv : v = u
  · exact .inr (hv ▸ hfree)
  · simpa [Draft.lock, hv] using h.held v

omit [DecidableEq κ] [Zero M] in
/-- An account a transaction holds is free of the others. -/
theorem Apart.free (h : Apart kind d d') {b : M} (hheld : d.held u = some b) :
    d'.held u = none := by
  rcases h.held u with hnone | hnone
  · rw [hheld] at hnone
    cases hnone
  · exact hnone

omit [Zero M] in
theorem Apart.write (h : Apart kind d d') {b : M} (hheld : d.held (kind.owner r) = some b)
    (hclear : ∀ q ∈ d'.pending, kind.Compatible r q) : Apart kind (d.write kind r) d' := by
  refine ⟨fun u => ?_, fun x hx q hq => ?_⟩
  · by_cases hu : u = kind.owner r
    · exact .inr (hu ▸ h.free hheld)
    · simpa [Draft.write, hu] using h.held u
  · rcases List.mem_append.1 hx with hx | hx
    · exact h.pending x hx q hq
    · obtain rfl := List.mem_singleton.1 hx
      exact hclear q hq

omit [DecidableEq κ] in
/-- A commit leaves an account its transaction did not hold where it was. -/
theorem figure_publish (h : d.held u = none) : (st.publish d).figure u = st.figure u := by
  simp [Journal.figure, Journal.publish, h]

/-- Another transaction's commit leaves a sound draft sound. -/
theorem Sound.publish (h : Sound kind st d) (h' : Sound kind st d') (hapart : Apart kind d' d) :
    Sound kind (st.publish d') d := by
  refine ⟨fun u => ?_, h.valid, ?_⟩
  · have hu := h.accounts u
    rcases hapart.held u with hfree | hfree
    · cases hheld : d.held u with
      | none => simpa [AccountSound, hheld] using hu
      | some b => simpa [AccountSound, hheld, figure_publish hfree] using hu
    · simpa [AccountSound, hfree] using hu
  · show ((st.entries ++ d'.pending) ++ d.pending).Pairwise _
    have hown := List.pairwise_append.1 h.distinct
    refine List.pairwise_append.2 ⟨h'.distinct, hown.2.1, fun r hr q hq => ?_⟩
    rcases List.mem_append.1 hr with hr | hr
    · exact hown.2.2 r hr q hq
    · exact hapart.pending r hr q hq

/-- A commit shows the others no new entry of an account they hold. -/
theorem Apart.entries_publish (hapart : Apart kind d d') (h' : Sound kind st d') {b : M}
    (hheld : d.held (kind.owner r) = some b) (hr : r ∈ d.entries (st.publish d')) :
    r ∈ d.entries st := by
  rcases List.mem_append.1 hr with hr | hr
  · rcases List.mem_append.1 hr with hr | hr
    · exact List.mem_append_left _ hr
    · have hnone := h'.accounts (kind.owner r)
      rw [hapart.free hheld] at hnone
      have hmem : r ∈ kind.entriesOf (kind.owner r) d'.pending :=
        List.mem_filter.2 ⟨hr, decide_eq_true rfl⟩
      rw [show kind.entriesOf (kind.owner r) d'.pending = [] from hnone] at hmem
      cases hmem
  · exact List.mem_append_right _ hr

end Draft

/-- A sound transaction leaves sound tables. -/
theorem Journal.Sound.publish (hst : st.Sound kind) (h : d.Sound kind st) :
    (st.publish d).Sound kind := by
  refine ⟨fun u => ?_, fun r hr => ?_, h.distinct⟩
  · have hu := h.accounts u
    show kind.Leads 0 (kind.entriesOf u (st.entries ++ d.pending)) _
    rw [kind.entriesOf_append]
    cases hheld : d.held u with
    | none =>
        rw [hheld] at hu
        rw [Draft.figure_publish hheld, show kind.entriesOf u d.pending = [] from hu,
          List.append_nil]
        exact hst.chain u
    | some b =>
        rw [hheld] at hu
        rw [show (st.publish d).figure u = b by simp [Journal.figure, Journal.publish, hheld]]
        exact (hst.chain u).append hu
  · rcases List.mem_append.1 hr with hr | hr
    · exact hst.valid r hr
    · exact h.valid r hr

end Journals

end Paayatam.Lib
