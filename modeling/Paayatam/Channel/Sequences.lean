/-
  Paayatam.Channel.Sequences

  The sequence numbers of an event's paid posts, and how many posts of an
  event are in the channel.

  The paid posts of an event are numbered without gaps, and each was posted
  and closed before the next was claimed (`Sequenced`).  Which claims are
  refused, and that at most one paid post is open, follow from that alone.
-/

import Paayatam.Channel.Posts

namespace Paayatam

open Lib

/-! ## Posts through a step -/

/-- `p` is the post `q`, at a later time. -/
structure Descends (q p : ChannelPostRow) : Prop where
  id : p.id = q.id
  eventId : p.eventId = q.eventId
  kind : p.kind = q.kind
  republishSeq : p.republishSeq = q.republishSeq
  posted : q.postedAt ≠ none → p.postedAt ≠ none
  closed : q.isOpen = false → p.isOpen = false

theorem Descends.refl (p : ChannelPostRow) : Descends p p :=
  ⟨rfl, rfl, rfl, rfl, fun h => h, fun h => h⟩

theorem Forward.descends {f : ChannelPostRow → ChannelPostRow} (h : Forward f) (p : ChannelPostRow) :
    Descends p (f p) :=
  ⟨h.id p, h.eventId p, h.kind p, h.republishSeq p, h.posted p, h.closed p⟩

theorem Descends.opened {q p : ChannelPostRow} (h : Descends q p) (hp : p.isOpen = true) :
    q.isOpen = true := by
  by_contra hq
  rw [h.closed (by simpa using hq)] at hp
  cases hp

/-- `q` was posted and closed, and `p` is the next paid post of its event. -/
structure Precedes (q p : ChannelPostRow) : Prop where
  eventId : q.eventId = p.eventId
  kind : q.kind = .PAID
  next : p.republishSeq = q.republishSeq + 1
  posted : q.postedAt ≠ none
  closed : q.isOpen = false

theorem Precedes.descends {q p q' p' : ChannelPostRow} (h : Precedes q p) (hq : Descends q q')
    (hp : Descends p p') : Precedes q' p' where
  eventId := by rw [hq.eventId, hp.eventId, h.eventId]
  kind := hq.kind.trans h.kind
  next := by rw [hp.republishSeq, hq.republishSeq, h.next]
  posted := hq.posted h.posted
  closed := hq.closed h.closed

/-- A claim a step makes. -/
structure NewPost (s s' : ChannelDb) (p : ChannelPostRow) : Prop where
  id : p.id = s.issued
  issued : s'.issued = s.issued + 1
  unposted : p.postedAt = none
  numbered : p.kind = .TRENDING ∨ p.kind = .PAID ∧
    (p.republishSeq = 0 ∨ ∃ q ∈ s'.posts.rows, Precedes q p)

theorem ChannelDb.mem_paidOf {s : ChannelDb} {e : EventId} {p : ChannelPostRow} :
    p ∈ s.paidOf e ↔ p ∈ s.posts.rows ∧ p.eventId = e ∧ p.kind = .PAID := by
  simp [paidOf]

theorem ChannelDb.of_current {s : ChannelDb} {e : EventId} {p : ChannelPostRow}
    (h : s.currentPaidPublication e = some p) : p ∈ s.paidOf e ∧ p.isOpen = true :=
  List.mem_filter.1 (List.argmax_mem h)

theorem ChannelDb.of_previous {s : ChannelDb} {e : EventId} {p : ChannelPostRow}
    (h : s.previousPaidPublication e = some p) : p ∈ s.paidOf e ∧ p.postedAt ≠ none := by
  obtain ⟨hpaid, hposted⟩ := List.mem_filter.1 (List.argmax_mem h)
  exact ⟨hpaid, by simpa [Option.isSome_iff_ne_none] using hposted⟩

namespace PostsMove

variable {s s' : ChannelDb} {p : ChannelPostRow}

theorem issued_le (h : PostsMove s s') : s.issued ≤ s'.issued := by
  cases h with
  | same _ hissued => exact hissued
  | first _ hissued | reinstated _ _ _ hissued | renewed _ _ _ _ hissued | trending _ hissued =>
      rw [hissued]
      exact Nat.le_succ _
  | moved _ _ hissued | released _ _ hissued => exact hissued.ge

/-- A post after a step was there before it, or was claimed by it. -/
theorem origin (h : PostsMove s s') (hp : p ∈ s'.posts.rows) :
    (∃ q ∈ s.posts.rows, Descends q p) ∨ NewPost s s' p := by
  cases h with
  | same hposts => exact .inl ⟨p, hposts ▸ hp, .refl p⟩
  | first hrows hissued =>
      rw [hrows, List.mem_append, List.mem_singleton] at hp
      rcases hp with hp | rfl
      · exact .inl ⟨p, hp, .refl p⟩
      · exact .inr ⟨rfl, hissued, rfl, .inr ⟨rfl, .inl rfl⟩⟩
  | @reinstated e previous _ hprevious hdown hrows hissued =>
      have hmem := hp
      rw [hrows, List.mem_append, List.mem_singleton] at hp
      rcases hp with hp | rfl
      · exact .inl ⟨p, hp, .refl p⟩
      · obtain ⟨hpaid, hposted⟩ := ChannelDb.of_previous hprevious
        obtain ⟨hold, heq, hkind⟩ := ChannelDb.mem_paidOf.1 hpaid
        refine .inr ⟨rfl, hissued, rfl, .inr ⟨rfl, .inr ⟨previous, ?_, heq, hkind, rfl, hposted, ?_⟩⟩⟩
        · rw [hrows, List.mem_append]
          exact .inl hold
        · rw [ChannelPostRow.isOpen, Bool.and_eq_false_iff]
          left
          simpa using Option.isSome_iff_ne_none.2 hdown
  | @renewed e current now t hcurrent hposted hrows hclosed hissued =>
      obtain ⟨hpaid, -⟩ := ChannelDb.of_current hcurrent
      obtain ⟨hold, heq, hkind⟩ := ChannelDb.mem_paidOf.1 hpaid
      rcases hclosed.cases hp with rfl | ⟨hp, -⟩
      · exact .inl ⟨current, hold, (forward_superseded now).descends current⟩
      · rw [hrows, List.mem_append, List.mem_singleton] at hp
        rcases hp with hp | rfl
        · exact .inl ⟨p, hp, .refl p⟩
        · refine .inr ⟨rfl, hissued, rfl,
            .inr ⟨rfl, .inr ⟨_, hclosed.self, heq, hkind, rfl, hposted, ?_⟩⟩⟩
          simp [ChannelPostRow.isOpen, ChannelPostRow.superseded]
  | trending hrows hissued =>
      rw [hrows, List.mem_append, List.mem_singleton] at hp
      rcases hp with hp | rfl
      · exact .inl ⟨p, hp, .refl p⟩
      · exact .inr ⟨rfl, hissued, rfl, .inl rfl⟩
  | @moved r f hf hrows hissued =>
      rcases hrows.cases hp with rfl | ⟨hp, -⟩
      · exact .inl ⟨r, hrows.mem, hf.descends r⟩
      · exact .inl ⟨p, hp, .refl p⟩
  | released _ hposts =>
      rw [hposts, Table.mem_deleteMany] at hp
      exact .inl ⟨p, hp.1, .refl p⟩

/-- A paid post is never lost. -/
theorem fate (h : PostsMove s s') (hp : p ∈ s.posts.rows) (hkind : p.kind = .PAID) :
    ∃ p' ∈ s'.posts.rows, Descends p p' := by
  have happend : ∀ {t : Table ChannelPostRow} {r}, t.rows = s.posts.rows ++ [r] → p ∈ t.rows := by
    intro t r hrows
    rw [hrows, List.mem_append]
    exact .inl hp
  cases h with
  | same hposts => exact ⟨p, hposts ▸ hp, .refl p⟩
  | first hrows | reinstated _ _ hrows | trending hrows => exact ⟨p, happend hrows, .refl p⟩
  | @renewed e current now t hcurrent hposted hrows hclosed hissued =>
      by_cases hpc : p = current
      · rw [hpc]
        exact ⟨_, hclosed.self, (forward_superseded now).descends current⟩
      · exact ⟨p, hclosed.other (happend hrows) hpc, .refl p⟩
  | @moved r f hf hrows hissued =>
      by_cases hpr : p = r
      · rw [hpr]
        exact ⟨_, hrows.self, hf.descends r⟩
      · exact ⟨p, hrows.other hp hpr, .refl p⟩
  | released hpaid hposts =>
      refine ⟨p, ?_, .refl p⟩
      rw [hposts, Table.mem_deleteMany, Bool.and_eq_false_iff]
      exact ⟨hp, .inl (decide_eq_false fun hid => hpaid p hp hid hkind)⟩

end PostsMove

/-! ## The numbering -/

/-- The paid posts of each event are numbered without gaps, and each but the last was posted
    and closed. -/
structure Sequenced (s : ChannelDb) : Prop where
  ids : ∀ p ∈ s.posts.rows, p.id < s.issued
  kinds : ∀ p ∈ s.posts.rows, p.kind = .PAID ∨ p.kind = .TRENDING
  below : ∀ p ∈ s.posts.rows, p.kind = .PAID → p.republishSeq ≠ 0 → ∃ q ∈ s.posts.rows, Precedes q p

/-- No paid post of the event has the sequence. -/
def Unclaimed (s : ChannelDb) (e : EventId) (n : Nat) : Prop :=
  ∀ p ∈ s.paidOf e, p.republishSeq ≠ n

namespace Sequenced

variable {s s' : ChannelDb} {p q : ChannelPostRow} {e : EventId}

theorem move (h : Sequenced s) (hmove : PostsMove s s') : Sequenced s' where
  ids p hp := by
    rcases hmove.origin hp with ⟨q, hq, hqp⟩ | hnew
    · rw [hqp.id]
      exact lt_of_lt_of_le (h.ids q hq) hmove.issued_le
    · rw [hnew.id, hnew.issued]
      exact Nat.lt_succ_self _
  kinds p hp := by
    rcases hmove.origin hp with ⟨q, hq, hqp⟩ | hnew
    · rw [hqp.kind]
      exact h.kinds q hq
    · rcases hnew.numbered with hkind | ⟨hkind, -⟩
      · exact .inr hkind
      · exact .inl hkind
  below p hp hkind hseq := by
    rcases hmove.origin hp with ⟨q, hq, hqp⟩ | hnew
    · rw [hqp.republishSeq] at hseq
      obtain ⟨r, hr, hrq⟩ := h.below q hq (hqp.kind.symm.trans hkind) hseq
      obtain ⟨r', hr', hrr⟩ := hmove.fate hr hrq.kind
      exact ⟨r', hr', hrq.descends hrr hqp⟩
    · rcases hnew.numbered with htrending | ⟨-, hzero | hprecedes⟩
      · rw [htrending] at hkind
        cases hkind
      · exact absurd hzero hseq
      · exact hprecedes

/-- The index tells the paid posts of an event apart by their sequence. -/
theorem same_of_seq (hp : p ∈ s.posts.rows) (hq : q ∈ s.posts.rows) (he : p.eventId = q.eventId)
    (hkind : p.kind = q.kind) (hseq : p.republishSeq = q.republishSeq) : p = q :=
  Table.eq_of_collide hp hq (by simp [Row.collide, he, hkind, hseq])

/-- Every sequence below a paid post's is taken. -/
theorem upto (h : Sequenced s) :
    ∀ {n : Nat} {p : ChannelPostRow}, p ∈ s.paidOf e → n ≤ p.republishSeq →
      ∃ q ∈ s.paidOf e, q.republishSeq = n := by
  intro n p hp hn
  obtain ⟨k, hk⟩ := Nat.exists_eq_add_of_le hn
  -- by induction on how far below it lies
  induction k generalizing p with
  | zero => exact ⟨p, hp, hk⟩
  | succ k ih =>
      obtain ⟨hmem, he, hkind⟩ := ChannelDb.mem_paidOf.1 hp
      obtain ⟨q, hq, hqp⟩ := h.below p hmem hkind (by omega)
      have hnext := hqp.next
      exact ih (ChannelDb.mem_paidOf.2 ⟨hq, hqp.eventId.trans he, hqp.kind⟩) (by omega) (by omega)

/-- A paid post that is not the last was posted and closed. -/
theorem earlier (h : Sequenced s) (hp : p ∈ s.paidOf e) (hq : q ∈ s.paidOf e)
    (hlt : p.republishSeq < q.republishSeq) : p.postedAt ≠ none ∧ p.isOpen = false := by
  obtain ⟨r, hr, hseq⟩ := h.upto (n := p.republishSeq + 1) hq hlt
  obtain ⟨hp, hpe, hpk⟩ := ChannelDb.mem_paidOf.1 hp
  obtain ⟨hr, hre, hrk⟩ := ChannelDb.mem_paidOf.1 hr
  obtain ⟨q', hq', hqr⟩ := h.below r hr hrk (by omega)
  have hnext := hqr.next
  have hsame : q' = p := same_of_seq hq' hp (by rw [hqr.eventId, hre, hpe])
    (hqr.kind.trans hpk.symm) (by omega)
  rw [← hsame]
  exact ⟨hqr.posted, hqr.closed⟩

/-- At most one paid post of an event is open. -/
theorem one_open (h : Sequenced s) (hp : p ∈ s.paidOf e) (hq : q ∈ s.paidOf e)
    (hpo : p.isOpen = true) (hqo : q.isOpen = true) : p = q := by
  rcases Nat.lt_trichotomy p.republishSeq q.republishSeq with hlt | heq | hlt
  · rw [(h.earlier hp hq hlt).2] at hpo
    cases hpo
  · obtain ⟨hp, hpe, hpk⟩ := ChannelDb.mem_paidOf.1 hp
    obtain ⟨hq, hqe, hqk⟩ := ChannelDb.mem_paidOf.1 hq
    exact same_of_seq hp hq (hpe.trans hqe.symm) (hpk.trans hqk.symm) heq
  · rw [(h.earlier hq hp hlt).2] at hqo
    cases hqo

/-! What the three kinds of claim find. -/

/-- A renewal of an open post takes a sequence nobody has. -/
theorem fresh_of_current (h : Sequenced s) (hc : s.currentPaidPublication e = some p) :
    Unclaimed s e (p.republishSeq + 1) := by
  intro q hq hseq
  obtain ⟨hp, hopen⟩ := ChannelDb.of_current hc
  have hclosed := (h.earlier hp hq (by omega)).2
  rw [hclosed] at hopen
  cases hopen

/-- Sequence 0 is free exactly while the event has no paid post. -/
theorem fresh_zero (h : Sequenced s) : Unclaimed s e 0 ↔ s.paidOf e = [] := by
  constructor
  · intro hfresh
    rw [List.eq_nil_iff_forall_not_mem]
    intro p hp
    obtain ⟨q, hq, hseq⟩ := h.upto (n := 0) hp (Nat.zero_le _)
    exact hfresh q hq hseq
  · intro hnone p hp
    rw [hnone] at hp
    cases hp

/-- The sequence after the last posted one is free exactly when no paid post waits to be
    posted. -/
theorem fresh_after_previous (h : Sequenced s) (hprev : s.previousPaidPublication e = some p) :
    Unclaimed s e (p.republishSeq + 1) ↔ ∀ q ∈ s.paidOf e, q.postedAt ≠ none := by
  obtain ⟨hp, hposted⟩ := ChannelDb.of_previous hprev
  have hlast : ∀ q ∈ s.paidOf e, q.postedAt ≠ none → q.republishSeq ≤ p.republishSeq := by
    intro q hq hqp
    have hmem : q ∈ (s.paidOf e).filter fun p => p.postedAt.isSome :=
      List.mem_filter.2 ⟨hq, by simpa [Option.isSome_iff_ne_none] using hqp⟩
    exact List.le_of_mem_argmax hmem hprev
  constructor
  · intro hfresh q hq hunposted
    rcases Nat.lt_trichotomy q.republishSeq p.republishSeq with hlt | heq | hlt
    · exact (h.earlier hq hp hlt).1 hunposted
    · obtain ⟨hqm, hqe, hqk⟩ := ChannelDb.mem_paidOf.1 hq
      obtain ⟨hpm, hpe, hpk⟩ := ChannelDb.mem_paidOf.1 hp
      obtain rfl := same_of_seq hqm hpm (hqe.trans hpe.symm) (hqk.trans hpk.symm) heq
      exact hposted hunposted
    · obtain ⟨r, hr, hseq⟩ := h.upto (n := p.republishSeq + 1) hq hlt
      exact hfresh r hr hseq
  · intro hall q hq hseq
    have hle := hlast q hq (hall q hq)
    omega

/-- What stands in the way of a claim has its event, kind and sequence. -/
theorem of_clash (h : Sequenced s) {now : Instant} {kind : ChannelPostKind} {n : Nat}
    (hp : p ∈ s.posts.rows) (hclash : ¬ Row.compatible p (claimedPost s.issued e kind n now)) :
    p.eventId = e ∧ p.kind = kind ∧ p.republishSeq = n := by
  have hcollide : Row.collide p (claimedPost s.issued e kind n now) = true := by
    by_contra hnot
    exact hclash ⟨(h.ids p hp).ne, by simpa using hnot⟩
  simp only [Row.collide, claimedPost, Bool.and_eq_true] at hcollide
  obtain ⟨⟨he, hk⟩, hseq⟩ := hcollide
  exact ⟨of_decide_eq_true he, of_decide_eq_true hk, of_decide_eq_true hseq⟩

/-- A claim goes in exactly when no post has its event, kind and sequence. -/
theorem runs_claimPost_iff (h : Sequenced s) {now : Instant} {kind : ChannelPostKind} {n : Nat}
    (hkind : n = 0 ∨ kind = .PAID) : (∃ s', Runs (claimPost now e kind n) s true s') ↔
      ∀ p ∈ s.posts.rows, p.eventId = e → p.kind = kind → p.republishSeq ≠ n := by
  constructor
  · rintro ⟨s', hrun⟩ p hp he hk hseq
    obtain ⟨-, -, ⟨-, hrows⟩ | ⟨hfalse, -⟩⟩ := claimPost_spec hrun
    · have hcompatible := (Table.compatible_of_insert hrows hp).2
      simp [Row.collide, claimedPost, he, hk, hseq] at hcompatible
    · cases hfalse
  · intro hfresh
    obtain ⟨b, s₁, hinsert⟩ := succeeds_insertRowOrIgnore (ε := AppError) (s := s)
      (r := claimedPost s.issued e kind n now)
      (by rcases hkind with rfl | rfl <;> simp [Row.check, ChannelPostRow.constraints, claimedPost])
    have hrun : Runs (claimPost now e kind n) s b { s₁ with issued := s₁.issued + 1 } := by
      simp only [claimPost, runs_get_bind]
      rw [runs_bind]
      refine ⟨b, s₁, hinsert, ?_⟩
      rw [runs_modify_bind, runs_pure]
      exact ⟨rfl, rfl⟩
    obtain ⟨-, -, ⟨rfl, -⟩ | ⟨-, -, p, hp, hclash⟩⟩ := claimPost_spec hrun
    · exact ⟨_, hrun⟩
    · obtain ⟨he, hk, hseq⟩ := h.of_clash hp hclash
      exact absurd hseq (hfresh p hp he hk)

/-- A paid claim goes in exactly when its sequence is free. -/
theorem runs_claim_iff (h : Sequenced s) {now : Instant} {n : Nat} :
    (∃ s', Runs (claimPaidPublication now e n) s true s') ↔ Unclaimed s e n := by
  rw [claimPaidPublication, h.runs_claimPost_iff (.inr rfl)]
  constructor
  · intro hfree p hp
    obtain ⟨hp, he, hk⟩ := ChannelDb.mem_paidOf.1 hp
    exact hfree p hp he hk
  · exact fun hfree p hp he hk => hfree p (ChannelDb.mem_paidOf.2 ⟨hp, he, hk⟩)

end Sequenced

end Paayatam
