/-
  Paayatam.Channel.SequenceRuns

  Sequence numbers and live posts over whole runs of the channel.

  A claim that passed its checks is refused exactly where `Numbered` fails,
  which reads only the posts before the step; and no event has two posts in
  the channel in a run whose claims are all `Sparing`: made while the event has
  no open post of the other kind.
-/

import Paayatam.Booking.EventCreation
import Paayatam.Channel.Sequences

namespace Paayatam

open Lib

/-! ## What a step moves -/

theorem PostsMove.of_db {s s' : ChannelDb} {db : Db} (h : PostsMove { s with db := db } s') :
    PostsMove s s' := by
  cases h with
  | same hposts hissued => exact .same hposts hissued
  | first hrows hissued => exact .first hrows hissued
  | reinstated hprevious hdown hrows hissued => exact .reinstated hprevious hdown hrows hissued
  | renewed hcurrent hposted hrows hclosed hissued =>
      exact .renewed hcurrent hposted hrows hclosed hissued
  | trending hrows hissued => exact .trending hrows hissued
  | moved hf hrows hissued => exact .moved hf hrows hissued
  | released hkind hposts hissued => exact .released hkind hposts hissued

/-- A post that was handed over free is of a claim that was free. -/
structure Held (w : ChannelWorld) : Prop where
  issued : ∀ post ∈ w.handed, post.postId < w.issued
  free : ∀ post ∈ w.handed, post.kind ≠ .PAID → ∀ p ∈ w.posts.rows, p.id = post.postId →
    p.kind ≠ .PAID

section Effects

variable {w w' : ChannelWorld} {m : ChannelMove} {p : ChannelPostRow}

theorem ChannelEffect.moves (h : ChannelEffect w m w') (hheld : Held w) :
    PostsMove w.store w'.store := by
  have hsame : ∀ {w' : ChannelWorld}, w'.store = w.store → PostsMove w.store w'.store := by
    intro w' hstore
    rw [hstore]
    exact .same rfl le_rfl
  cases h with
  | refused hstore | selected hstore | unposted hstore | listed hstore => exact hsame hstore
  | call _ hclaims => exact (claims_spec hclaims).2.1.of_db
  | publish hrun =>
      obtain ⟨_, _, -, -, hmove, -⟩ := publishToChannel_spec hrun
      exact hmove
  | claimed _ hrun =>
      obtain ⟨-, hissued, ⟨-, hrows⟩ | ⟨hfalse, -⟩⟩ := claimPost_spec hrun
      · exact .trending hrows hissued
      · cases hfalse
  | taken _ hrun =>
      obtain ⟨-, hissued, ⟨hfalse, -⟩ | ⟨-, hposts, -⟩⟩ := claimPost_spec hrun
      · cases hfalse
      · refine .same hposts ?_
        rw [hissued]
        exact Nat.le_succ _
  | posted hrun =>
      rw [markPosted, runs_updateRow] at hrun
      obtain ⟨p, -, t, ht, hs⟩ := hrun
      rw [hs]
      exact .moved (forward_posted _ _) ht rfl
  | takenDown hrun =>
      rw [markTakenDown, runs_updateRow] at hrun
      obtain ⟨p, -, t, ht, hs⟩ := hrun
      rw [hs]
      exact .moved (forward_takenDown _) ht rfl
  | released hpost hkind hrun =>
      rw [releaseClaim, runs_deleteRows] at hrun
      rw [hrun]
      exact .released (fun p hp hid => hheld.free _ hpost hkind p hp hid) rfl rfl

/-- Which call claims a new post, and for which event. -/
inductive ClaimedBy (w w' : ChannelWorld) (p : ChannelPostRow) : ChannelMove → Prop
  | registered {env : Env} {host : UserId} {input : CreateEventInput} {seeded : Bool} {ev : EventRow}
      (hkind : p.kind = .PAID) (hfree : ∀ ev ∈ w.db.events.rows, ev.id ≠ p.eventId)
      (hev : w'.db.events.find? p.eventId = some ev) (hstatus : ev.status = .PUBLISHED) :
      ClaimedBy w w' p (.call env (.create host input seeded p.eventId))
  | restored {env : Env} {op : Op} {q : ChannelPostRow} (hkind : p.kind = .PAID)
      (hop : op.restores w.db = some p.eventId) (hq : q ∈ w.posts.rows)
      (he : q.eventId = p.eventId) (hrun : Runs (op.act env) w.db () w'.db) :
      ClaimedBy w w' p (.call env op)
  | published {env : ChannelEnv} {host : UserId} {locked : EventRow} (hkind : p.kind = .PAID)
      (hev : w.db.events.find? p.eventId = some locked) (hstatus : locked.status = .PUBLISHED)
      (hevents : w'.db.events = w.db.events) :
      ClaimedBy w w' p (.publishToChannel env host p.eventId)
  | trending {now : Instant} {i : Nat} {candidate : EventRow × Nat} (hkind : p.kind = .TRENDING)
      (he : p.eventId = candidate.1.id) (hcandidate : w.candidates[i]? = some candidate) :
      ClaimedBy w w' p (.claimPending now i)

theorem create_fresh {env : Env} {host : UserId} {input : CreateEventInput} {seeded : Bool}
    {e : EventId} {s s' : Db} (h : Runs ((Op.create host input seeded e).act env) s () s') :
    ∀ ev ∈ s.events.rows, ev.id ≠ e := by
  intro ev hev
  obtain ⟨_, hrun⟩ := runs_drop.1 h
  obtain ⟨-, row, _, hrow, hrows⟩ := create_spec hrun
  have hne := (Table.compatible_of_insert hrows hev).1
  rw [← hrow.id]
  exact hne

/-- A post after a step was there before it, or was claimed by a call that may. -/
theorem ChannelEffect.origin (h : ChannelEffect w m w') (hheld : Held w) (hp : p ∈ w'.posts.rows) :
    (∃ q ∈ w.posts.rows, Descends q p) ∨ (NewPost w.store w'.store p ∧ ClaimedBy w w' p m) := by
  rcases (h.moves hheld).origin hp with hold | hnew
  · exact .inl hold
  · by_cases hmem : p ∈ w.posts.rows
    · exact .inl ⟨p, hmem, .refl p⟩
    · refine .inr ⟨hnew, ?_⟩
      have hissued := hnew.issued
      cases h with
      | refused hstore | selected hstore | unposted hstore | listed hstore =>
          rw [hstore] at hissued
          exact absurd hissued (Nat.lt_succ_self _).ne
      | @call env op _ hrun hclaims =>
          rcases (claims_spec hclaims).2.2 p hp hmem with ⟨hkind, ⟨hop, q, hq, he⟩ |
            ⟨host, input, seeded, rfl, ev, hev, hstatus⟩⟩
          · exact .restored hkind hop hq he hrun
          · exact .registered hkind (create_fresh hrun) hev hstatus
      | @publish env host e _ hrun =>
          obtain ⟨locked, _, hrenewable, hevents, -, hall⟩ := publishToChannel_spec hrun
          obtain ⟨rfl, hkind⟩ := (hall p hp).resolve_right hmem
          exact .published hkind hrenewable.found hrenewable.status hevents
      | claimed hcandidate hrun =>
          obtain ⟨-, -, ⟨-, hrows⟩ | ⟨hfalse, -⟩⟩ := claimPost_spec hrun
          · have hp' : p ∈ w'.store.posts.rows := hp
            rw [hrows, List.mem_append, List.mem_singleton] at hp'
            obtain rfl := hp'.resolve_left hmem
            exact .trending rfl rfl hcandidate
          · cases hfalse
      | taken _ hrun =>
          obtain ⟨-, -, ⟨hfalse, -⟩ | ⟨-, hposts, -⟩⟩ := claimPost_spec hrun
          · cases hfalse
          · have hsame : w'.posts = w.posts := hposts
            rw [hsame] at hp
            exact absurd hp hmem
      | posted hrun | takenDown hrun =>
          simp only [markPosted, markTakenDown, runs_updateRow] at hrun
          obtain ⟨p, -, t, -, hs⟩ := hrun
          rw [hs] at hissued
          exact absurd hissued (Nat.lt_succ_self _).ne
      | released _ _ hrun =>
          rw [releaseClaim, runs_deleteRows] at hrun
          rw [hrun] at hissued
          exact absurd hissued (Nat.lt_succ_self _).ne

theorem mem_unpostedPaid {s : ChannelDb} {limit : Nat} (h : p ∈ s.unpostedPaid limit) :
    p ∈ s.posts.rows ∧ p.kind = .PAID ∧ p.postedAt = none ∧ p.deletedAt = none := by
  have hmem := (List.mem_insertionSort _).1 (List.mem_of_mem_take h)
  simpa [and_assoc] using hmem

theorem mem_findUnpostedPaid {env : ChannelEnv} {s : ChannelDb} {limit : Nat}
    {post : PublishablePost} (h : post ∈ findUnpostedPaid env s limit) :
    ∃ p ∈ s.unpostedPaid limit, ∃ ev, s.db.events.find? p.eventId = some ev ∧
      post = toPublishable p.id .PAID ev (s.db.pendingCount ev.id) := by
  unfold findUnpostedPaid at h
  split at h
  · cases h
  · obtain ⟨p, hp, hmap⟩ := List.mem_filterMap.1 h
    obtain ⟨ev, hev, rfl⟩ := Option.map_eq_some_iff.1 hmap
    exact ⟨p, hp, ev, hev, rfl⟩

/-- A post the publisher is given was given before, is of an unposted paid claim, or of the
    free claim just made. -/
theorem ChannelEffect.handed (h : ChannelEffect w m w') {post : PublishablePost}
    (hpost : post ∈ w'.handed) :
    post ∈ w.handed ∨
    (∃ env limit, m = .findUnpostedPaid env limit ∧ post ∈ findUnpostedPaid env w.store limit) ∨
    ∃ now i candidate, m = .claimPending now i ∧ w.candidates[i]? = some candidate ∧
      post = toPublishable w.issued .TRENDING candidate.1 candidate.2 ∧
      Runs (claimTrending now candidate.1.id) w.store true w'.store := by
  cases h with
  | refused _ hsweeps | call _ _ hsweeps | publish _ hsweeps | taken _ _ hsweeps | posted _ hsweeps
  | takenDown _ hsweeps | released _ _ _ hsweeps =>
      rw [hsweeps.handed] at hpost
      exact .inl hpost
  | selected _ _ hhanded | listed _ _ hhanded =>
      rw [hhanded] at hpost
      exact .inl hpost
  | claimed hcandidate hrun _ hhanded =>
      rw [hhanded, List.mem_append, List.mem_singleton] at hpost
      rcases hpost with hold | rfl
      · exact .inl hold
      · exact .inr (.inr ⟨_, _, _, rfl, hcandidate, rfl, hrun⟩)
  | unposted _ _ hhanded =>
      rw [hhanded, List.mem_append] at hpost
      rcases hpost with hold | hnew
      · exact .inl hold
      · exact .inr (.inl ⟨_, _, rfl, hnew⟩)

theorem Held.step (hheld : Held w) (hseq : Sequenced w.store) (h : ChannelEffect w m w') :
    Held w' where
  issued post hpost := by
    have hle : w.issued ≤ w'.issued := (h.moves hheld).issued_le
    rcases h.handed hpost with hold | ⟨env, limit, rfl, hnew⟩ | ⟨now, i, candidate, rfl, -, rfl, hrun⟩
    · exact lt_of_lt_of_le (hheld.issued post hold) hle
    · obtain ⟨p, hp, ev, -, rfl⟩ := mem_findUnpostedPaid hnew
      exact lt_of_lt_of_le (hseq.ids p (mem_unpostedPaid hp).1) hle
    · have hissued : w'.issued = w.issued + 1 := (claimPost_spec hrun).2.1
      rw [hissued]
      exact Nat.lt_succ_self _
  free post hpost hkind p hp hid := by
    rcases h.handed hpost with hold | ⟨env, limit, rfl, hnew⟩ | ⟨now, i, candidate, rfl, -, rfl, hrun⟩
    · rcases (h.moves hheld).origin hp with ⟨q, hq, hqp⟩ | hnew
      · rw [hqp.kind]
        exact hheld.free post hold hkind q hq (hqp.id.symm.trans hid)
      · have hlt := hheld.issued post hold
        rw [← hid, hnew.id] at hlt
        exact absurd hlt (lt_irrefl _)
    · obtain ⟨_, -, ev, -, rfl⟩ := mem_findUnpostedPaid hnew
      exact absurd rfl hkind
    · obtain ⟨-, -, ⟨-, hrows⟩ | ⟨hfalse, -⟩⟩ := claimPost_spec hrun
      · have hp' : p ∈ w'.store.posts.rows := hp
        rw [hrows, List.mem_append, List.mem_singleton] at hp'
        rcases hp' with hp' | rfl
        · have hlt := hseq.ids p hp'
          rw [hid] at hlt
          exact absurd hlt (lt_irrefl _)
        · simp [claimedPost]
      · cases hfalse

/-- An event that was there is there after an operation. -/
theorem Op.event_persists {env : Env} {op : Op} {s s' : Db} (h : Runs (op.act env) s () s')
    {ev : EventRow} (hev : ev ∈ s.events.rows) : ∃ ev' ∈ s'.events.rows, ev'.id = ev.id := by
  have hchange : ∃ k, Change env k s s' := by
    rcases Op.effect h with heffect | ⟨k, -, heffect⟩
    · exact ⟨_, heffect.change⟩
    · exact ⟨k, heffect.change⟩
  obtain ⟨k, hchange⟩ := hchange
  obtain ⟨ev', hev', hmove⟩ := hchange.event_fate hev
  exact ⟨ev', hev', hmove.id⟩

/-- The events of a step are those an operation leaves, or those that were there. -/
theorem ChannelEffect.events (h : ChannelEffect w m w') : w'.db.events = w.db.events ∨
    ∃ env op, m = .call env op ∧ Runs (op.act env) w.db () w'.db := by
  have hsame : ∀ {w' : ChannelWorld}, w'.store.db.events = w.db.events → w'.db.events = w.db.events :=
    fun h => h
  cases h with
  | refused hstore | selected hstore | unposted hstore | listed hstore =>
      exact .inl (hsame (by rw [hstore]; rfl))
  | call hrun => exact .inr ⟨_, _, rfl, hrun⟩
  | publish hrun =>
      obtain ⟨_, _, -, hevents, -⟩ := publishToChannel_spec hrun
      exact .inl (hsame hevents)
  | claimed _ hrun | taken _ hrun =>
      exact .inl (hsame (congrArg Db.events (claimPost_spec hrun).1))
  | posted hrun | takenDown hrun =>
      simp only [markPosted, markTakenDown, runs_updateRow] at hrun
      obtain ⟨_, -, _, -, hs⟩ := hrun
      exact .inl (hsame (by rw [hs]; rfl))
  | released _ _ hrun =>
      rw [releaseClaim, runs_deleteRows] at hrun
      exact .inl (hsame (by rw [hrun]; rfl))

theorem ChannelEffect.event_persists (h : ChannelEffect w m w') {ev : EventRow}
    (hev : ev ∈ w.db.events.rows) : ∃ ev' ∈ w'.db.events.rows, ev'.id = ev.id := by
  rcases h.events with hsame | ⟨env, op, -, hrun⟩
  · exact ⟨ev, hsame ▸ hev, rfl⟩
  · exact Op.event_persists hrun hev

/-- Posts and candidates are of events that are there. -/
structure Owned (w : ChannelWorld) : Prop where
  posts : ∀ p ∈ w.posts.rows, ∃ ev ∈ w.db.events.rows, ev.id = p.eventId
  candidates : ∀ c ∈ w.candidates, ∃ ev ∈ w.db.events.rows, ev.id = c.1.id

theorem mem_trendingCandidates {env : ChannelEnv} {s : ChannelDb} {limit : Nat}
    {c : EventRow × Nat} (h : c ∈ trendingCandidates env s limit) :
    c.1 ∈ s.db.events.rows ∧ c.1.Allowed env.env.now ∧
      ∀ p ∈ s.paidOf c.1.id, p.deletedAt ≠ none := by
  unfold trendingCandidates at h
  split at h
  · cases h
  · obtain ⟨ev, hev, rfl⟩ := List.mem_map.1 h
    have hmem := List.mem_filter.1 ((List.mem_insertionSort _).1 (List.mem_of_mem_take hev))
    simp only [Bool.and_eq_true, decide_eq_true_eq, Bool.not_eq_true', List.any_eq_false,
      Option.isNone_iff_eq_none] at hmem
    exact ⟨hmem.1, hmem.2.1.1, hmem.2.2⟩

theorem Owned.step (howned : Owned w) (hheld : Held w) (h : ChannelEffect w m w') : Owned w' where
  posts p hp := by
    rcases h.origin hheld hp with ⟨q, hq, hqp⟩ | ⟨-, hclaimed⟩
    · obtain ⟨ev, hev, he⟩ := howned.posts q hq
      obtain ⟨ev', hev', he'⟩ := h.event_persists hev
      exact ⟨ev', hev', by rw [he', he, hqp.eventId]⟩
    · cases hclaimed with
      | registered _ _ hev => exact ⟨_, Table.mem_of_find? hev, Table.key_of_find? hev⟩
      | restored _ _ hq he =>
          obtain ⟨ev, hev, heq⟩ := howned.posts _ hq
          obtain ⟨ev', hev', he'⟩ := h.event_persists hev
          exact ⟨ev', hev', by rw [he', heq, he]⟩
      | published _ hev =>
          obtain ⟨ev', hev', he'⟩ := h.event_persists (Table.mem_of_find? hev)
          exact ⟨ev', hev', he'.trans (Table.key_of_find? hev)⟩
      | trending _ he hcandidate =>
          obtain ⟨ev, hev, heq⟩ := howned.candidates _ (List.mem_of_getElem? hcandidate)
          obtain ⟨ev', hev', he'⟩ := h.event_persists hev
          exact ⟨ev', hev', by rw [he', heq, he]⟩
  candidates c hc := by
    have horigin : c ∈ w.candidates ∨ c.1 ∈ w.db.events.rows := by
      cases h with
      | refused _ hsweeps | call _ _ hsweeps | publish _ hsweeps | taken _ _ hsweeps
      | posted _ hsweeps | takenDown _ hsweeps | released _ _ _ hsweeps =>
          exact .inl (hsweeps.candidates ▸ hc)
      | claimed _ _ hcandidates | unposted _ hcandidates | listed _ hcandidates =>
          exact .inl (hcandidates ▸ hc)
      | selected _ hcandidates =>
          rw [hcandidates, List.mem_append] at hc
          exact hc.imp_right fun hnew => (mem_trendingCandidates hnew).1
    rcases horigin with hold | hnew
    · obtain ⟨ev, hev, he⟩ := howned.candidates c hold
      obtain ⟨ev', hev', he'⟩ := h.event_persists hev
      exact ⟨ev', hev', he'.trans he⟩
    · exact h.event_persists hnew

end Effects

/-! ## Posts of two kinds -/

/-- The event has no open post of the kind. -/
def ChannelDb.closed (s : ChannelDb) (e : EventId) (kind : ChannelPostKind) : Prop :=
  ∀ p ∈ s.posts.rows, p.eventId = e → p.kind = kind → p.isOpen = false

/-- What the step claims, it claims while the event has no open post of the other kind. -/
def ChannelMove.Sparing (w : ChannelWorld) : ChannelMove → Prop
  | .call _ op => ∀ e, op.restores w.db = some e → w.store.closed e .TRENDING
  | .publishToChannel _ _ e => w.store.closed e .TRENDING
  | .claimPending _ i => ∀ candidate, w.candidates[i]? = some candidate →
    w.store.closed candidate.1.id .PAID
  | _ => True

/-- No event has an open paid post and an open free one. -/
def Apart (s : ChannelDb) : Prop :=
  ∀ p ∈ s.posts.rows, ∀ q ∈ s.posts.rows, p.eventId = q.eventId → p.kind = .PAID →
    q.kind = .TRENDING → p.isOpen = true → q.isOpen = false

section Kinds

variable {w w' : ChannelWorld} {m : ChannelMove}

/-- A paid claim of a sparing step finds no open free post. -/
theorem closed_of_paid {p : ChannelPostRow} (howned : Owned w) (hsparing : m.Sparing w)
    (hclaimed : ClaimedBy w w' p m) (hkind : p.kind = .PAID) :
    w.store.closed p.eventId .TRENDING := by
  cases hclaimed with
  | registered _ hfree =>
      -- an event that was just created has no post
      intro q hq he _
      obtain ⟨ev, hev, hid⟩ := howned.posts q hq
      exact absurd (hid.trans he) (hfree ev hev)
  | restored _ hop => exact hsparing _ hop
  | published => exact hsparing
  | trending htrending =>
      rw [htrending] at hkind
      cases hkind

theorem Apart.step (hapart : Apart w.store) (howned : Owned w) (hheld : Held w)
    (hsparing : m.Sparing w) (h : ChannelEffect w m w') : Apart w'.store := by
  intro p hp q hq he hpk hqk hopen
  by_contra hqo
  have hqo : q.isOpen = true := by simpa using hqo
  rcases h.origin hheld hp with ⟨p₀, hp₀, hpp⟩ | ⟨hnewp, hclaimp⟩
  · rcases h.origin hheld hq with ⟨q₀, hq₀, hqq⟩ | ⟨-, hclaimq⟩
    · have hclosed := hapart p₀ hp₀ q₀ hq₀ (by rw [← hpp.eventId, he, hqq.eventId])
        (hpp.kind.symm.trans hpk) (hqq.kind.symm.trans hqk) (hpp.opened hopen)
      rw [hqq.opened hqo] at hclosed
      cases hclosed
    · -- a free claim, made while the paid post was open
      have hclosed : p₀.isOpen = false := by
        cases hclaimq with
        | trending _ hce hcandidate =>
            exact hsparing _ hcandidate p₀ hp₀ (by rw [← hpp.eventId, he, hce])
              (hpp.kind.symm.trans hpk)
        | registered hkind | restored hkind | published hkind =>
            rw [hkind] at hqk
            cases hqk
      rw [hpp.opened hopen] at hclosed
      cases hclosed
  · rcases h.origin hheld hq with ⟨q₀, hq₀, hqq⟩ | ⟨hnewq, -⟩
    · have hclosed := closed_of_paid howned hsparing hclaimp hpk q₀ hq₀
        (by rw [← hqq.eventId, ← he]) (hqq.kind.symm.trans hqk)
      rw [hqq.opened hqo] at hclosed
      cases hclosed
    · have hsame : p = q := Table.eq_of_key hp hq (hnewp.id.trans hnewq.id.symm)
      rw [hsame, hqk] at hpk
      cases hpk

end Kinds

/-! ## PaidClaim that passed their checks -/

/-- A step comes to claim sequence `n` for the event `e`: every check before the insert has
    passed. -/
inductive PaidClaim (w : ChannelWorld) : ChannelMove → Instant → EventId → Nat → Prop
  | registered {env : Env} {host : UserId} {input : CreateEventInput} {seeded : Bool} {e : EventId}
      {db : Db} {ev : EventRow} (hrun : Runs ((Op.create host input seeded e).act env) w.db () db)
      (hev : db.events.find? e = some ev) (hstatus : ev.status = .PUBLISHED)
      (hchannel : env.channelPublishable = true) :
      PaidClaim w (.call env (.create host input seeded e)) env.now e 0
  | reinstated {env : Env} {op : Op} {e : EventId} {previous : ChannelPostRow}
      (hcommits : commits (op.act env) w.db = true) (hop : op.restores w.db = some e)
      (hprevious : w.store.previousPaidPublication e = some previous)
      (hdown : previous.deletedAt ≠ none) :
      PaidClaim w (.call env op) env.now e (previous.republishSeq + 1)
  | renewed {env : ChannelEnv} {host : UserId} {e : EventId} {locked : EventRow}
      {current : Option ChannelPostRow}
      (hcheck : Runs (checkPublication env host e) w.store (locked, current) w.store) :
      PaidClaim w (.publishToChannel env host e) env.env.now e (nextSequence current)

/-- The posts are as the claim of the step counts them: a renewal of nothing finds no paid
    post at all, and an event is put back with no paid post waiting. -/
def ChannelMove.Numbered (w : ChannelWorld) : ChannelMove → Prop
  | .call _ op => ∀ e, op.restores w.db = some e → ∀ p ∈ w.store.paidOf e, p.postedAt ≠ none
  | .publishToChannel _ _ e =>
    w.store.currentPaidPublication e = none → w.store.paidOf e = []
  | _ => True

theorem unclaimed_iff {w : ChannelWorld} {m : ChannelMove} {now : Instant} {e : EventId} {n : Nat}
    (hseq : Sequenced w.store) (howned : Owned w) (h : PaidClaim w m now e n) :
    Unclaimed w.store e n ↔ m.Numbered w := by
  cases h with
  | registered hrun =>
      have hfree := create_fresh hrun
      have hnone : w.store.paidOf e = [] := by
        rw [List.eq_nil_iff_forall_not_mem]
        intro p hp
        obtain ⟨hp, he, -⟩ := ChannelDb.mem_paidOf.1 hp
        obtain ⟨ev, hev, hid⟩ := howned.posts p hp
        exact hfree ev hev (hid.trans he)
      exact ⟨fun _ e' he' => (nomatch he'), fun _ => hseq.fresh_zero.2 hnone⟩
  | reinstated _ hop hprevious =>
      rw [hseq.fresh_after_previous hprevious]
      constructor
      · intro hall e' he'
        obtain rfl := Option.some.inj (hop.symm.trans he')
        exact hall
      · exact fun hall => hall _ hop
  | @renewed env host _ locked current hcheck =>
      obtain ⟨-, hrenewable⟩ := checkPublication_spec hcheck
      have hrenews := hrenewable.renews.symm
      cases current with
      | none =>
          rw [nextSequence, hseq.fresh_zero]
          exact ⟨fun hnone _ => hnone, fun hnumbered => hnumbered hrenews⟩
      | some current =>
          refine ⟨fun _ hnone => ?_, fun _ => hseq.fresh_of_current hrenews⟩
          rw [hrenews] at hnone
          cases hnone

/-! ## Runs -/

/-- What every state of a run keeps. -/
structure ChannelSound (w : ChannelWorld) : Prop where
  sequenced : Sequenced w.store
  held : Held w
  owned : Owned w

theorem channelSound_initial : ChannelSound .initial :=
  ⟨⟨by simp [ChannelWorld.initial, ChannelWorld.store],
      by simp [ChannelWorld.initial, ChannelWorld.store],
      by simp [ChannelWorld.initial, ChannelWorld.store]⟩,
    ⟨by simp [ChannelWorld.initial], by simp [ChannelWorld.initial]⟩,
    ⟨by simp [ChannelWorld.initial], by simp [ChannelWorld.initial]⟩⟩

theorem ChannelSound.step {w w' : ChannelWorld} {m : ChannelMove} (h : ChannelSound w)
    (hstep : w.Step m w') : ChannelSound w' := by
  have heffect := ChannelWorld.step_effect hstep
  exact ⟨h.sequenced.move (heffect.moves h.held), h.held.step h.sequenced heffect,
    h.owned.step h.held heffect⟩

theorem channelSound_of_reach {guard : ChannelWorld → ChannelMove → Prop} {w : ChannelWorld}
    (h : Reach ChannelWorld.Init ChannelWorld.Step guard w) : ChannelSound w := by
  refine h.invariant (I := ChannelSound) (fun w hw => ?_) fun _ _ _ hs _ hstep => hs.step hstep
  rw [hw]
  exact channelSound_initial

/-- No event has two posts in the channel. -/
def OneLive (w : ChannelWorld) : Prop :=
  ∀ p ∈ w.posts.rows, ∀ q ∈ w.posts.rows, p.eventId = q.eventId → p.isLive = true →
    q.isLive = true → p = q

theorem ChannelPostRow.isOpen_of_live {p : ChannelPostRow} (h : p.isLive = true) :
    p.isOpen = true := by
  rw [isLive, Bool.and_eq_true] at h
  exact h.2

/-- A free post is numbered 0. -/
theorem republishSeq_of_trending {s : ChannelDb} {p : ChannelPostRow} (hp : p ∈ s.posts.rows)
    (hkind : p.kind = .TRENDING) : p.republishSeq = 0 := by
  have hcheck : p.constraints = true := s.posts.valid p hp
  simp only [ChannelPostRow.constraints, hkind, Bool.and_eq_true, Bool.or_eq_true,
    decide_eq_true_eq, reduceCtorEq, or_false] at hcheck
  exact hcheck.2

/-- Two open posts of an event are one paid and one free. -/
theorem Sequenced.same_of_kind {s : ChannelDb} {p q : ChannelPostRow} (h : Sequenced s)
    (hp : p ∈ s.posts.rows) (hq : q ∈ s.posts.rows) (he : p.eventId = q.eventId)
    (hkind : p.kind = q.kind) (hpo : p.isOpen = true) (hqo : q.isOpen = true) : p = q := by
  rcases h.kinds p hp with hpaid | htrending
  · exact h.one_open (ChannelDb.mem_paidOf.2 ⟨hp, rfl, hpaid⟩)
      (ChannelDb.mem_paidOf.2 ⟨hq, he.symm, hkind.symm.trans hpaid⟩) hpo hqo
  · refine Sequenced.same_of_seq hp hq he hkind ?_
    rw [republishSeq_of_trending hp htrending,
      republishSeq_of_trending hq (hkind.symm.trans htrending)]

theorem oneLive_of_apart {w : ChannelWorld} (hseq : Sequenced w.store) (hapart : Apart w.store) :
    OneLive w := by
  intro p hp q hq he hpl hql
  have hpo := ChannelPostRow.isOpen_of_live hpl
  have hqo := ChannelPostRow.isOpen_of_live hql
  have hclash : ∀ {a b : ChannelPostRow}, a ∈ w.posts.rows → b ∈ w.posts.rows →
      a.eventId = b.eventId → a.kind = .PAID → b.kind = .TRENDING → a.isOpen = true →
      b.isOpen = true → False := by
    intro a b ha hb hab hak hbk hao hbo
    have hclosed := hapart a ha b hb hab hak hbk hao
    rw [hbo] at hclosed
    cases hclosed
  rcases hseq.kinds p hp with hpk | hpk <;> rcases hseq.kinds q hq with hqk | hqk
  · exact hseq.same_of_kind hp hq he (hpk.trans hqk.symm) hpo hqo
  · exact (hclash hp hq he hpk hqk hpo hqo).elim
  · exact (hclash hq hp he.symm hqk hpk hqo hpo).elim
  · exact hseq.same_of_kind hp hq he (hpk.trans hqk.symm) hpo hqo

/-- What holds of the claims of a run, and of the posts it leaves. -/
structure SequencesKept (tr : ChannelTrace) (w : ChannelWorld) : Prop where
  claims : ∀ x ∈ tr, ∀ now e n, PaidClaim x.1 x.2.1 now e n →
    ((∃ s', Runs (claimPaidPublication now e n) x.1.store true s') ↔ x.2.1.Numbered x.1)
  live : (∀ x ∈ tr, x.2.1.Sparing x.1) → OneLive w

/-- In every run, a claim that passed its checks is let in exactly when the posts are as it
    counts them; and where every claim is made while the event has no open post of the other
    kind, no event has two posts in the channel. -/
theorem channel_sequences {tr : ChannelTrace} {w : ChannelWorld}
    (h : Lib.Run ChannelWorld.Init ChannelWorld.Step (fun _ _ => True) tr w) :
    SequencesKept tr w where
  claims := h.steps (P := fun w m _ => ∀ now e n, PaidClaim w m now e n →
      ((∃ s', Runs (claimPaidPublication now e n) w.store true s') ↔ m.Numbered w))
    fun w m w' hreach _ _ now e n hclaims => by
      have hsound := channelSound_of_reach hreach
      rw [hsound.sequenced.runs_claim_iff]
      exact unclaimed_iff hsound.sequenced hsound.owned hclaims
  live hsparing := by
    have hreach := (h.guarded (G := fun w m => m.Sparing w) hsparing).reach
    have hapart : Apart w.store := by
      refine hreach.invariant_of (I := fun w => Apart w.store) (J := ChannelSound)
        (fun _ hr => channelSound_of_reach hr) (fun w hw => ?_) ?_
      · rw [hw]
        intro p hp
        simp [ChannelWorld.initial, ChannelWorld.store] at hp
      · intro w m w' hapart hsound _ hsparing hstep
        exact hapart.step hsound.owned hsound.held hsparing (ChannelWorld.step_effect hstep)
    exact oneLive_of_apart (channelSound_of_reach hreach).sequenced hapart

/-! ## Executed runs -/

/-- The default settings of the channel, `hours` past the epoch. -/
def demoChannelEnv (hours : Int) : ChannelEnv where
  env := { demoEnv hours with channelPublishable := true }
  channel_enabled := 1
  channel_trending_request_threshold := 1
  economy_event_channel_send_coins := 8
  mayChannelSend _ := true

/-- `op`, called at `hours` past the epoch while the channel is on. -/
def channelCall (hours : Int) (op : Op) : ChannelMove := .call (demoChannelEnv hours).env op

/-- Event 7 is registered with its post, the post is sent, and the host renews it. -/
def renewedMoves : List ChannelMove :=
  [channelCall 0 (.moveCoins (onboardingReward 1 100)),
   channelCall 1 (.create 1 (demoEvent 100 2) false 7), .findUnpostedPaid (demoChannelEnv 2) 20,
   .markPosted (2 * msPerHour) 0 501, .publishToChannel (demoChannelEnv 3) 1 7]

/-- The event is hidden before the renewal is sent, and its first post comes down. -/
def hiddenMoves : List ChannelMove := renewedMoves ++
  [channelCall 4 (.moderateEvent true 7 .HIDE "reported"), .findTakedowns (4 * msPerHour),
   .markTakenDown (4 * msPerHour) 0]

/-- The moderator puts it back. -/
def restoreOp : Op := .moderateEvent true 7 .PUBLISH "cleared"

/-- Event 7 is registered while the channel is off, comes into the channel by a request, and
    is bought a post. -/
def boughtMoves : List ChannelMove :=
  [channelCall 0 (.moveCoins (onboardingReward 1 100)),
   channelCall 0 (.moveCoins (onboardingReward 2 100)),
   .call (demoEnv 1) (.create 1 (demoEvent 100 2) false 7), channelCall 1 (.join 2 7 21),
   .selectPending (demoChannelEnv 2) 20, .claimPending (2 * msPerHour) 0,
   .markPosted (2 * msPerHour) 0 501, .publishToChannel (demoChannelEnv 3) 1 7,
   .findUnpostedPaid (demoChannelEnv 4) 20, .markPosted (4 * msPerHour) 1 502]

theorem channel_sequences_renewed : ∃ tr w, SequencesKept tr w ∧ w.posts.rows.length = 2 := by
  have hplay : (runList ChannelWorld.exec .initial renewedMoves).any (fun w =>
      decide (w.posts.rows.length = 2)) = true := by decide
  obtain ⟨w, hw, hlen⟩ := (Option.any_eq_true _ _).1 hplay
  have hrun := run_of_runList (G := fun _ _ => True) (g := fun _ _ => true)
    (I := ChannelWorld.Init) (fun _ _ _ h => h) (fun _ _ _ => trivial) (.start rfl)
    (by decide) hw
  exact ⟨_, w, channel_sequences hrun, of_decide_eq_true hlen⟩

/-- An event hidden while its renewal waits cannot be put back: the sequence its post would
    take is the renewal's.  And an event that came into the channel by requests has two posts
    there once its host buys one. -/
theorem sequence_taken :
    (∃ w, Reachable ChannelWorld.Init ChannelWorld.Step w ∧
      PaidClaim w (channelCall 5 restoreOp) (5 * msPerHour) 7 1 ∧
      (¬ ∃ s', Runs (claimPaidPublication (5 * msPerHour) 7 1) w.store true s') ∧
      commits (restoreOp.published (demoChannelEnv 5).env) w.store = false) ∧
    ∃ w, Reachable ChannelWorld.Init ChannelWorld.Step w ∧ ¬ OneLive w := by
  constructor
  · have hplay : (runList ChannelWorld.exec .initial hiddenMoves).any (fun w =>
        commits (restoreOp.act (demoChannelEnv 5).env) w.db &&
        (w.store.previousPaidPublication 7).any (fun p =>
          decide (p.republishSeq = 0) && p.deletedAt.isSome) &&
        (w.store.paidOf 7).any (fun p => decide (p.republishSeq = 1)) &&
        !commits (restoreOp.published (demoChannelEnv 5).env) w.store) = true := by
      decide
    obtain ⟨w, hw, hall⟩ := (Option.any_eq_true _ _).1 hplay
    simp only [Bool.and_eq_true, Bool.not_eq_true'] at hall
    obtain ⟨⟨⟨hcommits, hprevious⟩, htaken⟩, haborts⟩ := hall
    obtain ⟨previous, hprev, hp⟩ := (Option.any_eq_true _ _).1 hprevious
    rw [Bool.and_eq_true] at hp
    obtain ⟨p, hp₁, hseq⟩ := List.any_eq_true.1 htaken
    have hreach : Reachable ChannelWorld.Init ChannelWorld.Step w :=
      reachable_of_runList (fun _ _ _ h => h) (.start rfl) hw
    refine ⟨w, hreach, ?_, ?_, haborts⟩
    · have hzero : previous.republishSeq = 0 := of_decide_eq_true hp.1
      have hclaim : PaidClaim w (channelCall 5 restoreOp) (5 * msPerHour) 7
          (previous.republishSeq + 1) :=
        .reinstated hcommits rfl hprev (Option.isSome_iff_ne_none.1 hp.2)
      rw [hzero] at hclaim
      exact hclaim
    · rw [(channelSound_of_reach hreach).sequenced.runs_claim_iff]
      exact fun hfree => hfree p hp₁ (of_decide_eq_true hseq)
  · have hplay : (runList ChannelWorld.exec .initial boughtMoves).any (fun w =>
        w.posts.rows.any fun p => p.isLive && w.posts.rows.any fun q => q.isLive &&
          decide (p.eventId = q.eventId) && decide (p ≠ q)) = true := by decide
    obtain ⟨w, hw, hall⟩ := (Option.any_eq_true _ _).1 hplay
    obtain ⟨p, hp, hall⟩ := List.any_eq_true.1 hall
    rw [Bool.and_eq_true] at hall
    obtain ⟨q, hq, htwo⟩ := List.any_eq_true.1 hall.2
    simp only [Bool.and_eq_true, decide_eq_true_eq] at htwo
    refine ⟨w, reachable_of_runList (fun _ _ _ h => h) (.start rfl) hw, fun hone => ?_⟩
    exact htwo.2 (hone p hp q hq htwo.1.2 hall.1 htwo.1.1)

end Paayatam
