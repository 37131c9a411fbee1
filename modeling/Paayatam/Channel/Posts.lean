/-
  Paayatam.Channel.Posts

  The channel as a system: the operations of the world, renewals, and the
  statements of the sweeps, in any order.

  What a sweep has selected, what the publisher was handed and what a takedown
  pass listed stay available, so a worker that is slow, restarted or doubled
  may act on them at any later time.  `PostsMove` has one constructor for each
  thing a step can do to the posts; the invariants are case analyses on it.
-/

import Paayatam.Booking.Frame
import Paayatam.Channel.Service

namespace Paayatam

open Lib

/-! ## The system -/

structure ChannelWorld where
  world : World
  posts : Table ChannelPostRow
  issued : PostId
  /-- Events a pass of `claimPending` selected, with their pending requests. -/
  candidates : List (EventRow × Nat)
  /-- Posts the publisher was given. -/
  handed : List PublishablePost
  /-- Posts a pass of `findTakedowns` listed. -/
  takedowns : List PostId

inductive ChannelMove where
  | call (env : Env) (op : Op)
  | publishToChannel (env : ChannelEnv) (host : UserId) (e : EventId)
  /-- The query of `claimPending`. -/
  | selectPending (env : ChannelEnv) (limit : Nat)
  /-- One round of its loop, for the candidate at `i`. -/
  | claimPending (now : Instant) (i : Nat)
  | findUnpostedPaid (env : ChannelEnv) (limit : Nat)
  /-- Telegram took the post handed over at `i`. -/
  | markPosted (now : Instant) (i : Nat) (telegramMessageId : Int)
  /-- Telegram refused it. -/
  | releaseClaim (now : Instant) (i : Nat)
  | findTakedowns (now : Instant)
  | markTakenDown (now : Instant) (postId : PostId)

namespace ChannelWorld

def db (w : ChannelWorld) : Db := w.world.db

def clock (w : ChannelWorld) : Instant := w.world.clock

def store (w : ChannelWorld) : ChannelDb := ⟨w.world.db, w.posts, w.issued⟩

/-- The world with the tables `s`, at `now`. -/
def at_ (w : ChannelWorld) (now : Instant) (s : ChannelDb) : ChannelWorld :=
  { w with world := { w.world with db := s.db, clock := now }, posts := s.posts, issued := s.issued }

def exec (w : ChannelWorld) : ChannelMove → Option ChannelWorld
  | .call env op =>
    if w.clock ≤ env.now ∧ w.world.admits op = true then
      let s := commit (op.published env) w.store
      some { w with world := { w.world.after ⟨env, op⟩ with db := s.db }
                    posts := s.posts, issued := s.issued }
    else none
  | .publishToChannel env host e =>
    if w.clock ≤ env.env.now then
      some (w.at_ env.env.now (commit (Paayatam.publishToChannel env host e) w.store))
    else none
  | .selectPending env limit =>
    if w.clock ≤ env.env.now then
      some { w.at_ env.env.now w.store with
        candidates := w.candidates ++ trendingCandidates env w.store limit }
    else none
  | .claimPending now i =>
    match w.candidates[i]? with
    | some candidate =>
      if w.clock ≤ now then
        match (claimTrending now candidate.1.id).run w.store with
        | .ok (true, s) => some { w.at_ now s with
            handed := w.handed ++ [toPublishable w.issued .TRENDING candidate.1 candidate.2] }
        | .ok (false, s) => some (w.at_ now s)
        | .error _ => none
      else none
    | none => none
  | .findUnpostedPaid env limit =>
    if w.clock ≤ env.env.now then
      some { w.at_ env.env.now w.store with
        handed := w.handed ++ Paayatam.findUnpostedPaid env w.store limit }
    else none
  | .markPosted now i telegramMessageId =>
    match w.handed[i]? with
    | some post =>
      if w.clock ≤ now then
        some (w.at_ now (commit (Paayatam.markPosted now post.postId telegramMessageId) w.store))
      else none
    | none => none
  | .releaseClaim now i =>
    match w.handed[i]? with
    | some post =>
      if w.clock ≤ now ∧ post.kind ≠ .PAID then
        some (w.at_ now (commit (Paayatam.releaseClaim post.postId) w.store))
      else none
    | none => none
  | .findTakedowns now =>
    if w.clock ≤ now then
      some { w.at_ now w.store with
        takedowns := w.takedowns ++ Paayatam.findTakedowns now w.store }
    else none
  | .markTakenDown now postId =>
    if w.clock ≤ now ∧ postId ∈ w.takedowns then
      some (w.at_ now (commit (Paayatam.markTakenDown now postId) w.store))
    else none

def Step (w : ChannelWorld) (m : ChannelMove) (w' : ChannelWorld) : Prop := w.exec m = some w'

/-- The channel before anything happened. -/
def initial : ChannelWorld where
  world := World.initial 0
  posts := .empty
  issued := 0
  candidates := []
  handed := []
  takedowns := []

def Init (w : ChannelWorld) : Prop := w = initial

end ChannelWorld

/-- A run's steps. -/
abbrev ChannelTrace := List (ChannelWorld × ChannelMove × ChannelWorld)

/-! ## What a step does to the posts -/

/-- An update that takes a post forward: posted stays posted, closed stays closed. -/
structure Forward (f : ChannelPostRow → ChannelPostRow) : Prop where
  id : ∀ p, (f p).id = p.id
  eventId : ∀ p, (f p).eventId = p.eventId
  kind : ∀ p, (f p).kind = p.kind
  republishSeq : ∀ p, (f p).republishSeq = p.republishSeq
  posted : ∀ p, p.postedAt ≠ none → (f p).postedAt ≠ none
  closed : ∀ p, p.isOpen = false → (f p).isOpen = false

theorem forward_posted (now : Instant) (n : Int) : Forward (ChannelPostRow.posted now n) :=
  ⟨fun _ => rfl, fun _ => rfl, fun _ => rfl, fun _ => rfl, fun _ _ => by simp [ChannelPostRow.posted],
    fun _ h => h⟩

theorem forward_takenDown (now : Instant) : Forward (ChannelPostRow.takenDown now) :=
  ⟨fun _ => rfl, fun _ => rfl, fun _ => rfl, fun _ => rfl, fun _ h => h,
    fun _ _ => by simp [ChannelPostRow.isOpen, ChannelPostRow.takenDown]⟩

theorem forward_superseded (now : Instant) : Forward (ChannelPostRow.superseded now) :=
  ⟨fun _ => rfl, fun _ => rfl, fun _ => rfl, fun _ => rfl, fun _ h => h,
    fun _ _ => by simp [ChannelPostRow.isOpen, ChannelPostRow.superseded]⟩

/-- What a step does to the posts. -/
inductive PostsMove (s s' : ChannelDb) : Prop
  | same (hposts : s'.posts = s.posts) (hissued : s.issued ≤ s'.issued)
  /-- The first paid claim of an event. -/
  | first {e : EventId} {now : Instant}
      (hrows : s'.posts.rows = s.posts.rows ++ [claimedPost s.issued e .PAID 0 now])
      (hissued : s'.issued = s.issued + 1)
  | reinstated {e : EventId} {previous : ChannelPostRow} {now : Instant}
      (hprevious : s.previousPaidPublication e = some previous) (hdown : previous.deletedAt ≠ none)
      (hrows : s'.posts.rows = s.posts.rows ++
        [claimedPost s.issued e .PAID (previous.republishSeq + 1) now])
      (hissued : s'.issued = s.issued + 1)
  | renewed {e : EventId} {current : ChannelPostRow} {now : Instant} {t : Table ChannelPostRow}
      (hcurrent : s.currentPaidPublication e = some current) (hposted : current.postedAt ≠ none)
      (hrows : t.rows = s.posts.rows ++
        [claimedPost s.issued e .PAID (current.republishSeq + 1) now])
      (hclosed : t.Rewrites current (ChannelPostRow.superseded now) s'.posts)
      (hissued : s'.issued = s.issued + 1)
  | trending {e : EventId} {now : Instant}
      (hrows : s'.posts.rows = s.posts.rows ++ [claimedPost s.issued e .TRENDING 0 now])
      (hissued : s'.issued = s.issued + 1)
  | moved {p : ChannelPostRow} {f : ChannelPostRow → ChannelPostRow} (hf : Forward f)
      (hrows : s.posts.Rewrites p f s'.posts) (hissued : s'.issued = s.issued)
  | released {postId : PostId} (hkind : ∀ p ∈ s.posts.rows, p.id = postId → p.kind ≠ .PAID)
      (hposts : s'.posts = s.posts.deleteMany fun p => decide (p.id = postId) && p.postedAt.isNone)
      (hissued : s'.issued = s.issued)

section Claims

variable {s s' : ChannelDb} {now : Instant} {e : EventId} {kind : ChannelPostKind} {n : Nat}

/-- A claim goes in, or another post stands in its way. -/
theorem claimPost_spec {b : Bool} (h : Runs (claimPost now e kind n) s b s') :
    s'.db = s.db ∧ s'.issued = s.issued + 1 ∧
      ((b = true ∧ s'.posts.rows = s.posts.rows ++ [claimedPost s.issued e kind n now]) ∨
        (b = false ∧ s'.posts = s.posts ∧
          ∃ p ∈ s.posts.rows, ¬ Row.compatible p (claimedPost s.issued e kind n now))) := by
  simp only [claimPost, runs_get_bind] at h
  rw [runs_bind] at h
  obtain ⟨claimed, s₁, hinsert, h⟩ := h
  rw [runs_modify_bind, runs_pure] at h
  obtain ⟨rfl, rfl⟩ := h
  obtain ⟨t, rfl, ht⟩ := runs_insertRowOrIgnore hinsert
  exact ⟨rfl, rfl, ht⟩

theorem claimOrAbort_spec (h : Runs (claimOrAbort now e n) s () s') :
    s'.db = s.db ∧ s'.issued = s.issued + 1 ∧
      s'.posts.rows = s.posts.rows ++ [claimedPost s.issued e .PAID n now] := by
  rw [claimOrAbort, runs_bind] at h
  obtain ⟨claimed, s₁, hclaim, h⟩ := h
  rw [runs_guardTx] at h
  obtain ⟨rfl, rfl⟩ := h
  obtain ⟨hdb, hissued, ⟨-, hrows⟩ | ⟨hfalse, -⟩⟩ := claimPost_spec hclaim
  · exact ⟨hdb, hissued, hrows⟩
  · cases hfalse

theorem reinstatePaidPublication_spec {b : Bool}
    (h : Runs (reinstatePaidPublication now e) s b s') :
    s' = s ∨ ∃ previous, s.previousPaidPublication e = some previous ∧ previous.deletedAt ≠ none ∧
      Runs (claimOrAbort now e (previous.republishSeq + 1)) s () s' := by
  simp only [reinstatePaidPublication, runs_get_bind] at h
  split at h
  · rw [runs_pure] at h
    exact .inl h.2
  · next previous hprevious =>
      rcases runs_ite.1 h with ⟨-, h⟩ | ⟨hdown, h⟩
      · rw [runs_pure] at h
        exact .inl h.2
      · rw [runs_bind] at h
        obtain ⟨_, s₁, hclaim, h⟩ := h
        rw [runs_pure] at h
        obtain ⟨-, rfl⟩ := h
        exact .inr ⟨previous, hprevious, hdown, hclaim⟩

/-- What an operation goes on to claim: nothing, the first post of the event it created, or
    the next post of the event it puts back. -/
theorem claims_spec {env : Env} {op : Op} {db : Db} (h : Runs (op.claims env db) s () s') :
    s'.db = s.db ∧ PostsMove s s' ∧
      ∀ p ∈ s'.posts.rows, p ∉ s.posts.rows → p.kind = .PAID ∧
        ((op.restores db = some p.eventId ∧ ∃ q ∈ s.posts.rows, q.eventId = p.eventId) ∨
          ∃ host input seeded, op = .create host input seeded p.eventId ∧
            ∃ ev, s.db.events.find? p.eventId = some ev ∧ ev.status = .PUBLISHED) := by
  have hreinstate : ∀ {b : Bool} {e : EventId}, Runs (reinstatePaidPublication env.now e) s b s' →
      s'.db = s.db ∧ PostsMove s s' ∧
      ∀ p ∈ s'.posts.rows, p ∉ s.posts.rows →
        p.kind = .PAID ∧ p.eventId = e ∧ ∃ q ∈ s.posts.rows, q.eventId = p.eventId := by
    intro b e h
    rcases reinstatePaidPublication_spec h with rfl | ⟨previous, hprevious, hdown, hclaim⟩
    · exact ⟨rfl, .same rfl le_rfl, fun p hp hnew => absurd hp hnew⟩
    · obtain ⟨hdb, hissued, hrows⟩ := claimOrAbort_spec hclaim
      refine ⟨hdb, .reinstated hprevious hdown hrows hissued, fun p hp hnew => ?_⟩
      rw [hrows, List.mem_append, List.mem_singleton] at hp
      obtain rfl := hp.resolve_left hnew
      have hmem := List.mem_filter.1 (List.mem_filter.1 (List.argmax_mem hprevious)).1
      simp only [Bool.and_eq_true, decide_eq_true_eq] at hmem
      exact ⟨rfl, rfl, previous, hmem.1, hmem.2.1⟩
  cases op with
  | create host input seeded e =>
      simp only [Op.claims, claimRegistration, runs_get_bind] at h
      rcases runs_whenTx.1 h with ⟨⟨hpublished, -⟩, h⟩ | ⟨-, rfl⟩
      · obtain ⟨hdb, hissued, hrows⟩ := claimOrAbort_spec h
        refine ⟨hdb, .first hrows hissued, fun p hp hnew => ?_⟩
        rw [hrows, List.mem_append, List.mem_singleton] at hp
        obtain rfl := hp.resolve_left hnew
        obtain ⟨ev, hev, hst⟩ := (Option.any_eq_true _ _).1 hpublished
        exact ⟨rfl, .inr ⟨host, input, seeded, rfl, ev, hev, of_decide_eq_true hst⟩⟩
      · exact ⟨rfl, .same rfl le_rfl, fun p hp hnew => absurd hp hnew⟩
  | _ =>
      simp only [Op.claims] at h
      split at h
      · next hrestores =>
          rw [runs_bind] at h
          obtain ⟨b, s₁, hrun, h⟩ := h
          rw [runs_pure] at h
          obtain ⟨-, rfl⟩ := h
          obtain ⟨hdb, hmove, hnew⟩ := hreinstate hrun
          refine ⟨hdb, hmove, fun p hp hp' => ?_⟩
          obtain ⟨hkind, rfl, hold⟩ := hnew p hp hp'
          exact ⟨hkind, .inl ⟨hrestores, hold⟩⟩
      · rw [runs_pure] at h
        obtain ⟨-, rfl⟩ := h
        exact ⟨rfl, .same rfl le_rfl, fun p hp hnew => absurd hp hnew⟩

theorem published_spec {env : Env} {op : Op} (h : Runs (op.published env) s () s') :
    ∃ db, Runs (op.act env) s.db () db ∧ Runs (op.claims env s.db) { s with db := db } () s' := by
  simp only [Op.published, runs_get_bind, joinedDb, runs_within_bind] at h
  obtain ⟨_, db, hop, hclaims⟩ := h
  exact ⟨db, hop, hclaims⟩

/-- What a renewal has checked when it claims. -/
structure Renewable (env : ChannelEnv) (s : ChannelDb) (e : EventId) (locked : EventRow)
    (current : Option ChannelPostRow) : Prop where
  found : s.db.events.find? e = some locked
  status : locked.status = .PUBLISHED
  ahead : env.env.now < locked.startsAt
  renews : current = s.currentPaidPublication e
  posted : ∀ p ∈ current, p.postedAt ≠ none

theorem checkPublication_spec {env : ChannelEnv} {host : UserId} {locked : EventRow}
    {current : Option ChannelPostRow}
    (h : Runs (checkPublication env host e) s (locked, current) s') :
    s' = s ∧ Renewable env s e locked current := by
  simp only [checkPublication, runs_guardTx_bind, runs_get_bind, runs_orThrow_bind, runs_pure,
    Prod.mk.injEq] at h
  obtain ⟨-, -, ev, hev, -, -, hstatus, hahead, hposted, ⟨rfl, rfl⟩, rfl⟩ := h
  have hid : locked.id = e := Table.key_of_find? hev
  rw [hid] at hposted ⊢
  exact ⟨rfl, hev, hstatus, hahead, rfl, hposted⟩

theorem publishToChannel_spec {env : ChannelEnv} {host : UserId}
    (h : Runs (publishToChannel env host e) s () s') :
    ∃ locked current, Renewable env s e locked current ∧ s'.db.events = s.db.events ∧
      PostsMove s s' ∧
      ∀ p ∈ s'.posts.rows, (p.eventId = e ∧ p.kind = .PAID) ∨ p ∈ s.posts.rows := by
  rw [publishToChannel, runs_bind] at h
  obtain ⟨⟨locked, current⟩, s₁, hcheck, h⟩ := h
  obtain ⟨rfl, hrenewable⟩ := checkPublication_spec hcheck
  have hid : locked.id = e := Table.key_of_find? hrenewable.found
  dsimp only at h
  rw [hid, runs_bind] at h
  obtain ⟨claimed, s₂, hclaim, h⟩ := h
  rw [runs_guardTx_bind, runs_bind] at h
  obtain ⟨rfl, _, s₃, hsupersede, h⟩ := h
  obtain ⟨_, hcharge, rfl⟩ := runs_within.1 h
  have hbooks := chargeHostSpend_ordinary (.inr ⟨_, rfl⟩) (by simp) hcharge
  obtain ⟨hdb, hissued, ⟨-, hrows⟩ | ⟨hfalse, -⟩⟩ := claimPost_spec hclaim
  · have horigin : ∀ p ∈ s₂.posts.rows, (p.eventId = e ∧ p.kind = .PAID) ∨ p ∈ s₁.posts.rows := by
      intro p hp
      rw [hrows, List.mem_append, List.mem_singleton] at hp
      rcases hp with hp | rfl
      · exact .inr hp
      · exact .inl ⟨rfl, rfl⟩
    refine ⟨locked, current, hrenewable, ?_⟩
    cases current with
    | none =>
        rw [supersedeCurrent, runs_pure] at hsupersede
        obtain ⟨-, rfl⟩ := hsupersede
        exact ⟨hbooks.events.trans (congrArg Db.events hdb), .first hrows hissued, horigin⟩
    | some current =>
        rw [supersedeCurrent, runs_updateRow] at hsupersede
        obtain ⟨p, hp, t, ht, rfl⟩ := hsupersede
        have hcurrent := hrenewable.renews.symm
        have hpaid := List.mem_filter.1 (List.mem_filter.1 (List.argmax_mem hcurrent)).1
        simp only [Bool.and_eq_true, decide_eq_true_eq] at hpaid
        have hmem : current ∈ s₂.posts.rows := by
          rw [hrows, List.mem_append]
          exact .inl hpaid.1
        obtain rfl : p = current := Table.eq_of_key (Table.mem_of_find? hp) hmem (Table.key_of_find? hp)
        refine ⟨hbooks.events.trans (congrArg Db.events hdb),
          .renewed hcurrent (hrenewable.posted _ rfl) hrows ht hissued, fun q hq => ?_⟩
        rcases ht.cases hq with rfl | ⟨hq, -⟩
        · exact .inl hpaid.2
        · exact horigin q hq
  · cases hfalse

end Claims

/-! ## Steps -/

/-- What the sweeps hold is as it was. -/
structure ChannelWorld.SameSweeps (w w' : ChannelWorld) : Prop where
  candidates : w'.candidates = w.candidates
  handed : w'.handed = w.handed
  takedowns : w'.takedowns = w.takedowns

/-- What a step does, when it does anything. -/
inductive ChannelEffect (w : ChannelWorld) : ChannelMove → ChannelWorld → Prop
  | refused {m : ChannelMove} {w' : ChannelWorld} (hstore : w'.store = w.store)
      (hsweeps : w.SameSweeps w') (hread : ∀ env limit, m ≠ .findUnpostedPaid env limit)
      (hclaim : ∀ now i, m ≠ .claimPending now i) : ChannelEffect w m w'
  | call {env : Env} {op : Op} {w' : ChannelWorld} (hrun : Runs (op.act env) w.db () w'.db)
      (hclaims : Runs (op.claims env w.db) { w.store with db := w'.db } () w'.store)
      (hsweeps : w.SameSweeps w') : ChannelEffect w (.call env op) w'
  | publish {env : ChannelEnv} {host : UserId} {e : EventId} {w' : ChannelWorld}
      (hrun : Runs (publishToChannel env host e) w.store () w'.store) (hsweeps : w.SameSweeps w') :
      ChannelEffect w (.publishToChannel env host e) w'
  | selected {env : ChannelEnv} {limit : Nat} {w' : ChannelWorld} (hstore : w'.store = w.store)
      (hcandidates : w'.candidates = w.candidates ++ trendingCandidates env w.store limit)
      (hhanded : w'.handed = w.handed) : ChannelEffect w (.selectPending env limit) w'
  | claimed {now : Instant} {i : Nat} {candidate : EventRow × Nat} {w' : ChannelWorld}
      (hcandidate : w.candidates[i]? = some candidate)
      (hrun : Runs (claimTrending now candidate.1.id) w.store true w'.store)
      (hcandidates : w'.candidates = w.candidates)
      (hhanded : w'.handed = w.handed ++
        [toPublishable w.issued .TRENDING candidate.1 candidate.2]) :
      ChannelEffect w (.claimPending now i) w'
  | taken {now : Instant} {i : Nat} {candidate : EventRow × Nat} {w' : ChannelWorld}
      (hcandidate : w.candidates[i]? = some candidate)
      (hrun : Runs (claimTrending now candidate.1.id) w.store false w'.store)
      (hsweeps : w.SameSweeps w') : ChannelEffect w (.claimPending now i) w'
  | unposted {env : ChannelEnv} {limit : Nat} {w' : ChannelWorld} (hstore : w'.store = w.store)
      (hcandidates : w'.candidates = w.candidates)
      (hhanded : w'.handed = w.handed ++ findUnpostedPaid env w.store limit) :
      ChannelEffect w (.findUnpostedPaid env limit) w'
  | posted {now : Instant} {i : Nat} {post : PublishablePost} {n : Int} {w' : ChannelWorld}
      (hrun : Runs (markPosted now post.postId n) w.store () w'.store) (hsweeps : w.SameSweeps w') :
      ChannelEffect w (.markPosted now i n) w'
  | released {now : Instant} {i : Nat} {post : PublishablePost} {w' : ChannelWorld}
      (hpost : post ∈ w.handed) (hkind : post.kind ≠ .PAID)
      (hrun : Runs (releaseClaim post.postId) w.store () w'.store) (hsweeps : w.SameSweeps w') :
      ChannelEffect w (.releaseClaim now i) w'
  | listed {now : Instant} {w' : ChannelWorld} (hstore : w'.store = w.store)
      (hcandidates : w'.candidates = w.candidates) (hhanded : w'.handed = w.handed) :
      ChannelEffect w (.findTakedowns now) w'
  | takenDown {now : Instant} {postId : PostId} {w' : ChannelWorld}
      (hrun : Runs (markTakenDown now postId) w.store () w'.store) (hsweeps : w.SameSweeps w') :
      ChannelEffect w (.markTakenDown now postId) w'

namespace ChannelWorld

variable {w w' : ChannelWorld} {m : ChannelMove}

theorem sameSweeps_at (now : Instant) (s : ChannelDb) : w.SameSweeps (w.at_ now s) := ⟨rfl, rfl, rfl⟩

theorem step_effect (h : w.Step m w') : ChannelEffect w m w' := by
  cases m with
  | call env op =>
      simp only [Step, exec] at h
      split at h
      · have hw' := Option.some.inj h
        have hstore : w'.store = commit (op.published env) w.store := by rw [← hw']; rfl
        have hsweeps : w.SameSweeps w' := by rw [← hw']; exact ⟨rfl, rfl, rfl⟩
        rcases commit_cases (op.published env) w.store with ⟨_, hrun⟩ | hsame
        · rw [← hstore] at hrun
          obtain ⟨db, hop, hclaims⟩ := published_spec hrun
          have hdb : w'.db = db := (claims_spec hclaims).1
          exact .call (hdb ▸ hop) (hdb ▸ hclaims) hsweeps
        · exact .refused (hstore.trans hsame) hsweeps (by simp) (by simp)
      · cases h
  | publishToChannel env host e =>
      simp only [Step, exec] at h
      split at h
      · obtain rfl := Option.some.inj h
        rcases commit_cases (Paayatam.publishToChannel env host e) w.store with ⟨_, hrun⟩ | hsame
        · exact .publish hrun (sameSweeps_at _ _)
        · exact .refused hsame (sameSweeps_at _ _) (by simp) (by simp)
      · cases h
  | selectPending env limit =>
      simp only [Step, exec] at h
      split at h
      · obtain rfl := Option.some.inj h
        exact .selected rfl rfl rfl
      · cases h
  | claimPending now i =>
      simp only [Step, exec] at h
      split at h
      · next candidate hcandidate =>
          split at h
          · split at h
            · next s hrun =>
                obtain rfl := Option.some.inj h
                exact .claimed hcandidate hrun rfl rfl
            · next s hrun =>
                obtain rfl := Option.some.inj h
                exact .taken hcandidate hrun (sameSweeps_at _ _)
            · cases h
          · cases h
      · cases h
  | findUnpostedPaid env limit =>
      simp only [Step, exec] at h
      split at h
      · obtain rfl := Option.some.inj h
        exact .unposted rfl rfl rfl
      · cases h
  | markPosted now i n =>
      simp only [Step, exec] at h
      split at h
      · next post hpost =>
          split at h
          · obtain rfl := Option.some.inj h
            rcases commit_cases (Paayatam.markPosted now post.postId n) w.store with ⟨_, hrun⟩ | hsame
            · exact .posted hrun (sameSweeps_at _ _)
            · exact .refused hsame (sameSweeps_at _ _) (by simp) (by simp)
          · cases h
      · cases h
  | releaseClaim now i =>
      simp only [Step, exec] at h
      split at h
      · next post hpost =>
          split at h
          · next hnow =>
              obtain rfl := Option.some.inj h
              rcases commit_cases (Paayatam.releaseClaim post.postId) w.store with ⟨_, hrun⟩ | hsame
              · exact .released (List.mem_of_getElem? hpost) hnow.2 hrun (sameSweeps_at _ _)
              · exact .refused hsame (sameSweeps_at _ _) (by simp) (by simp)
          · cases h
      · cases h
  | findTakedowns now =>
      simp only [Step, exec] at h
      split at h
      · obtain rfl := Option.some.inj h
        exact .listed rfl rfl rfl
      · cases h
  | markTakenDown now postId =>
      simp only [Step, exec] at h
      split at h
      · obtain rfl := Option.some.inj h
        rcases commit_cases (Paayatam.markTakenDown now postId) w.store with ⟨_, hrun⟩ | hsame
        · exact .takenDown hrun (sameSweeps_at _ _)
        · exact .refused hsame (sameSweeps_at _ _) (by simp) (by simp)
      · cases h

end ChannelWorld

end Paayatam
