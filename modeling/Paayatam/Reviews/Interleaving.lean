/-
  Paayatam.Reviews.Interleaving

  Submitting, editing and expiring the two halves of a pair at the same time.

  Each call is a worker with a read, which takes no lock, and a write.  A
  submission or an expiry locks the row of its pair before it writes and holds
  it until it commits; it reads the reviews it reveals after that, so an edit,
  which locks only its review, may still come between.  Every other operation
  of the system goes on around them.
-/

import Paayatam.Reviews.Blind
import Paayatam.Lib.Threads

namespace Paayatam

open Lib

namespace Reviews

/-! ## The system -/

/-- A call of the service. -/
inductive Request where
  | submit (userId : UserId) (participantId : ParticipantId) (input : SubmitReviewInput)
  | edit (userId : UserId) (participantId : ParticipantId) (input : SubmitReviewInput)
  | settleOne (pairId : ParticipantId)

/-- What a call goes on with after its first read. -/
inductive ReviewWork where
  | submit (userId : UserId) (input : SubmitReviewInput) (context : Writable)
  | edit (input : SubmitReviewInput) (review : ReviewRow)
  | settleOne (pair : ReviewPairRow)

/-- The first read of a call, with what it refuses there. -/
def Request.load (env : Env) : Request → Act ReviewWork
  | .submit userId participantId input => do
    assertRating input
    let context ← loadWritable env userId participantId
    return .submit userId input context
  | .edit userId participantId input => do
    assertRating input
    let review ← loadEditable env userId participantId
    return .edit input review
  | .settleOne pairId => do
    let found ← findRow pairId
    let pair ← orThrow (.db .recordNotFound) (found : Option ReviewPairRow)
    return .settleOne pair

/-- The rest of a call. -/
def ReviewWork.finish (env : Env) (stale : List ReviewRow) : ReviewWork → Act Unit
  | .submit userId input context => drop (finishSubmit env userId input context stale)
  | .edit input review => drop (finishEdit env input review)
  | .settleOne pair => drop (finishSettle env pair stale)

/-- The pair whose row a call locks. -/
def ReviewWork.pairId : ReviewWork → Option ParticipantId
  | .submit _ _ context => some context.participantId
  | .edit _ _ => none
  | .settleOne pair => some pair.participantId

/-- A call between its first read and its commit.  `held` is there once the call has
    locked its pair: the reviews of the pair, as it read them then. -/
structure InFlight where
  env : Env
  work : ReviewWork
  held : Option (List ReviewRow)

def InFlight.stale (f : InFlight) : List ReviewRow := f.held.getD []

/-- The world, and the worker that holds the row of each pair. -/
structure ReviewShared where
  world : World
  holder : ParticipantId → Option Nat

/-- The end of a transaction: its lock goes with it. -/
def ReviewShared.leave (s : ReviewShared) (f : InFlight) : ReviewShared :=
  match f.held, f.work.pairId with
  | some _, some p => { s with holder := Function.update s.holder p none }
  | _, _ => s

abbrev ReviewWorld := Threads Nat ReviewShared (Option InFlight)

inductive ReviewMove where
  /-- A call of the world, in one piece. -/
  | call (c : Call)
  /-- Worker `i` makes the first read of `request`. -/
  | read (i : Nat) (env : Env) (request : Request)
  /-- Worker `i` locks its pair and reads the reviews in it. -/
  | lock (i : Nat)
  /-- Worker `i` writes, and commits or fails. -/
  | finish (i : Nat)
  /-- Worker `i` is gone, and its transaction with it. -/
  | crash (i : Nat)

namespace ReviewWorld

/-- The committed database. -/
def db (w : ReviewWorld) : Db := w.shared.world.db

/-- The review `k`, as committed. -/
def review (w : ReviewWorld) (k : ReviewId) : Option ReviewRow := w.db.reviews.find? k

/-- The pair of the participation `p`, as committed. -/
def pair (w : ReviewWorld) (p : ParticipantId) : Option ReviewPairRow := w.db.reviewPairs.find? p

/-- The reviews of the pair `p`. -/
def reviewsHeld (w : ReviewWorld) (p : ParticipantId) : List ReviewRow :=
  (w.pair p).elim [] (reviewsOf w.db)

/-- The shared state with another database. -/
def put (w : ReviewWorld) (db : Db) : ReviewShared :=
  { w.shared with world := { w.shared.world with db := db } }

def exec (w : ReviewWorld) : ReviewMove → Option ReviewWorld
  | .call c => (w.shared.world.exec c).map fun s => { w with shared := { w.shared with world := s } }
  | .read i env request =>
    match w.locals i, request.load env w.db with
    | none, .ok (work, _) =>
      if w.shared.world.clock ≤ env.now then
        some (w.set i { w.shared with world := { w.shared.world with clock := env.now } }
          (some ⟨env, work, none⟩))
      else none
    | _, _ => none
  | .lock i =>
    match w.locals i with
    | some ⟨env, work, none⟩ =>
      match work.pairId with
      | some p =>
        if w.shared.holder p = none then
          some (w.set i { w.shared with holder := Function.update w.shared.holder p (some i) }
            (some ⟨env, work, some (w.reviewsHeld p)⟩))
        else none
      | none => none
    | _ => none
  | .finish i =>
    match w.locals i with
    | some f =>
      if f.held.isSome = f.work.pairId.isSome then
        some (w.set i ((w.put (commit (f.work.finish f.env f.stale) w.db)).leave f) none)
      else none
    | none => none
  | .crash i =>
    match w.locals i with
    | some f => some (w.set i (w.shared.leave f) none)
    | none => none

def Step (w : ReviewWorld) (m : ReviewMove) (w' : ReviewWorld) : Prop := w.exec m = some w'

def Init (w : ReviewWorld) : Prop :=
  w.shared.world.Init ∧ (∀ p, w.shared.holder p = none) ∧ ∀ i, w.locals i = none

/-- An empty database, at the epoch, nothing locked and nothing in flight. -/
def initial : ReviewWorld where
  shared := { world := World.initial 0, holder := fun _ => none }
  locals _ := none

theorem init_initial : initial.Init := ⟨World.init_initial 0, fun _ => rfl, fun _ => rfl⟩

end ReviewWorld

/-- The whole of a call, with nothing in between. -/
def Request.act (env : Env) : Request → Act Unit
  | .submit userId participantId input => drop (Reviews.submit env userId participantId input)
  | .edit userId participantId input => drop (Reviews.edit env userId participantId input)
  | .settleOne pairId => drop (Reviews.settleOne env pairId)

/-! ## The condition -/

/-- An edit finds its review still blind where it writes, and a reveal the ratings it
    read. -/
def InFlight.fresh (db : Db) (f : InFlight) : Bool :=
  match f.work with
  | .edit _ read => (db.reviews.find? read.id).any fun r => decide (r.status = .SUBMITTED)
  | _ => f.stale.all fun x => (db.reviews.find? x.id).any fun r => decide (r.rating = x.rating)

/-- The move, where it is a write, is a fresh one. -/
def Fresh (w : ReviewWorld) : ReviewMove → Prop
  | .finish i => ∀ f ∈ w.locals i, f.fresh w.db = true
  | _ => True

instance (w : ReviewWorld) : (m : ReviewMove) → Decidable (Fresh w m)
  | .finish i => inferInstanceAs (Decidable (∀ f ∈ w.locals i, f.fresh w.db = true))
  | .call _ => isTrue trivial
  | .read _ _ _ => isTrue trivial
  | .lock _ => isTrue trivial
  | .crash _ => isTrue trivial

/-! ## One write -/

section Writes

variable {s s' : Db} {env : Env} {pair : ReviewPairRow} {stale : List ReviewRow}

theorem roleIn_inj {p : ParticipantId} {u v : UserId} {role : ReviewerRole}
    (hu : roleIn s p u = some role) (hv : roleIn s p v = some role) : u = v := by
  obtain ⟨q, hq, ev, hev, hru⟩ := roleIn_eq_some.1 hu
  obtain ⟨q', hq', ev', hev', hrv⟩ := roleIn_eq_some.1 hv
  obtain rfl := Option.some.inj (hq.symm.trans hq')
  obtain rfl := Option.some.inj (hev.symm.trans hev')
  cases role with
  | HOST =>
      have hhost : ∀ x, (if ev.hostUserId = x then some ReviewerRole.HOST
          else if q.userId = x then some .GUEST else none) = some .HOST → ev.hostUserId = x := by
        intro x h
        by_contra hne
        rw [if_neg hne] at h
        split at h <;> cases h
      exact (hhost u hru).symm.trans (hhost v hrv)
  | GUEST =>
      have hguest : ∀ x, (if ev.hostUserId = x then some ReviewerRole.HOST
          else if q.userId = x then some .GUEST else none) = some .GUEST → q.userId = x := by
        intro x h
        by_contra hne
        rw [if_neg hne] at h
        split at h <;> cases h
      exact (hguest u hru).symm.trans (hguest v hrv)

theorem slot_fillSlot (k : ReviewId) (role role' : ReviewerRole) :
    slot (fillSlot pair k role) role' = if role' = role then some k else slot pair role' := by
  cases role <;> cases role' <;> rfl

theorem slot_written {context : Writable} (k : ReviewId) (role : ReviewerRole) :
    slot (written env context k pair) role =
      if role = context.role then some k else slot pair role := by
  rw [← slot_fillSlot k context.role role]
  cases role <;> rfl

/-- A pair that is readable holds a review. -/
theorem exists_slot (h : pair.constraints = true) (hst : isRevealed pair.status = true) :
    ∃ role k, slot pair role = some k := by
  have hm := matchesContents h
  cases hhost : pair.hostReviewId with
  | some k => exact ⟨.HOST, k, hhost⟩
  | none =>
      cases hguest : pair.guestReviewId with
      | some k => exact ⟨.GUEST, k, hguest⟩
      | none =>
          cases hs : pair.status <;>
            simp [ReviewPairRow.statusMatchesContents, isRevealed, REVEALED_PAIR_STATUSES, hs, hhost,
              hguest] at hm hst

/-- A submission takes the free half of its author, and reveals the pair when the other
    half is written. -/
theorem fills_of_submitted {u : UserId} {input : SubmitReviewInput} {context : Writable}
    (hs : Blind s) (h : Submitted env u input context stale s s')
    (hrole : roleIn s context.participantId u = some context.role) :
    ∃ review pair, PairWrite env (some (context.role, review)) pair
        (written env context review.id pair) stale s s' ∧
      pair.participantId = context.participantId ∧
      Fills s (some (context.role, review)) pair (written env context review.id pair) := by
  obtain ⟨review, pair, hreview, hp, hw⟩ := h.write
  have hfree : slot pair context.role = none := by
    cases hslot : slot pair context.role with
    | none => rfl
    | some k =>
        -- the half is taken: by a review of the same author, which the index refused
        obtain ⟨r, hr, hrp, hrrole⟩ := hs.slots hw.found hslot
        rw [hp] at hrp hrrole
        exact absurd (roleIn_inj hrrole hrole) (h.alone r (Table.mem_of_find? hr) hrp)
  refine ⟨review, pair, hw, hp, ?_, ?_, ?_, fun hst => ?_⟩
  · rintro role r hr
    obtain ⟨rfl, rfl⟩ := Prod.mk.inj (Option.some.inj hr)
    refine ⟨by rw [slot_written, if_pos rfl], ?_, ?_, ?_, ?_⟩
    · rw [hreview, hp]
      rfl
    · rw [hreview, hp]
      exact hrole
    · rw [hreview]
      rfl
    · rw [Table.find?_eq_none]
      intro x hx hxk
      have hlt : x.id < freshId (s.reviews.rows.map (·.id)) := lt_freshId (List.mem_map_of_mem hx)
      have hid : x.id = review.id := hxk
      rw [hid, hreview] at hlt
      exact Nat.lt_irrefl _ hlt
  · rintro role r hr
    obtain ⟨rfl, -⟩ := Prod.mk.inj (Option.some.inj hr)
    exact hfree
  · intro role hother
    have hne : role ≠ context.role := fun he => hother review (by rw [he])
    rw [slot_written, if_neg hne]
  · obtain ⟨role, k, hslot⟩ := exists_slot (pair_constraints hw.found) hst
    have hne : role ≠ context.role := by
      intro he
      rw [he, hfree] at hslot
      cases hslot
    have hown : (slot (written env context review.id pair) context.role).isSome = true := by
      rw [slot_written, if_pos rfl]
      rfl
    have hother : (slot (written env context review.id pair) role).isSome = true := by
      rw [slot_written, if_neg hne, hslot]
      rfl
    have hrev : (written env context review.id pair).status = .REVEALED := by
      cases hc : context.role with
      | HOST =>
          cases role with
          | HOST => exact absurd hc.symm hne
          | GUEST => exact revealed_of_both hw.check (hc ▸ hown) hother
      | GUEST =>
          cases role with
          | HOST => exact revealed_of_both hw.check hother (hc ▸ hown)
          | GUEST => exact absurd hc.symm hne
    rw [hrev]
    rfl

/-- An expiry leaves the halves as they are, and blinds nothing that was readable. -/
theorem fills_of_expired {status : ReviewPairStatus}
    (hw : PairWrite env none pair (expired env.now status pair) stale s s') :
    Fills s none pair (expired env.now status pair) where
  added role r hr := by cases hr
  free role r hr := by cases hr
  kept role _ := by cases role <;> rfl
  onward hst := by
    obtain ⟨role, k, hslot⟩ := exists_slot (pair_constraints hw.found) hst
    have hslot' : slot (expired env.now status pair) role = some k := by
      cases role <;> exact hslot
    have hnext : (expired env.now status pair).status = expiredStatus status := rfl
    rcases status_of_slot hw.check hslot' with h | h | h
    · rw [hnext] at h
      cases status <;> simp [expiredStatus] at h
    · rw [h]
      rfl
    · rw [h]
      rfl

end Writes

/-! ## One step -/

/-- What one move does to the reviews. -/
inductive Turn (w : ReviewWorld) (m : ReviewMove) (w' : ReviewWorld) : Prop
  /-- None of them is written. -/
  | kept (h : ReviewsKept w.db w'.db)
  /-- One is edited. -/
  | edited {i : Nat} {f : InFlight} {input : SubmitReviewInput} {read : ReviewRow}
      (hm : m = .finish i) (hf : w.locals i = some f) (hwork : f.work = .edit input read)
      (h : Edited f.env input read.id w.db w'.db)
  /-- A pair is written, by the worker that holds it. -/
  | written {i : Nat} {f : InFlight} {new : Option (ReviewerRole × ReviewRow)}
      {pair pair' : ReviewPairRow} (hm : m = .finish i) (hf : w.locals i = some f)
      (hheld : f.held.isSome = true) (hpair : f.work.pairId = some pair.participantId)
      (h : PairWrite f.env new pair pair' f.stale w.db w'.db) (hfills : Fills w.db new pair pair')

/-- What a call in flight may rely on: its author is on the side it read, and what it read
    under the lock is still there. -/
structure InFlight.Sound (s : Db) (f : InFlight) : Prop where
  role : ∀ u input context, f.work = .submit u input context →
    roleIn s context.participantId u = some context.role
  stale : ∀ p, f.work.pairId = some p → ∀ x ∈ f.stale,
    ∃ r, s.reviews.find? x.id = some r ∧ r.status = x.status ∧
      r.revieweeUserId = x.revieweeUserId ∧ r.participantId = p
  idle : f.work.pairId = none → f.stale = []

/-- Between moves: the reviews are blind, every call in flight may rely on what it read, and
    whoever has read under the lock of a pair holds it. -/
structure Sound (w : ReviewWorld) : Prop where
  blind : Blind w.db
  own : ∀ i f, w.locals i = some f → f.Sound w.db
  holds : ∀ i f p, w.locals i = some f → f.held.isSome = true → f.work.pairId = some p →
    w.shared.holder p = some i

theorem InFlight.Sound.stillThere {s : Db} {f : InFlight} (h : f.Sound s) :
    StillThere s f.stale := by
  intro x hx
  cases hp : f.work.pairId with
  | none =>
      rw [h.idle hp] at hx
      cases hx
  | some p =>
      obtain ⟨r, hr, hst, hreviewee, -⟩ := h.stale p hp x hx
      exact ⟨r, hr, hst, hreviewee⟩

section Step

variable {w w' : ReviewWorld} {m : ReviewMove} {s s' : Db} {f : InFlight}

theorem InFlight.held_of_stale {x : ReviewRow} (h : x ∈ f.stale) : f.held.isSome = true := by
  cases hheld : f.held with
  | none => simp [InFlight.stale, hheld] at h
  | some rows => rfl

/-- A call keeps what it relies on while the reviews it has read keep their status. -/
theorem InFlight.Sound.next (h : f.Sound s) (hroles : RolesKept s s')
    (hkeep : ∀ p, f.work.pairId = some p → f.held.isSome = true → ∀ k r,
      s.reviews.find? k = some r → r.participantId = p → ∃ r', s'.reviews.find? k = some r' ∧
        r'.status = r.status ∧ r'.revieweeUserId = r.revieweeUserId ∧
        r'.participantId = r.participantId) : f.Sound s' where
  role u input context hwork := hroles _ _ _ (h.role u input context hwork)
  stale p hp x hx := by
    obtain ⟨r, hr, hst, hre, hrp⟩ := h.stale p hp x hx
    obtain ⟨r', hr', hst', hre', hrp'⟩ := hkeep p hp (InFlight.held_of_stale hx) _ r hr hrp
    exact ⟨r', hr', hst'.trans hst, hre'.trans hre, hrp'.trans hrp⟩
  idle := h.idle

theorem InFlight.Sound.kept (h : f.Sound s) (hk : ReviewsKept s s') : f.Sound s' := by
  refine h.next hk.roles fun p _ _ k r hr _ => ⟨r, ?_, rfl, rfl, rfl⟩
  rw [hk.reviews]
  exact hr

theorem leave_world {sh : ReviewShared} : (sh.leave f).world = sh.world := by
  unfold ReviewShared.leave
  split <;> rfl

/-- The end of one worker's transaction leaves the locks of the others. -/
theorem leave_holder {sh : ReviewShared} {i j : Nat} {p : ParticipantId} (hij : j ≠ i)
    (hown : ∀ q, f.held.isSome = true → f.work.pairId = some q → sh.holder q = some i)
    (hp : sh.holder p = some j) : (sh.leave f).holder p = some j := by
  unfold ReviewShared.leave
  split
  · next rows q hheld hq =>
      have hi := hown q (by rw [hheld]; rfl) hq
      have hne : p ≠ q := by
        intro he
        rw [he, hi] at hp
        exact hij (Option.some.inj hp).symm
      exact (Function.update_of_ne hne ..).trans hp
  · exact hp

theorem loadWritable_role {env : Env} {u : UserId} {p : ParticipantId} {context : Writable}
    (h : Runs (loadWritable env u p) s context s') :
    roleIn s context.participantId u = some context.role := by
  simp only [loadWritable, runs_findRow_bind, runs_orThrow_bind, runs_guardTx_bind, runs_pure,
    table_participants, table_events] at h
  obtain ⟨q, hq, ev, hev, hside, pair, -, -, -, rfl, -⟩ := h
  have hqp : q.id = p := Table.key_of_find? hq
  refine roleIn_eq_some.2 ⟨q, by rw [hqp]; exact hq, ev, hev, ?_⟩
  by_cases hhost : ev.hostUserId = u
  · simp [hhost]
  · have hguest : q.userId = u := by simpa [hhost] using hside
    simp [hhost, hguest]

/-- What a call reads first, it may rely on. -/
theorem load_sound {env : Env} {request : Request} {work : ReviewWork}
    (h : Runs (request.load env) s work s') : InFlight.Sound s ⟨env, work, none⟩ := by
  refine ⟨fun u input context hwork => ?_, fun p _ x hx => absurd hx (by simp [InFlight.stale]),
    fun _ => rfl⟩
  obtain rfl : work = .submit u input context := hwork
  cases request with
  | submit u' p input' =>
      simp only [Request.load, assertRating, runs_guardTx_bind] at h
      rw [runs_bind] at h
      obtain ⟨-, context', s₁, hload, h⟩ := h
      obtain ⟨rfl, rfl, rfl⟩ := ReviewWork.submit.inj (runs_pure.1 h).1
      exact loadWritable_role hload
  | edit u' p input' =>
      simp only [Request.load, assertRating, runs_guardTx_bind] at h
      rw [runs_bind] at h
      obtain ⟨-, review, s₁, -, h⟩ := h
      cases (runs_pure.1 h).1
  | settleOne p =>
      simp only [Request.load, runs_findRow_bind, runs_orThrow_bind] at h
      obtain ⟨pair, -, h⟩ := h
      cases (runs_pure.1 h).1

/-- The reviews a worker reads under the lock are those of its pair. -/
theorem reviewsHeld_spec (hb : Blind w.db) {p : ParticipantId} {x : ReviewRow}
    (hx : x ∈ w.reviewsHeld p) : w.review x.id = some x ∧ x.participantId = p := by
  unfold ReviewWorld.reviewsHeld at hx
  cases hpair : w.pair p with
  | none =>
      rw [hpair] at hx
      cases hx
  | some pair =>
      rw [hpair] at hx
      obtain ⟨o, ho, hbind⟩ := List.mem_filterMap.1 hx
      obtain ⟨k, rfl, hk⟩ := Option.bind_eq_some_iff.1 hbind
      have hid : x.id = k := Table.key_of_find? hk
      have hslot : ∃ role, slot pair role = some k := by
        rcases List.mem_cons.1 ho with ho | ho
        · exact ⟨.HOST, ho.symm⟩
        · exact ⟨.GUEST, (List.mem_singleton.1 ho).symm⟩
      obtain ⟨role, hslot⟩ := hslot
      obtain ⟨r, hr, hrp, -⟩ := hb.slots hpair hslot
      obtain rfl := Option.some.inj (hk.symm.trans hr)
      exact ⟨by rw [hid]; exact hk, hrp⟩

/-- A committed write turns the reviews as its call says, and a failed one not at all. -/
theorem turn_of_finish {i : Nat} (hs : Sound w) (hf : w.locals i = some f)
    (hready : f.held.isSome = f.work.pairId.isSome)
    (hdb : w'.db = commit (f.work.finish f.env f.stale) w.db) : Turn w (.finish i) w' := by
  rcases commit_cases (f.work.finish f.env f.stale) w.db with ⟨_, hrun⟩ | hsame
  · rw [← hdb] at hrun
    cases hwork : f.work with
    | submit u input context =>
        rw [hwork] at hrun
        obtain ⟨own, hrun⟩ := runs_drop.1 hrun
        obtain ⟨review, pair, hw, hp, hfills⟩ := fills_of_submitted hs.blind
          (finishSubmit_spec hrun) ((hs.own i f hf).role u input context hwork)
        refine .written rfl hf (by rw [hready, hwork]; rfl) ?_ hw hfills
        rw [hwork, hp]
        rfl
    | edit input read =>
        rw [hwork] at hrun
        obtain ⟨own, hrun⟩ := runs_drop.1 hrun
        exact .edited rfl hf hwork (finishEdit_spec hrun)
    | settleOne read =>
        rw [hwork] at hrun
        obtain ⟨o, hrun⟩ := runs_drop.1 hrun
        rcases finishSettle_spec hrun with hsame | ⟨-, pair, hp, hw⟩
        · refine .kept ?_
          rw [hsame]
          exact Std.Refl.refl _
        · refine .written rfl hf (by rw [hready, hwork]; rfl) ?_ hw (fills_of_expired hw)
          rw [hwork, hp]
          rfl
  · refine .kept ?_
    rw [hdb, hsame]
    exact Std.Refl.refl _

/-- After a turn the invariant holds of the reviews, and of the calls that did not move. -/
theorem Turn.sound (h : Turn w m w') (hs : Sound w) : Blind w'.db ∧
    ∀ j g, w.locals j = some g → m ≠ .finish j → g.Sound w'.db := by
  cases h with
  | kept h => exact ⟨hs.blind.kept h, fun j g hg _ => (hs.own j g hg).kept h⟩
  | edited hm hf hwork h =>
      refine ⟨hs.blind.edit h, fun j g hg _ => ?_⟩
      refine (hs.own j g hg).next (rolesKept_of_eq h.participants h.events) ?_
      intro p _ _ k r hr _
      obtain ⟨r', hr', hp, -, hre, hst, -⟩ := h.old hr
      exact ⟨r', hr', hst, hre, hp⟩
  | @written i f new pair pair' hm hf hheld hpair h hfills =>
      refine ⟨hs.blind.write h hfills (hs.own i f hf).stillThere, fun j g hg hj => ?_⟩
      refine (hs.own j g hg).next (rolesKept_of_eq h.participants h.events) ?_
      intro p hp hgheld k r hr hrp
      have hij : i ≠ j := fun he => hj (he ▸ hm)
      have hne : p ≠ pair.participantId := by
        -- the other worker holds another pair
        intro he
        have hi := hs.holds i f _ hf hheld hpair
        have hj' := hs.holds j g p hg hgheld hp
        rw [he, hi] at hj'
        exact hij (Option.some.inj hj')
      obtain ⟨r', hr', -, -, hsame⟩ := h.old hfills hs.blind hr
      obtain rfl := hsame fun he => hne (hrp.symm.trans he)
      exact ⟨r', hr', rfl, rfl, rfl⟩

theorem step_turn (hs : Sound w) (h : ReviewWorld.Step w m w') : Turn w m w' ∧ Sound w' := by
  cases m with
  | call c =>
      simp only [ReviewWorld.Step, ReviewWorld.exec] at h
      obtain ⟨s, hstep, rfl⟩ := Option.map_eq_some_iff.1 h
      obtain ⟨-, -, rfl⟩ := World.step_iff.1 hstep
      have hkept : ReviewsKept w.db (w.shared.world.after c).db :=
        Respects.commit (show Respects ReviewsKept (c.op.act c.env) from Op.respects) w.db
      exact ⟨.kept hkept, hs.blind.kept hkept, fun i f hf => (hs.own i f hf).kept hkept, hs.holds⟩
  | read i env request =>
      simp only [ReviewWorld.Step, ReviewWorld.exec] at h
      split at h
      · next work s₁ hfree hload =>
          split at h
          · obtain rfl := Option.some.inj h
            refine ⟨.kept (Std.Refl.refl w.db), hs.blind, fun j g hg => ?_, fun j g p hg hheld hp => ?_⟩
            · by_cases hj : j = i
              · subst hj
                rw [Threads.set_locals_self] at hg
                obtain rfl := Option.some.inj hg
                exact load_sound hload
              · rw [Threads.set_locals_ne hj] at hg
                exact hs.own j g hg
            · by_cases hj : j = i
              · subst hj
                rw [Threads.set_locals_self] at hg
                obtain rfl := Option.some.inj hg
                cases hheld
              · rw [Threads.set_locals_ne hj] at hg
                exact hs.holds j g p hg hheld hp
          · cases h
      · cases h
  | lock i =>
      simp only [ReviewWorld.Step, ReviewWorld.exec] at h
      split at h
      · next env work hf =>
          split at h
          · next p hp =>
              split at h
              · next hnone =>
                  obtain rfl := Option.some.inj h
                  have hself := hs.own i _ hf
                  refine ⟨.kept (Std.Refl.refl w.db), hs.blind, fun j g hg => ?_,
                    fun j g q hg hheld hq => ?_⟩
                  · by_cases hj : j = i
                    · subst hj
                      rw [Threads.set_locals_self] at hg
                      obtain rfl := Option.some.inj hg
                      refine ⟨hself.role, fun q hq x hx => ?_, fun hno => ?_⟩
                      · obtain rfl := Option.some.inj (hp.symm.trans hq)
                        obtain ⟨hr, hrp⟩ := reviewsHeld_spec hs.blind hx
                        exact ⟨x, hr, rfl, rfl, hrp⟩
                      · exact absurd (hp.symm.trans hno) (by simp)
                    · rw [Threads.set_locals_ne hj] at hg
                      exact hs.own j g hg
                  · by_cases hj : j = i
                    · subst hj
                      rw [Threads.set_locals_self] at hg
                      obtain rfl := Option.some.inj hg
                      obtain rfl := Option.some.inj (hp.symm.trans hq)
                      exact Function.update_self ..
                    · rw [Threads.set_locals_ne hj] at hg
                      have hold := hs.holds j g q hg hheld hq
                      have hne : q ≠ p := by
                        intro he
                        rw [he, hnone] at hold
                        cases hold
                      exact (Function.update_of_ne hne ..).trans hold
              · cases h
          · cases h
      · cases h
  | finish i =>
      simp only [ReviewWorld.Step, ReviewWorld.exec] at h
      split at h
      · next f hf =>
          split at h
          · next hready =>
              have hw' := Option.some.inj h
              have hdb : w'.db = commit (f.work.finish f.env f.stale) w.db := by
                rw [← hw']
                show (ReviewShared.leave _ f).world.db = _
                rw [leave_world]
                rfl
              have hturn := turn_of_finish hs hf hready hdb
              obtain ⟨hblind, hothers⟩ := hturn.sound hs
              refine ⟨hturn, hblind, fun j g hg => ?_, fun j g p hg hheld hp => ?_⟩
              · have hj : j ≠ i := by
                  rintro rfl
                  rw [← hw', Threads.set_locals_self] at hg
                  cases hg
                rw [← hw', Threads.set_locals_ne hj] at hg
                exact hothers j g hg fun he => hj (ReviewMove.finish.inj he).symm
              · have hj : j ≠ i := by
                  rintro rfl
                  rw [← hw', Threads.set_locals_self] at hg
                  cases hg
                rw [← hw', Threads.set_locals_ne hj] at hg
                rw [← hw']
                refine leave_holder hj (fun q hq => hs.holds i f q hf hq) ?_
                exact hs.holds j g p hg hheld hp
          · cases h
      · cases h
  | crash i =>
      simp only [ReviewWorld.Step, ReviewWorld.exec] at h
      split at h
      · next f hf =>
          have hw' := Option.some.inj h
          have hdb : w'.db = w.db := by
            rw [← hw']
            show (ReviewShared.leave _ f).world.db = _
            rw [leave_world]
            rfl
          refine ⟨.kept (by rw [hdb]; exact Std.Refl.refl _), by rw [hdb]; exact hs.blind,
            fun j g hg => ?_, fun j g p hg hheld hp => ?_⟩
          · have hj : j ≠ i := by
              rintro rfl
              rw [← hw', Threads.set_locals_self] at hg
              cases hg
            rw [← hw', Threads.set_locals_ne hj] at hg
            rw [hdb]
            exact hs.own j g hg
          · have hj : j ≠ i := by
              rintro rfl
              rw [← hw', Threads.set_locals_self] at hg
              cases hg
            rw [← hw', Threads.set_locals_ne hj] at hg
            rw [← hw']
            exact leave_holder hj (fun q hq => hs.holds i f q hf hq) (hs.holds j g p hg hheld hp)
      · cases h

end Step

end Reviews

end Paayatam
