/-
  Paayatam.Channel.Service

  `ChannelService`: the posts of the public channel.

  A post is claimed before it is sent: the claim is a row that has no
  `posted_at` yet.  Free posts are claimed by the sweep, for events that were
  asked for often enough; paid ones with the registration of an event, by its
  renewal, and when moderation puts an event back.  The sweep reads, claims and
  records in transactions of their own, so its statements are separate
  definitions here.
-/

import Mathlib.Data.List.MinMax
import Paayatam.Booking.World
import Paayatam.Lib.Within

namespace Paayatam

open Lib

abbrev PostId := Nat

/-- The capacity that means "as many as turn up". -/
def UNLIMITED_CAPACITY : Int := 1000

def isUnlimitedCapacity (capacity : Int) : Bool := decide (UNLIMITED_CAPACITY ≤ capacity)

/-! ## The table -/

inductive ChannelPostKind where
  | VIP | BOOSTED | TRENDING | PAID
  deriving DecidableEq

/-- `channel_post`. -/
structure ChannelPostRow where
  id : PostId
  eventId : EventId
  kind : ChannelPostKind
  republishSeq : Nat
  telegramMessageId : Option Int
  postedAt : Option Instant
  deletedAt : Option Instant
  supersededAt : Option Instant
  createdAt : Instant
  deriving DecidableEq

/-- The `CHECK` constraints of `channel_post`. -/
def ChannelPostRow.constraints (p : ChannelPostRow) : Bool :=
  -- channel_post_posted_has_message_id
  p.postedAt.isNone == p.telegramMessageId.isNone &&
  -- channel_post_deleted_after_posted
  (p.deletedAt.isNone || p.postedAt.isSome) &&
  -- channel_post_republish_seq_paid_only
  (decide (p.republishSeq = 0) || decide (p.kind = .PAID))

instance : Row ChannelPostRow PostId where
  key p := p.id
  check := ChannelPostRow.constraints
  -- UNIQUE (event_id, kind, republish_seq)
  collide p q := decide (p.eventId = q.eventId) && decide (p.kind = q.kind) &&
    decide (p.republishSeq = q.republishSeq)
  collide_comm p q := by simp [eq_comm]

/-- The database with the posts, and how many post ids were given out. -/
structure ChannelDb where
  db : Db
  posts : Table ChannelPostRow
  issued : PostId

instance : HasTable ChannelDb ChannelPostRow :=
  ⟨ChannelDb.posts, fun t s => { s with posts := t }⟩

@[simp] theorem table_posts {s : ChannelDb} :
    (HasTable.table s : Table ChannelPostRow) = s.posts := rfl

@[simp] theorem setTable_posts {s : ChannelDb} {t : Table ChannelPostRow} :
    HasTable.setTable t s = { s with posts := t } := rfl

/-- A transaction over both. -/
abbrev ChannelAct := Tx ChannelDb AppError

/-- A transaction of another service, joined. -/
def joinedDb {α : Type} (m : Act α) : ChannelAct α :=
  within ChannelDb.db (fun db s => { s with db := db }) m

/-- The settings of the channel, and what the other services read. -/
structure ChannelEnv where
  env : Env
  channel_enabled : Nat
  channel_trending_request_threshold : Nat
  economy_event_channel_send_coins : Nat
  /-- `ChannelMembershipService.assertAllowed` lets the host through, for `EVENT_CHANNEL_SEND`. -/
  mayChannelSend : UserId → Bool

/-! ## Reading the posts -/

/-- The paid posts of an event. -/
def ChannelDb.paidOf (s : ChannelDb) (eventId : EventId) : List ChannelPostRow :=
  s.posts.rows.filter fun p => decide (p.eventId = eventId) && decide (p.kind = .PAID)

/-- Neither taken down nor replaced by a renewal. -/
def ChannelPostRow.isOpen (p : ChannelPostRow) : Bool := p.deletedAt.isNone && p.supersededAt.isNone

/-- In the channel: posted, not taken down, not replaced. -/
def ChannelPostRow.isLive (p : ChannelPostRow) : Bool := p.postedAt.isSome && p.isOpen

/-- `currentPaidPublication`: the paid post a renewal would renew. -/
def ChannelDb.currentPaidPublication (s : ChannelDb) (eventId : EventId) : Option ChannelPostRow :=
  ((s.paidOf eventId).filter ChannelPostRow.isOpen).argmax ChannelPostRow.republishSeq

/-- The last paid post that reached the channel. -/
def ChannelDb.previousPaidPublication (s : ChannelDb) (eventId : EventId) : Option ChannelPostRow :=
  ((s.paidOf eventId).filter fun p => p.postedAt.isSome).argmax ChannelPostRow.republishSeq

/-- What the publisher is given: the post, with the event it is rendered from. -/
structure PublishablePost where
  postId : PostId
  kind : ChannelPostKind
  event : EventRow
  takenCount : Int
  full : Bool

/-- `pendingCounts`, of one event. -/
def Db.pendingCount (db : Db) (eventId : EventId) : Nat :=
  db.participants.rows.countP fun p => decide (p.eventId = eventId) && holdsSlot p.status

def toPublishable (postId : PostId) (kind : ChannelPostKind) (event : EventRow) (pending : Nat) :
    PublishablePost where
  postId := postId
  kind := kind
  event := event
  takenCount := if isUnlimitedCapacity event.capacity then event.acceptedCount + pending
    else min (event.acceptedCount + pending) event.capacity
  full := !isUnlimitedCapacity event.capacity && decide (event.capacity ≤ event.acceptedCount + pending)

/-! ## Paid posts -/

/-- The row a claim inserts. -/
def claimedPost (id : PostId) (eventId : EventId) (kind : ChannelPostKind) (republishSeq : Nat)
    (now : Instant) : ChannelPostRow where
  id := id
  eventId := eventId
  kind := kind
  republishSeq := republishSeq
  telegramMessageId := none
  postedAt := none
  deletedAt := none
  supersededAt := none
  createdAt := now

/-- The insert of a claim: whether the unique index let it in. -/
def claimPost (now : Instant) (eventId : EventId) (kind : ChannelPostKind) (republishSeq : Nat) :
    ChannelAct Bool := do
  let s ← get
  let claimed ← insertRowOrIgnore (claimedPost s.issued eventId kind republishSeq now)
  modify fun s : ChannelDb => { s with issued := s.issued + 1 }
  return claimed

def claimPaidPublication (now : Instant) (eventId : EventId) (republishSeq : Nat) :
    ChannelAct Bool :=
  claimPost now eventId .PAID republishSeq

/-- A claim whose refusal nobody answers.  The violation is caught, but the
    statement failed: the rest of the transaction fails with it. -/
def claimOrAbort (now : Instant) (eventId : EventId) (republishSeq : Nat) : ChannelAct Unit := do
  let claimed ← claimPaidPublication now eventId republishSeq
  guardTx (claimed = true) (.db .uniqueViolation)

def ChannelPostRow.superseded (now : Instant) (p : ChannelPostRow) : ChannelPostRow :=
  { p with supersededAt := some now }

/-- `reinstatePaidPublication`: the next sequence, when the last post in the channel was taken
    down. -/
def reinstatePaidPublication (now : Instant) (eventId : EventId) : ChannelAct Bool := do
  let s ← get
  match s.previousPaidPublication eventId with
  | none => return false
  | some previous =>
    if previous.deletedAt = none then return false
    else do
      claimOrAbort now eventId (previous.republishSeq + 1)
      return true

/-- `publishToChannel`, up to the claim: the event and the post that is renewed. -/
def checkPublication (env : ChannelEnv) (hostUserId : UserId) (eventId : EventId) :
    ChannelAct (EventRow × Option ChannelPostRow) := do
  guardTx (env.mayChannelSend hostUserId = true) (.of .CHANNEL_MEMBERSHIP_REQUIRED)
  guardTx (env.env.channelPublishable = true) (.of .CHANNEL_UNAVAILABLE)
  let s ← get
  let locked ← orThrow (.of .EVENT_NOT_FOUND) (s.db.events.find? eventId)
  guardTx (locked.deletedAt = none) (.of .EVENT_NOT_FOUND)
  guardTx (locked.hostUserId = hostUserId) (.of .EVENT_NOT_FOUND)
  guardTx (locked.status = .PUBLISHED) (.of .EVENT_NOT_BOOSTABLE)
  guardTx (env.env.now < locked.startsAt) (.of .EVENT_NOT_BOOSTABLE)
  let current := s.currentPaidPublication locked.id
  -- a renewal renews something that is in the channel
  guardTx (∀ p ∈ current, p.postedAt ≠ none) (.of .EVENT_ALREADY_IN_CHANNEL)
  return (locked, current)

/-- The sequence a renewal takes. -/
def nextSequence : Option ChannelPostRow → Nat
  | none => 0
  | some current => current.republishSeq + 1

/-- `supersedePaidPublication`, of the post that was renewed. -/
def supersedeCurrent (now : Instant) : Option ChannelPostRow → ChannelAct Unit
  | none => return ()
  | some current => updateRow current.id (ChannelPostRow.superseded now)

def publishToChannel (env : ChannelEnv) (hostUserId : UserId) (eventId : EventId) :
    ChannelAct Unit := do
  let (locked, current) ← checkPublication env hostUserId eventId
  let claimed ← claimPaidPublication env.env.now locked.id (nextSequence current)
  guardTx (claimed = true) (.of .EVENT_ALREADY_IN_CHANNEL)
  supersedeCurrent env.env.now current
  joinedDb (chargeHostSpend env.env hostUserId locked.id env.economy_event_channel_send_coins
    .CHANNEL_POST_SPEND EVENT_CHANNEL_POST_REASON (.channelPostSpend locked.id (nextSequence current)))

/-! ## What other operations claim -/

/-- The registration of a published event claims its first post. -/
def claimRegistration (env : Env) (eventId : EventId) : ChannelAct Unit := do
  let s ← get
  whenTx ((s.db.events.find? eventId).any (fun ev => decide (ev.status = .PUBLISHED)) = true ∧
    env.channelPublishable = true) (claimOrAbort env.now eventId 0)

/-- The event an operation puts back, from the rows it found: a moderator's PUBLISH, or a
    case decided for an event that was taken out. -/
def Op.restores (db : Db) : Op → Option EventId
  | .moderateEvent _ e .PUBLISH _ => some e
  | .decideCase _ _ c .APPROVED _ =>
    match db.cases.find? c with
    | some m =>
      if m.subjectType = .EVENT then
        (db.events.find? m.subjectId).bind fun ev =>
          if ev.status = .HIDDEN ∨ ev.status = .PENDING_MODERATION then some ev.id else none
      else none
    | none => none
  | _ => none

/-- What an operation goes on to claim, in its own transaction. -/
def Op.claims (env : Env) (db : Db) : Op → ChannelAct Unit
  | .create _ _ _ e => claimRegistration env e
  | op =>
    match op.restores db with
    | some e => do
      let _ ← reinstatePaidPublication env.now e
    | none => return ()

/-- An operation, with the posts it claims. -/
def Op.published (env : Env) (op : Op) : ChannelAct Unit := do
  let s ← get
  joinedDb (op.act env)
  op.claims env s.db

/-! ## The sweep -/

/-- What the channel's rules ask of an event. -/
def EventRow.Allowed (ev : EventRow) (now : Instant) : Prop :=
  ev.status = .PUBLISHED ∧ ev.deletedAt = none ∧
  (ev.moderationStatus = .APPROVED ∨ ev.moderationStatus = .FLAGGED) ∧ now < ev.startsAt

instance (ev : EventRow) (now : Instant) : Decidable (ev.Allowed now) :=
  inferInstanceAs (Decidable (_ ∧ _))

/-- The events `claimPending` selects, each with its pending requests. -/
def trendingCandidates (env : ChannelEnv) (s : ChannelDb) (limit : Nat) : List (EventRow × Nat) :=
  if env.channel_enabled ≠ 1 then []
  else
    let candidates := s.db.events.rows.filter fun ev =>
      decide (ev.Allowed env.env.now) &&
      decide (env.channel_trending_request_threshold ≤ ev.requestCount) &&
      !(s.paidOf ev.id).any fun p => p.deletedAt.isNone
    let oldest := candidates.insertionSort fun a b => a.publishedAt.getD 0 ≤ b.publishedAt.getD 0
    (oldest.take limit).map fun ev => (ev, s.db.pendingCount ev.id)

/-- One insert of `claimPending`. -/
def claimTrending (now : Instant) (eventId : EventId) : ChannelAct Bool :=
  claimPost now eventId .TRENDING 0

/-- Paid claims that were not confirmed, oldest first. -/
def ChannelDb.unpostedPaid (s : ChannelDb) (limit : Nat) : List ChannelPostRow :=
  ((s.posts.rows.filter fun p => decide (p.kind = .PAID) && p.postedAt.isNone &&
    p.deletedAt.isNone).insertionSort fun p q => p.createdAt ≤ q.createdAt).take limit

/-- `findUnpostedPaid`. -/
def findUnpostedPaid (env : ChannelEnv) (s : ChannelDb) (limit : Nat) : List PublishablePost :=
  if env.channel_enabled ≠ 1 then []
  else (s.unpostedPaid limit).filterMap fun p =>
    (s.db.events.find? p.eventId).map fun ev =>
      toPublishable p.id .PAID ev (s.db.pendingCount ev.id)

def ChannelPostRow.posted (now : Instant) (telegramMessageId : Int) (p : ChannelPostRow) :
    ChannelPostRow :=
  { p with telegramMessageId := some telegramMessageId, postedAt := some now }

def markPosted (now : Instant) (postId : PostId) (telegramMessageId : Int) : ChannelAct Unit :=
  updateRow postId (ChannelPostRow.posted now telegramMessageId)

/-- A claim that never became a post is deleted. -/
def releaseClaim (postId : PostId) : ChannelAct Unit :=
  deleteRows fun p : ChannelPostRow => decide (p.id = postId) && p.postedAt.isNone

/-- The event of a post has stopped being publishable, or a renewal replaced the post. -/
def needsTakedown (now : Instant) (p : ChannelPostRow) (ev : EventRow) : Bool :=
  decide (ev.status ≠ .PUBLISHED) || ev.deletedAt.isSome ||
  decide (ev.moderationStatus = .REJECTED) || decide (ev.startsAt ≤ now) || p.supersededAt.isSome

/-- `findTakedowns`. -/
def findTakedowns (now : Instant) (s : ChannelDb) : List PostId :=
  (s.posts.rows.filter fun p => p.deletedAt.isNone && p.postedAt.isSome &&
    (s.db.events.find? p.eventId).any (needsTakedown now p) && p.telegramMessageId.isSome).map (·.id)

def ChannelPostRow.takenDown (now : Instant) (p : ChannelPostRow) : ChannelPostRow :=
  { p with deletedAt := some now }

def markTakenDown (now : Instant) (postId : PostId) : ChannelAct Unit :=
  updateRow postId (ChannelPostRow.takenDown now)

end Paayatam
