/-
  Paayatam.Messaging.Direct

  `DirectMessageService`: messages between two accounts, who has blocked whom,
  and what has been read.

  A send looks for a block and then inserts; a view looks whether the message was
  seen and then writes.  Each pair is one transaction, but neither locks the row it
  looked at, so another transaction may commit between the two halves.
-/

import Paayatam.Lib.System
import Paayatam.Lib.Threads
import Paayatam.Types
import Mathlib.Data.List.Count

namespace Paayatam

open Lib

namespace Direct

abbrev MessageId := Nat

/-- The columns of `direct_message` that tell whose it is and whether it was read. -/
structure DirectMessageRow where
  senderUserId : UserId
  recipientUserId : UserId
  parentId : Option MessageId
  seenAt : Option Instant

/-- The tables, the outbox, and who wrote each `seen_at`. -/
structure DirectDb where
  messages : MessageId → Option DirectMessageRow
  nextId : MessageId
  /-- `direct_message_block`: the blocker, and whom he blocks. -/
  blocks : List (UserId × UserId)
  /-- The `direct.message_seen` rows of the outbox, by message. -/
  seenEvents : List MessageId
  seenWrites : List (MessageId × UserId)

inductive DirectError where
  | NOT_FOUND
  | DIRECT_BLOCKED_BY_RECIPIENT
  | DIRECT_BLOCKED_BY_YOU

/-! ## Writing -/

/-- A message that has passed the block check. -/
structure Unsent where
  senderUserId : UserId
  recipientUserId : UserId
  parentId : Option MessageId

/-- The first half of `write`. -/
def checkBlocks (db : DirectDb) (u : Unsent) : Except DirectError Unit :=
  if (u.recipientUserId, u.senderUserId) ∈ db.blocks then .error .DIRECT_BLOCKED_BY_RECIPIENT
  else if (u.senderUserId, u.recipientUserId) ∈ db.blocks then .error .DIRECT_BLOCKED_BY_YOU
  else .ok ()

/-- Whom a reply goes to: only the parent's recipient may write one, to its sender. -/
def addressReply (db : DirectDb) (senderUserId : UserId) (parentId : MessageId) :
    Except DirectError Unsent :=
  match db.messages parentId with
  | some parent =>
    if parent.recipientUserId = senderUserId then
      .ok ⟨senderUserId, parent.senderUserId, some parentId⟩
    else .error .NOT_FOUND
  | none => .error .NOT_FOUND

/-- The second half of `write`. -/
def insertMessage (db : DirectDb) (u : Unsent) : DirectDb :=
  { db with
    messages := Function.update db.messages db.nextId
      (some ⟨u.senderUserId, u.recipientUserId, u.parentId, none⟩)
    nextId := db.nextId + 1 }

/-! ## Reading and blocking -/

/-- The message is unread, and this is its recipient. -/
def firstRead (row : DirectMessageRow) (userId : UserId) : Bool :=
  decide (row.recipientUserId = userId) && row.seenAt.isNone

/-- The second half of a first `view`: the row and the sender's notice. -/
def markSeen (db : DirectDb) (id : MessageId) (userId : UserId) (now : Instant) : DirectDb :=
  { db with
    messages := Function.update db.messages id
      ((db.messages id).map fun row => { row with seenAt := some now })
    seenEvents := id :: db.seenEvents
    seenWrites := (id, userId) :: db.seenWrites }

/-- `block`, by a message addressed to the blocker: whom it blocks. -/
def blockedBy (db : DirectDb) (blockerUserId : UserId) (id : MessageId) : Option UserId :=
  (db.messages id).bind fun row =>
    if row.recipientUserId = blockerUserId then some row.senderUserId else none

def addBlock (db : DirectDb) (blocker blocked : UserId) : DirectDb :=
  { db with blocks := if (blocker, blocked) ∈ db.blocks then db.blocks
      else (blocker, blocked) :: db.blocks }

def removeBlock (db : DirectDb) (blocker blocked : UserId) : DirectDb :=
  { db with blocks := db.blocks.filter fun b => decide (b ≠ (blocker, blocked)) }

/-! ## Calls at work -/

/-- What a call has found, between its two halves. -/
inductive DirectWork where
  | writing (u : Unsent)
  | viewing (id : MessageId) (userId : UserId) (now : Instant)

inductive DirectMove (ι : Type) where
  /-- A send, to whom the event says, as far as the block check. -/
  | send (i : ι) (senderUserId recipientUserId : UserId)
  | reply (i : ι) (senderUserId : UserId) (parentId : MessageId)
  | insert (i : ι)
  /-- A view, as far as the look at `seen_at`. -/
  | view (i : ι) (userId : UserId) (id : MessageId) (now : Instant)
  | see (i : ι)
  | block (blockerUserId : UserId) (id : MessageId)
  | unblock (blockerUserId blockedUserId : UserId)
  | abort (i : ι)

abbrev DirectWorld (ι : Type) := Threads ι DirectDb (Option DirectWork)

namespace DirectWorld

variable {ι : Type} [DecidableEq ι]

/-- Goes on to the insert, or is refused. -/
def startWriting (w : DirectWorld ι) (i : ι) (u : Unsent) : DirectWorld ι :=
  match checkBlocks w.shared u with
  | .ok () => w.set i w.shared (some (.writing u))
  | .error _ => w

def exec (w : DirectWorld ι) : DirectMove ι → Option (DirectWorld ι)
  | .send i sender recipient =>
    match w.locals i with
    | none => some (w.startWriting i ⟨sender, recipient, none⟩)
    | some _ => none
  | .reply i sender parentId =>
    match w.locals i, addressReply w.shared sender parentId with
    | none, .ok u => some (w.startWriting i u)
    | none, .error _ => some w
    | some _, _ => none
  | .insert i =>
    match w.locals i with
    | some (.writing u) => some (w.set i (insertMessage w.shared u) none)
    | _ => none
  | .view i userId id now =>
    match w.locals i, w.shared.messages id with
    | none, some row =>
      if firstRead row userId = true then some (w.set i w.shared (some (.viewing id userId now)))
      else some w
    | none, none => some w
    | some _, _ => none
  | .see i =>
    match w.locals i with
    | some (.viewing id userId now) => some (w.set i (markSeen w.shared id userId now) none)
    | _ => none
  | .block blocker id =>
    match blockedBy w.shared blocker id with
    | some blocked => some { w with shared := addBlock w.shared blocker blocked }
    | none => some w
  | .unblock blocker blocked => some { w with shared := removeBlock w.shared blocker blocked }
  | .abort i => some (w.set i w.shared none)

def Step (w : DirectWorld ι) (m : DirectMove ι) (w' : DirectWorld ι) : Prop := w.exec m = some w'

/-- No messages, no receipts, and nobody at work. -/
def Init (w : DirectWorld ι) : Prop :=
  (∀ id, w.shared.messages id = none) ∧ w.shared.seenEvents = [] ∧ w.shared.seenWrites = [] ∧
    ∀ i, w.locals i = none

/-- A block comes while nothing is on its way from the blocked to the blocker, and a view of
    an unread message while no other is between its two halves. -/
def Apart (w : DirectWorld ι) : DirectMove ι → Prop
  | .block blocker id => ∀ blocked, blockedBy w.shared blocker id = some blocked →
      ∀ i u, w.locals i = some (.writing u) →
        ¬ (u.senderUserId = blocked ∧ u.recipientUserId = blocker)
  | .view _ _ id _ => ∀ j userId now, w.locals j ≠ some (.viewing id userId now)
  | _ => True

end DirectWorld

/-! ## What is kept -/

/-- The message has been read. -/
def DirectDb.wasSeen (db : DirectDb) (id : MessageId) : Bool :=
  (db.messages id).any fun row => row.seenAt.isSome

/-- One receipt for a message that was read, and none for another; its `seen_at` written as
    often, by its recipient. -/
structure ReceiptsKept (db : DirectDb) : Prop where
  events : ∀ id, db.seenEvents.count id = if db.wasSeen id then 1 else 0
  once : ∀ id, (db.seenWrites.map Prod.fst).count id = if db.wasSeen id then 1 else 0
  recipient : ∀ id userId, (id, userId) ∈ db.seenWrites →
    ∃ row, db.messages id = some row ∧ row.recipientUserId = userId

section Runs

variable {ι : Type} [DecidableEq ι] {w w' : DirectWorld ι} {m : DirectMove ι} {i j : ι}
  {db : DirectDb}

structure DirectSound (w : DirectWorld ι) : Prop where
  receipts : ReceiptsKept w.shared
  fresh : ∀ id, w.shared.nextId ≤ id → w.shared.messages id = none
  /-- Nobody writes to somebody who has blocked him. -/
  welcome : ∀ i u, w.locals i = some (.writing u) →
    (u.recipientUserId, u.senderUserId) ∉ w.shared.blocks
  /-- Who is at a first read is the recipient, and the message unread. -/
  unread : ∀ i id userId now, w.locals i = some (.viewing id userId now) →
    ∃ row, w.shared.messages id = some row ∧ firstRead row userId = true
  alone : ∀ i j id u u' now now', w.locals i = some (.viewing id u now) →
    w.locals j = some (.viewing id u' now') → i = j

theorem markSeen_self {id : MessageId} {userId : UserId} {now : Instant} :
    (markSeen db id userId now).messages id =
      (db.messages id).map fun row => { row with seenAt := some now } := Function.update_self ..

theorem markSeen_ne {id x : MessageId} {userId : UserId} {now : Instant} (h : x ≠ id) :
    (markSeen db id userId now).messages x = db.messages x := Function.update_of_ne h _ _

theorem insertMessage_ne {x : MessageId} {u : Unsent} (h : x ≠ db.nextId) :
    (insertMessage db u).messages x = db.messages x := Function.update_of_ne h _ _

theorem wasSeen_update (db : DirectDb) (id : MessageId) {x : MessageId}
    {o : Option DirectMessageRow} {s : DirectDb}
    (hs : s.messages = Function.update db.messages id o) :
    s.wasSeen x = if x = id then o.any (fun row => row.seenAt.isSome) else db.wasSeen x := by
  unfold DirectDb.wasSeen
  rw [hs]
  by_cases hx : x = id
  · rw [hx, Function.update_self, if_pos rfl]
  · rw [Function.update_of_ne hx, if_neg hx]

theorem firstRead_iff {row : DirectMessageRow} {userId : UserId} :
    firstRead row userId = true ↔ row.recipientUserId = userId ∧ row.seenAt = none := by
  simp [firstRead]

/-- A first read writes one receipt. -/
theorem ReceiptsKept.markSeen (h : ReceiptsKept db) {id : MessageId} {userId : UserId}
    {now : Instant} {row : DirectMessageRow} (hrow : db.messages id = some row)
    (hfirst : firstRead row userId = true) : ReceiptsKept (markSeen db id userId now) := by
  obtain ⟨hrecipient, hunseen⟩ := firstRead_iff.1 hfirst
  have hbefore : db.wasSeen id = false := by simp [DirectDb.wasSeen, hrow, hunseen]
  have hafter : ∀ x, (Direct.markSeen db id userId now).wasSeen x =
      if x = id then true else db.wasSeen x := by
    intro x
    rw [wasSeen_update db id rfl, hrow]
    rfl
  have hcount : ∀ (l : List MessageId),
      (∀ x, l.count x = if db.wasSeen x then 1 else 0) →
      ∀ x, (id :: l).count x = if (Direct.markSeen db id userId now).wasSeen x then 1 else 0 := by
    intro l hl x
    rw [hafter]
    by_cases hx : x = id
    · subst hx
      rw [List.count_cons_self, hl, hbefore]
      simp
    · rw [List.count_cons_of_ne (Ne.symm hx), hl, if_neg hx]
  refine ⟨hcount _ h.events, hcount _ h.once, fun x u hx => ?_⟩
  rcases List.mem_cons.1 hx with hxu | hx
  · obtain ⟨rfl, rfl⟩ := Prod.mk.inj hxu
    exact ⟨{ row with seenAt := some now }, by rw [markSeen_self, hrow]; rfl, hrecipient⟩
  · obtain ⟨row', hrow', hu⟩ := h.recipient x u hx
    by_cases hxid : x = id
    · subst hxid
      obtain rfl := Option.some.inj (hrow.symm.trans hrow')
      exact ⟨{ row with seenAt := some now }, by rw [markSeen_self, hrow]; rfl, hu⟩
    · exact ⟨row', (markSeen_ne hxid).trans hrow', hu⟩

/-- A new message is unread. -/
theorem ReceiptsKept.insertMessage (h : ReceiptsKept db) (hfresh : db.messages db.nextId = none)
    (u : Unsent) : ReceiptsKept (insertMessage db u) := by
  have hafter : ∀ x, (Direct.insertMessage db u).wasSeen x = db.wasSeen x := by
    intro x
    rw [wasSeen_update db db.nextId rfl]
    by_cases hx : x = db.nextId
    · rw [if_pos hx, hx]
      simp [DirectDb.wasSeen, hfresh]
    · rw [if_neg hx]
  refine ⟨fun x => ?_, fun x => ?_, fun x userId hx => ?_⟩
  · rw [hafter]
    exact h.events x
  · rw [hafter]
    exact h.once x
  · obtain ⟨row, hrow, hu⟩ := h.recipient x userId hx
    have hne : x ≠ db.nextId := by
      rintro rfl
      rw [hfresh] at hrow
      cases hrow
    exact ⟨row, (insertMessage_ne hne).trans hrow, hu⟩

/-- What a call has found is still so. -/
def DirectWork.Good (w : DirectWorld ι) (i : ι) (db : DirectDb) : DirectWork → Prop
  | .writing u => (u.recipientUserId, u.senderUserId) ∉ db.blocks
  | .viewing id userId _ => (∃ row, db.messages id = some row ∧ firstRead row userId = true) ∧
      ∀ j, j ≠ i → ∀ userId' now', w.locals j ≠ some (.viewing id userId' now')

theorem checkBlocks_ok {u : Unsent} (h : checkBlocks db u = .ok ()) :
    (u.recipientUserId, u.senderUserId) ∉ db.blocks := by
  unfold checkBlocks at h
  split at h
  · cases h
  · assumption

/-- One call moves on; the messages the others are at stay as they are. -/
theorem DirectSound.set (h : DirectSound w) {l : Option DirectWork} (hreceipts : ReceiptsKept db)
    (hfresh : ∀ id, db.nextId ≤ id → db.messages id = none) (hblocks : db.blocks = w.shared.blocks)
    (hothers : ∀ j, j ≠ i → ∀ id userId now, w.locals j = some (.viewing id userId now) →
      db.messages id = w.shared.messages id)
    (hl : ∀ work, l = some work → work.Good w i db) : DirectSound (w.set i db l) where
  receipts := hreceipts
  fresh := hfresh
  welcome j u hu := by
    by_cases hj : j = i
    · subst hj
      rw [Threads.set_locals_self] at hu
      exact hl _ hu
    · rw [Threads.set_locals_ne hj] at hu
      show _ ∉ db.blocks
      rw [hblocks]
      exact h.welcome j u hu
  unread j id userId now hv := by
    by_cases hj : j = i
    · subst hj
      rw [Threads.set_locals_self] at hv
      exact (hl _ hv).1
    · rw [Threads.set_locals_ne hj] at hv
      show ∃ row, db.messages id = some row ∧ _
      rw [hothers j hj id userId now hv]
      exact h.unread j id userId now hv
  alone j k id u u' now now' hj hk := by
    by_cases hji : j = i
    · by_cases hki : k = i
      · exact hji.trans hki.symm
      · subst hji
        rw [Threads.set_locals_self] at hj
        rw [Threads.set_locals_ne hki] at hk
        exact absurd hk ((hl _ hj).2 k hki u' now')
    · rw [Threads.set_locals_ne hji] at hj
      by_cases hki : k = i
      · subst hki
        rw [Threads.set_locals_self] at hk
        exact absurd hj ((hl _ hk).2 j hji u now)
      · rw [Threads.set_locals_ne hki] at hk
        exact h.alone j k id u u' now now' hj hk

theorem DirectSound.startWriting (h : DirectSound w) (u : Unsent) :
    DirectSound (w.startWriting i u) := by
  unfold DirectWorld.startWriting
  split
  · next hcheck =>
      refine h.set h.receipts h.fresh rfl (fun _ _ _ _ _ _ => rfl) fun work hwork => ?_
      obtain rfl := Option.some.inj hwork
      exact checkBlocks_ok hcheck
  · exact h

omit [DecidableEq ι] in
/-- The blocks change, to what nobody at work has been refused. -/
theorem DirectSound.blocks (h : DirectSound w) {l : List (UserId × UserId)}
    (hl : ∀ i u, w.locals i = some (.writing u) → (u.recipientUserId, u.senderUserId) ∉ l) :
    DirectSound { w with shared := { w.shared with blocks := l } } where
  receipts := ⟨h.receipts.events, h.receipts.once, h.receipts.recipient⟩
  fresh := h.fresh
  welcome := hl
  unread := h.unread
  alone := h.alone

theorem DirectSound.step (h : DirectSound w) (hg : w.Apart m) (hs : w.Step m w') :
    DirectSound w' := by
  cases m with
  | send i sender recipient =>
      simp only [DirectWorld.Step, DirectWorld.exec] at hs
      split at hs
      · obtain rfl := Option.some.inj hs
        exact h.startWriting _
      · cases hs
  | reply i sender parentId =>
      simp only [DirectWorld.Step, DirectWorld.exec] at hs
      split at hs
      · obtain rfl := Option.some.inj hs
        exact h.startWriting _
      · obtain rfl := Option.some.inj hs
        exact h
      · cases hs
  | insert i =>
      simp only [DirectWorld.Step, DirectWorld.exec] at hs
      split at hs
      · next u hl =>
          obtain rfl := Option.some.inj hs
          have hnew : w.shared.messages w.shared.nextId = none := h.fresh _ (Nat.le_refl _)
          refine h.set (h.receipts.insertMessage hnew u) (fun id hid => ?_) rfl
            (fun j _ id userId now hv => ?_) nofun
          · have hlt : w.shared.nextId < id := hid
            exact (insertMessage_ne (Nat.ne_of_gt hlt)).trans (h.fresh id (Nat.le_of_lt hlt))
          · obtain ⟨row, hrow, -⟩ := h.unread j id userId now hv
            apply insertMessage_ne
            rintro rfl
            rw [hnew] at hrow
            cases hrow
      · cases hs
  | view i userId id now =>
      simp only [DirectWorld.Step, DirectWorld.exec] at hs
      split at hs
      · next row hl hrow =>
          split at hs
          · next hfirst =>
              obtain rfl := Option.some.inj hs
              refine h.set h.receipts h.fresh rfl (fun _ _ _ _ _ _ => rfl) fun work hwork => ?_
              obtain rfl := Option.some.inj hwork
              exact ⟨⟨row, hrow, hfirst⟩, fun j _ => hg j⟩
          · obtain rfl := Option.some.inj hs
            exact h
      · obtain rfl := Option.some.inj hs
        exact h
      · cases hs
  | see i =>
      simp only [DirectWorld.Step, DirectWorld.exec] at hs
      split at hs
      · next id userId now hl =>
          obtain rfl := Option.some.inj hs
          obtain ⟨row, hrow, hfirst⟩ := h.unread i id userId now hl
          refine h.set (h.receipts.markSeen hrow hfirst) (fun x hx => ?_) rfl
            (fun j hj x u now' hv => ?_) nofun
          · have hxid : x ≠ id := by
              rintro rfl
              rw [h.fresh x hx] at hrow
              cases hrow
            exact (markSeen_ne hxid).trans (h.fresh x hx)
          · apply markSeen_ne
            rintro rfl
            exact hj (h.alone j i x u userId now' now hv hl)
      · cases hs
  | block blocker id =>
      simp only [DirectWorld.Step, DirectWorld.exec] at hs
      split at hs
      · next blocked hblocked =>
          obtain rfl := Option.some.inj hs
          refine h.blocks fun i u hu => ?_
          split
          · exact h.welcome i u hu
          · intro hmem
            rcases List.mem_cons.1 hmem with heq | hmem
            · obtain ⟨hrecipient, hsender⟩ := Prod.mk.inj heq
              exact hg blocked hblocked i u hu ⟨hsender, hrecipient⟩
            · exact h.welcome i u hu hmem
      · obtain rfl := Option.some.inj hs
        exact h
  | unblock blocker blocked =>
      obtain rfl := Option.some.inj hs
      exact h.blocks fun i u hu hmem => h.welcome i u hu (List.mem_filter.1 hmem).1
  | abort i =>
      obtain rfl := Option.some.inj hs
      exact h.set h.receipts h.fresh rfl (fun _ _ _ _ _ _ => rfl) nofun

omit [DecidableEq ι] in
theorem directSound_init (h : w.Init) : DirectSound w := by
  obtain ⟨hmessages, hevents, hwrites, hidle⟩ := h
  have hunseen : ∀ id, w.shared.wasSeen id = false := fun id => by
    simp [DirectDb.wasSeen, hmessages id]
  refine ⟨⟨fun id => ?_, fun id => ?_, fun id u hmem => ?_⟩, fun id _ => hmessages id,
    fun i u hl => ?_, fun i id u now hl => ?_, fun i j id u u' now now' hl => ?_⟩
  · simp [hevents, hunseen]
  · simp [hwrites, hunseen]
  · rw [hwrites] at hmem
    cases hmem
  · rw [hidle i] at hl
    cases hl
  · rw [hidle i] at hl
    cases hl
  · rw [hidle i] at hl
    cases hl

/-- A step commits no message to somebody who has blocked its sender. -/
def NotBlocked (x : DirectWorld ι × DirectMove ι × DirectWorld ι) : Prop :=
  match x with
  | (w, .insert i, _) => ∀ u, w.locals i = some (.writing u) →
      (u.recipientUserId, u.senderUserId) ∉ w.shared.blocks
  | _ => True

/-- Where no block overtakes a message on its way, and no two first views overlap. -/
theorem direct_messages_kept {tr : List (DirectWorld ι × DirectMove ι × DirectWorld ι)}
    {w : DirectWorld ι} (h : Run DirectWorld.Init DirectWorld.Step DirectWorld.Apart tr w) :
    (∀ x ∈ tr, NotBlocked x) ∧ ReceiptsKept w.shared := by
  have hsound : ∀ {v : DirectWorld ι}, Reach DirectWorld.Init DirectWorld.Step DirectWorld.Apart v →
      DirectSound v := fun hv =>
    hv.invariant (I := DirectSound) (fun _ => directSound_init) fun _ _ _ hI hg hs => hI.step hg hs
  refine ⟨h.steps (P := fun w m w' => NotBlocked (w, m, w')) fun w m w' hw _ _ => ?_,
    (hsound h.reach).receipts⟩
  cases m with
  | insert i => exact (hsound hw).welcome i
  | send | reply | view | see | block | unblock | abort => trivial

end Runs

/-! ## Overlaps -/

def noMessages : DirectWorld Bool where
  shared := ⟨fun _ => none, 0, [], [], []⟩
  locals _ := none

theorem noMessages_init : noMessages.Init := ⟨fun _ => rfl, rfl, rfl, fun _ => rfl⟩

/-- A message is sent, and read twice. -/
theorem direct_messages_kept_reread : ∃ w : DirectWorld Bool,
    ReceiptsKept w.shared ∧ w.shared.seenEvents = [0] := by
  have h0 : Run DirectWorld.Init DirectWorld.Step DirectWorld.Apart [] noMessages :=
    .start noMessages_init
  have hwritten := h0.next (i := DirectMove.send false 1 2) trivial rfl
  have hsent := hwritten.next (i := DirectMove.insert false) trivial rfl
  have hfirst := hsent.next (i := DirectMove.view false 2 0 5)
    (by rintro (_ | _) u now h <;> cases h) rfl
  have hseen := hfirst.next (i := DirectMove.see false) trivial rfl
  have hagain := hseen.next (i := DirectMove.view true 2 0 6)
    (by rintro (_ | _) u now h <;> cases h) rfl
  exact ⟨_, (direct_messages_kept hagain).2, rfl⟩

/-- Two views that overlap send two receipts; and a block that overtakes a message does not
    stop it. -/
theorem receipt_and_block_overtaken :
    (¬ ∀ w : DirectWorld Bool, Reachable DirectWorld.Init DirectWorld.Step w →
      ReceiptsKept w.shared) ∧
    ¬ ∀ (tr : List (DirectWorld Bool × DirectMove Bool × DirectWorld Bool)) (w : DirectWorld Bool),
      Run DirectWorld.Init DirectWorld.Step (fun _ _ => True) tr w → ∀ x ∈ tr, NotBlocked x := by
  have h0 : Run DirectWorld.Init DirectWorld.Step (fun _ _ => True) [] noMessages :=
    .start noMessages_init
  have hwritten := h0.next (i := DirectMove.send false 1 2) trivial rfl
  have hsent := hwritten.next (i := DirectMove.insert false) trivial rfl
  constructor
  · intro h
    have hfirst := hsent.next (i := DirectMove.view false 2 0 5) trivial rfl
    have hsecond := hfirst.next (i := DirectMove.view true 2 0 6) trivial rfl
    have hseen := hsecond.next (i := DirectMove.see false) trivial rfl
    have hseen := hseen.next (i := DirectMove.see true) trivial rfl
    have hcount := (h _ hseen.reach).events 0
    exact absurd hcount (by decide)
  · intro h
    have hwriting := hsent.next (i := DirectMove.send true 1 2) trivial rfl
    have hblocked := hwriting.next (i := DirectMove.block 2 0) trivial rfl
    have hcommitted := hblocked.next (i := DirectMove.insert true) trivial rfl
    have hnot := h _ _ hcommitted _ (List.mem_append_right _ (List.mem_singleton.2 rfl)) _ rfl
    exact absurd hnot (by decide)

end Direct

end Paayatam
