/-
  Paayatam.Economy.LockOrder

  The rows the value-moving transactions lock, in the order they lock them.

  A host cancellation sorts the coin accounts it will touch before it locks them,
  so that two of them cannot wait for each other.  The same order over the whole
  product would be: the event, then coin accounts by user, then trust scores by
  user.  Four transactions lock rows of two users in an order of their own: a
  referral payout pays the referrer before the referred, an attendance settlement
  credits the attendees as the query returns them, a host's absence moves the
  host's trust before the guests', and a reveal the guest's before the host's.
-/

import Paayatam.Lib.Locks
import Paayatam.Types
import Mathlib.Data.List.Dedup
import Mathlib.Data.List.Sort
import Mathlib.Data.Prod.Lex

namespace Paayatam.LockOrder

open Paayatam.Lib

inductive RowLock where
  | event (id : EventId)
  | coinAccount (userId : UserId)
  | trustScore (userId : UserId)
  deriving DecidableEq

namespace RowLock

/-- The event first, then coin accounts by user, then trust scores by user. -/
def rank : RowLock → ℕ ×ₗ ℕ
  | event id => toLex (0, id)
  | coinAccount userId => toLex (1, userId)
  | trustScore userId => toLex (2, userId)

theorem rank_injective : Function.Injective rank := by
  intro a b h
  cases a <;> cases b <;> simp_all [rank]

instance : PartialOrder RowLock := PartialOrder.lift rank rank_injective

variable {id : EventId} {u v : UserId}

theorem event_lt_coinAccount : event id < coinAccount u := by
  change toLex (0, id) < toLex (1, u)
  simp [Prod.Lex.toLex_lt_toLex]

theorem event_lt_trustScore : event id < trustScore u := by
  change toLex (0, id) < toLex (2, u)
  simp [Prod.Lex.toLex_lt_toLex]

theorem coinAccount_lt_trustScore : coinAccount u < trustScore v := by
  change toLex (1, u) < toLex (2, v)
  simp [Prod.Lex.toLex_lt_toLex]

theorem coinAccount_le (h : u ≤ v) : coinAccount u ≤ coinAccount v := by
  change toLex (1, u) ≤ toLex (1, v)
  simp [Prod.Lex.toLex_le_toLex, h]

theorem trustScore_le (h : u ≤ v) : trustScore u ≤ trustScore v := by
  change toLex (2, u) ≤ toLex (2, v)
  simp [Prod.Lex.toLex_le_toLex, h]

end RowLock

open RowLock

/-! ## What each transaction locks -/

/-- A guest with a seat, as the transactions that end an evening read it. -/
structure SeatedGuest where
  userId : UserId
  /-- What taking part cost, each charge reversed by itself. -/
  charges : Nat
  /-- The no-show charge to take back, when there is one. -/
  penaltyReversed : Bool
  /-- Whether the no-show took trust that is given back. -/
  trustReturned : Bool

inductive ValueTx where
  /-- `cancelByHost`, with the guests who had a seat. -/
  | hostCancellation (event : EventId) (host : UserId) (guests : List SeatedGuest)
      (coins trust : Bool)
  /-- `chargeParticipant`: a guest's cancellation, or a no-show marked. -/
  | participantPenalty (event : EventId) (guest : UserId) (coins trust : Bool)
  /-- `settleHostAbsence`, upheld, with what the host had been paid. -/
  | hostAbsence (event : EventId) (host : UserId) (guests : List SeatedGuest)
      (coins trust : Bool) (paid : Nat)
  /-- `qualifyForAttendance`. -/
  | referralPayout (referrer referred : UserId) (referrerPaid referredPaid : Bool)
  /-- `settleOne`, with the attendees as read and who of them is credited. -/
  | settlement (event : EventId) (attendees : List UserId) (credited : UserId → Bool)
  /-- `submit`, with the reveal if it was the second of its pair, or `expireOne`. -/
  | review (reviewer : UserId) (rewarded : Bool) (guest host : UserId)
      (guestMoved hostMoved : Bool)

/-- A movement, where there is something to move. -/
def lockIf (moved : Bool) (r : RowLock) : List RowLock := if moved then [r] else []

def lockAccounts (userIds : List UserId) : List RowLock :=
  (userIds.dedup.insertionSort (· ≤ ·)).map coinAccount

def refundParticipant (guest : SeatedGuest) : List RowLock :=
  List.replicate guest.charges (coinAccount guest.userId)

def reverseNoShow (guest : SeatedGuest) : List RowLock :=
  lockIf guest.penaltyReversed (coinAccount guest.userId) ++
    lockIf guest.trustReturned (trustScore guest.userId)

/-- The rows locked, in the order of the code, those locked again included. -/
def ValueTx.locks : ValueTx → List RowLock
  | .hostCancellation id host guests coins trust =>
      event id :: (lockAccounts (host :: guests.map SeatedGuest.userId) ++
        (guests.flatMap refundParticipant ++
          (lockIf coins (coinAccount host) ++ lockIf trust (trustScore host))))
  | .participantPenalty id guest coins trust =>
      event id :: (lockIf coins (coinAccount guest) ++ lockIf trust (trustScore guest))
  | .hostAbsence id host guests coins trust paid =>
      event id :: (lockAccounts (host :: guests.map SeatedGuest.userId) ++
        (lockIf coins (coinAccount host) ++ (lockIf trust (trustScore host) ++
          (List.replicate paid (coinAccount host) ++
            guests.flatMap fun guest => refundParticipant guest ++ reverseNoShow guest))))
  | .referralPayout referrer referred referrerPaid referredPaid =>
      lockIf referrerPaid (coinAccount referrer) ++ lockIf referredPaid (coinAccount referred)
  | .settlement id attendees credited =>
      event id :: (attendees.filter credited).map trustScore
  | .review reviewer rewarded guest host guestMoved hostMoved =>
      lockIf rewarded (coinAccount reviewer) ++
        (lockIf guestMoved (trustScore guest) ++ lockIf hostMoved (trustScore host))

/-- The rows of several users, when there are several, are reached in their order. -/
def ValueTx.ReachesInOrder : ValueTx → Prop
  | .hostAbsence _ host guests _ trust _ =>
      ((if trust then [host] else []) ++
        (guests.filter SeatedGuest.trustReturned).map SeatedGuest.userId).Pairwise (· ≤ ·)
  | .referralPayout referrer referred referrerPaid referredPaid =>
      referrerPaid = true → referredPaid = true → referrer ≤ referred
  | .settlement _ attendees credited => (attendees.filter credited).Pairwise (· ≤ ·)
  | .review _ _ guest host guestMoved hostMoved =>
      guestMoved = true → hostMoved = true → guest ≤ host
  | _ => True

/-! ## The order each keeps -/

/-- The user of a trust score. -/
def RowLock.trustUser : RowLock → Option UserId
  | trustScore userId => some userId
  | _ => none

variable {id : EventId} {users : List UserId} {work : List RowLock}

theorem mem_lockIf {b : Bool} {r x : RowLock} : x ∈ lockIf b r ↔ b = true ∧ x = r := by
  unfold lockIf
  split <;> simp [*]

theorem mem_lockAccounts {r : RowLock} :
    r ∈ lockAccounts users ↔ ∃ u ∈ users, coinAccount u = r := by
  simp [lockAccounts, List.mem_insertionSort]

theorem lockAccounts_sorted : (lockAccounts users).Pairwise (· ≤ ·) :=
  List.Pairwise.map _ (fun _ _ => coinAccount_le) (List.pairwise_insertionSort _ _)

/-- After the accounts are locked, what is left to order is trust. -/
theorem takenInOrder_lockAccounts
    (hmem : ∀ r ∈ work, (∃ u ∈ users, r = coinAccount u) ∨ ∃ u, r = trustScore u)
    (htrust : (work.filterMap RowLock.trustUser).Pairwise (· ≤ ·)) :
    TakenInOrder [] (event id :: (lockAccounts users ++ work)) := by
  refine ⟨.inr nofun, takenInOrder_append.2 ⟨?_, ?_⟩⟩
  · refine takenInOrder_of_sorted [] nofun (fun r hr => .inr fun h hh => ?_) ?_
    · obtain ⟨u, -, rfl⟩ := mem_lockAccounts.1 hr
      obtain rfl := List.mem_singleton.1 hh
      exact event_lt_coinAccount.le
    · exact lockAccounts_sorted.imp fun h => .inr (.inr h)
  · refine takenInOrder_of_sorted (lockAccounts users) (fun r hr => by simp [hr])
      (fun r hr => ?_) ?_
    · rcases hmem r hr with ⟨u, hu, rfl⟩ | ⟨u, rfl⟩
      · exact .inl (mem_lockAccounts.2 ⟨u, hu, rfl⟩)
      · refine .inr fun h hh => ?_
        rcases List.mem_append.1 hh with hh | hh
        · obtain ⟨v, -, rfl⟩ := mem_lockAccounts.1 (List.mem_reverse.1 hh)
          exact coinAccount_lt_trustScore.le
        · obtain rfl := List.mem_singleton.1 hh
          exact event_lt_trustScore.le
    · refine (List.pairwise_filterMap.1 htrust).imp_of_mem fun {a b} ha hb hab => ?_
      rcases hmem a ha with ⟨u, hu, rfl⟩ | ⟨u, rfl⟩
      · exact .inl (mem_lockAccounts.2 ⟨u, hu, rfl⟩)
      · rcases hmem b hb with ⟨v, hv, rfl⟩ | ⟨v, rfl⟩
        · exact .inr (.inl (mem_lockAccounts.2 ⟨v, hv, rfl⟩))
        · exact .inr (.inr (trustScore_le (hab u rfl v rfl)))

@[simp] theorem trustUser_event {e : EventId} : (event e).trustUser = none := rfl

@[simp] theorem trustUser_coinAccount {u : UserId} : (coinAccount u).trustUser = none := rfl

@[simp] theorem trustUser_trustScore {u : UserId} : (trustScore u).trustUser = some u := rfl

@[simp] theorem trustUsers_lockIf_coinAccount {b : Bool} {u : UserId} :
    (lockIf b (coinAccount u)).filterMap RowLock.trustUser = [] := by
  cases b <;> rfl

@[simp] theorem trustUsers_lockIf_trustScore {b : Bool} {u : UserId} :
    (lockIf b (trustScore u)).filterMap RowLock.trustUser = if b then [u] else [] := by
  cases b <;> rfl

@[simp] theorem trustUsers_replicate {n : Nat} {u : UserId} :
    (List.replicate n (coinAccount u)).filterMap RowLock.trustUser = [] := by
  simp

/-- Refunds lock no trust score. -/
theorem trustUsers_refunds (guests : List SeatedGuest) :
    (guests.flatMap refundParticipant).filterMap RowLock.trustUser = [] := by
  induction guests with
  | nil => rfl
  | cons guest rest ih =>
      rw [List.flatMap_cons, List.filterMap_append, ih, refundParticipant, trustUsers_replicate]
      rfl

/-- A host's absence locks the trust scores of the no-shows it reverses. -/
theorem trustUsers_absence (guests : List SeatedGuest) :
    (guests.flatMap fun guest => refundParticipant guest ++ reverseNoShow guest).filterMap
        RowLock.trustUser =
      (guests.filter SeatedGuest.trustReturned).map SeatedGuest.userId := by
  induction guests with
  | nil => rfl
  | cons guest rest ih =>
      rw [List.flatMap_cons, List.filterMap_append, ih, List.filter_cons]
      unfold refundParticipant reverseNoShow
      cases guest.trustReturned <;> simp [lockIf]

theorem mem_refundParticipant {guest : SeatedGuest} {r : RowLock}
    (h : r ∈ refundParticipant guest) : r = coinAccount guest.userId :=
  (List.mem_replicate.1 h).2

theorem mem_reverseNoShow {guest : SeatedGuest} {r : RowLock} (h : r ∈ reverseNoShow guest) :
    r = coinAccount guest.userId ∨ r = trustScore guest.userId := by
  rcases List.mem_append.1 h with h | h
  · exact .inl (mem_lockIf.1 h).2
  · exact .inr (mem_lockIf.1 h).2

theorem hostCancellation_inOrder {host : UserId} {guests : List SeatedGuest} {coins trust : Bool} :
    TakenInOrder [] (ValueTx.hostCancellation id host guests coins trust).locks := by
  have hmem : ∀ r ∈ guests.flatMap refundParticipant ++
      (lockIf coins (coinAccount host) ++ lockIf trust (trustScore host)),
      (∃ u ∈ host :: guests.map SeatedGuest.userId, r = coinAccount u) ∨
        ∃ u, r = trustScore u := by
    intro r hr
    rcases List.mem_append.1 hr with hr | hr
    · obtain ⟨guest, hguest, hr⟩ := List.mem_flatMap.1 hr
      exact .inl ⟨guest.userId, List.mem_cons_of_mem _ (List.mem_map_of_mem hguest),
        mem_refundParticipant hr⟩
    · rcases List.mem_append.1 hr with hr | hr
      · exact .inl ⟨host, List.mem_cons_self, (mem_lockIf.1 hr).2⟩
      · exact .inr ⟨host, (mem_lockIf.1 hr).2⟩
  refine takenInOrder_lockAccounts hmem ?_
  rw [List.filterMap_append, List.filterMap_append, trustUsers_refunds]
  cases trust <;> simp

theorem hostAbsence_inOrder {host : UserId} {guests : List SeatedGuest} {coins trust : Bool}
    {paid : Nat} (h : (ValueTx.hostAbsence id host guests coins trust paid).ReachesInOrder) :
    TakenInOrder [] (ValueTx.hostAbsence id host guests coins trust paid).locks := by
  have hhost : host ∈ host :: guests.map SeatedGuest.userId := List.mem_cons_self
  have hmem : ∀ r ∈ lockIf coins (coinAccount host) ++ (lockIf trust (trustScore host) ++
      (List.replicate paid (coinAccount host) ++
        guests.flatMap fun guest => refundParticipant guest ++ reverseNoShow guest)),
      (∃ u ∈ host :: guests.map SeatedGuest.userId, r = coinAccount u) ∨
        ∃ u, r = trustScore u := by
    intro r hr
    rcases List.mem_append.1 hr with hr | hr
    · exact .inl ⟨host, hhost, (mem_lockIf.1 hr).2⟩
    rcases List.mem_append.1 hr with hr | hr
    · exact .inr ⟨host, (mem_lockIf.1 hr).2⟩
    rcases List.mem_append.1 hr with hr | hr
    · exact .inl ⟨host, hhost, (List.mem_replicate.1 hr).2⟩
    obtain ⟨guest, hguest, hr⟩ := List.mem_flatMap.1 hr
    have huser : guest.userId ∈ host :: guests.map SeatedGuest.userId :=
      List.mem_cons_of_mem _ (List.mem_map_of_mem hguest)
    rcases List.mem_append.1 hr with hr | hr
    · exact .inl ⟨guest.userId, huser, mem_refundParticipant hr⟩
    · rcases mem_reverseNoShow hr with hr | hr
      · exact .inl ⟨guest.userId, huser, hr⟩
      · exact .inr ⟨guest.userId, hr⟩
  refine takenInOrder_lockAccounts hmem ?_
  rw [List.filterMap_append, List.filterMap_append, List.filterMap_append, trustUsers_absence,
    trustUsers_lockIf_coinAccount, trustUsers_lockIf_trustScore, trustUsers_replicate]
  exact h

/-- At most a coin account, then trust scores as they come. -/
theorem settlement_inOrder {attendees : List UserId} {credited : UserId → Bool}
    (h : (ValueTx.settlement id attendees credited).ReachesInOrder) :
    TakenInOrder [] (ValueTx.settlement id attendees credited).locks := by
  refine ⟨.inr nofun, takenInOrder_of_sorted [] nofun (fun r hr => .inr fun x hx => ?_) ?_⟩
  · obtain ⟨u, -, rfl⟩ := List.mem_map.1 hr
    obtain rfl := List.mem_singleton.1 hx
    exact event_lt_trustScore.le
  · exact List.pairwise_map.2 (h.imp fun hle => .inr (.inr (trustScore_le hle)))

theorem participantPenalty_inOrder {guest : UserId} {coins trust : Bool} :
    TakenInOrder [] (ValueTx.participantPenalty id guest coins trust).locks := by
  cases coins <;> cases trust <;>
    simp [ValueTx.locks, lockIf, TakenInOrder, event_lt_coinAccount, event_lt_trustScore,
      coinAccount_lt_trustScore]

theorem referralPayout_inOrder {referrer referred : UserId} {referrerPaid referredPaid : Bool}
    (h : (ValueTx.referralPayout referrer referred referrerPaid referredPaid).ReachesInOrder) :
    TakenInOrder [] (ValueTx.referralPayout referrer referred referrerPaid referredPaid).locks := by
  apply takenInOrder_of_sorted [] nofun (fun _ _ => .inr nofun)
  cases referrerPaid with
  | false => cases referredPaid <;> simp [ValueTx.locks, lockIf]
  | true =>
      cases referredPaid with
      | false => simp [ValueTx.locks, lockIf]
      | true =>
          have hle := coinAccount_le (h rfl rfl)
          simp [ValueTx.locks, lockIf, hle]

theorem review_inOrder {reviewer guest host : UserId} {rewarded guestMoved hostMoved : Bool}
    (h : (ValueTx.review reviewer rewarded guest host guestMoved hostMoved).ReachesInOrder) :
    TakenInOrder [] (ValueTx.review reviewer rewarded guest host guestMoved hostMoved).locks := by
  apply takenInOrder_of_sorted [] nofun (fun _ _ => .inr nofun)
  have hcoin : ∀ v, coinAccount reviewer ≤ trustScore v := fun _ => coinAccount_lt_trustScore.le
  have htrust : guestMoved = true → hostMoved = true → trustScore guest ≤ trustScore host :=
    fun hg hh => trustScore_le (h hg hh)
  cases rewarded <;> cases guestMoved <;> cases hostMoved <;>
    simp_all [ValueTx.locks, lockIf]

/-- A transaction that reaches its users in order takes its locks in order. -/
theorem locks_inOrder : ∀ tx : ValueTx, tx.ReachesInOrder → TakenInOrder [] tx.locks
  | .hostCancellation .., _ => hostCancellation_inOrder
  | .participantPenalty .., _ => participantPenalty_inOrder
  | .hostAbsence .., h => hostAbsence_inOrder h
  | .referralPayout .., h => referralPayout_inOrder h
  | .settlement .., h => settlement_inOrder h
  | .review .., h => review_inOrder h

/-! ## Transactions at work -/

section Runs

variable {ι : Type} [DecidableEq ι]

/-- Every transaction that starts reaches its users in order. -/
def StartsInOrder (_ : LockWorld ι RowLock) : LockMove ι ValueTx → Prop
  | .begin _ tx => tx.ReachesInOrder
  | _ => True

theorem beginsInOrder_of_starts {w : LockWorld ι RowLock}
    (h : Reach LockWorld.Init (LockWorld.Step ValueTx.locks) StartsInOrder w) :
    Reach LockWorld.Init (LockWorld.Step ValueTx.locks)
      (LockWorld.BeginsInOrder ValueTx.locks) w := by
  apply h.mono
  intro w m hg
  cases m with
  | begin i tx => exact locks_inOrder tx hg
  | take i => trivial
  | commit i => trivial
  | abort i => trivial

/-- Where every transaction reaches its users in order, each lock is held already or
    above all that are, and nobody waits in a circle. -/
theorem never_deadlock {w : LockWorld ι RowLock}
    (h : Reach LockWorld.Init (LockWorld.Step ValueTx.locks) StartsInOrder w) :
    w.Acyclic ∧ ∀ i, TakenInOrder (w.locals i).held (w.locals i).todo := by
  have hkept := LockWorld.locksKept_of_reach (beginsInOrder_of_starts h)
  exact ⟨hkept.acyclic, hkept.ordered⟩

end Runs

/-- A guest who paid once to take part. -/
def guestWhoPaid (userId : UserId) : SeatedGuest := ⟨userId, 1, false, false⟩

/-- A host with two guests calls the evening off. -/
def cancellation : ValueTx :=
  .hostCancellation 7 3 [guestWhoPaid 1, guestWhoPaid 2] true true

/-- One guest was brought in by another. -/
def payout (referrer referred : UserId) : ValueTx := .referralPayout referrer referred true true

def noLocks : LockWorld Bool RowLock := ⟨(), fun _ => ⟨[], []⟩⟩

/-- Both at work, the cancellation with its event. -/
def atWork (referrer referred : UserId) : LockWorld Bool RowLock :=
  ((noLocks.set true () ⟨[], (payout referrer referred).locks⟩).set false ()
    ⟨[], cancellation.locks⟩).set false () ⟨[event 7], cancellation.locks.tail⟩

theorem atWork_reached {referrer referred : UserId}
    {G : LockWorld Bool RowLock → LockMove Bool ValueTx → Prop}
    (hpayout : ∀ w, G w (.begin true (payout referrer referred)))
    (hcancellation : ∀ w, G w (.begin false cancellation)) (htake : ∀ w i, G w (.take i)) :
    Reach LockWorld.Init (LockWorld.Step ValueTx.locks) G (atWork referrer referred) := by
  have h0 : Reach LockWorld.Init (LockWorld.Step ValueTx.locks) G noLocks := .start fun _ => rfl
  have h1 := h0.next (hpayout _) (.begin rfl rfl)
  have h2 := h1.next (hcancellation _) (.begin rfl rfl)
  exact h2.next (htake _ false) (.take rfl nofun)

/-- A referrer who comes before the guest he brought in. -/
theorem payout_beside_cancellation :
    (atWork 1 2).Acyclic ∧
      ∀ i, TakenInOrder ((atWork 1 2).locals i).held ((atWork 1 2).locals i).todo := by
  have hpayout : (payout 1 2).ReachesInOrder := fun _ _ => Nat.le_succ 1
  exact never_deadlock
    (atWork_reached (fun _ => hpayout) (fun _ => trivial) (fun _ _ => trivial))

/-- The cancellation holds the first guest's account, the payout the second's. -/
def stuck : LockWorld Bool RowLock :=
  ((atWork 2 1).set true () ⟨[coinAccount 2], [coinAccount 1]⟩).set false ()
    ⟨[coinAccount 1, event 7], cancellation.locks.tail.tail⟩

theorem stuck_reached : Reachable LockWorld.Init (LockWorld.Step ValueTx.locks) stuck := by
  have h : Reachable LockWorld.Init (LockWorld.Step ValueTx.locks) (atWork 2 1) :=
    atWork_reached (fun _ => trivial) (fun _ => trivial) (fun _ _ => trivial)
  have hpayout := h.next (i := .take true) trivial (.take rfl (by decide))
  exact hpayout.next (i := .take false) trivial (.take rfl (by decide))

/-- Each waits for the other. -/
theorem payout_and_cancellation_deadlock :
    ¬ ∀ w : LockWorld Bool RowLock,
      Reachable LockWorld.Init (LockWorld.Step ValueTx.locks) w → w.Acyclic := by
  intro h
  have hpayout : stuck.WaitsFor true false := ⟨by decide, coinAccount 1, [], rfl, by decide⟩
  have hcancellation : stuck.WaitsFor false true :=
    ⟨by decide, coinAccount 2, cancellation.locks.tail.tail.tail, rfl, by decide⟩
  exact h stuck stuck_reached true (.tail (.single hpayout) hcancellation)

end Paayatam.LockOrder
