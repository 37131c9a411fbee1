/-
  Paayatam.Identity.AdminLogin

  `AdminAccessService.login`: one staff account, and any number of attempts at it.

  An attempt reads the row, checks the password and the code, which is slow, and
  then writes the counter from what it read.  Attempts that overlap write over
  each other.
-/

import Paayatam.Lib.System
import Paayatam.Lib.Threads
import Paayatam.Types

namespace Paayatam

open Lib

namespace AdminLogin

def MAX_FAILED_ATTEMPTS : Nat := 5

def LOCKOUT_STEPS_MINUTES : List Nat := [1, 5, 15, 60, 240]

def lockoutMinutes (attempts : Nat) : Nat :=
  let index := min (attempts - MAX_FAILED_ATTEMPTS) (LOCKOUT_STEPS_MINUTES.length - 1)
  (LOCKOUT_STEPS_MINUTES[index]?).getD 1

inductive AdminUserStatus where
  | ACTIVE
  | SUSPENDED
  | DISABLED
  deriving DecidableEq

/-- The columns of `admin_user` that a login reads and writes. -/
structure AdminUserRow where
  status : AdminUserStatus
  failedAttempts : Nat
  lockedUntil : Option Instant
  lastLoginAt : Option Instant

def AdminUserRow.lockedAt (row : AdminUserRow) (now : Instant) : Bool :=
  row.lockedUntil.any fun until_ => decide (now < until_)

inductive LoginError where
  | ACCOUNT_LOCKED
  | INVALID_CREDENTIALS

/-- What is refused before the password is looked at. -/
def refusal (row : AdminUserRow) (now : Instant) : Option LoginError :=
  if row.lockedAt now = true then some .ACCOUNT_LOCKED
  else if row.status ≠ .ACTIVE then some .INVALID_CREDENTIALS
  else none

/-- The update of `countFailure`: one more than was read. -/
def countFailure (previousFailures : Nat) (now : Instant) (row : AdminUserRow) : AdminUserRow :=
  let attempts := previousFailures + 1
  { row with
    failedAttempts := attempts
    lockedUntil :=
      if MAX_FAILED_ATTEMPTS ≤ attempts then some (now + lockoutMinutes attempts * 60000)
      else none }

/-- The update of a login that succeeds. -/
def resetFailures (now : Instant) (row : AdminUserRow) : AdminUserRow :=
  { row with failedAttempts := 0, lockedUntil := none, lastLoginAt := some now }

/-! ## Attempts at work -/

/-- The account and the time; `failures` counts the wrong passwords and codes there
    were since the last success. -/
structure Account where
  row : AdminUserRow
  clock : Instant
  failures : Nat

/-- What an attempt has read, and when it began. -/
structure LoginRead where
  row : AdminUserRow
  now : Instant

inductive FailureStage where
  | password
  | totp

inductive LoginMove (ι : Type) where
  | tick (now : Instant)
  /-- An attempt reads the row; it is refused, or goes on to check what was given. -/
  | start (i : ι)
  /-- The password or the code was wrong. -/
  | fail (i : ι) (stage : FailureStage)
  | succeed (i : ι)
  | crash (i : ι)
  /-- The account is suspended, or reinstated. -/
  | setStatus (status : AdminUserStatus)

abbrev LoginWorld (ι : Type) := Threads ι Account (Option LoginRead)

namespace LoginWorld

variable {ι : Type} [DecidableEq ι]

def exec (w : LoginWorld ι) : LoginMove ι → Option (LoginWorld ι)
  | .tick now =>
    if w.shared.clock ≤ now then some { w with shared := { w.shared with clock := now } } else none
  | .start i =>
    match w.locals i, refusal w.shared.row w.shared.clock with
    | none, none => some (w.set i w.shared (some ⟨w.shared.row, w.shared.clock⟩))
    | none, some _ => some w
    | some _, _ => none
  | .fail i _ =>
    (w.locals i).map fun read =>
      w.set i
        { w.shared with
          row := countFailure read.row.failedAttempts read.now w.shared.row
          failures := w.shared.failures + 1 }
        none
  | .succeed i =>
    (w.locals i).map fun read =>
      w.set i { w.shared with row := resetFailures read.now w.shared.row, failures := 0 } none
  | .crash i => some (w.set i w.shared none)
  | .setStatus status =>
    some { w with shared := { w.shared with row := { w.shared.row with status := status } } }

def Step (w : LoginWorld ι) (m : LoginMove ι) (w' : LoginWorld ι) : Prop := w.exec m = some w'

/-- A new account, and nobody at it. -/
def Init (w : LoginWorld ι) : Prop :=
  w.shared.row.failedAttempts = 0 ∧ w.shared.row.lockedUntil = none ∧ w.shared.failures = 0 ∧
    ∀ i, w.locals i = none

/-- The counter is still what a failure read, and the lock what a success read. -/
def Undisturbed (w : LoginWorld ι) : LoginMove ι → Prop
  | .fail i _ => ∀ read, w.locals i = some read →
      w.shared.row.failedAttempts = read.row.failedAttempts
  | .succeed i => ∀ read, w.locals i = some read →
      w.shared.row.lockedUntil = read.row.lockedUntil
  | _ => True

end LoginWorld

/-! ## The lock -/

theorem lockoutMinutes_mono {a b : Nat} (h : a ≤ b) : lockoutMinutes a ≤ lockoutMinutes b := by
  have hsteps : ∀ j i : Fin 5, i ≤ j →
      (LOCKOUT_STEPS_MINUTES[i.1]?).getD 1 ≤ (LOCKOUT_STEPS_MINUTES[j.1]?).getD 1 := by decide
  have ha : min (a - MAX_FAILED_ATTEMPTS) 4 < 5 := by omega
  have hb : min (b - MAX_FAILED_ATTEMPTS) 4 < 5 := by omega
  apply hsteps ⟨_, hb⟩ ⟨_, ha⟩
  show min (a - MAX_FAILED_ATTEMPTS) 4 ≤ min (b - MAX_FAILED_ATTEMPTS) 4
  omega

theorem lockedAt_later {row : AdminUserRow} {now later : Instant} (h : row.lockedAt now = false)
    (hle : now ≤ later) : row.lockedAt later = false := by
  unfold AdminUserRow.lockedAt at h ⊢
  cases hl : row.lockedUntil with
  | none => rfl
  | some u =>
      rw [hl] at h
      have hnow : ¬ now < u := of_decide_eq_false h
      exact decide_eq_false fun hlater => hnow (Int.lt_of_le_of_lt hle hlater)

/-! ## What holds between moves -/

section Runs

variable {ι : Type} [DecidableEq ι] {w w' : LoginWorld ι} {m : LoginMove ι} {i : ι}

/-- The counter counts, five failures lock, and nobody at work began under a lock. -/
structure LockoutSound (w : LoginWorld ι) : Prop where
  counted : w.shared.row.failedAttempts = w.shared.failures
  locked : MAX_FAILED_ATTEMPTS ≤ w.shared.failures → w.shared.row.lockedUntil.isSome = true
  read : ∀ i read, w.locals i = some read →
    read.now ≤ w.shared.clock ∧ read.row.lockedAt read.now = false

omit [DecidableEq ι] in
theorem lockoutSound_init (h : w.Init) : LockoutSound w := by
  obtain ⟨hfailed, -, hfailures, hidle⟩ := h
  refine ⟨hfailed.trans hfailures.symm, fun hmax => ?_, fun i read hl => ?_⟩
  · rw [hfailures] at hmax
    exact absurd hmax (by decide)
  · rw [hidle i] at hl
    cases hl

/-- An attempt moves on; the others have read what they had read. -/
theorem LockoutSound.reads (h : LockoutSound w) {s : Account} {l : Option LoginRead}
    (hclock : s.clock = w.shared.clock)
    (hl : ∀ read, l = some read → read.now ≤ s.clock ∧ read.row.lockedAt read.now = false) :
    ∀ j read, (w.set i s l).locals j = some read →
      read.now ≤ s.clock ∧ read.row.lockedAt read.now = false := by
  intro j read hread
  by_cases hj : j = i
  · subst hj
    rw [Threads.set_locals_self] at hread
    exact hl read hread
  · rw [Threads.set_locals_ne hj] at hread
    rw [hclock]
    exact h.read j read hread

theorem refusal_eq_none {row : AdminUserRow} {now : Instant} :
    refusal row now = none ↔ row.lockedAt now = false ∧ row.status = .ACTIVE := by
  unfold refusal
  split <;> simp_all

/-- The lock that `k` failures leave, the last of them begun at `now`. -/
def lockAfter (k : Nat) (now : Instant) : Option Instant :=
  if MAX_FAILED_ATTEMPTS ≤ k then some (now + lockoutMinutes k * 60000) else none

theorem LockoutSound.failed (h : LockoutSound w) {stage : FailureStage}
    (hg : w.Undisturbed (.fail i stage)) {read : LoginRead} (hl : w.locals i = some read) :
    LockoutSound (w.set i
      { w.shared with
        row := countFailure read.row.failedAttempts read.now w.shared.row
        failures := w.shared.failures + 1 } none) ∧
      (countFailure read.row.failedAttempts read.now w.shared.row).lockedUntil =
        lockAfter (w.shared.failures + 1) read.now := by
  have hread : read.row.failedAttempts = w.shared.failures := (hg read hl).symm.trans h.counted
  rw [hread]
  refine ⟨⟨rfl, fun hmax => ?_, h.reads rfl nofun⟩, rfl⟩
  have hset : lockAfter (w.shared.failures + 1) read.now = some _ := if_pos hmax
  show (lockAfter (w.shared.failures + 1) read.now).isSome = true
  rw [hset]
  rfl

theorem LockoutSound.step (h : LockoutSound w) (hg : w.Undisturbed m) (hs : w.Step m w') :
    LockoutSound w' := by
  cases m with
  | tick now =>
      simp only [LoginWorld.Step, LoginWorld.exec] at hs
      split at hs
      · next hle =>
          obtain rfl := Option.some.inj hs
          refine ⟨h.counted, h.locked, fun i read hl => ?_⟩
          exact ⟨Int.le_trans (h.read i read hl).1 hle, (h.read i read hl).2⟩
      · cases hs
  | start i =>
      simp only [LoginWorld.Step, LoginWorld.exec] at hs
      split at hs
      · next hl href =>
          obtain rfl := Option.some.inj hs
          refine ⟨h.counted, h.locked, h.reads rfl fun read hread => ?_⟩
          obtain rfl := Option.some.inj hread
          exact ⟨Int.le_refl _, (refusal_eq_none.1 href).1⟩
      · obtain rfl := Option.some.inj hs
        exact h
      · cases hs
  | fail i stage =>
      obtain ⟨read, hl, rfl⟩ := Option.map_eq_some_iff.1 hs
      exact (h.failed hg hl).1
  | succeed i =>
      obtain ⟨read, hl, rfl⟩ := Option.map_eq_some_iff.1 hs
      refine ⟨rfl, fun hmax => ?_, h.reads rfl nofun⟩
      have hzero : MAX_FAILED_ATTEMPTS ≤ 0 := hmax
      exact absurd hzero (by decide)
  | crash i =>
      obtain rfl := Option.some.inj hs
      exact ⟨h.counted, h.locked, h.reads rfl nofun⟩
  | setStatus status =>
      obtain rfl := Option.some.inj hs
      exact ⟨h.counted, h.locked, h.read⟩

/-- An attempt that succeeds finds no lock. -/
theorem LockoutSound.unlocked (h : LockoutSound w) (hg : w.Undisturbed (.succeed i))
    (hs : w.Step (.succeed i) w') : w.shared.row.lockedAt w.shared.clock = false := by
  obtain ⟨read, hl, -⟩ := Option.map_eq_some_iff.1 hs
  obtain ⟨hnow, hread⟩ := h.read i read hl
  have hsame : w.shared.row.lockedAt read.now = false := by
    unfold AdminUserRow.lockedAt
    rw [hg read hl]
    exact hread
  exact lockedAt_later hsame hnow

/-- What a step does to the lock: a failure sets what its number of failures is worth, and
    a success finds none. -/
def LockStep (x : LoginWorld ι × LoginMove ι × LoginWorld ι) : Prop :=
  match x with
  | (w, .fail i _, w') => ∃ read, w.locals i = some read ∧
      w'.shared.row.lockedUntil = lockAfter w'.shared.failures read.now
  | (w, .succeed _, _) => w.shared.row.lockedAt w.shared.clock = false
  | _ => True

/-- Where no attempt writes over what another wrote, every failure is counted, the fifth
    locks, each further one for no less, and no attempt succeeds under a lock. -/
theorem lockout_counts {tr : List (LoginWorld ι × LoginMove ι × LoginWorld ι)} {w : LoginWorld ι}
    (h : Run LoginWorld.Init LoginWorld.Step LoginWorld.Undisturbed tr w) :
    w.shared.row.failedAttempts = w.shared.failures ∧
      (MAX_FAILED_ATTEMPTS ≤ w.shared.failures → w.shared.row.lockedUntil.isSome = true) ∧
      (∀ x ∈ tr, LockStep x) ∧ ∀ a b, a ≤ b → lockoutMinutes a ≤ lockoutMinutes b := by
  have hsound : ∀ {v : LoginWorld ι}, Reach LoginWorld.Init LoginWorld.Step LoginWorld.Undisturbed v →
      LockoutSound v := fun hv =>
    hv.invariant (I := LockoutSound) (fun _ => lockoutSound_init) fun _ _ _ hI hg hs => hI.step hg hs
  refine ⟨(hsound h.reach).counted, (hsound h.reach).locked, ?_, fun a b => lockoutMinutes_mono⟩
  refine h.steps (P := fun w m w' => LockStep (w, m, w')) fun w m w' hw hg hs => ?_
  cases m with
  | fail i stage =>
      obtain ⟨read, hl, rfl⟩ := Option.map_eq_some_iff.1 hs
      exact ⟨read, hl, ((hsound hw).failed hg hl).2⟩
  | succeed i => exact (hsound hw).unlocked hg hs
  | tick _ | start _ | crash _ | setStatus _ => trivial

end Runs

/-! ## Two guesses at once -/

def newAccount : LoginWorld Nat where
  shared := ⟨⟨.ACTIVE, 0, none, none⟩, 0, 0⟩
  locals _ := none

theorem newAccount_init : newAccount.Init := ⟨rfl, rfl, rfl, fun _ => rfl⟩

/-- One guess after another, five of them. -/
def guesses : List (LoginMove Nat) :=
  (List.replicate 5 [LoginMove.start 0, .fail 0 .password]).flatten

instance {w : LoginWorld Nat} {m : LoginMove Nat} : Decidable (w.Undisturbed m) :=
  match m with
  | .fail i _ => match hl : w.locals i with
    | none => .isTrue fun read h => by
        rw [hl] at h
        cases h
    | some read => decidable_of_iff
        (w.shared.row.failedAttempts = read.row.failedAttempts) (by simp [LoginWorld.Undisturbed, hl])
  | .succeed i => match hl : w.locals i with
    | none => .isTrue fun read h => by
        rw [hl] at h
        cases h
    | some read => decidable_of_iff
        (w.shared.row.lockedUntil = read.row.lockedUntil) (by simp [LoginWorld.Undisturbed, hl])
  | .tick _ | .start _ | .crash _ | .setStatus _ => .isTrue trivial

theorem lockout_counts_guesses : ∃ w : LoginWorld Nat,
    w.shared.failures = 5 ∧ w.shared.row.failedAttempts = w.shared.failures ∧
      w.shared.row.lockedUntil.isSome = true := by
  have hplay : (runList LoginWorld.exec newAccount guesses).any (fun w =>
      decide (w.shared.failures = 5)) = true := by decide
  obtain ⟨w, hw, hchecks⟩ := (Option.any_eq_true _ _).1 hplay
  have hfive : w.shared.failures = 5 := of_decide_eq_true hchecks
  have hstart : Run LoginWorld.Init LoginWorld.Step LoginWorld.Undisturbed [] newAccount :=
    .start newAccount_init
  have hrun := run_of_runList (g := fun w m => decide (w.Undisturbed m)) (fun _ _ _ h => h)
    (fun _ _ h => of_decide_eq_true h) hstart (by decide) hw
  obtain ⟨hcounted, hlocked, -⟩ := lockout_counts hrun
  exact ⟨w, hfive, hcounted, hlocked (by rw [hfive]; decide)⟩

/-- Two guesses that overlap count as one. -/
def twoAtOnce : List (LoginMove Nat) :=
  [.start 0, .start 1, .fail 0 .password, .fail 1 .password]

theorem guess_uncounted :
    ¬ ∀ w : LoginWorld Nat, Reachable LoginWorld.Init LoginWorld.Step w →
      w.shared.row.failedAttempts = w.shared.failures := by
  intro h
  have hplay : (runList LoginWorld.exec newAccount twoAtOnce).any (fun w =>
      decide (w.shared.row.failedAttempts = 1) && decide (w.shared.failures = 2)) = true := by decide
  obtain ⟨w, hw, hchecks⟩ := (Option.any_eq_true _ _).1 hplay
  simp only [Bool.and_eq_true, decide_eq_true_eq] at hchecks
  have hstart : Reachable LoginWorld.Init LoginWorld.Step newAccount := .start newAccount_init
  have heq := h w (reachable_of_runList (fun _ _ _ h => h) hstart hw)
  omega

end AdminLogin

end Paayatam
