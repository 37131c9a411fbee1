/-
  Paayatam.Booking.World

  The system: every operation, in any order, under a clock that never runs
  back.

  A `Call` is one operation with the environment it reads.  An operation
  either commits or leaves the database as it was.  Three operations work from
  something read earlier (the attendance settlement from a scan, the paying
  transaction from an assessment, which itself works from a scan); what was
  read stays available in the `World`, so a worker that is slow, restarted or
  doubled may act on it at any later time.

  `World.step_effect` is the only fact about operations the invariants use:
  one step is one `Change`, of a kind the operation allows.
-/

import Paayatam.Booking.ClaimOperations
import Paayatam.Lib.System

namespace Paayatam

open Lib

/-- A coin movement by a service outside the model: rewards, gifts, invitations,
    adjustments, the republication of a channel post. -/
structure OutsideMovement where
  input : CoinMovementInput
  type_ok : input.type ≠ .EVENT_JOIN_SPEND
  key_ok : (∃ k, input.idempotencyKey = .other k) ∨
    ∃ e n, input.idempotencyKey = .channelPostSpend e n
  forward : input.reversesLedgerId = none
  /-- A channel post is bought for its event. -/
  post_ok : ∀ e n, input.idempotencyKey = .channelPostSpend e n →
    input.amount < 0 ∧ input.type = .CHANNEL_POST_SPEND ∧ input.ref = some (.event e)

/-- The operations of the system, with what their callers pass. -/
inductive Op where
  | create (host : UserId) (input : CreateEventInput) (seeded : Bool) (newId : EventId)
  | update (host : UserId) (e : EventId) (input : UpdateEventInput) (expectedVersion : Option Nat)
  | cancelByHost (host : UserId) (e : EventId) (reason : Option String)
  | join (user : UserId) (e : EventId) (newId : ParticipantId)
  | accept (host : UserId) (p : ParticipantId)
  | seatSeedParticipant (e : EventId) (user : UserId) (newId : ParticipantId)
  | reject (host : UserId) (p : ParticipantId)
  | cancel (user : UserId) (p : ParticipantId) (reason : Option String)
  | expireOne (p : ParticipantId)
  | expireWaitlistedOne (p : ParticipantId)
  | promoteForEvent (e : EventId)
  | retireOne (e : EventId)
  | scanAttendance
  | settleOne (e : EventId)
  | markNoShow (host : UserId) (p : ParticipantId)
  | dispute (user : UserId) (p : ParticipantId) (statement : String)
  | reportHostAbsent (user : UserId) (p : ParticipantId) (statement : String)
  | decideClaim (admin : UserId) (mayReview : Bool) (c : CaseId) (upheld : Bool) (note : String)
  | moderateEvent (mayModerate : Bool) (e : EventId) (action : ModerationAction) (reason : String)
  | decideCase (admin : UserId) (mayModerate : Bool) (c : CaseId) (decision : CaseDecision)
      (note : String)
  | escalateEvent (e : EventId) (reportCount : Nat) (notifyOwner : Bool)
  | scanRewards
  | assess (e : EventId) (host : UserId)
  | pay (settlement : Settlement)
  | moveCoins (m : OutsideMovement)

/-- A transaction, for its effect alone. -/
def drop {α : Type} (m : Act α) : Act Unit := (fun _ => ()) <$> m

@[simp] theorem runs_drop {α : Type} {m : Act α} {s s' : Db} {u : Unit} :
    Runs (drop m) s u s' ↔ ∃ a, Runs m s a s' := by
  simp [drop]

/-- The transaction of an operation; a scan writes nothing. -/
def Op.act (env : Env) : Op → Act Unit
  | .create host input seeded newId => drop (Paayatam.create env host input seeded newId)
  | .update host e input v => Paayatam.update env host e input v
  | .cancelByHost host e reason => drop (Paayatam.cancelByHost env host e reason)
  | .join user e newId => drop (Paayatam.join env user e newId)
  | .accept host p => drop (Paayatam.accept env host p)
  | .seatSeedParticipant e user newId => Paayatam.seatSeedParticipant env e user newId
  | .reject host p => drop (Paayatam.reject env host p)
  | .cancel user p reason => drop (Paayatam.cancel env user p reason)
  | .expireOne p => drop (Paayatam.expireOne env p)
  | .expireWaitlistedOne p => drop (Paayatam.expireWaitlistedOne env p)
  | .promoteForEvent e => drop (Paayatam.promoteForEvent env e)
  | .retireOne e => drop (Paayatam.retireOne env e)
  | .scanAttendance => pure ()
  | .settleOne e => drop (Paayatam.settleOne env e)
  | .markNoShow host p => Paayatam.markNoShow env host p
  | .dispute user p statement => Paayatam.dispute env user p statement
  | .reportHostAbsent user p statement => Paayatam.reportHostAbsent env user p statement
  | .decideClaim admin may c upheld note => Paayatam.decideClaim env admin may c upheld note
  | .moderateEvent may e action reason => drop (Paayatam.moderateEvent may e action reason)
  | .decideCase admin may c decision note => Paayatam.decideCase env admin may c decision note
  | .escalateEvent e n notify => Paayatam.escalateEvent env e n notify
  | .scanRewards => pure ()
  | .assess _ _ => pure ()
  | .pay settlement => drop (paySettlement env settlement)
  | .moveCoins m => drop (applyCoins env m.input)

/-- The kinds of change an operation can make, when it makes one. -/
def Op.Does : Op → Kind → Prop
  | .create _ _ _ e, k => k = .create e
  | .update _ e input _, k => k = .edit e input.capacity
  | .cancelByHost _ e _, k => k = .callOff e
  | .join _ e _, k => k = .request e
  | .accept _ p, k => k = .seat p
  | .seatSeedParticipant e _ _, k => k = .seed e
  | .reject _ p, k => k = .close p
  | .cancel _ p _, k => k = .withdraw p
  | .expireOne p, k => k = .close p
  | .expireWaitlistedOne p, k => k = .lapse p
  | .promoteForEvent e, k => k = .fill e
  | .retireOne e, k => k = .retire e
  | .settleOne e, k => k = .complete e
  | .markNoShow _ p, k => k = .absent p
  | .decideClaim _ _ _ _ _, k => (∃ p, k = .overturn p) ∨ ∃ e, k = .stamp e
  | .moderateEvent _ e _ _, k => k = .review e
  | .decideCase _ _ _ _ _, k => ∃ e, k = .review e
  | .escalateEvent e _ _, k => k = .review e
  | .pay settlement, k => k = .pay settlement.eventId
  | _, _ => False

/-- The event whose row an operation edits, and the capacity it asks for. -/
def Op.edits : Op → Option (EventId × Option Int)
  | .update _ e input _ => some (e, input.capacity)
  | _ => none

/-- The event an operation plants a seed guest in. -/
def Op.seeds : Op → Option EventId
  | .seatSeedParticipant e _ _ => some e
  | _ => none

/-- The event an operation calls off. -/
def Op.callsOff : Op → Option EventId
  | .cancelByHost _ e _ => some e
  | _ => none

/-- The participation an operation accepts. -/
def Op.accepts : Op → Option ParticipantId
  | .accept _ p => some p
  | _ => none

/-- The event an operation retires. -/
def Op.retires : Op → Option EventId
  | .retireOne e => some e
  | _ => none

/-- The participation whose end an operation offers to the queue. -/
def Op.frees : Op → Option ParticipantId
  | .reject _ p => some p
  | .cancel _ p _ => some p
  | .expireOne p => some p
  | _ => none

/-- The operation moves the queue up. -/
def Op.fills : Op → Bool
  | .promoteForEvent _ => true
  | op => op.frees.isSome

theorem Op.edits_of_does {op : Op} {e : EventId} {c : Option Int} (h : op.Does (.edit e c)) :
    op.edits = some (e, c) := by
  cases op with
  | update =>
      cases h
      rfl
  | decideClaim => rcases h with ⟨_, h⟩ | ⟨_, h⟩ <;> cases h
  | decideCase =>
      obtain ⟨_, h⟩ := h
      cases h
  | _ => cases h

theorem Op.seeds_of_does {op : Op} {e : EventId} (h : op.Does (.seed e)) : op.seeds = some e := by
  cases op with
  | seatSeedParticipant =>
      cases h
      rfl
  | decideClaim => rcases h with ⟨_, h⟩ | ⟨_, h⟩ <;> cases h
  | decideCase =>
      obtain ⟨_, h⟩ := h
      cases h
  | _ => cases h

theorem Op.callsOff_of_does {op : Op} {e : EventId} (h : op.Does (.callOff e)) :
    op.callsOff = some e := by
  cases op with
  | cancelByHost =>
      cases h
      rfl
  | decideClaim => rcases h with ⟨_, h⟩ | ⟨_, h⟩ <;> cases h
  | decideCase =>
      obtain ⟨_, h⟩ := h
      cases h
  | _ => cases h

theorem Op.accepts_of_does {op : Op} {p : ParticipantId} (h : op.Does (.seat p)) :
    op.accepts = some p := by
  cases op with
  | accept =>
      cases h
      rfl
  | decideClaim => rcases h with ⟨_, h⟩ | ⟨_, h⟩ <;> cases h
  | decideCase =>
      obtain ⟨_, h⟩ := h
      cases h
  | _ => cases h

theorem Op.retires_of_does {op : Op} {e : EventId} (h : op.Does (.retire e)) :
    op.retires = some e := by
  cases op with
  | retireOne =>
      cases h
      rfl
  | decideClaim => rcases h with ⟨_, h⟩ | ⟨_, h⟩ <;> cases h
  | decideCase =>
      obtain ⟨_, h⟩ := h
      cases h
  | _ => cases h

theorem Op.frees_of_close {op : Op} {p : ParticipantId} (h : op.Does (.close p)) :
    op.frees = some p := by
  cases op with
  | reject | expireOne =>
      cases h
      rfl
  | decideClaim => rcases h with ⟨_, h⟩ | ⟨_, h⟩ <;> cases h
  | decideCase =>
      obtain ⟨_, h⟩ := h
      cases h
  | _ => cases h

theorem Op.frees_of_withdraw {op : Op} {p : ParticipantId} (h : op.Does (.withdraw p)) :
    op.frees = some p := by
  cases op with
  | cancel =>
      cases h
      rfl
  | decideClaim => rcases h with ⟨_, h⟩ | ⟨_, h⟩ <;> cases h
  | decideCase =>
      obtain ⟨_, h⟩ := h
      cases h
  | _ => cases h

theorem Op.fills_of_fill {op : Op} {e : EventId} (h : op.Does (.fill e)) : op.fills = true := by
  cases op with
  | promoteForEvent =>
      cases h
      rfl
  | decideClaim => rcases h with ⟨_, h⟩ | ⟨_, h⟩ <;> cases h
  | decideCase =>
      obtain ⟨_, h⟩ := h
      cases h
  | _ => cases h

theorem Op.fills_of_frees {op : Op} {p : ParticipantId} (h : op.frees = some p) :
    op.fills = true := by
  cases op with
  | promoteForEvent => rfl
  | _ => exact congrArg Option.isSome h

theorem Op.complete_of_does {op : Op} {e : EventId} (h : op.Does (.complete e)) :
    op = .settleOne e := by
  cases op with
  | settleOne =>
      cases h
      rfl
  | decideClaim => rcases h with ⟨_, h⟩ | ⟨_, h⟩ <;> cases h
  | decideCase =>
      obtain ⟨_, h⟩ := h
      cases h
  | _ => cases h

theorem moveCoins_effect {env : Env} {m : OutsideMovement} {s s' : Db} {r : CoinPenalty}
    (h : Runs (applyCoins env m.input) s r s') : Effect env .books s s' := by
  have hforward : ∀ l, m.input.idempotencyKey ≠ .reversal l := by
    rcases m.key_ok with ⟨k, hk⟩ | ⟨e, n, hk⟩ <;> simp [hk]
  have hbooks : Books Ordinary s s' := by
    refine (applyCoins_books h ⟨m.forward, hforward⟩).mono fun r hr => ⟨?_, fun e => ?_⟩
    · rw [hr.2.1]
      exact m.type_ok
    · rw [hr.2.2.1]
      rcases m.key_ok with ⟨k, hk⟩ | ⟨e, n, hk⟩ <;> simp [hk]
  exact ⟨.books hbooks.events hbooks.participants hbooks.ledger, hbooks.disputes⟩

/-- An operation that commits makes one change: of a kind it allows, or none. -/
theorem Op.effect {env : Env} {op : Op} {s s' : Db} (h : Runs (op.act env) s () s') :
    Effect env .books s s' ∨ ∃ k, op.Does k ∧ Effect env k s s' := by
  cases op with
  | create host input seeded e =>
      obtain ⟨_, h⟩ := runs_drop.1 h
      exact .inr ⟨_, rfl, create_effect h⟩
  | update host e input v => exact .inr ⟨_, rfl, update_effect h⟩
  | cancelByHost host e reason =>
      obtain ⟨_, h⟩ := runs_drop.1 h
      exact .inr ⟨_, rfl, cancelByHost_effect h⟩
  | join user e newId =>
      obtain ⟨_, h⟩ := runs_drop.1 h
      exact .inr ⟨_, rfl, join_effect h⟩
  | accept host p =>
      obtain ⟨_, h⟩ := runs_drop.1 h
      exact .inr ⟨_, rfl, accept_effect h⟩
  | seatSeedParticipant e user newId => exact .inr ⟨_, rfl, seatSeedParticipant_effect h⟩
  | reject host p =>
      obtain ⟨_, h⟩ := runs_drop.1 h
      exact .inr ⟨_, rfl, reject_effect h⟩
  | cancel user p reason =>
      obtain ⟨_, h⟩ := runs_drop.1 h
      exact .inr ⟨_, rfl, cancel_effect h⟩
  | expireOne p =>
      obtain ⟨_, h⟩ := runs_drop.1 h
      rcases expireOne_effect h with rfl | h
      · exact .inl (.unchanged _)
      · exact .inr ⟨_, rfl, h⟩
  | expireWaitlistedOne p =>
      obtain ⟨_, h⟩ := runs_drop.1 h
      rcases expireWaitlistedOne_effect h with rfl | h
      · exact .inl (.unchanged _)
      · exact .inr ⟨_, rfl, h⟩
  | promoteForEvent e =>
      obtain ⟨_, h⟩ := runs_drop.1 h
      rcases promoteForEvent_effect h with rfl | h
      · exact .inl (.unchanged _)
      · exact .inr ⟨_, rfl, h⟩
  | retireOne e =>
      obtain ⟨_, h⟩ := runs_drop.1 h
      rcases retireOne_effect h with rfl | h
      · exact .inl (.unchanged _)
      · exact .inr ⟨_, rfl, h⟩
  | settleOne e =>
      obtain ⟨_, h⟩ := runs_drop.1 h
      rcases settleOne_effect h with rfl | h
      · exact .inl (.unchanged _)
      · exact .inr ⟨_, rfl, h⟩
  | markNoShow host p => exact .inr ⟨_, rfl, markNoShow_effect h⟩
  | dispute user p statement => exact .inl (dispute_effect h)
  | reportHostAbsent user p statement => exact .inl (reportHostAbsent_effect h)
  | decideClaim admin may c upheld note =>
      rcases decideClaim_effect h with h | ⟨p, h⟩ | ⟨e, h⟩
      · exact .inl h
      · exact .inr ⟨_, .inl ⟨p, rfl⟩, h⟩
      · exact .inr ⟨_, .inr ⟨e, rfl⟩, h⟩
  | moderateEvent may e action reason =>
      obtain ⟨_, h⟩ := runs_drop.1 h
      exact .inr ⟨_, rfl, moderateEvent_effect h⟩
  | decideCase admin may c decision note =>
      rcases decideCase_effect h with h | ⟨e, h⟩
      · exact .inl h
      · exact .inr ⟨_, ⟨e, rfl⟩, h⟩
  | escalateEvent e n notify =>
      rcases escalateEvent_effect h with h | h
      · exact .inl h
      · exact .inr ⟨_, rfl, h⟩
  | pay settlement =>
      obtain ⟨_, h⟩ := runs_drop.1 h
      exact .inr ⟨_, rfl, paySettlement_effect h⟩
  | moveCoins m =>
      obtain ⟨_, h⟩ := runs_drop.1 h
      exact .inl (moveCoins_effect h)
  | scanAttendance | scanRewards | assess e host =>
      rw [Op.act, runs_pure] at h
      rw [h.2]
      exact .inl (.unchanged _)

/-! ## Runs -/

/-- The database, the time, and what workers have read and not yet acted on. -/
structure World where
  db : Db
  clock : Instant
  /-- Events an attendance scan listed. -/
  settleQueue : List EventId
  /-- Events a reward scan listed, with their hosts. -/
  rewardQueue : List (EventId × UserId)
  /-- Settlements that were assessed. -/
  assessed : List Settlement

/-- One operation, with the environment it reads. -/
structure Call where
  env : Env
  op : Op

/-- An operation that works from an earlier read needs to have made it. -/
def World.admits (w : World) : Op → Bool
  | .settleOne e => w.settleQueue.contains e
  | .assess e host => w.rewardQueue.contains (e, host)
  | .pay settlement => w.assessed.contains settlement
  | _ => true

/-- The world after a call. -/
def World.after (w : World) (c : Call) : World where
  db := commit (c.op.act c.env) w.db
  clock := c.env.now
  settleQueue := match c.op with
    | .scanAttendance => w.settleQueue ++ attendanceCandidates c.env w.db
    | _ => w.settleQueue
  rewardQueue := match c.op with
    | .scanRewards => w.rewardQueue ++ settleCandidates c.env w.db
    | _ => w.rewardQueue
  assessed := match c.op with
    | .assess e host => w.assessed ++ (Paayatam.assess c.env w.db e host).toList
    | _ => w.assessed

/-- A call is possible when time has not run back and its read was made. -/
def World.exec (w : World) (c : Call) : Option World :=
  if w.clock ≤ c.env.now ∧ w.admits c.op = true then some (w.after c) else none

def World.Step (w : World) (c : Call) (w' : World) : Prop := w.exec c = some w'

/-- The call's transaction does not fail. -/
def World.commits (w : World) (c : Call) : Bool := Lib.commits (c.op.act c.env) w.db

/-- An empty database, and no scan made yet. -/
def World.Init (w : World) : Prop :=
  w.db = Db.initial ∧ w.settleQueue = [] ∧ w.rewardQueue = [] ∧ w.assessed = []

/-- The world every run starts from, at time `now`. -/
def World.initial (now : Instant) : World where
  db := .initial
  clock := now
  settleQueue := []
  rewardQueue := []
  assessed := []

theorem World.init_initial (now : Instant) : (World.initial now).Init := ⟨rfl, rfl, rfl, rfl⟩

theorem World.step_iff {w w' : World} {c : Call} :
    w.Step c w' ↔ w.clock ≤ c.env.now ∧ w.admits c.op = true ∧ w' = w.after c := by
  unfold World.Step World.exec
  split
  · next h => simp [h.1, h.2, eq_comm]
  · next h =>
      simp only [reduceCtorEq, false_iff]
      exact fun h' => h ⟨h'.1, h'.2.1⟩

/-- A step whose transaction commits runs it. -/
theorem World.runs_of_commits {w w' : World} {c : Call} (h : w.Step c w')
    (hc : w.commits c = true) : Runs (c.op.act c.env) w.db () w'.db := by
  obtain ⟨-, -, rfl⟩ := World.step_iff.1 h
  obtain ⟨_, hruns⟩ := Lib.runs_of_commits hc
  exact hruns

/-- A step makes one change: of a kind its operation allows, or none. -/
theorem World.step_effect {w w' : World} {c : Call} (h : w.Step c w') :
    Effect c.env .books w.db w'.db ∨ ∃ k, c.op.Does k ∧ Effect c.env k w.db w'.db := by
  obtain ⟨-, -, rfl⟩ := World.step_iff.1 h
  rcases commit_cases (c.op.act c.env) w.db with ⟨_, hruns⟩ | hsame
  · exact Op.effect hruns
  · left
    change Effect c.env .books w.db (commit (c.op.act c.env) w.db)
    rw [hsame]
    exact .unchanged _

/-- The worlds reached by runs whose every call meets `guard`. -/
abbrev World.Reached (guard : World → Call → Prop) : World → Prop :=
  Reach World.Init World.Step guard

/-- The runs whose every call meets `guard`, with their steps. -/
abbrev World.Run (guard : World → Call → Prop) : List (World × Call × World) → World → Prop :=
  Lib.Run World.Init World.Step guard

/-! ## Executing runs

Runs are executable: a list of calls either cannot be made or ends in a world,
and a world so reached is reached by `World.Step`. -/

/-- The world a list of calls leads to from an empty database, when every call
    can be made. -/
def World.play (calls : List Call) : Option World :=
  runList World.exec (World.initial 0) calls

/-- Every call of the list meets `g` where it is made. -/
def World.playsBy (g : World → Call → Bool) (calls : List Call) : Bool :=
  guardList World.exec g (World.initial 0) calls

theorem World.reached_of_play {G : World → Call → Prop} {g : World → Call → Bool}
    (hg : ∀ w c, g w c = true → G w c) {calls : List Call} {w : World}
    (hguard : World.playsBy g calls = true) (h : World.play calls = some w) :
    World.Reached G w :=
  reach_of_runList (fun _ _ _ h => h) hg (.start (World.init_initial 0)) hguard h

theorem World.run_of_play {guard : World → Call → Prop} {g : World → Call → Bool}
    (hg : ∀ w c, g w c = true → guard w c) {calls : List Call} {w : World}
    (hguard : World.playsBy g calls = true) (h : World.play calls = some w) :
    World.Run guard (traceList World.exec (World.initial 0) calls) w :=
  run_of_runList (fun _ _ _ h => h) hg (.start (World.init_initial 0)) hguard h

theorem World.reachable_of_play {calls : List Call} {w : World} (h : World.play calls = some w) :
    Reachable World.Init World.Step w :=
  reachable_of_runList (fun _ _ _ h => h) (.start (World.init_initial 0)) h

/-- A check that passes at the end of a list of calls, passes in a world. -/
theorem World.exists_of_play {c : List Call} {P : World → Bool}
    (h : (World.play c).any P = true) : ∃ w, World.play c = some w ∧ P w = true :=
  (Option.any_eq_true _ _).1 h

/-- A user anybody may host and join with. -/
def demoUser : User where
  status := .ACTIVE
  onboardingState := .PROFILE_COMPLETE
  profile := some { birthYear := some 1995, gender := .FEMALE, cityId := 1 }
  isSeed := false

/-- The default settings in a catalogue with one city and one category, where every
    user is onboarded and every text is clean, at `hours` past the epoch. -/
def demoEnv (hours : Int) : Env where
  now := hours * msPerHour
  settings := .defaults
  user _ := some demoUser
  catalog :=
    { city := fun _ => some { isActive := true, isLaunched := true }
      district := fun _ => none
      category := fun _ => some { isActive := true, allowsCustomLabel := false }
      cityCategory := fun _ => [] }
  membershipAllowed _ _ := true
  scanEventContent _ := .CLEAN
  scanText _ := .CLEAN
  channelPublishable := false
  startOfDay t := t - t % (24 * msPerHour)
  gregorianYear _ := 2026
  reviewsWritten _ _ := 100

/-- A free evening of two hours, with `capacity` seats, `hours` past the epoch. -/
def demoEvent (hours capacity : Int) : CreateEventInput where
  title := "Board games"
  description := "An evening of board games."
  categoryId := 1
  customCategoryLabel := none
  cityId := 1
  districtId := none
  districtLabel := none
  startsAt := hours * msPerHour
  endsAt := (hours + 2) * msPerHour
  capacity := capacity
  genderPreference := none
  minAge := none
  maxAge := none

/-- The coins a new user starts with. -/
def onboardingReward (user : UserId) (amount : Int) : OutsideMovement where
  input :=
    { userId := user, amount := amount, type := .ONBOARDING_REWARD
      reasonCode := "onboarding.completed"
      idempotencyKey := .other s!"onboarding:{user}:{user}", actorType := .SYSTEM }
  type_ok := by simp
  key_ok := .inl ⟨_, rfl⟩
  forward := rfl
  post_ok := by simp

/-- `op`, called at `hours` past the epoch. -/
def callAt (hours : Int) (op : Op) : Call := ⟨demoEnv hours, op⟩

end Paayatam
