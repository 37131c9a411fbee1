/-
  Paayatam.Booking.StatusInterleaving

  The status of an event while transactions overlap.

  Whoever locks the event (`cancelByHost`, `retireOne`, an edit of the
  capacity) decides from the row it then writes, and `create` writes a row
  nobody sees before it commits; these are the calls of `Booking.World`.  An
  edit that leaves the capacity alone, a moderator, the effect of a decided
  case and the report threshold read the event without its lock and write it
  later, by id, whatever has been committed in between.  Each of those is a
  worker here, with a read and a write of its own.
-/

import Paayatam.Booking.Frame
import Paayatam.Lib.Threads

namespace Paayatam

open Lib

/-! ## The system -/

/-- The transactions that read an event without locking it. -/
inductive ReviewOp where
  | update (host : UserId) (input : UpdateEventInput) (expectedVersion : Option Nat)
  | moderateEvent (mayModerate : Bool) (action : ModerationAction) (reason : String)
  | applyEventDecision (decision : CaseDecision)
  | escalateEvent (reportCount : Nat) (notifyOwner : Bool)

/-- An edit of the capacity takes the lock; nothing else of these does. -/
def ReviewOp.lockFree : ReviewOp → Bool
  | .update _ input _ => input.capacity.isNone
  | _ => true

/-- What the transaction does once it has read the event. -/
def ReviewOp.finish (env : Env) (event : EventRow) : ReviewOp → Act Unit
  | .update host input v => finishUpdate env host input v event
  | .moderateEvent may action reason => do
    guardTx (may = true) (.of .FORBIDDEN)
    guardTx (5 ≤ utf16Length (trim reason)) (.raised .VALIDATION_FAILED (.field "reason" ""))
    drop (finishModerate action event)
  | .applyEventDecision decision => finishEventDecision decision event
  | .escalateEvent n notify => finishEscalate n notify event

/-- A transaction between its read and its write. -/
structure InFlight where
  env : Env
  op : ReviewOp
  read : EventRow

/-- The world, and what each worker has in flight. -/
abbrev StatusWorld := Threads Nat World (Option InFlight)

inductive Move where
  /-- A call of the world, in one piece. -/
  | call (c : Call)
  /-- Worker `i` reads the event `e` for `op`. -/
  | read (i : Nat) (env : Env) (e : EventId) (op : ReviewOp)
  /-- Worker `i` writes, and commits or fails. -/
  | write (i : Nat)

namespace StatusWorld

def exec (w : StatusWorld) : Move → Option StatusWorld
  | .call c => (w.shared.exec c).map fun s => { w with shared := s }
  | .read i env e op =>
    match w.locals i, w.shared.db.events.find? e with
    | none, some event =>
      if w.shared.clock ≤ env.now ∧ op.lockFree = true then
        some (w.set i { w.shared with clock := env.now } (some ⟨env, op, event⟩))
      else none
    | _, _ => none
  | .write i =>
    match w.locals i with
    | some f =>
      some (w.set i { w.shared with db := commit (f.op.finish f.env f.read) w.shared.db } none)
    | none => none

def Step (w : StatusWorld) (m : Move) (w' : StatusWorld) : Prop := w.exec m = some w'

def Init (w : StatusWorld) : Prop := w.shared.Init ∧ ∀ i, w.locals i = none

/-- An empty database, at the epoch, and nothing in flight. -/
def initial : StatusWorld where
  shared := World.initial 0
  locals _ := none

theorem init_initial : initial.Init := ⟨World.init_initial 0, fun _ => rfl⟩

/-- The committed events. -/
def events (w : StatusWorld) : List EventRow := w.shared.db.events.rows

end StatusWorld

/-- A write without the lock finds the event in the status it was read in. -/
def Fresh (w : StatusWorld) : Move → Prop
  | .write i => ∀ f ∈ w.locals i, ∀ ev ∈ w.events, ev.id = f.read.id → ev.status = f.read.status
  | _ => True

instance (w : StatusWorld) : (m : Move) → Decidable (Fresh w m)
  | .write i => inferInstanceAs (Decidable (∀ f ∈ w.locals i, _))
  | .call _ => isTrue trivial
  | .read _ _ _ _ => isTrue trivial

/-- The event a move retires. -/
def Move.retires : Move → Option EventId
  | .call c => c.op.retires
  | _ => none

/-- `new` follows `old`: it is `old`, or an edge away, or the two edges through ONGOING
    that `retireOne` takes at once for an event that is over. -/
def FollowsTable (m : Move) (e : EventId) (old new : EventStatus) : Prop :=
  new = old ∨ canTransition EVENT_TRANSITIONS old new = true ∨
    (m.retires = some e ∧ old = .PUBLISHED ∧ new = .COMPLETED)

/-- A status the table leaves for DELETED only. -/
def EventStatus.Ended (st : EventStatus) : Prop :=
  st = .CANCELLED_BY_HOST ∨ st = .REJECTED ∨ st = .COMPLETED ∨ st = .EXPIRED

instance (st : EventStatus) : Decidable st.Ended := inferInstanceAs (Decidable (_ ∨ _))

theorem FollowsTable.ended {m : Move} {e : EventId} {old new : EventStatus}
    (h : FollowsTable m e old new) (hold : old.Ended ∨ old = .DELETED) :
    new = old ∨ new = .DELETED := by
  rcases h with rfl | hedge | ⟨-, rfl, rfl⟩
  · exact .inl rfl
  · right
    rcases hold with (rfl | rfl | rfl | rfl) | rfl <;>
      simp [canTransition, EVENT_TRANSITIONS] at hedge <;> exact hedge
  · simp [EventStatus.Ended] at hold

theorem ne_draft_of_edge {old new : EventStatus}
    (h : canTransition EVENT_TRANSITIONS old new = true) : new ≠ .DRAFT := by
  rintro rfl
  cases old <;> simp [canTransition, EVENT_TRANSITIONS] at h

/-! ## One move -/

/-- What a rescan decides for an event that is not a draft is its status, or an edge
    away from it. -/
theorem rescan_edge {old new : EventStatus} (hed : isEditable old = true) (hdraft : old ≠ .DRAFT)
    (hnew : new = .PUBLISHED ∨ new = .PENDING_MODERATION) :
    new = old ∨ canTransition EVENT_TRANSITIONS old new = true := by
  have hold : old = .PENDING_MODERATION ∨ old = .PUBLISHED := by
    simpa [isEditable, hdraft] using hed
  rcases hold with rfl | rfl <;> rcases hnew with rfl | rfl <;> simp [canTransition, EVENT_TRANSITIONS]

/-- An edit keeps the status it finds, or writes the one its rescan decided. -/
theorem EventEdit.apply_status (d : EventEdit) (ev : EventRow) :
    (d.apply ev).status = ev.status ∨ ∃ o ∈ d.outcome, (d.apply ev).status = o.status := by
  cases ho : d.outcome with
  | none => exact .inl (by simp [EventEdit.apply, ho])
  | some o => exact .inr ⟨o, by simp [EventEdit.apply, ho]⟩

/-- In one piece, an operation moves an event's status along the table. -/
theorem EventMove.follows {env : Env} {s : Db} {k : Kind} {ev ev' : EventRow}
    (h : EventMove env s k ev ev') (hdraft : ev.status ≠ .DRAFT) :
    ev'.status = ev.status ∨ canTransition EVENT_TRANSITIONS ev.status ev'.status = true ∨
      (k = .retire ev.id ∧ ev.status = .PUBLISHED ∧ ev'.status = .COMPLETED) := by
  cases h with
  | same | requested | seats | stamped => exact .inl rfl
  | cancelled _ hedge => exact .inr (.inl hedge)
  | reviewed hedge => exact .inr (.inl hedge)
  | @edited _ d hed hout =>
      rcases d.apply_status ev with hst | ⟨o, ho, hst⟩
      · exact .inl hst
      · rw [hst]
        exact (rescan_edge hed hdraft (hout o ho)).imp_right .inl
  | retired hst hnext =>
      simp only [EventRow.retired, hnext, retiredStatus]
      split
      · next hc => exact .inr (.inl (by rw [hc.1]; rfl))
      · split
        · rcases hst with hst | hst
          · exact .inr (.inr ⟨trivial, hst, rfl⟩)
          · exact .inr (.inl (by rw [hst]; rfl))
        · rcases hst with hst | hst
          · exact .inr (.inl (by rw [hst]; rfl))
          · exact .inl hst.symm

/-- What a transaction decided from the row `ev` does to the events: at most it rewrites
    that row, to the status it finds or to one that follows the status it read. -/
theorem ReviewOp.finish_spec {env : Env} {ev : EventRow} {op : ReviewOp} {s s' : Db}
    (hdraft : ev.status ≠ .DRAFT) (h : Runs (op.finish env ev) s () s') :
    s'.events = s.events ∨
    ∃ x f, x.id = ev.id ∧ s.events.Rewrites x f s'.events ∧ (f x).id = x.id ∧
      ((f x).status = x.status ∨ (f x).status = ev.status ∨
        canTransition EVENT_TRANSITIONS ev.status (f x).status = true) := by
  have hreviewed : Reviewed ev s s' → ∃ x f, x.id = ev.id ∧ s.events.Rewrites x f s'.events ∧
      (f x).id = x.id ∧ ((f x).status = x.status ∨ (f x).status = ev.status ∨
        canTransition EVENT_TRANSITIONS ev.status (f x).status = true) := by
    rintro ⟨w, x, t, ⟨hedge, -⟩, hx, ht, hs⟩
    refine ⟨x, w.apply, Table.key_of_find? hx, ?_, rfl, .inr (.inr hedge)⟩
    rw [hs]
    exact ht
  cases op with
  | update host input v =>
      obtain ⟨plan, x, t, hplan, hx, ht, hs, -⟩ := finishUpdate_spec h
      obtain ⟨hed, -, -, hout⟩ := planUpdate_spec hplan
      refine .inr ⟨x, plan.edit.apply, Table.key_of_find? hx, ?_, rfl, ?_⟩
      · rw [hs]
        exact ht
      · rcases plan.edit.apply_status x with hst | ⟨o, ho, hst⟩
        · exact .inl hst
        · rw [hst]
          exact .inr (rescan_edge hed hdraft (hout o ho))
  | moderateEvent may action reason =>
      simp only [ReviewOp.finish, runs_guardTx_bind] at h
      obtain ⟨-, -, h⟩ := h
      obtain ⟨_, h⟩ := runs_drop.1 h
      exact .inr (hreviewed (finishModerate_spec h))
  | applyEventDecision decision =>
      rcases finishEventDecision_spec h with rfl | h
      · exact .inl rfl
      · exact .inr (hreviewed h)
  | escalateEvent n notify =>
      rcases finishEscalate_spec h with hs | h
      · exact .inl (by rw [hs])
      · exact .inr (hreviewed h)

/-- No committed event is a draft. -/
def NoDrafts (w : World) : Prop := ∀ ev ∈ w.db.events.rows, ev.status ≠ .DRAFT

/-- Nor was any that a worker has read. -/
def ReadNoDraft (_ : World) (l : Option InFlight) : Prop := ∀ f ∈ l, f.read.status ≠ .DRAFT

/-- No draft anywhere. -/
abbrev StatusWorld.Drafted (w : StatusWorld) : Prop :=
  w.Holds NoDrafts ReadNoDraft fun _ _ => True

namespace StatusWorld

variable {w w' : StatusWorld} {m : Move}

/-- What a move does to the events already there, and what it adds. -/
structure Moved (w : StatusWorld) (m : Move) (w' : StatusWorld) : Prop where
  fate : ∀ ev ∈ w.events, ∃ ev' ∈ w'.events, ev'.id = ev.id ∧
    (Fresh w m → FollowsTable m ev.id ev.status ev'.status)
  undrafted : NoDrafts w'.shared

theorem moved_call {c : Call} {s : World} (h : w.Drafted) (hs : w.shared.Step c s)
    (hw : w'.shared = s) : w.Moved (.call c) w' := by
  obtain ⟨k, hk, hc⟩ : ∃ k, (∀ e, k = .retire e → c.op.retires = some e) ∧
      Change c.env k w.shared.db s.db := by
    rcases World.step_effect hs with hc | ⟨k, hk, hc⟩
    · exact ⟨.books, by simp, hc.change⟩
    · exact ⟨k, fun e he => Op.retires_of_does (he ▸ hk), hc.change⟩
  subst hw
  constructor
  · intro ev hev
    obtain ⟨ev', hev', hmove⟩ := hc.event_fate hev
    refine ⟨ev', hev', hmove.id, fun _ => ?_⟩
    rcases hmove.follows (h.shared ev hev) with hst | hedge | ⟨hret, hst⟩
    · exact .inl hst
    · exact .inr (.inl hedge)
    · exact .inr (.inr ⟨hk _ hret, hst⟩)
  · intro x hx
    rcases hc.event_origin hx with ⟨ev, hev, hmove⟩ | ⟨-, -, -, hst | hst, -⟩
    · rcases hmove.follows (h.shared ev hev) with hst | hedge | ⟨-, -, hst⟩
      · rw [hst]
        exact h.shared ev hev
      · exact ne_draft_of_edge hedge
      · simp [hst]
    · simp [hst]
    · simp [hst]

theorem moved_write {i : Nat} {f : InFlight} (h : w.Drafted) (hf : w.locals i = some f)
    (hw : w'.shared.db = commit (f.op.finish f.env f.read) w.shared.db) :
    w.Moved (.write i) w' := by
  have hread : f.read.status ≠ .DRAFT := h.own i f hf
  have hsame : w'.shared.db.events = w.shared.db.events → w.Moved (.write i) w' := by
    intro he
    refine ⟨fun ev hev => ⟨ev, ?_, rfl, fun _ => .inl rfl⟩, fun x hx => h.shared x (he ▸ hx)⟩
    rw [events, he]
    exact hev
  rcases commit_cases (f.op.finish f.env f.read) w.shared.db with ⟨_, hruns⟩ | hnone
  · rw [← hw] at hruns
    rcases ReviewOp.finish_spec hread hruns with he | ⟨x, g, hxid, he, hid, hst⟩
    · exact hsame he
    · constructor
      · intro ev hev
        by_cases hx : ev = x
        · subst hx
          refine ⟨g ev, he.self, hid, fun hfresh => ?_⟩
          have hfound : ev.status = f.read.status := hfresh f hf ev hev hxid
          rcases hst with hst | hst | hst
          · exact .inl hst
          · exact .inl (hst.trans hfound.symm)
          · exact .inr (.inl (hfound ▸ hst))
        · exact ⟨ev, he.other hev hx, rfl, fun _ => .inl rfl⟩
      · intro y hy
        rcases he.cases hy with rfl | ⟨hy, -⟩
        · rcases hst with hst | hst | hst
          · rw [hst]
            exact h.shared x he.mem
          · rw [hst]
            exact hread
          · exact ne_draft_of_edge hst
        · exact h.shared y hy
  · exact hsame (by rw [hw, hnone])

theorem Drafted.step (h : w.Drafted) (hstep : w.Step m w') : w.Moved m w' ∧ w'.Drafted := by
  cases m with
  | call c =>
      simp only [Step, exec, Option.map_eq_some_iff] at hstep
      obtain ⟨s, hs, rfl⟩ := hstep
      have hmoved : w.Moved (.call c) { w with shared := s } := moved_call h hs rfl
      exact ⟨hmoved, hmoved.undrafted, h.own, h.apart⟩
  | read i env e op =>
      simp only [Step, exec] at hstep
      split at hstep
      · next hi hev =>
          split at hstep
          · obtain rfl := Option.some.inj hstep
            refine ⟨⟨fun ev hev => ⟨ev, hev, rfl, fun _ => .inl rfl⟩, h.shared⟩, ?_⟩
            refine h.set_alone h.shared ?_ fun j _ => h.own j
            rintro f hf
            obtain rfl := Option.some.inj hf
            exact h.shared _ (Table.mem_of_find? hev)
          · cases hstep
      · cases hstep
  | write i =>
      simp only [Step, exec] at hstep
      split at hstep
      · next f hf =>
          obtain rfl := Option.some.inj hstep
          have hmoved : w.Moved (.write i) (w.set i
              { w.shared with db := commit (f.op.finish f.env f.read) w.shared.db } none) :=
            moved_write h hf rfl
          refine ⟨hmoved, h.set_alone hmoved.undrafted ?_ fun j _ => h.own j⟩
          simp [ReadNoDraft]
      · cases hstep

theorem Drafted.init (h : w.Init) : w.Drafted where
  shared := by
    rw [NoDrafts, h.1.1]
    simp [Db.initial]
  own i := by simp [ReadNoDraft, h.2 i]
  apart _ _ _ := trivial

theorem Drafted.reach {guard : StatusWorld → Move → Prop} (h : Reach Init Step guard w) :
    w.Drafted :=
  Reach.invariant (I := Drafted) (fun _ => .init) (fun _ _ _ hI _ hs => (hI.step hs).2) h

end StatusWorld

/-! ## Runs -/

/-- In every interleaving, a move whose write finds the status it was decided from takes
    an event's committed status along the table, `retireOne` from PUBLISHED through
    ONGOING to COMPLETED included; and from any state on, while every write does, an
    ended status is left for DELETED only. -/
theorem event_status_follows_table {tr : List (StatusWorld × Move × StatusWorld)}
    {w : StatusWorld} (h : Lib.Run StatusWorld.Init StatusWorld.Step (fun _ _ => True) tr w) :
    (∀ x ∈ tr, Fresh x.1 x.2.1 → ∀ ev ∈ x.1.events, ∃ ev' ∈ x.2.2.events, ev'.id = ev.id ∧
      FollowsTable x.2.1 ev.id ev.status ev'.status) ∧
    ∀ w', Reach (· = w) StatusWorld.Step Fresh w' → ∀ ev ∈ w.events, ev.status.Ended →
      ∃ ev' ∈ w'.events, ev'.id = ev.id ∧ (ev'.status = ev.status ∨ ev'.status = .DELETED) := by
  constructor
  · refine h.steps (P := fun s m s' => Fresh s m → ∀ ev ∈ s.events, ∃ ev' ∈ s'.events,
      ev'.id = ev.id ∧ FollowsTable m ev.id ev.status ev'.status) ?_
    intro s m s' hr _ hs hfresh ev hev
    obtain ⟨ev', hev', hid, hfollows⟩ := ((StatusWorld.Drafted.reach hr).step hs).1.fate ev hev
    exact ⟨ev', hev', hid, hfollows hfresh⟩
  · intro w' hw' ev hev hended
    -- the induction carries that no draft appears, which is what a step needs
    have hstay : w'.Drafted ∧ ∃ ev' ∈ w'.events, ev'.id = ev.id ∧
        (ev'.status = ev.status ∨ ev'.status = .DELETED) := by
      refine Reach.invariant (I := fun s : StatusWorld => s.Drafted ∧ ∃ ev' ∈ s.events,
        ev'.id = ev.id ∧ (ev'.status = ev.status ∨ ev'.status = .DELETED)) ?_ ?_ hw'
      · rintro s rfl
        exact ⟨StatusWorld.Drafted.reach h.reach, ev, hev, rfl, .inl rfl⟩
      · rintro s m s' ⟨hI, x, hx, hid, hst⟩ hfresh hs
        obtain ⟨hmoved, hI'⟩ := hI.step hs
        obtain ⟨x', hx', hid', hfollows⟩ := hmoved.fate x hx
        refine ⟨hI', x', hx', hid'.trans hid, ?_⟩
        rcases hst with hst | hst
        · rw [← hst]
          exact (hfollows hfresh).ended (.inl (hst ▸ hended))
        · rcases (hfollows hfresh).ended (.inr hst) with h' | h'
          · exact .inr (h'.trans hst)
          · exact .inr h'
    exact hstay.2

/-- The moves of a list of calls. -/
def calls (cs : List Call) : List Move := cs.map .call

/-- A published event is edited and hidden by overlapping transactions, put back, and
    called off. -/
def overlappingMoves : List Move :=
  calls [callAt 0 (.moveCoins (onboardingReward 1 100)),
    callAt 1 (.create 1 (demoEvent 100 2) false 7)] ++
  [.read 0 (demoEnv 2) 7 (.update 1 { title := some "Card games" } none),
   .read 1 (demoEnv 2) 7 (.moderateEvent true .HIDE "spam in the text"), .write 0, .write 1,
   .read 0 (demoEnv 3) 7 (.applyEventDecision .APPROVED), .write 0,
   .call (callAt 4 (.cancelByHost 1 7 none))]

/-- The report threshold comes too late. -/
def lateReportMoves : List Move := [.read 1 (demoEnv 5) 7 (.escalateEvent 3 true), .write 1]

/-- The overlapping run, whose every write is fresh, ends called off, and stays so. -/
theorem event_status_follows_overlapping : ∃ tr w w',
    Lib.Run StatusWorld.Init StatusWorld.Step (fun _ _ => True) tr w ∧
    Reach (· = w) StatusWorld.Step Fresh w' ∧
    (∀ x ∈ tr, Fresh x.1 x.2.1 → ∀ ev ∈ x.1.events, ∃ ev' ∈ x.2.2.events, ev'.id = ev.id ∧
      FollowsTable x.2.1 ev.id ev.status ev'.status) ∧
    (w.events.map fun ev => (ev.title, ev.status)) = [("Card games", .CANCELLED_BY_HOST)] ∧
    ∀ ev ∈ w.events, ev.status.Ended →
      ∃ ev' ∈ w'.events, ev'.id = ev.id ∧ (ev'.status = ev.status ∨ ev'.status = .DELETED) := by
  have hplay : (runList StatusWorld.exec StatusWorld.initial overlappingMoves).any (fun w =>
      (w.events.map fun ev => (ev.title, ev.status)) == [("Card games", .CANCELLED_BY_HOST)] &&
      guardList StatusWorld.exec (fun w m => decide (Fresh w m)) w lateReportMoves &&
      (runList StatusWorld.exec w lateReportMoves).isSome) = true := by decide +kernel
  obtain ⟨w, hw, hplay⟩ := (Option.any_eq_true _ _).1 hplay
  simp only [Bool.and_eq_true, beq_iff_eq, Option.isSome_iff_exists] at hplay
  obtain ⟨⟨hended, hfresh⟩, w', hw'⟩ := hplay
  have hrun : ∃ tr, Lib.Run StatusWorld.Init StatusWorld.Step (fun _ _ => True) tr w :=
    ⟨_, run_of_runList (g := fun _ _ => true) (fun _ _ _ h => h) (fun _ _ _ => trivial)
      (.start StatusWorld.init_initial) (by decide +kernel) hw⟩
  obtain ⟨tr, hrun⟩ := hrun
  have hlater : Reach (· = w) StatusWorld.Step Fresh w' :=
    reach_of_runList (fun _ _ _ h => h) (fun _ _ h => of_decide_eq_true h) (.start rfl) hfresh hw'
  have hresult := event_status_follows_table hrun
  exact ⟨tr, w, w', hrun, hlater, hresult.1, hended, hresult.2 w' hlater⟩

/-- Every status change is an edge of the table. -/
def EdgesOnly (w w' : StatusWorld) : Prop :=
  ∀ ev ∈ w.events, ∀ ev' ∈ w'.events, ev'.id = ev.id →
    ev'.status = ev.status ∨ canTransition EVENT_TRANSITIONS ev.status ev'.status = true

/-- An ended status is left for DELETED only. -/
def EndedKept (w w' : StatusWorld) : Prop :=
  ∀ ev ∈ w.events, ev.status.Ended → ∀ ev' ∈ w'.events, ev'.id = ev.id →
    ev'.status = ev.status ∨ ev'.status = .DELETED

instance (w w' : StatusWorld) : Decidable (EdgesOnly w w') :=
  inferInstanceAs (Decidable (∀ ev ∈ w.events, _))

instance (w w' : StatusWorld) : Decidable (EndedKept w w') :=
  inferInstanceAs (Decidable (∀ ev ∈ w.events, _))

/-- An evening with a guest, first looked at by the sweep when it is over. -/
def sweptLateMoves : List Move :=
  calls [callAt 0 (.moveCoins (onboardingReward 1 100)),
    callAt 0 (.moveCoins (onboardingReward 2 100)), callAt 1 (.create 1 (demoEvent 100 2) false 7),
    callAt 2 (.join 2 7 21), callAt 3 (.accept 1 21), callAt 103 (.retireOne 7)]

/-- A moderator reads a published event; its host calls it off; the moderator hides it. -/
def staleHideMoves : List Move :=
  calls [callAt 0 (.moveCoins (onboardingReward 1 100)),
    callAt 1 (.create 1 (demoEvent 100 2) false 7)] ++
  [.read 0 (demoEnv 2) 7 (.moderateEvent true .HIDE "spam in the text"),
   .call (callAt 3 (.cancelByHost 1 7 none)), .write 0]

/-- A list of moves that can be made, every one of them meeting `g`, and one of which
    fails a check, is a run with a step that fails it. -/
theorem StatusWorld.run_of_moves (ms : List Move) {G : StatusWorld → Move → Prop}
    {g : StatusWorld → Move → Bool} {b : StatusWorld → StatusWorld → Bool}
    (hg : ∀ w m, g w m = true → G w m)
    (hguard : guardList StatusWorld.exec g StatusWorld.initial ms = true)
    (hplay : (runList StatusWorld.exec StatusWorld.initial ms).isSome = true)
    (hbad : (traceList StatusWorld.exec StatusWorld.initial ms).any (fun x => b x.1 x.2.2) = true) :
    ∃ tr w, Lib.Run StatusWorld.Init StatusWorld.Step G tr w ∧
      ∃ x ∈ tr, b x.1 x.2.2 = true := by
  obtain ⟨w, hw⟩ := Option.isSome_iff_exists.1 hplay
  refine ⟨_, w, run_of_runList (fun _ _ _ h => h) hg (.start StatusWorld.init_initial) hguard hw, ?_⟩
  obtain ⟨x, hx, hbad⟩ := List.any_eq_true.1 hbad
  exact ⟨x, by simpa using hx, hbad⟩

/-- The sweep commits PUBLISHED to COMPLETED in one step, with no stale write anywhere;
    and a stale write takes a called-off event to HIDDEN. -/
theorem event_status_leaves_table :
    (¬ ∀ tr w, Lib.Run StatusWorld.Init StatusWorld.Step Fresh tr w →
      ∀ x ∈ tr, EdgesOnly x.1 x.2.2) ∧
    ¬ ∀ tr w, Lib.Run StatusWorld.Init StatusWorld.Step (fun _ _ => True) tr w →
      ∀ x ∈ tr, EndedKept x.1 x.2.2 := by
  constructor
  · intro h
    obtain ⟨tr, w, hrun, x, hx, hbad⟩ := StatusWorld.run_of_moves sweptLateMoves
      (g := fun w m => decide (Fresh w m)) (b := fun w w' => !decide (EdgesOnly w w'))
      (fun _ _ h => of_decide_eq_true h) (by decide +kernel) (by decide +kernel) (by decide +kernel)
    simp [h tr w hrun x hx] at hbad
  · intro h
    obtain ⟨tr, w, hrun, x, hx, hbad⟩ := StatusWorld.run_of_moves staleHideMoves
      (G := fun _ _ => True) (g := fun _ _ => true)
      (b := fun w w' => !decide (EndedKept w w')) (fun _ _ _ => trivial) (by decide +kernel)
      (by decide +kernel) (by decide +kernel)
    simp [h tr w hrun x hx] at hbad

end Paayatam
