/-
  Paayatam.Reviews.Windows

  Whose review the host can write.

  The settlement opens a pair for every real guest it takes from a seat to an
  attended evening, and nothing else opens one.  A pair is never removed and
  its deadline never moves, so until the deadline has passed only the half that
  is already written can close it.
-/

import Paayatam.Reviews.BlindRuns
import Paayatam.Booking.Grounded

namespace Paayatam

open Lib

namespace Reviews

/-! ## What opens a pair -/

/-- A guest the settlement of `e` marks as attended, and who is somebody to review. -/
def RealGuest (env : Env) (e : EventId) (p : ParticipantRow) : Prop :=
  p.eventId = e ∧ p.status = .ACCEPTED ∧ isSeedUser env p.userId = false

section Opening

variable {env : Env} {e : EventId} {ev : EventRow} {p : ParticipantRow} {s s' : Db}

theorem openForParticipant_windows {q : ParticipantId} {at' : Instant}
    (h : Runs (openForParticipant env q e at') s () s') :
    (∃ pair, s'.reviewPairs.find? q = some pair) ∧ ∀ k pair,
      s'.reviewPairs.find? k = some pair → s.reviewPairs.find? k = some pair ∨ k = q := by
  simp only [openForParticipant, runs_bind, runs_pure] at h
  obtain ⟨b, s₁, hins, -, rfl⟩ := h
  obtain ⟨t, rfl, ⟨-, ht⟩ | ⟨-, rfl, x, hx, hclash⟩⟩ := runs_insertRowOrIgnore hins
  · have hfind := Table.find?_of_insert ht
    refine ⟨⟨_, (hfind q).trans (if_pos rfl)⟩, fun k pair hk => ?_⟩
    by_cases hqk : q = k
    · exact .inr hqk.symm
    · exact .inl (((hfind k).trans (if_neg hqk)).symm.trans hk)
  · -- the pair was there: a new one holds no review, so nothing but its key can clash
    have hkey : x.participantId = q := by
      by_contra hne
      refine hclash ⟨hne, ?_⟩
      rw [Row.collide_comm]
      rfl
    refine ⟨⟨x, ?_⟩, fun k pair hk => .inl hk⟩
    show s.reviewPairs.find? q = some x
    rw [← hkey]
    exact Table.find?_of_mem hx

theorem settleGuest_windows (h : Runs (settleGuest env ev p) s () s') :
    (isSeedUser env p.userId = false → ∃ pair, s'.reviewPairs.find? p.id = some pair) ∧
    ∀ k pair, s'.reviewPairs.find? k = some pair → s.reviewPairs.find? k = some pair ∨
      (k = p.id ∧ isSeedUser env p.userId = false) := by
  simp only [settleGuest, runs_assertParticipantTransition_bind, runs_updateRow_bind, runs_ite,
    runs_pure] at h
  obtain ⟨-, y, hy, t, ht, ⟨hseed, -, rfl⟩ | ⟨hseed, h⟩⟩ := h
  · refine ⟨fun hreal => ?_, fun k pair hk => .inl hk⟩
    rw [hseed] at hreal
    cases hreal
  · rw [runs_bind] at h
    obtain ⟨_, s₁, hcredit, hopen⟩ := h
    have hcredit' := creditAttendance_trustOnly hcredit
    have hpairs : s₁.reviewPairs = s.reviewPairs := by rw [hcredit']; rfl
    obtain ⟨hthere, honly⟩ := openForParticipant_windows hopen
    refine ⟨fun _ => hthere, fun k pair hk => ?_⟩
    rcases honly k pair hk with hold | hnew
    · rw [hpairs] at hold
      exact .inl hold
    · exact .inr ⟨hnew, eq_false_of_ne_true hseed⟩

/-- The settled guests of a loop have their pairs, and only they have new ones. -/
structure WindowsOf (env : Env) (done : List ParticipantRow) (s s' : Db) : Prop where
  there : ∀ p ∈ done, isSeedUser env p.userId = false →
    ∃ pair, s'.reviewPairs.find? p.id = some pair
  only : ∀ k pair, s'.reviewPairs.find? k = some pair → s.reviewPairs.find? k = some pair ∨
    ∃ p ∈ done, p.id = k ∧ isSeedUser env p.userId = false

theorem settleGuests_windows {ps : List ParticipantRow}
    (h : Runs (ps.forM (settleGuest env ev)) s () s') : WindowsOf env ps s s' := by
  refine Runs.forM_induction (I := fun done s₁ => WindowsOf env done s s₁) ?_ ?_ h
  · intro done p rest s₁ s₂ _ hdone hrun
    have hkept : ReviewsKept s₁ s₂ := settleGuest_respects hrun
    obtain ⟨hthere, honly⟩ := settleGuest_windows hrun
    refine ⟨fun q hq hreal => ?_, fun k pair hk => ?_⟩
    · rcases List.mem_append.1 hq with hq | hq
      · obtain ⟨pair, hpair⟩ := hdone.there q hq hreal
        exact ⟨pair, hkept.pairs _ _ hpair⟩
      · obtain rfl := List.mem_singleton.1 hq
        exact hthere hreal
    · rcases honly k pair hk with hk | ⟨rfl, hreal⟩
      · rcases hdone.only k pair hk with hold | ⟨q, hq, hid, hreal⟩
        · exact .inl hold
        · exact .inr ⟨q, List.mem_append_left _ hq, hid, hreal⟩
      · exact .inr ⟨p, List.mem_append_right _ (List.mem_singleton.2 rfl), rfl, hreal⟩
  · exact ⟨fun p hp => absurd hp (by simp), fun k pair hk => .inl hk⟩

/-- A settlement does nothing, or completes the seated guests of its event and opens the
    pairs of the real ones. -/
theorem settleOne_windows {us : List UserId} (h : Runs (Paayatam.settleOne env e) s us s') :
    s' = s ∨ ∃ ev, s.events.find? e = some ev ∧
      (∀ p ∈ s.participants.rows, RealGuest env e p →
        ∃ pair, s'.reviewPairs.find? p.id = some pair) ∧
      ∀ k pair, s'.reviewPairs.find? k = some pair → s.reviewPairs.find? k = some pair ∨
        ∃ p ∈ s.participants.rows, p.id = k ∧ RealGuest env e p := by
  simp only [Paayatam.settleOne, runs_lockEvent_bind] at h
  cases hev : s.events.find? e with
  | none =>
      simp only [hev, runs_pure] at h
      exact .inl h.2
  | some ev =>
      have hid : ev.id = e := Table.key_of_find? hev
      simp only [hev, runs_ite, runs_pure, runs_findRows_bind] at h
      obtain ⟨-, -, rfl⟩ | ⟨-, h⟩ := h
      · exact .inl rfl
      · rw [runs_bind] at h
        obtain ⟨_, s₁, hloop, h⟩ := h
        rw [runs_pure] at h
        obtain ⟨-, rfl⟩ := h
        have hw := settleGuests_windows hloop
        refine .inr ⟨ev, rfl, fun p hp hguest => ?_, fun k pair hk => ?_⟩
        · obtain ⟨he, hst, hreal⟩ := hguest
          refine hw.there p (List.mem_filter.2 ⟨hp, ?_⟩) hreal
          simp [he, hst, hid]
        · rcases hw.only k pair hk with hold | ⟨p, hp, hpk, hreal⟩
          · exact .inl hold
          · obtain ⟨hp, hguest⟩ := List.mem_filter.1 hp
            simp only [Bool.and_eq_true, decide_eq_true_eq] at hguest
            exact .inr ⟨p, hp, hpk, hguest.1.trans hid, hguest.2, hreal⟩

/-- A guest the settlement found in his seat has attended after it. -/
theorem settleOne_completes {us : List UserId} (h : Runs (Paayatam.settleOne env e) s us s')
    (hp : p ∈ s.participants.rows) (he : p.eventId = e) (hst : p.status = .ACCEPTED) :
    s' = s ∨ s'.participants.find? p.id = some p.attendedNow := by
  rcases settleOne_effect h with hsame | heffect
  · exact .inl hsame
  · right
    cases heffect.change with
    | complete _ hall =>
        have hguest : isGuestOf e [.ACCEPTED] p = true :=
          isGuestOf_iff.2 ⟨he, by simp [hst]⟩
        have hmem := hall.self hp hguest
        exact Table.find?_of_mem hmem

end Opening

/-! ## What leaves the pairs alone -/

/-- No pair is opened or written. -/
def PairsKept (s s' : Db) : Prop := s'.reviewPairs = s.reviewPairs

instance : Std.Refl PairsKept := ⟨fun _ => rfl⟩

instance : IsTrans Db PairsKept := ⟨fun _ _ _ h₁ h₂ => Eq.trans h₂ h₁⟩

instance : AdmitsCases PairsKept where
  insertEvent := @fun _ => .writeTable fun _ _ => rfl
  updateEvent _ := .writeTable fun _ _ => rfl
  insertParticipant := @fun _ => .writeTable fun _ _ => rfl
  requestParticipant := @fun _ => .insertRowOrIgnore fun _ _ => rfl
  updateParticipant _ := .writeTable fun _ _ => rfl
  coins h := by
    rw [h]
    rfl
  trust _ s _ s' hrun := by
    rw [applyTrust_trustOnly hrun]
    rfl
  openCase _ := .writeTable fun _ _ => rfl
  countReports := @fun _ _ => .writeTable fun _ _ => rfl
  fileClaim := @fun _ => .insertRowOrIgnore fun _ _ => rfl
  emit := by
    intro m s u s' hrun
    rw [runs_emit.1 hrun]
    rfl
  updateCase := @fun _ _ => .writeTable fun _ _ => rfl
  updateCases := @fun _ _ => .writeTable fun _ _ => rfl

/-- The participation `p` ended attended. -/
def Completed (s : Db) (p : ParticipantId) : Prop :=
  ∃ q, s.participants.find? p = some q ∧ q.status = .COMPLETED

/-- An attended participation is so for good. -/
theorem Completed.step {w w' : World} {c : Call} {p : ParticipantId} (h : Completed w.db p)
    (hstep : w.Step c w') : Completed w'.db p := by
  obtain ⟨q, hq, hst⟩ := h
  have hid : q.id = p := Table.key_of_find? hq
  have hchange : ∃ k, Effect c.env k w.db w'.db := by
    rcases World.step_effect hstep with heffect | ⟨k, -, heffect⟩
    · exact ⟨_, heffect⟩
    · exact ⟨k, heffect⟩
  obtain ⟨k, heffect⟩ := hchange
  obtain ⟨q', hq', hmove⟩ := heffect.change.guest_fate (Table.mem_of_find? hq)
  have hid' : q'.id = p := hmove.keeps.1.trans hid
  refine ⟨q', ?_, ?_⟩
  · rw [← hid']
    exact Table.find?_of_mem hq'
  · rcases hmove.edge with hsame | hedge
    · exact hsame.trans hst
    · simp [hst, canTransition, PARTICIPANT_TRANSITIONS] at hedge

/-! ## What a call writes to a pair -/

/-- The pair's window was closed by the sweep. -/
def isExpired (status : ReviewPairStatus) : Bool :=
  decide (status = .EXPIRED_PARTIAL) || decide (status = .EXPIRED_EMPTY)

/-- What the end of a call does to the pairs: it writes one, keeps its deadline, and closes
    it only when the deadline it read has passed. -/
inductive PairTurn (f : InFlight) (s s' : Db) : Prop
  | kept (h : s'.reviewPairs = s.reviewPairs)
  | written {pair pair' : ReviewPairRow} (found : s.reviewPairs.find? pair.participantId = some pair)
      (pairs : ∀ q, s'.reviewPairs.find? q =
        if pair.participantId = q then some pair' else s.reviewPairs.find? q)
      (deadline : pair'.deadlineAt = pair.deadlineAt)
      (expired : isExpired pair'.status = true → ∃ read, f.work = .settleOne read ∧
        read.participantId = pair.participantId ∧ read.deadlineAt ≤ f.env.now)

section Turns

variable {f : InFlight} {s s' : Db}

/-- An expiry that does anything is due. -/
theorem finishSettle_due {env : Env} {read : ReviewPairRow} {stale : List ReviewRow}
    {o : Option ReviewPairStatus} (h : Runs (finishSettle env read stale) s o s') :
    s' = s ∨ read.deadlineAt ≤ env.now := by
  rw [finishSettle, runs_ite] at h
  rcases h with ⟨-, h⟩ | ⟨-, h⟩
  · exact .inl (runs_pure.1 h).2
  · rw [runs_ite] at h
    rcases h with ⟨-, h⟩ | ⟨hdue, -⟩
    · exact .inl (runs_pure.1 h).2
    · exact .inr (Int.not_lt.1 hdue)

theorem written_deadlineAt {env : Env} {context : Writable} {k : ReviewId} {pair : ReviewPairRow} :
    (written env context k pair).deadlineAt = pair.deadlineAt := by
  cases hrole : context.role <;> simp [written, fillSlot, hrole]

theorem not_expired_written {env : Env} {context : Writable} {k : ReviewId}
    {pair : ReviewPairRow} : isExpired (written env context k pair).status = false := by
  rw [written_status]
  cases context.pairStatus <;> rfl

/-- The end of a call leaves the participations and the events alone. -/
structure Beyond (f : InFlight) (s s' : Db) : Prop where
  turn : PairTurn f s s'
  participants : s'.participants = s.participants
  events : s'.events = s.events

theorem finish_beyond (h : Runs (f.work.finish f.env f.stale) s () s') : Beyond f s s' := by
  cases hwork : f.work with
  | submit u input context =>
      rw [hwork] at h
      obtain ⟨own, hrun⟩ := runs_drop.1 h
      obtain ⟨review, pair, -, -, hw⟩ := (finishSubmit_spec hrun).write
      refine ⟨.written hw.found hw.pairs written_deadlineAt fun hexp => ?_, hw.participants,
        hw.events⟩
      rw [not_expired_written] at hexp
      cases hexp
  | edit input read =>
      rw [hwork] at h
      obtain ⟨own, hrun⟩ := runs_drop.1 h
      have hedit := finishEdit_spec hrun
      exact ⟨.kept hedit.pairs, hedit.participants, hedit.events⟩
  | settleOne read =>
      rw [hwork] at h
      obtain ⟨o, hrun⟩ := runs_drop.1 h
      rcases finishSettle_spec hrun with hsame | ⟨-, pair, hp, hw⟩
      · rw [hsame]
        exact ⟨.kept rfl, rfl, rfl⟩
      · rcases finishSettle_due hrun with hsame | hdue
        · rw [hsame]
          exact ⟨.kept rfl, rfl, rfl⟩
        · exact ⟨.written hw.found hw.pairs rfl fun _ => ⟨read, hwork, hp.symm, hdue⟩,
            hw.participants, hw.events⟩

end Turns

/-! ## One step -/

/-- The time of the world. -/
def ReviewWorld.clock (w : ReviewWorld) : Instant := w.shared.world.clock

/-- The step is the settlement that takes the real guest of `p` from the seat to an attended
    evening. -/
def SettlesGuest (x : ReviewWorld × ReviewMove × ReviewWorld) (p : ParticipantId) : Prop :=
  ∃ env e q, x.2.1 = .call ⟨env, .settleOne e⟩ ∧ x.1.db.participants.find? p = some q ∧
    RealGuest env e q ∧ Completed x.2.2.db p

/-- The step settles the seed guest of `p`. -/
def SettlesSeed (x : ReviewWorld × ReviewMove × ReviewWorld) (p : ParticipantId) : Prop :=
  ∃ env e q, x.2.1 = .call ⟨env, .settleOne e⟩ ∧ x.1.db.participants.find? p = some q ∧
    q.status = .ACCEPTED ∧ isSeedUser env q.userId = true ∧ Completed x.2.2.db p

/-- Between moves: a pair is closed by the sweep only after its deadline, no call in flight
    is ahead of the clock, and a sweep in flight has the deadline of its pair. -/
structure Timely (w : ReviewWorld) : Prop where
  expired : ∀ p pair, w.pair p = some pair → isExpired pair.status = true →
    pair.deadlineAt ≤ w.clock
  now : ∀ i f, w.locals i = some f → f.env.now ≤ w.clock
  read : ∀ i f read, w.locals i = some f → f.work = .settleOne read →
    ∃ pair, w.pair read.participantId = some pair ∧ pair.deadlineAt = read.deadlineAt

/-- What one move does to the pairs. -/
structure PairStep (w : ReviewWorld) (m : ReviewMove) (w' : ReviewWorld) : Prop where
  clock : w.clock ≤ w'.clock
  roles : RolesKept w.db w'.db
  completed : ∀ p, Completed w.db p → Completed w'.db p
  persists : ∀ p pair, w.pair p = some pair →
    ∃ pair', w'.pair p = some pair' ∧ pair'.deadlineAt = pair.deadlineAt
  expired : ∀ p pair, w'.pair p = some pair → isExpired pair.status = true →
    pair.deadlineAt ≤ w'.clock
  only : ∀ p pair, w'.pair p = some pair → (∃ pair₀, w.pair p = some pair₀) ∨
    SettlesGuest (w, m, w') p
  opened : ∀ p, SettlesGuest (w, m, w') p →
    (∃ pair, w'.pair p = some pair) ∧ ∃ host, roleIn w'.db p host = some .HOST

section Steps

variable {w w' : ReviewWorld} {m : ReviewMove}

/-- A move that leaves the database: nobody in it is both seated and attended. -/
theorem PairStep.still (ht : Timely w) (hdb : w'.db = w.db) (hclock : w.clock ≤ w'.clock) :
    PairStep w m w' where
  clock := hclock
  roles := by
    rw [hdb]
    exact fun _ _ _ h => h
  completed p h := by rwa [hdb]
  persists p pair h := ⟨pair, by rw [ReviewWorld.pair, hdb]; exact h, rfl⟩
  expired p pair h hexp := by
    rw [ReviewWorld.pair, hdb] at h
    exact (ht.expired p pair h hexp).trans hclock
  only p pair h := by
    rw [ReviewWorld.pair, hdb] at h
    exact .inl ⟨pair, h⟩
  opened p h := by
    obtain ⟨env, e, q, -, hq, hreal, q', hq', hst⟩ := h
    change w'.db.participants.find? p = some q' at hq'
    rw [hdb] at hq'
    obtain rfl := Option.some.inj (hq.symm.trans hq')
    rw [hreal.2.1] at hst
    cases hst

/-- A call that does not settle attendance. -/
theorem PairStep.unopened (ht : Timely w) {c : Call} (hopens : ∀ e, c.op ≠ .settleOne e)
    (hpairs : w'.db.reviewPairs = w.db.reviewPairs) (hclock : w.clock ≤ w'.clock)
    (hroles : RolesKept w.db w'.db) (hdone : ∀ p, Completed w.db p → Completed w'.db p) :
    PairStep w (.call c) w' where
  clock := hclock
  roles := hroles
  completed := hdone
  persists p pair h := ⟨pair, by rw [ReviewWorld.pair, hpairs]; exact h, rfl⟩
  expired p pair h hexp := by
    rw [ReviewWorld.pair, hpairs] at h
    exact (ht.expired p pair h hexp).trans hclock
  only p pair h := by
    rw [ReviewWorld.pair, hpairs] at h
    exact .inl ⟨pair, h⟩
  opened p h := by
    obtain ⟨env, e, q, hcall, -⟩ := h
    have hc := ReviewMove.call.inj hcall
    exact absurd (congrArg Call.op hc) (hopens e)

/-- The settlement of one event. -/
theorem PairStep.settles (ht : Timely w) {env : Env} {e : EventId} {us : List UserId}
    (hrun : Runs (Paayatam.settleOne env e) w.db us w'.db) (hclock : w.clock ≤ w'.clock)
    (hkept : ReviewsKept w.db w'.db) (hdone : ∀ p, Completed w.db p → Completed w'.db p) :
    PairStep w (.call ⟨env, .settleOne e⟩) w' where
  clock := hclock
  roles := hkept.roles
  completed := hdone
  persists p pair h := ⟨pair, hkept.pairs p pair h, rfl⟩
  expired p pair h hexp := by
    rcases hkept.opened p pair h with hold | hnew
    · exact (ht.expired p pair hold hexp).trans hclock
    · rw [hnew] at hexp
      cases hexp
  only p pair h := by
    rcases settleOne_windows hrun with hsame | ⟨ev, -, -, honly⟩
    · rw [ReviewWorld.pair, hsame] at h
      exact .inl ⟨pair, h⟩
    · rcases honly p pair h with hold | ⟨q, hq, rfl, hreal⟩
      · exact .inl ⟨pair, hold⟩
      · rcases settleOne_completes hrun hq hreal.1 hreal.2.1 with hsame | hcompleted
        · rw [ReviewWorld.pair, hsame] at h
          exact .inl ⟨pair, h⟩
        · exact .inr ⟨env, e, q, rfl, Table.find?_of_mem hq, hreal, _, hcompleted, rfl⟩
  opened p h := by
    obtain ⟨env', e', q, hcall, hq, hreal, q', hq', hst⟩ := h
    obtain ⟨rfl, hop⟩ := Call.mk.inj (ReviewMove.call.inj hcall)
    obtain rfl := Op.settleOne.inj hop
    have hid : q.id = p := Table.key_of_find? hq
    rcases settleOne_windows hrun with hsame | ⟨ev, hev, hthere, -⟩
    · -- nothing was settled, so the guest is still in the seat
      change w'.db.participants.find? p = some q' at hq'
      rw [hsame] at hq'
      obtain rfl := Option.some.inj (hq.symm.trans hq')
      rw [hreal.2.1] at hst
      cases hst
    · refine ⟨?_, ev.hostUserId, hkept.roles _ _ _ (roleIn_eq_some.2 ⟨q, hq, ev, ?_, if_pos rfl⟩)⟩
      · obtain ⟨pair, hpair⟩ := hthere q (Table.mem_of_find? hq) hreal
        rw [hid] at hpair
        exact ⟨pair, hpair⟩
      · rw [hreal.1]
        exact hev

/-- The end of a call of the service. -/
theorem PairStep.finished {i : Nat} {f : InFlight} (ht : Timely w) (hf : w.locals i = some f)
    (h : Beyond f w.db w'.db) (hclock : w.clock ≤ w'.clock) : PairStep w (.finish i) w' where
  clock := hclock
  roles := rolesKept_of_eq h.participants h.events
  completed p hp := by
    obtain ⟨q, hq, hst⟩ := hp
    exact ⟨q, by rw [h.participants]; exact hq, hst⟩
  persists p pair hp := by
    cases h.turn with
    | kept hsame => exact ⟨pair, by rw [ReviewWorld.pair, hsame]; exact hp, rfl⟩
    | @written old new hfound hpairs hdeadline hexpired =>
        have hnew : w'.pair p = if old.participantId = p then some new else w.pair p := hpairs p
        by_cases hk : old.participantId = p
        · rw [if_pos hk] at hnew
          have hold : w.pair p = some old := by
            rw [← hk]
            exact hfound
          obtain rfl := Option.some.inj (hold.symm.trans hp)
          exact ⟨new, hnew, hdeadline⟩
        · rw [if_neg hk] at hnew
          exact ⟨pair, hnew.trans hp, rfl⟩
  expired p pair hp hexp := by
    cases h.turn with
    | kept hsame =>
        rw [ReviewWorld.pair, hsame] at hp
        exact (ht.expired p pair hp hexp).trans hclock
    | @written old new hfound hpairs hdeadline hexpired =>
        have hnew : w'.pair p = if old.participantId = p then some new else w.pair p := hpairs p
        by_cases hk : old.participantId = p
        · rw [if_pos hk] at hnew
          obtain rfl := Option.some.inj (hnew.symm.trans hp)
          obtain ⟨read, hwork, hread, hdue⟩ := hexpired hexp
          obtain ⟨held, hheld, hsame⟩ := ht.read i f read hf hwork
          have hold : w.pair read.participantId = some old := by
            rw [hread]
            exact hfound
          obtain rfl := Option.some.inj (hheld.symm.trans hold)
          have hnow := ht.now i f hf
          calc new.deadlineAt = read.deadlineAt := hdeadline.trans hsame
            _ ≤ f.env.now := hdue
            _ ≤ w.clock := hnow
            _ ≤ w'.clock := hclock
        · rw [if_neg hk] at hnew
          exact (ht.expired p pair (hnew.symm.trans hp) hexp).trans hclock
  only p pair hp := by
    left
    cases h.turn with
    | kept hsame =>
        rw [ReviewWorld.pair, hsame] at hp
        exact ⟨pair, hp⟩
    | @written old new hfound hpairs hdeadline hexpired =>
        have hnew : w'.pair p = if old.participantId = p then some new else w.pair p := hpairs p
        by_cases hk : old.participantId = p
        · rw [← hk]
          exact ⟨old, hfound⟩
        · rw [if_neg hk] at hnew
          exact ⟨pair, hnew.symm.trans hp⟩
  opened p hp := by
    obtain ⟨env, e, q, hcall, -⟩ := hp
    cases hcall

theorem pairStep_of_call {c : Call} (ht : Timely w) (h : w.Step (.call c) w') :
    PairStep w (.call c) w' := by
  simp only [ReviewWorld.Step, ReviewWorld.exec] at h
  obtain ⟨s, hstep, rfl⟩ := Option.map_eq_some_iff.1 h
  have hdone : ∀ p, Completed w.shared.world.db p → Completed s.db p :=
    fun p hp => hp.step hstep
  obtain ⟨hnow, -, rfl⟩ := World.step_iff.1 hstep
  have hkept : ReviewsKept w.shared.world.db (w.shared.world.after c).db :=
    Respects.commit (show Respects ReviewsKept (c.op.act c.env) from Op.respects) w.shared.world.db
  by_cases hopens : ∃ e, c.op = .settleOne e
  · obtain ⟨e, hop⟩ := hopens
    obtain ⟨env, op⟩ := c
    obtain rfl : op = .settleOne e := hop
    rcases commit_cases (drop (Paayatam.settleOne env e)) w.shared.world.db with ⟨_, hrun⟩ | hsame
    · obtain ⟨us, hrun⟩ := runs_drop.1 hrun
      exact .settles ht hrun hnow hkept hdone
    · -- the transaction failed
      exact .still ht hsame hnow
  · have hpairs : PairsKept w.shared.world.db (w.shared.world.after c).db :=
      Respects.commit (Op.unopened_respects fun e he => hopens ⟨e, he⟩) w.shared.world.db
    exact .unopened ht (fun e he => hopens ⟨e, he⟩) hpairs hnow hkept.roles hdone

/-- Calls that stay in flight stay timely. -/
theorem PairStep.timely (h : PairStep w m w') (ht : Timely w)
    (hlocals : ∀ i f, w'.locals i = some f → (∃ g, w.locals i = some g ∧ g.env = f.env ∧
        g.work = f.work) ∨ (f.env.now ≤ w'.clock ∧ ∀ read, f.work = .settleOne read →
          ∃ pair, w'.pair read.participantId = some pair ∧ pair.deadlineAt = read.deadlineAt)) :
    Timely w' where
  expired := h.expired
  now i f hf := by
    rcases hlocals i f hf with ⟨g, hg, henv, -⟩ | ⟨hnow, -⟩
    · rw [← henv]
      exact (ht.now i g hg).trans h.clock
    · exact hnow
  read i f read hf hwork := by
    rcases hlocals i f hf with ⟨g, hg, -, hsame⟩ | ⟨-, hread⟩
    · obtain ⟨pair, hpair, hdeadline⟩ := ht.read i g read hg (hsame.trans hwork)
      obtain ⟨pair', hpair', hdeadline'⟩ := h.persists _ _ hpair
      exact ⟨pair', hpair', hdeadline'.trans hdeadline⟩
    · exact hread read hwork

/-- A sweep reads the pair it is about. -/
theorem load_settles {env : Env} {request : Request} {read : ReviewPairRow} {s s' : Db}
    (h : Runs (request.load env) s (.settleOne read) s') :
    s.reviewPairs.find? read.participantId = some read := by
  cases request with
  | submit u p input =>
      simp only [Request.load, assertRating, runs_guardTx_bind] at h
      rw [runs_bind] at h
      obtain ⟨-, context, s₁, -, h⟩ := h
      cases (runs_pure.1 h).1
  | edit u p input =>
      simp only [Request.load, assertRating, runs_guardTx_bind] at h
      rw [runs_bind] at h
      obtain ⟨-, review, s₁, -, h⟩ := h
      cases (runs_pure.1 h).1
  | settleOne p =>
      simp only [Request.load, runs_findRow_bind, runs_orThrow_bind, table_reviewPairs] at h
      obtain ⟨pair, hpair, h⟩ := h
      obtain rfl := ReviewWork.settleOne.inj (runs_pure.1 h).1
      have hkey : read.participantId = p := Table.key_of_find? hpair
      rw [hkey]
      exact hpair

theorem step_windows (ht : Timely w) (h : ReviewWorld.Step w m w') :
    PairStep w m w' ∧ Timely w' := by
  cases m with
  | call c =>
      have hpairs := pairStep_of_call ht h
      simp only [ReviewWorld.Step, ReviewWorld.exec] at h
      obtain ⟨s, -, hw'⟩ := Option.map_eq_some_iff.1 h
      refine ⟨hpairs, hpairs.timely ht fun i f hf => .inl ⟨f, ?_, rfl, rfl⟩⟩
      rw [← hw'] at hf
      exact hf
  | read i env request =>
      simp only [ReviewWorld.Step, ReviewWorld.exec] at h
      split at h
      · next work s₁ hfree hload =>
          split at h
          · next hnow =>
              have hw' := Option.some.inj h
              have hdb : w'.db = w.db := by rw [← hw']; rfl
              have hclock : w'.clock = env.now := by rw [← hw']; rfl
              have hpairs : PairStep w (.read i env request) w' :=
                .still ht hdb (by rw [hclock]; exact hnow)
              refine ⟨hpairs, hpairs.timely ht fun j f hf => ?_⟩
              rw [← hw'] at hf
              by_cases hj : j = i
              · subst hj
                rw [Threads.set_locals_self] at hf
                obtain rfl := Option.some.inj hf
                refine .inr ⟨Int.le_of_eq hclock.symm, fun read hwork => ⟨read, ?_, rfl⟩⟩
                obtain rfl : work = .settleOne read := hwork
                rw [ReviewWorld.pair, hdb]
                exact load_settles hload
              · rw [Threads.set_locals_ne hj] at hf
                exact .inl ⟨f, hf, rfl, rfl⟩
          · cases h
      · cases h
  | lock i =>
      simp only [ReviewWorld.Step, ReviewWorld.exec] at h
      split at h
      · next env work hf =>
          split at h
          · next p hp =>
              split at h
              · have hw' := Option.some.inj h
                have hdb : w'.db = w.db := by rw [← hw']; rfl
                have hclock : w'.clock = w.clock := by rw [← hw']; rfl
                have hpairs : PairStep w (.lock i) w' := .still ht hdb (Int.le_of_eq hclock.symm)
                refine ⟨hpairs, hpairs.timely ht fun j g hg => .inl ?_⟩
                rw [← hw'] at hg
                by_cases hj : j = i
                · subst hj
                  rw [Threads.set_locals_self] at hg
                  obtain rfl := Option.some.inj hg
                  exact ⟨_, hf, rfl, rfl⟩
                · rw [Threads.set_locals_ne hj] at hg
                  exact ⟨g, hg, rfl, rfl⟩
              · cases h
          · cases h
      · cases h
  | finish i =>
      simp only [ReviewWorld.Step, ReviewWorld.exec] at h
      split at h
      · next f hf =>
          split at h
          · have hw' := Option.some.inj h
            have hworld : w'.shared.world =
                { w.shared.world with db := commit (f.work.finish f.env f.stale) w.db } := by
              rw [← hw']
              exact leave_world
            have hclock : w.clock ≤ w'.clock := by
              rw [ReviewWorld.clock, ReviewWorld.clock, hworld]
            have hdb : w'.db = commit (f.work.finish f.env f.stale) w.db :=
              congrArg World.db hworld
            have hpairs : PairStep w (.finish i) w' := by
              rcases commit_cases (f.work.finish f.env f.stale) w.db with ⟨_, hrun⟩ | hsame
              · rw [← hdb] at hrun
                exact .finished ht hf (finish_beyond hrun) hclock
              · exact .still ht (hdb.trans hsame) hclock
            refine ⟨hpairs, hpairs.timely ht fun j g hg => .inl ⟨g, ?_, rfl, rfl⟩⟩
            have hj : j ≠ i := by
              rintro rfl
              rw [← hw', Threads.set_locals_self] at hg
              cases hg
            rw [← hw', Threads.set_locals_ne hj] at hg
            exact hg
          · cases h
      · cases h
  | crash i =>
      simp only [ReviewWorld.Step, ReviewWorld.exec] at h
      split at h
      · next f hf =>
          have hw' := Option.some.inj h
          have hworld : w'.shared.world = w.shared.world := by
            rw [← hw']
            exact leave_world
          have hclock : w.clock ≤ w'.clock := by
            have hsame : w'.clock = w.clock := congrArg World.clock hworld
            rw [hsame]
          have hpairs : PairStep w (.crash i) w' := .still ht (congrArg World.db hworld) hclock
          refine ⟨hpairs, hpairs.timely ht fun j g hg => .inl ⟨g, ?_, rfl, rfl⟩⟩
          have hj : j ≠ i := by
            rintro rfl
            rw [← hw', Threads.set_locals_self] at hg
            cases hg
          rw [← hw', Threads.set_locals_ne hj] at hg
          exact hg
      · cases h

end Steps

/-! ## Runs -/

section Runs

variable {tr : List (ReviewWorld × ReviewMove × ReviewWorld)} {w w' : ReviewWorld}

/-- The settled guests with their pairs and without, and nobody else with one. -/
structure PairsOpened (tr : List (ReviewWorld × ReviewMove × ReviewWorld)) (w : ReviewWorld) :
    Prop where
  opened : ∀ x ∈ tr, ∀ p, SettlesGuest x p →
    (∃ pair, w.pair p = some pair) ∧ ∃ host, roleIn w.db p host = some .HOST
  seeds : ∀ x ∈ tr, ∀ p, SettlesSeed x p → w.pair p = none ∧ Completed w.db p
  only : ∀ p pair, w.pair p = some pair → Completed w.db p

/-- Somebody in his seat has not attended yet. -/
theorem not_completed_of_seated {s : Db} {p : ParticipantId} {q : ParticipantRow}
    (hq : s.participants.find? p = some q) (hst : q.status = .ACCEPTED) : ¬ Completed s p := by
  rintro ⟨q', hq', hst'⟩
  obtain rfl := Option.some.inj (hq.symm.trans hq')
  rw [hst] at hst'
  cases hst'

theorem PairsOpened.step {m : ReviewMove} (h : PairsOpened tr w) (hstep : PairStep w m w') :
    PairsOpened (tr ++ [(w, m, w')]) w' where
  opened x hx p hsettles := by
    rcases List.mem_append.1 hx with hx | hx
    · obtain ⟨⟨pair, hpair⟩, host, hrole⟩ := h.opened x hx p hsettles
      obtain ⟨pair', hpair', -⟩ := hstep.persists p pair hpair
      exact ⟨⟨pair', hpair'⟩, host, hstep.roles _ _ _ hrole⟩
    · obtain rfl := List.mem_singleton.1 hx
      exact hstep.opened p hsettles
  seeds x hx p hseed := by
    rcases List.mem_append.1 hx with hx | hx
    · obtain ⟨hnone, hdone⟩ := h.seeds x hx p hseed
      refine ⟨Option.eq_none_iff_forall_ne_some.2 fun pair hpair => ?_, hstep.completed p hdone⟩
      rcases hstep.only p pair hpair with ⟨pair₀, hold⟩ | ⟨env, e, q, -, hq, hreal, -⟩
      · rw [hnone] at hold
        cases hold
      · exact not_completed_of_seated hq hreal.2.1 hdone
    · obtain rfl := List.mem_singleton.1 hx
      obtain ⟨env, e, q, hm, hq, hst, hseeded, hdone⟩ := hseed
      refine ⟨Option.eq_none_iff_forall_ne_some.2 fun pair hpair => ?_, hdone⟩
      rcases hstep.only p pair hpair with ⟨pair₀, hold⟩ | ⟨env', e', q', hm', hq', hreal, -⟩
      · exact not_completed_of_seated hq hst (h.only p pair₀ hold)
      · obtain ⟨rfl, -⟩ := Call.mk.inj (ReviewMove.call.inj (hm.symm.trans hm'))
        obtain rfl := Option.some.inj (hq.symm.trans hq')
        have hreal' := hreal.2.2
        rw [hseeded] at hreal'
        cases hreal'
  only p pair hpair := by
    rcases hstep.only p pair hpair with ⟨pair₀, hold⟩ | hsettles
    · exact hstep.completed p (h.only p pair₀ hold)
    · obtain ⟨env, e, q, -, -, -, hdone⟩ := hsettles
      exact hdone

theorem pairsOpened_of_run
    (h : Lib.Run ReviewWorld.Init ReviewWorld.Step (fun _ _ => True) tr w) :
    PairsOpened tr w ∧ Timely w := by
  induction h with
  | @start w hinit =>
      obtain ⟨hworld, -, hidle⟩ := hinit
      have hnone : ∀ p, w.pair p = none := by
        intro p
        rw [ReviewWorld.pair, ReviewWorld.db, hworld.1]
        rfl
      refine ⟨⟨fun x hx => absurd hx (by simp), fun x hx => absurd hx (by simp),
        fun p pair hpair => ?_⟩, fun p pair hpair => ?_, fun i f hf => ?_, fun i f read hf => ?_⟩
      · rw [hnone p] at hpair
        cases hpair
      · rw [hnone p] at hpair
        cases hpair
      · rw [hidle i] at hf
        cases hf
      · rw [hidle i] at hf
        cases hf
  | next hrun _ hstep ih =>
      obtain ⟨hopened, ht⟩ := ih
      obtain ⟨hpairs, ht'⟩ := step_windows ht hstep
      exact ⟨hopened.step hpairs, ht'⟩

/-- The host may write his half of the pair `p`: `submit` lets him in from the host's side,
    and there is no review of his to refuse a second one. -/
structure HostCanWrite (env : Env) (s : Db) (p : ParticipantId) (host : UserId) : Prop where
  writable : ∃ context, Runs (loadWritable env host p) s context s ∧
    context.participantId = p ∧ context.role = .HOST
  alone : ∀ r ∈ s.reviews.rows, r.participantId = p → r.reviewerUserId ≠ host

/-- A pair that no sweep has closed takes the host's half while it is free. -/
theorem hostCanWrite {env : Env} {s : Db} {p : ParticipantId} {pair : ReviewPairRow}
    {host : UserId} (hb : Blind s) (hpair : s.reviewPairs.find? p = some pair)
    (hrole : roleIn s p host = some .HOST) (hlive : isExpired pair.status = false)
    (hopens : pair.opensAt ≤ env.now) (hdeadline : env.now < pair.deadlineAt)
    (hfree : pair.hostReviewId = none) : HostCanWrite env s p host := by
  have hstatus : pair.status = .PENDING ∨ pair.status = .PARTIAL := by
    cases hst : pair.status with
    | PENDING => exact .inl rfl
    | PARTIAL => exact .inr rfl
    | REVEALED =>
        have hboth : (slot pair .HOST).isSome = true := both_of_revealed (pair_constraints hpair) hst
        simp [slot, hfree] at hboth
    | EXPIRED_PARTIAL | EXPIRED_EMPTY =>
        rw [hst] at hlive
        cases hlive
  refine ⟨?_, fun r hr hrp hrhost => ?_⟩
  · obtain ⟨q, hq, ev, hev, hside⟩ := roleIn_eq_some.1 hrole
    have hid : q.id = p := Table.key_of_find? hq
    have hhost : ev.hostUserId = host := by
      by_contra hne
      rw [if_neg hne] at hside
      split at hside <;> cases hside
    refine ⟨{ participantId := q.id, eventId := q.eventId, pairStatus := pair.status
              revieweeUserId := q.userId, role := .HOST }, ?_, hid, rfl⟩
    simp only [loadWritable, runs_findRow_bind, runs_orThrow_bind, runs_guardTx_bind, runs_pure,
      table_participants, table_events, table_reviewPairs]
    exact ⟨q, hq, ev, hev, .inl (by simp [hhost]), pair, hpair, ⟨hopens, hdeadline⟩, hstatus,
      by simp [hhost], trivial⟩
  · obtain ⟨pair', role, hpair', hslot⟩ := hb.placed (Table.find?_of_mem hr)
    rw [hrp] at hpair'
    obtain rfl := Option.some.inj (hpair.symm.trans hpair')
    obtain ⟨r', hr', -, hrole'⟩ := hb.slots hpair hslot
    have hrow : s.reviews.find? r.id = some r := Table.find?_of_mem hr
    obtain rfl := Option.some.inj (hrow.symm.trans hr')
    rw [hrhost] at hrole'
    obtain rfl := Option.some.inj (hrole.symm.trans hrole')
    rw [slot, hfree] at hslot
    cases hslot

/-- What the host may count on after the moves `tr`. -/
structure GuestsReviewable (tr : List (ReviewWorld × ReviewMove × ReviewWorld)) (w : ReviewWorld) :
    Prop where
  /-- Every real guest the settlement marked as attended has a pair, and the host can write
      his half as long as its window is open and the half is free. -/
  settled : ∀ x ∈ tr, ∀ p, SettlesGuest x p → ∃ pair host, w.pair p = some pair ∧
    roleIn w.db p host = some .HOST ∧ ∀ env : Env, w.clock ≤ env.now → pair.opensAt ≤ env.now →
      env.now < pair.deadlineAt → pair.hostReviewId = none → HostCanWrite env w.db p host
  /-- A seed guest has none, however late the settlement finds the seat. -/
  seeds : ∀ x ∈ tr, ∀ p, SettlesSeed x p → w.pair p = none
  /-- Nobody who did not attend has one. -/
  only : ∀ p pair, w.pair p = some pair → Completed w.db p

/-- In every run, the real guests whose attendance was settled have a pair, in which the host
    can write his half until it is written or the deadline has passed; seed guests have none,
    and nobody has who did not attend. -/
theorem settled_guests_reviewable
    (h : Lib.Run ReviewWorld.Init ReviewWorld.Step (fun _ _ => True) tr w) :
    GuestsReviewable tr w := by
  obtain ⟨hpairs, ht⟩ := pairsOpened_of_run h
  have hblind := (sound_of_reach h.reach).blind
  refine ⟨fun x hx p hsettles => ?_, fun x hx p hseed => (hpairs.seeds x hx p hseed).1, hpairs.only⟩
  obtain ⟨⟨pair, hpair⟩, host, hrole⟩ := hpairs.opened x hx p hsettles
  refine ⟨pair, host, hpair, hrole, fun env hnow hopens hdeadline hfree => ?_⟩
  have hlive : isExpired pair.status = false := by
    by_contra hexp
    have hdue := ht.expired p pair hpair (eq_true_of_ne_false hexp)
    exact Int.not_lt.2 (hdue.trans hnow) hdeadline
  exact hostCanWrite hblind hpair hrole hlive hopens hdeadline hfree

end Runs

theorem settled_guests_reviewable_one : ∃ tr w, GuestsReviewable tr w ∧
    ∃ pair, w.pair 21 = some pair ∧ pair.status = .PENDING := by
  have hplay : (runList ReviewWorld.exec ReviewWorld.initial attendedMoves).any (fun w =>
      (w.pair 21).any fun pair => decide (pair.status = .PENDING)) = true := by decide +kernel
  obtain ⟨w, hw, hpair⟩ := (Option.any_eq_true _ _).1 hplay
  obtain ⟨pair, hpair, hst⟩ := (Option.any_eq_true _ _).1 hpair
  have hrun := run_of_runList (G := fun _ _ => True) (g := fun _ _ => true)
    (fun _ _ _ h => h) (fun _ _ _ => trivial) (.start ReviewWorld.init_initial)
    (by decide +kernel) hw
  exact ⟨_, w, settled_guests_reviewable hrun, pair, hpair, of_decide_eq_true hst⟩

/-- `demoEnv` with the user 3 a seed. -/
def seedEnv (hours : Int) : Env :=
  { demoEnv hours with user := fun u => some { demoUser with isSeed := decide (u = 3) } }

/-- One guest was marked absent and wins the dispute, the other is a seed that was still
    there when the evening was settled. -/
def unpairedMoves : List ReviewMove :=
  [callAt 0 (.moveCoins (onboardingReward 1 100)), callAt 0 (.moveCoins (onboardingReward 2 100)),
   callAt 1 (.create 1 (demoEvent 100 3) false 7), callAt 2 (.join 2 7 21),
   callAt 3 (.accept 1 21), callAt 4 (.seatSeedParticipant 7 3 22), callAt 103 (.retireOne 7),
   callAt 104 (.markNoShow 1 21), callAt 105 (.dispute 2 21 "I was there the whole evening."),
   callAt 106 (.decideClaim 9 true 1 true "The guest was there."), callAt 121 .scanAttendance,
   ⟨seedEnv 121, .settleOne 7⟩].map .call

/-- Both guests of a completed event count as attended, and the host can review neither. -/
theorem attended_guest_unpaired : ∃ w, Reachable ReviewWorld.Init ReviewWorld.Step w ∧
    (∃ ev, w.db.events.find? 7 = some ev ∧ ev.status = .COMPLETED) ∧
    ∀ p ∈ [21, 22], (∃ q, w.db.participants.find? p = some q ∧ q.eventId = 7 ∧
      q.status = .COMPLETED ∧ q.attended = some true) ∧ w.pair p = none := by
  have hplay : (runList ReviewWorld.exec ReviewWorld.initial unpairedMoves).any (fun w =>
      (w.db.events.find? 7).any (fun ev => decide (ev.status = .COMPLETED)) &&
      [21, 22].all fun p => (w.db.participants.find? p).any (fun q => decide (q.eventId = 7 ∧
        q.status = .COMPLETED ∧ q.attended = some true)) && (w.pair p).isNone) = true := by
    decide +kernel
  obtain ⟨w, hw, hplay⟩ := (Option.any_eq_true _ _).1 hplay
  rw [Bool.and_eq_true, List.all_eq_true] at hplay
  obtain ⟨hevent, hguests⟩ := hplay
  obtain ⟨ev, hev, hst⟩ := (Option.any_eq_true _ _).1 hevent
  refine ⟨w, reachable_of_runList (fun _ _ _ h => h) (.start ReviewWorld.init_initial) hw,
    ⟨ev, hev, of_decide_eq_true hst⟩, fun p hp => ?_⟩
  have hp' := hguests p hp
  rw [Bool.and_eq_true] at hp'
  obtain ⟨q, hq, hrow⟩ := (Option.any_eq_true _ _).1 hp'.1
  exact ⟨⟨q, hq, of_decide_eq_true hrow⟩, Option.isNone_iff_eq_none.1 hp'.2⟩

end Reviews

end Paayatam
