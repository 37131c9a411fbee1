/-
  Paayatam.Channel.Publishing

  What the publisher is handed, against the rules of the channel.

  An event that is PUBLISHED was approved or flagged and is not deleted, in
  every state (`Cleared`).  So a hand-over breaks the rules only by its event
  having left PUBLISHED, or having begun, since the post was claimed or its
  event selected.
-/

import Paayatam.Booking.CaseSettlement
import Paayatam.Booking.EventEdits
import Paayatam.Channel.SequenceRuns

namespace Paayatam

open Lib

/-! ## Published events are cleared -/

/-- The event is not deleted, and moderation let it through if it is published. -/
def EventRow.Cleared (ev : EventRow) : Prop :=
  ev.deletedAt = none ∧
    (ev.status = .PUBLISHED → ev.moderationStatus = .APPROVED ∨ ev.moderationStatus = .FLAGGED)

def Db.Cleared (db : Db) : Prop := ∀ ev ∈ db.events.rows, ev.Cleared

theorem EventRow.Cleared.allowed_iff {ev : EventRow} (h : ev.Cleared) {now : Instant} :
    ev.Allowed now ↔ ev.status = .PUBLISHED ∧ now < ev.startsAt :=
  ⟨fun ha => ⟨ha.1, ha.2.2.2⟩, fun hs => ⟨hs.1, h.1, h.2 hs.1, hs.2⟩⟩

theorem Db.Cleared.of_events {s s' : Db} (h : s.Cleared) (he : s'.events = s.events) : s'.Cleared := by
  intro ev hev
  rw [he] at hev
  exact h ev hev

theorem Db.Cleared.of_rewrites {s s' : Db} {x : EventRow} {f : EventRow → EventRow} (h : s.Cleared)
    (ht : s.events.Rewrites x f s'.events) (hf : x.Cleared → (f x).Cleared) : s'.Cleared := by
  intro ev hev
  rcases ht.cases hev with rfl | ⟨hev, -⟩
  · exact hf (h x ht.mem)
  · exact h ev hev

section Operations

variable {env : Env} {s s' : Db}

theorem EventMove.cleared {k : Kind} {ev ev' : EventRow} (h : EventMove env s k ev ev')
    (hedit : ∀ e c, k ≠ .edit e c) (hreview : ∀ e, k ≠ .review e) (hev : ev.Cleared) :
    ev'.Cleared := by
  cases h with
  | same | requested | seats | stamped => exact hev
  | cancelled => exact ⟨hev.1, nofun⟩
  | @retired _ next _ hnext =>
      refine ⟨hev.1, fun hpublished => ?_⟩
      have hnot : next ≠ .PUBLISHED := by
        rw [hnext, retiredStatus]
        split
        · simp
        · split <;> simp
      exact absurd hpublished hnot
  | edited => exact absurd rfl (hedit _ _)
  | reviewed => exact absurd rfl (hreview _)

/-- A change that neither creates, edits nor reviews an event keeps the events cleared. -/
theorem Db.Cleared.change {k : Kind} (h : s.Cleared) (hchange : Change env k s s')
    (hcreate : ∀ e, k ≠ .create e) (hedit : ∀ e c, k ≠ .edit e c) (hreview : ∀ e, k ≠ .review e) :
    s'.Cleared := by
  intro ev hev
  rcases hchange.event_origin hev with ⟨ev₀, hev₀, hmove⟩ | ⟨hk, -⟩
  · exact hmove.cleared hedit hreview (h ev₀ hev₀)
  · exact absurd hk (hcreate _)

theorem outcomeFor_cleared (d : ScanDecision) : (outcomeFor d).status = .PUBLISHED →
    (outcomeFor d).moderationStatus = .APPROVED ∨ (outcomeFor d).moderationStatus = .FLAGGED := by
  cases d <;> simp [outcomeFor]

theorem create_cleared {host : UserId} {input : CreateEventInput} {seeded : Bool} {e r : EventId}
    (h : s.Cleared) (hrun : Runs (create env host input seeded e) s r s') : s'.Cleared := by
  obtain ⟨-, row, content, hrow, hrows⟩ := create_spec hrun
  intro ev hev
  rw [hrows, List.mem_append, List.mem_singleton] at hev
  rcases hev with hev | rfl
  · exact h ev hev
  · refine ⟨hrow.deletedAt, ?_⟩
    rw [hrow.status, hrow.moderationStatus]
    exact outcomeFor_cleared _

/-- An edit writes a status only with the verdict that goes with it. -/
theorem apply_cleared {edit : EventEdit} {d : Option ScanDecision} {ev : EventRow}
    (hout : edit.outcome = d.map outcomeFor) (h : ev.Cleared) : (edit.apply ev).Cleared := by
  refine ⟨h.1, ?_⟩
  simp only [EventEdit.apply, hout]
  cases d with
  | none => exact h.2
  | some d => exact outcomeFor_cleared d

theorem update_cleared {host : UserId} {e : EventId} {input : UpdateEventInput} {v : Option Nat}
    (h : s.Cleared) (hrun : Runs (update env host e input v) s () s') : s'.Cleared := by
  obtain ⟨row, -, hfinish⟩ := runs_update.1 hrun
  obtain ⟨plan, x, t, hplan, -, ht, hs', -⟩ := finishUpdate_spec hfinish
  have hevents : s'.events = t := by rw [hs']
  rw [← hevents] at ht
  exact h.of_rewrites ht (apply_cleared (planUpdate_decided hplan).outcome)

/-- Moderation puts an event back only approved. -/
theorem Reviewed.cleared {ev : EventRow} (hrev : Reviewed ev s s') (h : s.Cleared) : s'.Cleared := by
  obtain ⟨w, x, t, hw, -, ht, hs'⟩ := hrev
  have hevents : s'.events = t := by rw [hs']
  rw [← hevents] at ht
  refine h.of_rewrites ht fun hx => ⟨hx.1, fun hpublished => ?_⟩
  have happroved := hw.approved hpublished
  simp [StatusWrite.apply, happroved]

theorem moderateEvent_cleared {may : Bool} {e : EventId} {a : ModerationAction} {reason : String}
    {st : EventStatus} (h : s.Cleared) (hrun : Runs (moderateEvent may e a reason) s st s') :
    s'.Cleared := by
  simp only [moderateEvent, runs_guardTx_bind, runs_findRow_bind, runs_orThrow_bind] at hrun
  obtain ⟨-, -, ev, -, hrun⟩ := hrun
  exact (finishModerate_spec hrun).cleared h

theorem applyEventDecision_cleared {e : EventId} {d : CaseDecision} (h : s.Cleared)
    (hrun : Runs (applyEventDecision e d) s () s') : s'.Cleared := by
  simp only [applyEventDecision, runs_findRow_bind, table_events] at hrun
  cases hev : s.events.find? e with
  | none =>
      simp only [hev, runs_pure] at hrun
      rw [hrun.2]
      exact h
  | some ev =>
      simp only [hev] at hrun
      rcases finishEventDecision_spec hrun with rfl | hrev
      · exact h
      · exact hrev.cleared h

theorem decideCase_cleared {admin : UserId} {may : Bool} {c : CaseId} {d : CaseDecision}
    {note : String} (h : s.Cleared) (hrun : Runs (decideCase env admin may c d note) s () s') :
    s'.Cleared := by
  simp only [decideCase, runs_guardTx_bind, runs_findRow_bind, runs_orThrow_bind,
    runs_updateRow_bind] at hrun
  obtain ⟨-, -, existing, -, -, -, x, -, t, -, hrun⟩ := hrun
  rcases runs_ite.1 hrun with ⟨-, hrun⟩ | ⟨-, hrun⟩
  · exact applyEventDecision_cleared (s := { s with cases := t }) h hrun
  · rw [runs_pure] at hrun
    rw [hrun.2]
    exact h

theorem escalateEvent_cleared {e : EventId} {n : Nat} {notify : Bool} (h : s.Cleared)
    (hrun : Runs (escalateEvent env e n notify) s () s') : s'.Cleared := by
  simp only [escalateEvent, runs_findRows_bind, runs_bind (m := countReports _ _ _ _),
    runs_findRow_bind, runs_orThrow_bind] at hrun
  obtain ⟨_, s₁, hcount, ev, -, hrun⟩ := hrun
  have h₁ : s₁.Cleared := h.of_events (by rw [(countReports_spec hcount).1])
  rcases finishEscalate_spec hrun with hs' | hrev
  · exact h₁.of_events (by rw [hs'])
  · exact hrev.cleared h₁

theorem Op.cleared {op : Op} (h : s.Cleared) (hrun : Runs (op.act env) s () s') : s'.Cleared := by
  have hchange : (∀ k, op.Does k → (∀ e, k ≠ .create e) ∧ (∀ e c, k ≠ .edit e c) ∧
      ∀ e, k ≠ .review e) → s'.Cleared := by
    intro hkind
    rcases Op.effect hrun with heffect | ⟨k, hk, heffect⟩
    · exact h.change heffect.change nofun nofun nofun
    · obtain ⟨hcreate, hedit, hreview⟩ := hkind k hk
      exact h.change heffect.change hcreate hedit hreview
  cases op with
  | create host input seeded e =>
      obtain ⟨_, hrun⟩ := runs_drop.1 hrun
      exact create_cleared h hrun
  | update host e input v => exact update_cleared h hrun
  | moderateEvent may e action reason =>
      obtain ⟨_, hrun⟩ := runs_drop.1 hrun
      exact moderateEvent_cleared h hrun
  | decideCase admin may c decision note => exact decideCase_cleared h hrun
  | escalateEvent e n notify => exact escalateEvent_cleared h hrun
  | decideClaim =>
      refine hchange fun k hk => ?_
      rcases hk with ⟨p, rfl⟩ | ⟨e, rfl⟩ <;> simp
  | cancelByHost | join | accept | seatSeedParticipant | reject | cancel | expireOne
  | expireWaitlistedOne | promoteForEvent | retireOne | settleOne | markNoShow | pay =>
      refine hchange fun k hk => ?_
      obtain rfl : k = _ := hk
      simp
  | _ => exact hchange fun k hk => hk.elim

/-- An event that is put back is published. -/
theorem Op.restores_published {op : Op} {e : EventId} (hrun : Runs (op.act env) s () s')
    (hop : op.restores s = some e) :
    ∃ ev, s'.events.find? e = some ev ∧ ev.status = .PUBLISHED := by
  unfold Op.restores at hop
  split at hop
  · next may e₀ reason =>
      obtain rfl := Option.some.inj hop
      obtain ⟨st, hrun⟩ := runs_drop.1 hrun
      have hrun : Runs (Paayatam.moderateEvent may e₀ .PUBLISH reason) s st s' := hrun
      simp only [Paayatam.moderateEvent, finishModerate, runs_guardTx_bind, runs_findRow_bind,
        runs_orThrow_bind, runs_fromExcept_bind, runs_updateRow_bind,
        runs_bind (m := announce _ _)] at hrun
      obtain ⟨-, -, ev, hev, w, hw, x, hx, t, ht, _, s₁, hann, hpure⟩ := hrun
      rw [runs_pure] at hpure
      simp only [planModerate, checkEventTransition, require_bind_eq_ok] at hw
      obtain ⟨-, -, hw⟩ := hw
      obtain rfl := Except.ok.inj hw
      have hs₁ := announce_state hann
      refine ⟨StatusWrite.apply { status := .PUBLISHED, moderationStatus := some .APPROVED } x, ?_, rfl⟩
      · rw [hpure.2, hs₁]
        exact ht.find?_self rfl ((Table.key_of_find? hx).trans (Table.key_of_find? hev))
  · next admin may c note =>
      split at hop
      · next m hm =>
          split at hop
          · next htype =>
              obtain ⟨ev, hev, hop⟩ := Option.bind_eq_some_iff.1 hop
              split at hop
              · next hst =>
                  obtain rfl := Option.some.inj hop
                  have hid : ev.id = m.subjectId := Table.key_of_find? hev
                  have hrun : Runs (Paayatam.decideCase env admin may c .APPROVED note) s () s' := hrun
                  simp only [Paayatam.decideCase, runs_guardTx_bind, runs_findRow_bind,
                    runs_orThrow_bind, runs_updateRow_bind] at hrun
                  obtain ⟨-, -, existing, hex, -, -, x, -, t, -, hrun⟩ := hrun
                  obtain rfl := Option.some.inj (hm.symm.trans hex)
                  rw [if_pos htype] at hrun
                  obtain ⟨⟨ev', hid', -, ht⟩ | ⟨-, hnot⟩, -⟩ := applyEventDecision_decided hrun
                  · exact ⟨(decidedEvent .APPROVED).apply ev',
                      ht.find?_self rfl (hid'.trans hid.symm), rfl⟩
                  · exact absurd hst (not_or.2 (hnot ev hev))
              · cases hop
          · cases hop
      · cases hop
  · cases hop

end Operations

/-! ## Hand-overs -/

/-- The step hands the post to the publisher. -/
def HandsOver (x : ChannelWorld × ChannelMove × ChannelWorld) (post : PublishablePost) : Prop :=
  ∃ l, x.2.2.handed = x.1.handed ++ l ∧ post ∈ l

/-- The post's event is as the rules ask, now. -/
def ChannelWorld.Allows (w : ChannelWorld) (post : PublishablePost) : Prop :=
  ∃ ev, w.db.events.find? post.event.id = some ev ∧ ev.Allowed w.clock

/-- The event has not left PUBLISHED, and its start has not come. -/
def ChannelWorld.StillOn (w : ChannelWorld) (now : Instant) (e : EventId) : Prop :=
  ∀ ev, w.db.events.find? e = some ev → ev.status = .PUBLISHED ∧ now < ev.startsAt

/-- The events of what a step is about to hand over are still on: those of the paid claims
    that wait longest, or that of a selected event nobody has claimed a free post for. -/
def ChannelMove.StillOn (w : ChannelWorld) : ChannelMove → Prop
  | .findUnpostedPaid env limit => env.channel_enabled = 1 →
    ∀ p ∈ w.store.unpostedPaid limit, w.StillOn env.env.now p.eventId
  | .claimPending now i => ∀ candidate, w.candidates[i]? = some candidate →
    (∀ p ∈ w.posts.rows, p.eventId = candidate.1.id → p.kind ≠ .TRENDING) →
    w.StillOn now candidate.1.id
  | _ => True

section Steps

variable {w w' : ChannelWorld} {m : ChannelMove}

/-- Events that are there, each as the invariants have them. -/
structure Publishing (w : ChannelWorld) : Prop where
  sound : ChannelSound w
  cleared : w.db.Cleared

theorem Publishing.step (h : Publishing w) (hstep : w.Step m w') : Publishing w' := by
  refine ⟨h.sound.step hstep, ?_⟩
  rcases (ChannelWorld.step_effect hstep).events with hsame | ⟨env, op, -, hrun⟩
  · exact h.cleared.of_events hsame
  · exact Op.cleared h.cleared hrun

theorem publishing_of_reach {guard : ChannelWorld → ChannelMove → Prop}
    (h : Reach ChannelWorld.Init ChannelWorld.Step guard w) : Publishing w := by
  refine h.invariant (I := Publishing) (fun w hw => ?_) fun _ _ _ hs _ hstep => hs.step hstep
  rw [hw]
  exact ⟨channelSound_initial, by simp [Db.Cleared, ChannelWorld.db, ChannelWorld.initial,
    World.initial, Db.initial]⟩

/-- With the events cleared, an event that is there may be shown exactly while it is still on. -/
theorem Publishing.allows_iff (h : Publishing w) (post : PublishablePost)
    (hev : ∃ ev, w.db.events.find? post.event.id = some ev) :
    w.Allows post ↔ w.StillOn w.clock post.event.id := by
  obtain ⟨ev, hev⟩ := hev
  have hcleared := h.cleared ev (Table.mem_of_find? hev)
  constructor
  · rintro ⟨ev', hev', hallowed⟩ ev'' hev''
    obtain rfl := Option.some.inj (hev'.symm.trans hev'')
    exact (h.cleared ev' (Table.mem_of_find? hev')).allowed_iff.1 hallowed
  · intro hon
    exact ⟨ev, hev, hcleared.allowed_iff.2 (hon ev hev)⟩

theorem find_of_mem {s : Db} {e : EventId} (h : ∃ ev ∈ s.events.rows, ev.id = e) :
    ∃ ev, s.events.find? e = some ev := by
  obtain ⟨ev, hev, rfl⟩ := h
  exact ⟨ev, Table.find?_of_mem hev⟩

theorem handsOver_iff {l : List PublishablePost} (h : w'.handed = w.handed ++ l)
    {post : PublishablePost} : HandsOver (w, m, w') post ↔ post ∈ l := by
  constructor
  · rintro ⟨l', hl', hpost⟩
    rw [List.append_cancel_left (h.symm.trans hl')]
    exact hpost
  · exact fun hpost => ⟨l, h, hpost⟩

/-- The time of a step of the publishing sweep. -/
def ChannelMove.now? : ChannelMove → Option Instant
  | .selectPending env _ => some env.env.now
  | .claimPending now _ => some now
  | .findUnpostedPaid env _ => some env.env.now
  | _ => none

theorem ChannelWorld.clock_of_step (h : w.Step m w') : ∀ now ∈ m.now?, w'.clock = now := by
  intro now hnow
  cases m with
  | selectPending env limit | findUnpostedPaid env limit =>
    obtain rfl := Option.some.inj hnow
    simp only [Step, exec] at h
    split at h
    · obtain rfl := Option.some.inj h
      rfl
    · cases h
  | claimPending now' i =>
    obtain rfl := Option.some.inj hnow
    simp only [Step, exec] at h
    split at h
    · split at h
      · split at h
        · obtain rfl := Option.some.inj h
          rfl
        · obtain rfl := Option.some.inj h
          rfl
        · cases h
      · cases h
    · cases h
  | _ => cases hnow

/-- A step hands over only what the rules allow exactly when the events of what it is about
    to hand over are still on. -/
theorem step_hands (h : Publishing w) (hstep : w.Step m w') :
    (∀ post, HandsOver (w, m, w') post → w'.Allows post) ↔ m.StillOn w := by
  have hafter := h.step hstep
  have hclock := ChannelWorld.clock_of_step hstep
  have hquiet : w'.handed = w.handed → m.StillOn w →
      ((∀ post, HandsOver (w, m, w') post → w'.Allows post) ↔ m.StillOn w) := by
    intro hsame hon
    have hnone : w'.handed = w.handed ++ [] := by rw [hsame, List.append_nil]
    exact ⟨fun _ => hon, fun _ post hpost => nomatch (handsOver_iff hnone).1 hpost⟩
  cases ChannelWorld.step_effect hstep with
  | refused hstore hsweeps hread hclaim =>
      cases m with
      | findUnpostedPaid => exact absurd rfl (hread _ _)
      | claimPending => exact absurd rfl (hclaim _ _)
      | _ => exact hquiet hsweeps.handed trivial
  | call _ _ hsweeps | publish _ hsweeps | posted _ hsweeps | takenDown _ hsweeps
  | released _ _ _ hsweeps => exact hquiet hsweeps.handed trivial
  | selected _ _ hhanded | listed _ _ hhanded => exact hquiet hhanded trivial
  | @claimed now i candidate _ hcandidate hrun _ hhanded =>
      have hfree := (h.sound.sequenced.runs_claimPost_iff (.inl rfl)).1 ⟨_, hrun⟩
      have hdb : w'.db = w.db := (claimPost_spec hrun).1
      have hnow : w'.clock = now := hclock now rfl
      have hev := find_of_mem (h.sound.owned.candidates candidate (List.mem_of_getElem? hcandidate))
      have hallows := hafter.allows_iff
        (toPublishable w.issued .TRENDING candidate.1 candidate.2) (by rw [hdb]; exact hev)
      rw [ChannelWorld.StillOn, hdb, hnow] at hallows
      constructor
      · intro hall candidate' hcandidate' _
        obtain rfl := Option.some.inj (hcandidate.symm.trans hcandidate')
        exact hallows.1 (hall _ ((handsOver_iff hhanded).2 (List.mem_singleton.2 rfl)))
      · intro hon post hpost
        obtain rfl := List.mem_singleton.1 ((handsOver_iff hhanded).1 hpost)
        exact hallows.2 (hon candidate hcandidate fun p hp he hk => hfree p hp he hk
          (republishSeq_of_trending (s := w.store) hp hk))
  | @taken now i candidate _ hcandidate hrun hsweeps =>
      refine hquiet hsweeps.handed fun candidate' hcandidate' hnone => ?_
      -- the index answered: a free post is there
      obtain ⟨-, -, ⟨hfalse, -⟩ | ⟨-, -, p, hp, hclash⟩⟩ := claimPost_spec hrun
      · cases hfalse
      · obtain rfl := Option.some.inj (hcandidate.symm.trans hcandidate')
        obtain ⟨he, hk, -⟩ := h.sound.sequenced.of_clash hp hclash
        exact absurd hk (hnone p hp he)
  | @unposted env limit _ hstore _ hhanded =>
      have hdb : w'.db = w.db := by
        change w'.store.db = _
        rw [hstore]
        rfl
      have hnow : w'.clock = env.env.now := hclock _ rfl
      have hone : ∀ p ∈ w.store.unpostedPaid limit, ∀ ev, w.db.events.find? p.eventId = some ev →
          (w'.Allows (toPublishable p.id .PAID ev (w.db.pendingCount ev.id)) ↔
            w.StillOn env.env.now p.eventId) := by
        intro p _ ev hev
        have hid : ev.id = p.eventId := Table.key_of_find? hev
        have hallows := hafter.allows_iff
          (toPublishable p.id .PAID ev (w.db.pendingCount ev.id))
          ⟨ev, by rw [hdb]; exact hid ▸ hev⟩
        rw [ChannelWorld.StillOn, hdb, hnow] at hallows
        rw [ChannelWorld.StillOn, ← hid]
        exact hallows
      constructor
      · intro hall henabled p hp
        obtain ⟨ev, hev⟩ := find_of_mem (h.sound.owned.posts p (mem_unpostedPaid hp).1)
        refine (hone p hp ev hev).1 (hall _ ((handsOver_iff hhanded).2 ?_))
        rw [findUnpostedPaid, if_neg (not_not.2 henabled)]
        exact List.mem_filterMap.2 ⟨p, hp, by
          simp only [ChannelWorld.store, Option.map_eq_some_iff]
          exact ⟨ev, hev, rfl⟩⟩
      · intro hon post hpost
        have hmem := (handsOver_iff hhanded).1 hpost
        obtain ⟨p, hp, ev, hev, rfl⟩ := mem_findUnpostedPaid hmem
        refine (hone p hp ev hev).2 (hon ?_ p hp)
        by_contra hdisabled
        rw [findUnpostedPaid, if_pos hdisabled] at hmem
        cases hmem

/-- What a pass selects is as the rules ask. -/
theorem step_selects (hstep : w.Step m w') {candidate : EventRow × Nat}
    (hnew : candidate ∈ w'.candidates) (hold : candidate ∉ w.candidates) :
    candidate.1 ∈ w'.db.events.rows ∧ candidate.1.Allowed w'.clock := by
  have hclock := ChannelWorld.clock_of_step hstep
  cases ChannelWorld.step_effect hstep with
  | refused _ hsweeps | call _ _ hsweeps | publish _ hsweeps | taken _ _ hsweeps
  | posted _ hsweeps | takenDown _ hsweeps | released _ _ _ hsweeps =>
      rw [hsweeps.candidates] at hnew
      exact absurd hnew hold
  | claimed _ _ hcandidates | unposted _ hcandidates | listed _ hcandidates =>
      rw [hcandidates] at hnew
      exact absurd hnew hold
  | @selected env limit _ hstore hcandidates =>
      rw [hcandidates, List.mem_append] at hnew
      obtain ⟨hmem, hallowed, -⟩ := mem_trendingCandidates (hnew.resolve_left hold)
      have hdb : w'.db = w.db := congrArg ChannelDb.db hstore
      rw [hdb, hclock _ rfl]
      exact ⟨hmem, hallowed⟩

/-- A paid post is claimed for an event that is published. -/
theorem step_claims (h : Publishing w) (hstep : w.Step m w') {p : ChannelPostRow}
    (hp : p ∈ w'.posts.rows) (hkind : p.kind = .PAID) (hnew : ∀ q ∈ w.posts.rows, q.id ≠ p.id) :
    ∃ ev, w'.db.events.find? p.eventId = some ev ∧ ev.status = .PUBLISHED := by
  have heffect := ChannelWorld.step_effect hstep
  rcases heffect.origin h.sound.held hp with ⟨q, hq, hqp⟩ | ⟨-, hclaimed⟩
  · exact absurd hqp.id.symm (hnew q hq)
  · cases hclaimed with
    | registered _ _ hev hstatus => exact ⟨_, hev, hstatus⟩
    | restored _ hop _ _ hrun => exact Op.restores_published hrun hop
    | published _ hev hstatus hevents => exact ⟨_, hevents ▸ hev, hstatus⟩
    | trending htrending =>
        rw [htrending] at hkind
        cases hkind

end Steps

/-! ## Runs -/

/-- What a run selects, claims and hands over. -/
structure PublishedByRules (tr : ChannelTrace) : Prop where
  selected : ∀ x ∈ tr, ∀ candidate ∈ x.2.2.candidates, candidate ∉ x.1.candidates →
    candidate.1 ∈ x.2.2.db.events.rows ∧ candidate.1.Allowed x.2.2.clock
  claimed : ∀ x ∈ tr, ∀ p ∈ x.2.2.posts.rows, p.kind = .PAID →
    (∀ q ∈ x.1.posts.rows, q.id ≠ p.id) →
    ∃ ev, x.2.2.db.events.find? p.eventId = some ev ∧ ev.status = .PUBLISHED
  handed : ∀ x ∈ tr, (∀ post, HandsOver x post → x.2.2.Allows post) ↔ x.2.1.StillOn x.1

/-- In every run, free posts are selected for events the rules allow and paid ones claimed for
    events that are published, and what a step hands to the publisher is allowed exactly when
    its events have neither left PUBLISHED nor begun by then. -/
theorem channel_publishes {tr : ChannelTrace} {w : ChannelWorld}
    (h : Lib.Run ChannelWorld.Init ChannelWorld.Step (fun _ _ => True) tr w) :
    PublishedByRules tr where
  selected := h.steps (P := fun w _ w' => ∀ candidate ∈ w'.candidates, candidate ∉ w.candidates →
      candidate.1 ∈ w'.db.events.rows ∧ candidate.1.Allowed w'.clock)
    fun _ _ _ _ _ hstep _ hnew hold => step_selects hstep hnew hold
  claimed := h.steps (P := fun w _ w' => ∀ p ∈ w'.posts.rows, p.kind = .PAID →
      (∀ q ∈ w.posts.rows, q.id ≠ p.id) →
      ∃ ev, w'.db.events.find? p.eventId = some ev ∧ ev.status = .PUBLISHED)
    fun _ _ _ hreach _ hstep _ hp hkind hnew =>
      step_claims (publishing_of_reach hreach) hstep hp hkind hnew
  handed := h.steps (P := fun w m w' =>
      (∀ post, HandsOver (w, m, w') post → w'.Allows post) ↔ m.StillOn w)
    fun _ _ _ hreach _ hstep => step_hands (publishing_of_reach hreach) hstep

/-- The evening is taken out before the sweep comes to its post. -/
def withdrawnPostMoves (withdrawal : Op) : List ChannelMove :=
  [channelCall 0 (.moveCoins (onboardingReward 1 100)),
   channelCall 1 (.create 1 (demoEvent 100 2) false 7), channelCall 2 withdrawal,
   .findUnpostedPaid (demoChannelEnv 3) 20]

theorem channel_publishes_renewed : ∃ tr, PublishedByRules tr ∧
    ∃ x ∈ tr, x.2.2.handed.length = x.1.handed.length + 1 := by
  have hplay : ((runList ChannelWorld.exec .initial renewedMoves).isSome &&
      (traceList ChannelWorld.exec .initial renewedMoves).any fun x =>
        decide (x.2.2.handed.length = x.1.handed.length + 1)) = true := by decide
  rw [Bool.and_eq_true] at hplay
  obtain ⟨w, hw⟩ := Option.isSome_iff_exists.1 hplay.1
  obtain ⟨x, hx, hlen⟩ := List.any_eq_true.1 hplay.2
  have hrun := run_of_runList (G := fun _ _ => True) (g := fun _ _ => true)
    (I := ChannelWorld.Init) (fun _ _ _ h => h) (fun _ _ _ => trivial) (.start rfl)
    (by decide) hw
  exact ⟨_, channel_publishes hrun, x, List.mem_append_right _ hx, of_decide_eq_true hlen⟩

/-- The sweep hands over the post of an evening its host has called off, and of one that a
    moderator has hidden. -/
theorem handsOver_after_withdrawal : ∀ withdrawal ∈ [Op.cancelByHost 1 7 none,
      .moderateEvent true 7 .HIDE "reported"], ∃ tr w,
    Lib.Run ChannelWorld.Init ChannelWorld.Step (fun _ _ => True) tr w ∧
    ∃ x ∈ tr, ∃ post, HandsOver x post ∧ ¬ x.2.2.Allows post := by
  intro withdrawal hmem
  have hplay : [Op.cancelByHost 1 7 none, .moderateEvent true 7 .HIDE "reported"].all (fun op =>
      (runList ChannelWorld.exec .initial (withdrawnPostMoves op)).isSome &&
      (guardList ChannelWorld.exec (fun _ _ => true) .initial (withdrawnPostMoves op) &&
      (traceList ChannelWorld.exec .initial (withdrawnPostMoves op)).any fun x =>
        decide (x.1.handed = []) && x.2.2.handed.any fun post =>
          !(x.2.2.db.events.find? post.event.id).any fun ev => decide (ev.status = .PUBLISHED))) = true := by
    decide
  have hop := List.all_eq_true.1 hplay withdrawal hmem
  simp only [Bool.and_eq_true] at hop
  obtain ⟨hsome, hguard, htrace⟩ := hop
  obtain ⟨w, hw⟩ := Option.isSome_iff_exists.1 hsome
  obtain ⟨x, hx, hstep⟩ := List.any_eq_true.1 htrace
  rw [Bool.and_eq_true] at hstep
  obtain ⟨post, hpost, hout⟩ := List.any_eq_true.1 hstep.2
  have hempty : x.1.handed = [] := of_decide_eq_true hstep.1
  have hrun := run_of_runList (G := fun _ _ => True) (g := fun _ _ => true)
    (I := ChannelWorld.Init) (fun _ _ _ h => h) (fun _ _ _ => trivial) (.start rfl) hguard hw
  refine ⟨_, w, hrun, x, List.mem_append_right _ hx, post,
    ⟨x.2.2.handed, by rw [hempty, List.nil_append], hpost⟩, ?_⟩
  rintro ⟨ev, hev, hallowed⟩
  rw [hev] at hout
  simp [hallowed.1] at hout

/-- The sweep hands over the post of an evening its host has called off. -/
theorem publishes_withdrawn : ∃ tr w,
    Lib.Run ChannelWorld.Init ChannelWorld.Step (fun _ _ => True) tr w ∧
    ∃ x ∈ tr, ∃ post, HandsOver x post ∧ ¬ x.2.2.Allows post :=
  handsOver_after_withdrawal (.cancelByHost 1 7 none) List.mem_cons_self

end Paayatam
