/-
  Paayatam.Messaging.Delivery

  The delivery of campaigns: the passes of the dispatcher, the jobs they
  enqueue, and what the jobs record.

  The id of a job is that of its recipient, so each recipient has one job at
  most; a job that has completed or failed keeps its id until the queue removes
  it.  The queue removes completed jobs by age and failed ones never.  A pass
  reads its campaigns and their recipients first, and adds the jobs after.
-/

import Paayatam.Types
import Paayatam.Lib.System
import Paayatam.Lib.Threads
import Mathlib.Data.List.Nodup

namespace Paayatam

open Lib

namespace Delivery

/-! ## Campaigns, recipients and jobs -/

inductive MessageCampaignStatus where
  | DRAFT
  | CONFIRMED
  | QUEUED
  | SENDING
  | COMPLETED
  | PARTIALLY_FAILED
  | FAILED
  | CANCELLED
  deriving DecidableEq

inductive DeliveryStatus where
  | PENDING
  | SENT
  | RATE_LIMITED
  | BLOCKED
  | INVALID
  | FAILED
  | SKIPPED
  deriving DecidableEq

def CANCELLABLE (status : MessageCampaignStatus) : Bool :=
  match status with
  | .DRAFT | .CONFIRMED | .QUEUED | .SENDING => true
  | .COMPLETED | .PARTIALLY_FAILED | .FAILED | .CANCELLED => false

abbrev CampaignId := Nat
abbrev RecipientId := Nat

/-- The columns of `message_campaign` that delivery writes. -/
structure CampaignState where
  status : MessageCampaignStatus
  paused : Bool

def CampaignState.active (c : CampaignState) : Bool := decide (c.status = .SENDING) && !c.paused

/-- The rows that exist: campaigns by creation, recipients by id, and whose each one is. -/
structure Roster where
  campaigns : List CampaignId
  recipients : List RecipientId
  campaignOf : RecipientId → CampaignId
  campaignOf_mem : ∀ r ∈ recipients, campaignOf r ∈ campaigns

/-- What comes of a send, or `invalid` where there is nobody to send to. -/
inductive DeliveryOutcome where
  | SENT
  | BLOCKED
  | RATE_LIMITED
  | RETRY
  | invalid
  deriving DecidableEq

/-- The job of a recipient, after so many attempts and so many stalls. -/
inductive SendJob where
  | none
  | waiting (made stalls : Nat)
  /-- `loadDelivery` found something to send. -/
  | loaded (made stalls : Nat)
  /-- The outcome is known and not recorded yet. -/
  | answered (outcome : DeliveryOutcome) (made stalls : Nat)
  | completed
  | failed
  deriving DecidableEq

def ATTEMPTS : Nat := 5
def DISPATCH_BATCH : Nat := 500
def CAMPAIGN_LIMIT : Nat := 5
/-- The stalls a job survives. -/
def MAX_STALLED : Nat := 1

structure DeliveryShared where
  status : RecipientId → DeliveryStatus
  campaign : CampaignId → CampaignState
  /-- The recipients that passes have read and not added yet. -/
  batch : List RecipientId
  /-- The recipients handed to Telegram successfully, oldest first. -/
  handed : List RecipientId

abbrev DeliveryWorld := Threads RecipientId DeliveryShared SendJob

inductive DeliveryMove where
  | confirm (c : CampaignId)
  | cancel (c : CampaignId)
  | pause (c : CampaignId)
  | resume (c : CampaignId)
  /-- A pass claims campaigns, reads their next recipients and closes those with none. -/
  | dispatch
  /-- A pass adds the job of a recipient it read. -/
  | add (r : RecipientId)
  /-- The job of a recipient loads its delivery, and whether anybody is at the far end. -/
  | load (r : RecipientId) (reachable : Bool)
  | send (r : RecipientId) (outcome : DeliveryOutcome)
  | record (r : RecipientId)
  /-- An attempt throws before it has an outcome. -/
  | throw (r : RecipientId)
  /-- The worker dies, and the job stalls. -/
  | crash (r : RecipientId)
  /-- The queue removes a completed job. -/
  | expire (r : RecipientId)

variable (roster : Roster)

namespace DeliveryWorld

def status (w : DeliveryWorld) : RecipientId → DeliveryStatus := w.shared.status
def campaign (w : DeliveryWorld) : CampaignId → CampaignState := w.shared.campaign

/-- `recordDelivery`: conditional on PENDING. -/
def recordDelivery (s : DeliveryShared) (r : RecipientId) (status : DeliveryStatus) :
    DeliveryShared :=
  if s.status r = .PENDING then { s with status := Function.update s.status r status } else s

/-- A job that threw: another attempt while there is one left. -/
def retried (made stalls : Nat) : SendJob :=
  if made + 1 < ATTEMPTS then .waiting (made + 1) stalls else .failed

/-- The recipients of a campaign that are still PENDING, in the order a pass reads them. -/
def pendingOf (s : DeliveryShared) (c : CampaignId) : List RecipientId :=
  roster.recipients.filter fun r =>
    decide (roster.campaignOf r = c) && decide (s.status r = .PENDING)

/-- QUEUED campaigns are started. -/
def promoted (s : DeliveryShared) : CampaignId → CampaignState := fun c =>
  if (s.campaign c).status = .QUEUED then { s.campaign c with status := .SENDING }
  else s.campaign c

/-- The campaigns a pass works on. -/
def claimed (s : DeliveryShared) : List CampaignId :=
  (roster.campaigns.filter fun c => (promoted s c).active).take CAMPAIGN_LIMIT

/-- How a campaign with nothing pending went. -/
def finalStatus (s : DeliveryShared) (c : CampaignId) : MessageCampaignStatus :=
  let mine := roster.recipients.filter fun r => decide (roster.campaignOf r = c)
  if (mine.all fun r => decide (s.status r ≠ .SENT)) && !mine.isEmpty then .FAILED
  else if mine.any fun r => decide (s.status r = .FAILED ∨ s.status r = .INVALID ∨
      s.status r = .RATE_LIMITED) then .PARTIALLY_FAILED
  else .COMPLETED

/-- The campaigns after a pass. -/
def dispatched (s : DeliveryShared) : CampaignId → CampaignState := fun c =>
  if c ∈ claimed roster s ∧ pendingOf roster s c = [] then
    { promoted s c with status := finalStatus roster s c }
  else promoted s c

/-- The recipients a pass reads. -/
def batchOf (s : DeliveryShared) : List RecipientId :=
  (claimed roster s).flatMap fun c => (pendingOf roster s c).take DISPATCH_BATCH

def setCampaign (s : DeliveryShared) (c : CampaignId) (f : CampaignState → CampaignState) :
    DeliveryShared :=
  { s with campaign := Function.update s.campaign c (f (s.campaign c)) }

/-- `cancel`: what is PENDING is skipped. -/
def cancelled (s : DeliveryShared) (c : CampaignId) : DeliveryShared :=
  { setCampaign s c (fun state => { state with status := .CANCELLED }) with
    status := fun r =>
      if roster.campaignOf r = c ∧ s.status r = .PENDING then .SKIPPED else s.status r }

def exec (w : DeliveryWorld) : DeliveryMove → Option DeliveryWorld
  | .confirm c =>
    if (w.campaign c).status = .DRAFT then
      some { w with shared := setCampaign w.shared c fun s => { s with status := .QUEUED } }
    else none
  | .cancel c =>
    if CANCELLABLE (w.campaign c).status then
      some { w with shared := cancelled roster w.shared c }
    else none
  | .pause c => some { w with shared := setCampaign w.shared c fun s => { s with paused := true } }
  | .resume c =>
    some { w with shared := setCampaign w.shared c fun s => { s with paused := false } }
  | .dispatch => some { w with shared := { w.shared with
      campaign := dispatched roster w.shared
      batch := w.shared.batch ++ batchOf roster w.shared } }
  | .add r =>
    if r ∈ w.shared.batch then
      let shared := { w.shared with batch := w.shared.batch.erase r }
      match w.locals r with
      | .none => some (w.set r shared (.waiting 0 0))
      -- the id exists, so the second add is a no-op
      | job => some (w.set r shared job)
    else none
  | .load r reachable =>
    match w.locals r with
    | .waiting made stalls =>
      if w.status r = .PENDING ∧ (w.campaign (roster.campaignOf r)).paused = false ∧
          (w.campaign (roster.campaignOf r)).status = .SENDING then
        some (w.set r w.shared
          (if reachable then .loaded made stalls else .answered .invalid made stalls))
      else some (w.set r w.shared .completed)
    | _ => none
  | .send r outcome =>
    match w.locals r with
    | .loaded made stalls =>
      if outcome = .invalid then none
      else some (w.set r { w.shared with
        handed := if outcome = .SENT then w.shared.handed ++ [r] else w.shared.handed }
        (.answered outcome made stalls))
    | _ => none
  | .record r =>
    match w.locals r with
    | .answered .SENT _ _ => some (w.set r (recordDelivery w.shared r .SENT) .completed)
    | .answered .BLOCKED _ _ => some (w.set r (recordDelivery w.shared r .BLOCKED) .completed)
    | .answered .invalid _ _ => some (w.set r (recordDelivery w.shared r .INVALID) .completed)
    | .answered .RATE_LIMITED made stalls => some (w.set r w.shared (retried made stalls))
    | .answered .RETRY made stalls =>
      -- out of attempts: a failure the recipient keeps
      if ATTEMPTS ≤ made + 1 then
        some (w.set r (recordDelivery w.shared r .FAILED) .completed)
      else some (w.set r w.shared (retried made stalls))
    | _ => none
  | .throw r =>
    match w.locals r with
    | .waiting made stalls | .loaded made stalls | .answered _ made stalls =>
      some (w.set r w.shared (retried made stalls))
    | _ => none
  | .crash r =>
    match w.locals r with
    | .loaded made stalls | .answered _ made stalls =>
      some (w.set r w.shared (if stalls < MAX_STALLED then .waiting made (stalls + 1) else .failed))
    | _ => none
  | .expire r => if w.locals r = .completed then some (w.set r w.shared .none) else none

def Step (w : DeliveryWorld) (m : DeliveryMove) (w' : DeliveryWorld) : Prop :=
  w.exec roster m = some w'

/-- Every campaign a DRAFT, every recipient PENDING, and no job. -/
def Init (w : DeliveryWorld) : Prop :=
  (∀ c, (w.campaign c).status = .DRAFT) ∧ (∀ r, w.status r = .PENDING) ∧
    w.shared.handed = [] ∧ w.shared.batch = [] ∧ ∀ r, w.locals r = .none

def initial : DeliveryWorld where
  shared := ⟨fun _ => .PENDING, fun _ => ⟨.DRAFT, false⟩, [], []⟩
  locals _ := .none

theorem init_initial : initial.Init := ⟨fun _ => rfl, fun _ => rfl, rfl, rfl, fun _ => rfl⟩

end DeliveryWorld

/-- A job that may still send: waiting, or at work. -/
def SendJob.Live : SendJob → Prop
  | .waiting _ _ | .loaded _ _ | .answered _ _ _ => True
  | .none | .completed | .failed => False

/-- The last attempt of a job, for a recipient that is still PENDING. -/
def LastChance (w : DeliveryWorld) (r : RecipientId) (made : Nat) : Prop :=
  w.status r = .PENDING ∧ ATTEMPTS ≤ made + 1

/-- No last attempt for a PENDING recipient is rate limited or throws, no worker dies between a
    successful send and its record nor twice in one job, and no campaign is cancelled between
    the load and the send of one of its jobs. -/
def SendsSafely (w : DeliveryWorld) : DeliveryMove → Prop
  | .cancel c => ∀ r made stalls, w.locals r = .loaded made stalls → roster.campaignOf r ≠ c
  | .send r outcome => outcome = .RATE_LIMITED → ∀ made stalls,
      w.locals r = .loaded made stalls → ¬ LastChance w r made
  | .throw r => (∀ made stalls, w.locals r ≠ .answered .SENT made stalls) ∧
      ∀ made stalls, (w.locals r = .waiting made stalls ∨ w.locals r = .loaded made stalls ∨
        ∃ outcome, w.locals r = .answered outcome made stalls) → ¬ LastChance w r made
  | .crash r => (∀ made stalls, w.locals r ≠ .answered .SENT made stalls) ∧
      ∀ made stalls, (w.locals r = .loaded made stalls ∨
        ∃ outcome, w.locals r = .answered outcome made stalls) →
          w.status r = .PENDING → stalls < MAX_STALLED
  | _ => True

/-- What can follow a state without the accidents that `SendsSafely` names. -/
abbrev Follows (w w' : DeliveryWorld) : Prop :=
  Reach (· = w) (DeliveryWorld.Step roster) (SendsSafely roster) w'

/-- A later pass reads the recipient and adds a job for it, one that did not exist. -/
def Enqueued (w : DeliveryWorld) (r : RecipientId) : Prop :=
  ∃ w₁ w₂ w₃ : DeliveryWorld, Follows roster w w₁ ∧ DeliveryWorld.Step roster w₁ .dispatch w₂ ∧
    r ∈ DeliveryWorld.batchOf roster w₁.shared ∧ DeliveryWorld.Step roster w₂ (.add r) w₃ ∧
    w₂.locals r = .none ∧ w₃.locals r = .waiting 0 0 ∧ w₃.status r = .PENDING ∧
    (w₃.campaign (roster.campaignOf r)).status = .SENDING ∧
    (w₃.campaign (roster.campaignOf r)).paused = false

/-- What a step does to the deliveries. -/
structure DeliveredOnce (x : DeliveryWorld × DeliveryMove × DeliveryWorld) : Prop where
  /-- No recipient is handed to Telegram successfully twice. -/
  once : x.2.2.shared.handed.Nodup
  /-- A recipient that is no longer PENDING never changes. -/
  settled : ∀ r, x.1.status r ≠ .PENDING → x.2.2.status r = x.1.status r
  /-- No send of a cancelled campaign starts. -/
  cancelled : ∀ r outcome, x.2.1 = .send r outcome →
    (x.1.campaign (roster.campaignOf r)).status ≠ .CANCELLED
  /-- A PENDING recipient of a campaign that is SENDING and not paused has a job that may still
      send it, or a later pass adds one. -/
  notStranded : ∀ r ∈ roster.recipients, x.2.2.status r = .PENDING →
    (x.2.2.campaign (roster.campaignOf r)).status = .SENDING →
    (x.2.2.campaign (roster.campaignOf r)).paused = false →
      (x.2.2.locals r).Live ∨ Enqueued roster x.2.2 r

/-! ## The invariant -/

structure DeliveryKept (w : DeliveryWorld) : Prop where
  once : w.shared.handed.Nodup
  /-- A recipient that was handed over is settled, or about to be. -/
  spent : ∀ r ∈ w.shared.handed, w.status r = .PENDING →
    ∃ made stalls, w.locals r = .answered .SENT made stalls
  fresh : ∀ r made stalls, w.locals r = .loaded made stalls → r ∉ w.shared.handed
  alive : ∀ r, w.status r = .PENDING → w.locals r ≠ .failed
  chance : ∀ r made stalls, w.locals r = .answered .RATE_LIMITED made stalls →
    ¬ LastChance w r made
  notCancelled : ∀ r made stalls, w.locals r = .loaded made stalls →
    (w.campaign (roster.campaignOf r)).status ≠ .CANCELLED

section Steps

variable {roster} {w w' : DeliveryWorld} {r q : RecipientId} {c : CampaignId} {made stalls : Nat}
  {shared : DeliveryShared} {job : SendJob}

open DeliveryWorld

theorem recordDelivery_status_ne {status : DeliveryStatus} {x : RecipientId} (hx : x ≠ r) :
    (recordDelivery shared r status).status x = shared.status x := by
  unfold recordDelivery
  split
  · exact Function.update_of_ne hx ..
  · rfl

/-- After its record a recipient is not PENDING. -/
theorem recordDelivery_status {status : DeliveryStatus} (h : status ≠ .PENDING) :
    (recordDelivery shared r status).status r ≠ .PENDING := by
  unfold recordDelivery
  split
  · show Function.update shared.status r status r ≠ _
    rw [Function.update_self]
    exact h
  · assumption

theorem recordDelivery_settled {status : DeliveryStatus} {x : RecipientId}
    (hx : shared.status x ≠ .PENDING) :
    (recordDelivery shared r status).status x = shared.status x := by
  by_cases hxr : x = r
  · subst hxr
    rw [recordDelivery, if_neg hx]
  · exact recordDelivery_status_ne hxr

@[simp] theorem recordDelivery_campaign {status : DeliveryStatus} :
    (recordDelivery shared r status).campaign = shared.campaign := by
  unfold recordDelivery
  split <;> rfl

@[simp] theorem recordDelivery_handed {status : DeliveryStatus} :
    (recordDelivery shared r status).handed = shared.handed := by
  unfold recordDelivery
  split <;> rfl

/-- The job of one recipient moves. -/
theorem DeliveryKept.set (h : DeliveryKept roster w)
    (hstatus : ∀ x, x ≠ r → shared.status x = w.status x)
    (hcampaign : shared.campaign = w.shared.campaign)
    (hhanded : ∀ x, x ≠ r → (x ∈ shared.handed ↔ x ∈ w.shared.handed))
    (honce : shared.handed.Nodup)
    (hspent : r ∈ shared.handed → shared.status r = .PENDING →
      ∃ made stalls, job = .answered .SENT made stalls)
    (hloaded : ∀ made stalls, job = .loaded made stalls → r ∉ shared.handed ∧
      (w.campaign (roster.campaignOf r)).status ≠ .CANCELLED)
    (halive : shared.status r = .PENDING → job ≠ .failed)
    (hchance : ∀ made stalls, job = .answered .RATE_LIMITED made stalls →
      ¬ (shared.status r = .PENDING ∧ ATTEMPTS ≤ made + 1)) :
    DeliveryKept roster (w.set r shared job) := by
  refine ⟨honce, fun x hx hpending => ?_, fun x made stalls hx => ?_, fun x hpending => ?_,
    fun x made stalls hx hlast => ?_, fun x made stalls hx => ?_⟩ <;>
    by_cases hxr : x = r
  · subst hxr
    simpa using hspent hx hpending
  · rw [Threads.set_locals_ne hxr]
    exact h.spent x ((hhanded x hxr).1 hx) ((hstatus x hxr).symm.trans hpending)
  · subst hxr
    exact (hloaded made stalls (by simpa using hx)).1
  · rw [Threads.set_locals_ne hxr] at hx
    exact fun hin => h.fresh x made stalls hx ((hhanded x hxr).1 hin)
  · subst hxr
    simpa using halive hpending
  · rw [Threads.set_locals_ne hxr]
    exact h.alive x ((hstatus x hxr).symm.trans hpending)
  · subst hxr
    exact hchance made stalls (by simpa using hx) hlast
  · rw [Threads.set_locals_ne hxr] at hx
    exact h.chance x made stalls hx ⟨(hstatus x hxr).symm.trans hlast.1, hlast.2⟩
  · subst hxr
    show (shared.campaign (roster.campaignOf x)).status ≠ _
    rw [hcampaign]
    exact (hloaded made stalls (by simpa using hx)).2
  · rw [Threads.set_locals_ne hxr] at hx
    show (shared.campaign (roster.campaignOf x)).status ≠ _
    rw [hcampaign]
    exact h.notCancelled x made stalls hx

/-- A job moves to a state that neither sends nor fails, with nothing written. -/
theorem DeliveryKept.moved (h : DeliveryKept roster w) (hshared : shared.status = w.shared.status)
    (hcampaign : shared.campaign = w.shared.campaign) (hhanded : shared.handed = w.shared.handed)
    (hnotSent : ∀ made stalls, w.locals r ≠ .answered .SENT made stalls)
    (hloaded : ∀ made stalls, job ≠ .loaded made stalls)
    (halive : w.status r = .PENDING → job ≠ .failed)
    (hchance : ∀ made stalls, job ≠ .answered .RATE_LIMITED made stalls) :
    DeliveryKept roster (w.set r shared job) := by
  have hpend : shared.status r = .PENDING → w.status r = .PENDING :=
    fun hpending => (congrFun hshared r).symm.trans hpending
  refine h.set (fun x _ => congrFun hshared x) hcampaign (fun x _ => by rw [hhanded])
    (hhanded ▸ h.once) (fun hin hpending => ?_)
    (fun made stalls he => absurd he (hloaded made stalls))
    (fun hpending => halive (hpend hpending)) fun made stalls he => absurd he (hchance made stalls)
  obtain ⟨made, stalls, hl⟩ := h.spent r (hhanded ▸ hin) (hpend hpending)
  exact absurd hl (hnotSent made stalls)

/-- The outcome of a job is recorded, and the job completes. -/
theorem DeliveryKept.recorded (h : DeliveryKept roster w) {status : DeliveryStatus}
    (hstatus : status ≠ .PENDING) :
    DeliveryKept roster (w.set r (recordDelivery w.shared r status) .completed) :=
  h.set (fun _ hx => recordDelivery_status_ne hx) recordDelivery_campaign
    (fun _ _ => by rw [recordDelivery_handed]) (by rw [recordDelivery_handed]; exact h.once)
    (fun _ hpending => absurd hpending (recordDelivery_status hstatus)) nofun nofun nofun

/-- The campaigns move, and the recipients with them only away from PENDING. -/
theorem DeliveryKept.campaigns (h : DeliveryKept roster w)
    (hhanded : shared.handed = w.shared.handed)
    (hstatus : ∀ x, shared.status x = .PENDING → w.status x = .PENDING)
    (hcampaign : ∀ x made stalls, w.locals x = .loaded made stalls →
      (shared.campaign (roster.campaignOf x)).status ≠ .CANCELLED) :
    DeliveryKept roster { w with shared } :=
  ⟨hhanded ▸ h.once, fun x hx hpending => h.spent x (hhanded ▸ hx) (hstatus x hpending),
    fun x made stalls hx hin => h.fresh x made stalls hx (hhanded ▸ hin),
    fun x hpending => h.alive x (hstatus x hpending),
    fun x made stalls hx hlast => h.chance x made stalls hx ⟨hstatus x hlast.1, hlast.2⟩, hcampaign⟩

theorem finalStatus_ne (s : DeliveryShared) (c : CampaignId) :
    finalStatus roster s c ≠ .CANCELLED := by
  simp only [finalStatus]
  split
  · simp
  · split <;> simp

theorem setCampaign_status {s : DeliveryShared} {f : CampaignState → CampaignState}
    {d : CampaignId} (hf : (f (s.campaign c)).status = (s.campaign c).status ∨
      (f (s.campaign c)).status ≠ .CANCELLED)
    (hd : (s.campaign d).status ≠ .CANCELLED) :
    ((setCampaign s c f).campaign d).status ≠ .CANCELLED := by
  by_cases hdc : d = c
  · subst hdc
    rw [show (setCampaign s d f).campaign d = f (s.campaign d) from Function.update_self ..]
    rcases hf with hsame | hne
    · rw [hsame]
      exact hd
    · exact hne
  · rw [show (setCampaign s c f).campaign d = s.campaign d from Function.update_of_ne hdc ..]
    exact hd

theorem dispatched_status {s : DeliveryShared} {d : CampaignId}
    (hd : (s.campaign d).status ≠ .CANCELLED) : (dispatched roster s d).status ≠ .CANCELLED := by
  have hpromoted : (promoted s d).status ≠ .CANCELLED := by
    unfold promoted
    split
    · nofun
    · exact hd
  unfold dispatched
  split
  · exact finalStatus_ne s d
  · exact hpromoted

theorem retried_ne_loaded {made' stalls' : Nat} : retried made stalls ≠ .loaded made' stalls' := by
  unfold retried
  split <;> nofun

theorem retried_ne_answered {outcome : DeliveryOutcome} {made' stalls' : Nat} :
    retried made stalls ≠ .answered outcome made' stalls' := by
  unfold retried
  split <;> nofun

/-- Another attempt, where it is not the last one of a PENDING recipient. -/
theorem DeliveryKept.retry (h : DeliveryKept roster w)
    (hnotSent : ∀ made stalls, w.locals r ≠ .answered .SENT made stalls)
    (hlast : ¬ LastChance w r made) :
    DeliveryKept roster (w.set r w.shared (retried made stalls)) := by
  refine h.moved rfl rfl rfl hnotSent (fun _ _ => retried_ne_loaded) (fun hpending => ?_)
    fun _ _ => retried_ne_answered
  have hleft : made + 1 < ATTEMPTS := by
    by_contra hge
    exact hlast ⟨hpending, Nat.not_lt.1 hge⟩
  rw [retried, if_pos hleft]
  nofun

theorem DeliveryKept.step (h : DeliveryKept roster w) {m : DeliveryMove}
    (hg : SendsSafely roster w m) (hs : Step roster w m w') : DeliveryKept roster w' := by
  unfold Step exec at hs
  cases m with
  | confirm c =>
      simp only at hs
      split at hs
      · obtain rfl := Option.some.inj hs
        exact h.campaigns rfl (fun _ hp => hp) fun x made stalls hx =>
          setCampaign_status (.inr nofun) (h.notCancelled x made stalls hx)
      · cases hs
  | cancel c =>
      simp only at hs
      split at hs
      · obtain rfl := Option.some.inj hs
        refine h.campaigns rfl (fun x hp => ?_) fun x made stalls hx => ?_
        · by_contra hne
          rw [show (cancelled roster w.shared c).status x = w.status x from
            if_neg fun hand => hne hand.2] at hp
          exact hne hp
        · have hother : roster.campaignOf x ≠ c := hg x made stalls hx
          have hsame : (cancelled roster w.shared c).campaign (roster.campaignOf x) =
              w.campaign (roster.campaignOf x) := Function.update_of_ne hother ..
          rw [hsame]
          exact h.notCancelled x made stalls hx
      · cases hs
  | pause c | resume c =>
      obtain rfl := Option.some.inj hs
      exact h.campaigns rfl (fun _ hp => hp) fun x made stalls hx =>
        setCampaign_status (.inl rfl) (h.notCancelled x made stalls hx)
  | dispatch =>
      obtain rfl := Option.some.inj hs
      exact h.campaigns rfl (fun _ hp => hp) fun x made stalls hx =>
        dispatched_status (h.notCancelled x made stalls hx)
  | add r =>
      simp only at hs
      split at hs
      · split at hs
        · next hl =>
            obtain rfl := Option.some.inj hs
            exact h.moved rfl rfl rfl (by simp [hl]) nofun nofun nofun
        · obtain rfl := Option.some.inj hs
          exact h.set (fun _ _ => rfl) rfl (fun _ _ => Iff.rfl) h.once (h.spent r)
            (fun made stalls hl => ⟨h.fresh r made stalls hl, h.notCancelled r made stalls hl⟩)
            (h.alive r) (h.chance r)
      · cases hs
  | load r reachable =>
      cases hl : w.locals r with
      | waiting made stalls =>
          simp only [hl] at hs
          split at hs
          · next hok =>
              obtain ⟨hpending, -, hsending⟩ := hok
              obtain rfl := Option.some.inj hs
              have hfresh : r ∉ w.shared.handed := by
                intro hin
                obtain ⟨made', stalls', hl'⟩ := h.spent r hin hpending
                rw [hl] at hl'
                cases hl'
              refine h.set (fun _ _ => rfl) rfl (fun _ _ => Iff.rfl) h.once
                (fun hin => absurd hin hfresh) (fun made stalls _ => ⟨hfresh, ?_⟩) ?_ ?_
              · rw [hsending]
                nofun
              · intro _
                split <;> nofun
              · intro made stalls he
                split at he <;> cases he
          · obtain rfl := Option.some.inj hs
            exact h.moved rfl rfl rfl (by simp [hl]) nofun nofun nofun
      | none | loaded made stalls | answered outcome made stalls | completed | failed =>
          simp [hl] at hs
  | send r outcome =>
      cases hl : w.locals r with
      | loaded made stalls =>
          simp only [hl] at hs
          split at hs
          · cases hs
          · obtain rfl := Option.some.inj hs
            have hfresh := h.fresh r made stalls hl
            have hother : ∀ x, x ≠ r → (x ∈ (if outcome = .SENT then w.shared.handed ++ [r]
                else w.shared.handed) ↔ x ∈ w.shared.handed) := by
              intro x hx
              split <;> simp [hx]
            have hnodup : (if outcome = .SENT then w.shared.handed ++ [r]
                else w.shared.handed).Nodup := by
              split
              · exact List.nodup_append.2 ⟨h.once, List.nodup_singleton r, fun a ha b hb he =>
                  hfresh (List.mem_singleton.1 hb ▸ he ▸ ha)⟩
              · exact h.once
            refine h.set (fun _ _ => rfl) rfl hother hnodup (fun hin _ => ?_) nofun nofun ?_
            · by_cases hsent : outcome = .SENT
              · exact ⟨made, stalls, by rw [hsent]⟩
              · exact absurd (by simpa [hsent] using hin) hfresh
            · intro made' stalls' he
              obtain ⟨houtcome, rfl, -⟩ := SendJob.answered.inj he
              exact hg houtcome made stalls hl
      | none | waiting made stalls | answered outcome made stalls | completed | failed =>
          simp [hl] at hs
  | record r =>
      match hl : w.locals r with
      | .answered .SENT made stalls | .answered .BLOCKED made stalls
      | .answered .invalid made stalls =>
          simp only [hl] at hs
          obtain rfl := Option.some.inj hs
          exact h.recorded nofun
      | .answered .RATE_LIMITED made stalls =>
          simp only [hl] at hs
          obtain rfl := Option.some.inj hs
          exact h.retry (by simp [hl]) (h.chance r made stalls hl)
      | .answered .RETRY made stalls =>
          simp only [hl] at hs
          split at hs
          · obtain rfl := Option.some.inj hs
            exact h.recorded nofun
          · next hleft =>
              obtain rfl := Option.some.inj hs
              exact h.retry (by simp [hl]) fun hlast => hleft hlast.2
      | .none | .waiting _ _ | .loaded _ _ | .completed | .failed => simp [hl] at hs
  | throw r =>
      obtain ⟨hnotSent, hlast⟩ := hg
      match hl : w.locals r with
      | .waiting made stalls =>
          simp only [hl] at hs
          obtain rfl := Option.some.inj hs
          exact h.retry hnotSent (hlast made stalls (.inl hl))
      | .loaded made stalls =>
          simp only [hl] at hs
          obtain rfl := Option.some.inj hs
          exact h.retry hnotSent (hlast made stalls (.inr (.inl hl)))
      | .answered outcome made stalls =>
          simp only [hl] at hs
          obtain rfl := Option.some.inj hs
          exact h.retry hnotSent (hlast made stalls (.inr (.inr ⟨outcome, hl⟩)))
      | .none | .completed | .failed => simp [hl] at hs
  | crash r =>
      obtain ⟨hnotSent, hstall⟩ := hg
      have hmove : ∀ made stalls, (w.locals r = .loaded made stalls ∨
          ∃ outcome, w.locals r = .answered outcome made stalls) →
          DeliveryKept roster (w.set r w.shared
            (if stalls < MAX_STALLED then .waiting made (stalls + 1) else .failed)) := by
        intro made stalls hl
        refine h.moved rfl rfl rfl hnotSent ?_ (fun hpending => ?_) ?_
        · intro made' stalls'
          split <;> nofun
        · rw [if_pos (hstall made stalls hl hpending)]
          nofun
        · intro made' stalls'
          split <;> nofun
      match hl : w.locals r with
      | .loaded made stalls =>
          simp only [hl] at hs
          obtain rfl := Option.some.inj hs
          exact hmove made stalls (.inl hl)
      | .answered outcome made stalls =>
          simp only [hl] at hs
          obtain rfl := Option.some.inj hs
          exact hmove made stalls (.inr ⟨outcome, hl⟩)
      | .none | .waiting _ _ | .completed | .failed => simp [hl] at hs
  | expire r =>
      simp only at hs
      split at hs
      · next hl =>
          obtain rfl := Option.some.inj hs
          exact h.moved rfl rfl rfl (by simp [hl]) nofun nofun nofun
      · cases hs

theorem deliveryKept_init (h : w.Init) : DeliveryKept roster w := by
  obtain ⟨-, -, hhanded, -, hidle⟩ := h
  exact ⟨by simp [hhanded], by simp [hhanded], by simp [hidle], by simp [hidle], by simp [hidle],
    by simp [hidle]⟩

/-- A recipient that is no longer PENDING never changes. -/
theorem settled_step {m : DeliveryMove} (hs : Step roster w m w') (hr : w.status r ≠ .PENDING) :
    w'.status r = w.status r := by
  unfold Step exec at hs
  cases m with
  | cancel c =>
      simp only at hs
      split at hs
      · obtain rfl := Option.some.inj hs
        exact if_neg fun hand => hr hand.2
      · cases hs
  | record x =>
      simp only at hs
      repeat' split at hs
      all_goals first
        | (obtain rfl := Option.some.inj hs; exact recordDelivery_settled hr)
        | (obtain rfl := Option.some.inj hs; rfl)
        | cases hs
  | confirm c | pause c | resume c | dispatch | add x | load x reachable | send x outcome | throw x
  | crash x | expire x =>
      simp only at hs
      repeat' split at hs
      all_goals first
        | (obtain rfl := Option.some.inj hs; rfl)
        | cases hs

end Steps

/-! ## What can follow -/

/-- What follows by moves about one recipient alone. -/
structure OnlyOf (q : RecipientId) (w w' : DeliveryWorld) : Prop where
  follows : Follows roster w w'
  campaign : w'.shared.campaign = w.shared.campaign
  others : ∀ x, x ≠ q → w'.status x = w.status x ∧ w'.locals x = w.locals x

section Follow

variable {roster} {w w' w₁ : DeliveryWorld} {r q : RecipientId} {made stalls : Nat}
  {shared : DeliveryShared} {job : SendJob} {m : DeliveryMove}

open DeliveryWorld

theorem OnlyOf.trans (h : OnlyOf roster q w w₁) (h' : OnlyOf roster q w₁ w') :
    OnlyOf roster q w w' :=
  ⟨h.follows.trans h'.follows, h'.campaign.trans h.campaign, fun x hx =>
    ⟨(h'.others x hx).1.trans (h.others x hx).1, (h'.others x hx).2.trans (h.others x hx).2⟩⟩

/-- One move of a recipient's job. -/
theorem OnlyOf.of_exec (hg : SendsSafely roster w m)
    (hs : w.exec roster m = some (w.set q shared job))
    (hcampaign : shared.campaign = w.shared.campaign)
    (hstatus : ∀ x, x ≠ q → shared.status x = w.status x) :
    OnlyOf roster q w (w.set q shared job) :=
  ⟨.next (.start rfl) hg hs, hcampaign, fun x hx => ⟨hstatus x hx, Threads.set_locals_ne hx⟩⟩

/-- An outcome that a record settles. -/
def DeliveryOutcome.settles : DeliveryOutcome → Bool
  | .SENT | .BLOCKED | .invalid => true
  | .RATE_LIMITED | .RETRY => false

theorem resolve_answered (roster : Roster) (q : RecipientId) {outcome : DeliveryOutcome}
    (ho : outcome.settles = true)
    (hl : w.locals q = .answered outcome made stalls) :
    ∃ w', OnlyOf roster q w w' ∧ w'.status q ≠ .PENDING := by
  have hrecord : ∃ status, status ≠ .PENDING ∧ w.exec roster (.record q) =
      some (w.set q (recordDelivery w.shared q status) .completed) := by
    cases outcome with
    | SENT => exact ⟨.SENT, nofun, by unfold exec; simp only [hl]⟩
    | BLOCKED => exact ⟨.BLOCKED, nofun, by unfold exec; simp only [hl]⟩
    | invalid => exact ⟨.INVALID, nofun, by unfold exec; simp only [hl]⟩
    | RATE_LIMITED | RETRY => cases ho
  obtain ⟨status, hstatus, hexec⟩ := hrecord
  exact ⟨_, .of_exec (m := .record q) trivial hexec recordDelivery_campaign fun x hx =>
    recordDelivery_status_ne hx, recordDelivery_status hstatus⟩

theorem resolve_loaded (roster : Roster) (q : RecipientId)
    (hl : w.locals q = .loaded made stalls) :
    ∃ w', OnlyOf roster q w w' ∧ w'.status q ≠ .PENDING := by
  have hexec : w.exec roster (.send q .BLOCKED) =
      some (w.set q w.shared (.answered .BLOCKED made stalls)) := by
    unfold exec
    simp [hl]
  obtain ⟨w', hw', hsettled⟩ := resolve_answered roster q
    (w := w.set q w.shared (.answered .BLOCKED made stalls))
    (rfl : DeliveryOutcome.settles .BLOCKED = true) Threads.set_locals_self
  have hguard : SendsSafely roster w (.send q .BLOCKED) := fun he => nomatch he
  exact ⟨w', .trans (.of_exec hguard hexec rfl fun _ _ => rfl) hw', hsettled⟩

/-- The campaign of a recipient is being sent. -/
def DeliveryWorld.Sending (roster : Roster) (w : DeliveryWorld) (r : RecipientId) : Prop :=
  (w.campaign (roster.campaignOf r)).status = .SENDING ∧
    (w.campaign (roster.campaignOf r)).paused = false

theorem resolve_waiting (roster : Roster) (q : RecipientId)
    (hpending : w.status q = .PENDING) (hsending : w.Sending roster q)
    (hl : w.locals q = .waiting made stalls) :
    ∃ w', OnlyOf roster q w w' ∧ w'.status q ≠ .PENDING := by
  have hexec : w.exec roster (.load q true) = some (w.set q w.shared (.loaded made stalls)) := by
    unfold exec
    simp [hl, hpending, hsending.1, hsending.2]
  obtain ⟨w', hw', hsettled⟩ := resolve_loaded roster q
    (w := w.set q w.shared (.loaded made stalls)) Threads.set_locals_self
  exact ⟨w', .trans (.of_exec (m := .load q true) trivial hexec rfl fun _ _ => rfl) hw', hsettled⟩

theorem resolve_none (roster : Roster) (q : RecipientId)
    (hpending : w.status q = .PENDING) (hsending : w.Sending roster q)
    (hbatch : q ∈ w.shared.batch) (hl : w.locals q = .none) :
    ∃ w', OnlyOf roster q w w' ∧ w'.status q ≠ .PENDING := by
  have hexec : w.exec roster (.add q) =
      some (w.set q { w.shared with batch := w.shared.batch.erase q } (.waiting 0 0)) := by
    unfold exec
    simp [hl, hbatch]
  obtain ⟨w', hw', hsettled⟩ := resolve_waiting roster q
    (w := w.set q { w.shared with batch := w.shared.batch.erase q } (.waiting 0 0))
    hpending hsending Threads.set_locals_self
  exact ⟨w', .trans (.of_exec (m := .add q) trivial hexec rfl fun _ _ => rfl) hw', hsettled⟩

theorem resolve_completed (roster : Roster) (q : RecipientId)
    (hpending : w.status q = .PENDING) (hsending : w.Sending roster q)
    (hbatch : q ∈ w.shared.batch) (hl : w.locals q = .completed) :
    ∃ w', OnlyOf roster q w w' ∧ w'.status q ≠ .PENDING := by
  have hexec : w.exec roster (.expire q) = some (w.set q w.shared .none) := by
    unfold exec
    simp [hl]
  obtain ⟨w', hw', hsettled⟩ := resolve_none roster q
    (w := w.set q w.shared .none) hpending hsending hbatch Threads.set_locals_self
  exact ⟨w', .trans (.of_exec (m := .expire q) trivial hexec rfl fun _ _ => rfl) hw', hsettled⟩

/-- A recipient that a pass has read can be settled, whatever its job is doing. -/
theorem DeliveryKept.resolve (h : DeliveryKept roster w) (hpending : w.status q = .PENDING)
    (hsending : w.Sending roster q) (hbatch : q ∈ w.shared.batch) :
    ∃ w', OnlyOf roster q w w' ∧ w'.status q ≠ .PENDING := by
  have hretry : ∀ made stalls, w.exec roster (.record q) =
      some (w.set q w.shared (retried made stalls)) → made + 1 < ATTEMPTS →
        ∃ w', OnlyOf roster q w w' ∧ w'.status q ≠ .PENDING := by
    intro made stalls hexec hleft
    rw [retried, if_pos hleft] at hexec
    obtain ⟨w', hw', hsettled⟩ := resolve_waiting roster q
      (w := w.set q w.shared (.waiting (made + 1) stalls)) hpending hsending Threads.set_locals_self
    exact ⟨w', .trans (.of_exec (m := .record q) trivial hexec rfl fun _ _ => rfl) hw', hsettled⟩
  match hl : w.locals q with
  | .none => exact resolve_none roster q hpending hsending hbatch hl
  | .completed => exact resolve_completed roster q hpending hsending hbatch hl
  | .waiting made stalls => exact resolve_waiting roster q hpending hsending hl
  | .loaded made stalls => exact resolve_loaded roster q hl
  | .failed => exact absurd hl (h.alive q hpending)
  | .answered .SENT made stalls | .answered .BLOCKED made stalls | .answered .invalid made stalls =>
      exact resolve_answered roster q rfl hl
  | .answered .RATE_LIMITED made stalls =>
      refine hretry made stalls (by unfold exec; simp only [hl]) ?_
      by_contra hge
      exact h.chance q made stalls hl ⟨hpending, Nat.not_lt.1 hge⟩
  | .answered .RETRY made stalls =>
      by_cases hlast : ATTEMPTS ≤ made + 1
      · have hexec : w.exec roster (.record q) =
            some (w.set q (recordDelivery w.shared q .FAILED) .completed) := by
          unfold exec
          simp only [hl, if_pos hlast]
        exact ⟨_, .of_exec (m := .record q) trivial hexec recordDelivery_campaign fun x hx =>
          recordDelivery_status_ne hx, recordDelivery_status nofun⟩
      · exact hretry made stalls (by unfold exec; simp only [hl, if_neg hlast])
          (Nat.not_le.1 hlast)

theorem DeliveryKept.follows (h : DeliveryKept roster w) (hw : Follows roster w w') :
    DeliveryKept roster w' :=
  hw.invariant (I := DeliveryKept roster) (fun _ he => by rw [he]; exact h)
    fun _ _ _ hI hg hs => hI.step hg hs

/-! ## Nobody is stranded -/

/-- The work that is left: recipients PENDING, and campaigns not closed. -/
def remaining (roster : Roster) (w : DeliveryWorld) : Nat :=
  roster.recipients.countP (fun r => decide (w.status r = .PENDING)) +
    roster.campaigns.countP fun c =>
      decide ((w.campaign c).status = .QUEUED ∨ (w.campaign c).status = .SENDING)

theorem countP_lt {α : Type} {l : List α} {p p' : α → Bool} {a : α} (ha : a ∈ l)
    (hle : ∀ x ∈ l, p' x = true → p x = true) (hp : p a = true) (hp' : p' a = false) :
    l.countP p' < l.countP p := by
  induction l with
  | nil => cases ha
  | cons b l ih =>
      have hrest : l.countP p' ≤ l.countP p :=
        List.countP_mono_left fun x hx => hle x (List.mem_cons_of_mem _ hx)
      rcases List.mem_cons.1 ha with rfl | hl
      · rw [List.countP_cons_of_pos hp, List.countP_cons_of_neg (by simp [hp'])]
        omega
      · have hlt := ih hl fun x hx => hle x (List.mem_cons_of_mem _ hx)
        by_cases hb : p' b = true
        · rw [List.countP_cons_of_pos hb, List.countP_cons_of_pos (hle b (by simp) hb)]
          omega
        · rw [List.countP_cons_of_neg hb, List.countP_cons]
          omega

/-- The world after a pass has claimed and read. -/
def DeliveryWorld.passed (roster : Roster) (w : DeliveryWorld) : DeliveryWorld :=
  { w with shared := { w.shared with
    campaign := dispatched roster w.shared, batch := w.shared.batch ++ batchOf roster w.shared } }

/-- A pass leaves a campaign open only if it was open. -/
theorem open_of_dispatched {c : CampaignId}
    (h : (dispatched roster w.shared c).status = .QUEUED ∨
      (dispatched roster w.shared c).status = .SENDING) :
    (w.campaign c).status = .QUEUED ∨ (w.campaign c).status = .SENDING := by
  have hfinal : ∀ s, finalStatus roster s c ≠ .QUEUED ∧ finalStatus roster s c ≠ .SENDING := by
    intro s
    simp only [finalStatus]
    split
    · simp
    · split <;> simp
  unfold dispatched at h
  split at h
  · exact (h.elim (hfinal _).1 (hfinal _).2).elim
  · by_cases hq : (w.shared.campaign c).status = .QUEUED
    · exact .inl hq
    · rw [promoted, if_neg hq] at h
      exact h

/-- A campaign that is being sent and has somebody PENDING is still being sent after a pass. -/
theorem sending_of_passed (hr : r ∈ roster.recipients) (hpending : w.status r = .PENDING)
    (hactive : (promoted w.shared (roster.campaignOf r)).active = true) :
    (w.passed roster).Sending roster r := by
  have hsome : ¬ (roster.campaignOf r ∈ claimed roster w.shared ∧
      pendingOf roster w.shared (roster.campaignOf r) = []) := by
    rintro ⟨-, hnil⟩
    have hin : r ∈ pendingOf roster w.shared (roster.campaignOf r) :=
      List.mem_filter.2 ⟨hr, Bool.and_eq_true_iff.2 ⟨decide_eq_true rfl, decide_eq_true hpending⟩⟩
    rw [hnil] at hin
    cases hin
  have hsame : dispatched roster w.shared (roster.campaignOf r) =
      promoted w.shared (roster.campaignOf r) := by
    rw [dispatched, if_neg hsome]
  show (dispatched roster w.shared _).status = _ ∧ (dispatched roster w.shared _).paused = _
  rw [hsame]
  simpa [CampaignState.active] using hactive

theorem promoted_of_sending (h : w.Sending roster r) :
    (promoted w.shared (roster.campaignOf r)).active = true := by
  have hnot : ¬ (w.shared.campaign (roster.campaignOf r)).status = .QUEUED := by
    rw [show (w.shared.campaign (roster.campaignOf r)).status = .SENDING from h.1]
    nofun
  rw [promoted, if_neg hnot]
  have hstatus : (w.shared.campaign (roster.campaignOf r)).status = .SENDING := h.1
  have hpaused : (w.shared.campaign (roster.campaignOf r)).paused = false := h.2
  simp [CampaignState.active, hstatus, hpaused]

theorem Enqueued.of_follows (hw : Follows roster w w') (h : Enqueued roster w' r) :
    Enqueued roster w r := by
  obtain ⟨w₁, w₂, w₃, hfollows, hrest⟩ := h
  exact ⟨w₁, w₂, w₃, hw.trans hfollows, hrest⟩

/-- By induction on the work that is left: a pass reads the recipient, or closes a campaign, or
    reads another recipient, who can be settled first. -/
theorem DeliveryKept.enqueued (hr : r ∈ roster.recipients) : ∀ n, ∀ w : DeliveryWorld,
    remaining roster w ≤ n → DeliveryKept roster w → w.status r = .PENDING →
      w.Sending roster r → w.locals r = .none → Enqueued roster w r := by
  intro n
  induction n with
  | zero =>
      intro w hleft _ hpending
      have hcount : 0 < roster.recipients.countP fun r => decide (w.status r = .PENDING) :=
        List.countP_pos_iff.2 ⟨r, hr, by simpa using hpending⟩
      unfold remaining at hleft
      omega
  | succ n ih =>
      intro w hleft h hpending hsending hnone
      have hpass : Step roster w .dispatch (w.passed roster) := rfl
      have hkept : DeliveryKept roster (w.passed roster) := h.step (m := .dispatch) trivial hpass
      have hfollows : Follows roster w (w.passed roster) :=
        .next (i := .dispatch) (.start rfl) trivial hpass
      have hsending' : (w.passed roster).Sending roster r :=
        sending_of_passed hr hpending (promoted_of_sending hsending)
      by_cases hread : r ∈ batchOf roster w.shared
      · -- the pass reads the recipient
        have hbatch : r ∈ (w.passed roster).shared.batch := List.mem_append_right _ hread
        have hadd : (w.passed roster).exec roster (.add r) = some ((w.passed roster).set r
            { (w.passed roster).shared with batch := (w.passed roster).shared.batch.erase r }
            (.waiting 0 0)) := by
          have hl : (w.passed roster).locals r = .none := hnone
          unfold exec
          simp [hl, hbatch]
        exact ⟨w, _, _, .start rfl, hpass, hread, hadd, hnone, Threads.set_locals_self, hpending,
          hsending'⟩
      · by_cases hclosed : ∃ c ∈ claimed roster w.shared, pendingOf roster w.shared c = []
        · -- the pass closes a campaign
          obtain ⟨c, hc, hnil⟩ := hclosed
          obtain ⟨hmem, hactive⟩ := List.mem_filter.1 (List.mem_of_mem_take hc)
          have hopen : (w.campaign c).status = .QUEUED ∨ (w.campaign c).status = .SENDING := by
            by_cases hq : (w.shared.campaign c).status = .QUEUED
            · exact .inl hq
            · rw [promoted, if_neg hq] at hactive
              exact .inr (of_decide_eq_true (Bool.and_eq_true_iff.1 hactive).1)
          have hfewer : remaining roster (w.passed roster) < remaining roster w := by
            refine Nat.add_lt_add_left
              (countP_lt hmem (fun d _ hd => ?_) (by simpa using hopen) ?_) _
            · exact decide_eq_true (open_of_dispatched (of_decide_eq_true hd))
            · have hstatus : ((w.passed roster).campaign c).status =
                  finalStatus roster w.shared c := by
                show (dispatched roster w.shared c).status = _
                rw [dispatched, if_pos ⟨hc, hnil⟩]
              rw [hstatus]
              simp only [finalStatus]
              split
              · simp
              · split <;> simp
          exact (ih _ (by omega) hkept hpending hsending' hnone).of_follows hfollows
        · -- some other recipient was read, and can be settled first
          have hmine : roster.campaignOf r ∈ roster.campaigns.filter
              (fun c => (promoted w.shared c).active) :=
            List.mem_filter.2 ⟨roster.campaignOf_mem r hr, promoted_of_sending hsending⟩
          obtain ⟨c, hc⟩ : ∃ c, c ∈ claimed roster w.shared := by
            cases hfilter : roster.campaigns.filter (fun c => (promoted w.shared c).active) with
            | nil =>
                rw [hfilter] at hmine
                cases hmine
            | cons c rest =>
                refine ⟨c, ?_⟩
                rw [claimed, hfilter]
                exact List.mem_cons_self
          obtain ⟨q, hq⟩ : ∃ q, q ∈ (pendingOf roster w.shared c).take DISPATCH_BATCH := by
            cases hlist : pendingOf roster w.shared c with
            | nil => exact absurd ⟨c, hc, hlist⟩ hclosed
            | cons q rest => exact ⟨q, List.mem_cons_self⟩
          have hqbatch : q ∈ batchOf roster w.shared := List.mem_flatMap.2 ⟨c, hc, hq⟩
          obtain ⟨hqmem, hqmine⟩ := List.mem_filter.1 (List.mem_of_mem_take hq)
          obtain ⟨hqc, hqpending⟩ := Bool.and_eq_true_iff.1 hqmine
          obtain rfl := of_decide_eq_true hqc
          have hne : r ≠ q := fun he => hread (he ▸ hqbatch)
          have hqpending' : w.status q = .PENDING := of_decide_eq_true hqpending
          obtain ⟨w', hw', hsettled⟩ := hkept.resolve (q := q) hqpending'
            (sending_of_passed hqmem hqpending'
              (List.mem_filter.1 (List.mem_of_mem_take hc)).2)
            (List.mem_append_right _ hqbatch)
          have hfewer : remaining roster w' < remaining roster w := by
            have hrecipients : roster.recipients.countP (fun r => decide (w'.status r = .PENDING)) <
                roster.recipients.countP fun r => decide (w.status r = .PENDING) := by
              refine countP_lt hqmem (fun x _ hx => ?_) hqpending (by simpa using hsettled)
              by_cases hxq : x = q
              · exact absurd (of_decide_eq_true (hxq ▸ hx)) hsettled
              · rw [(hw'.others x hxq).1] at hx
                exact hx
            have hcampaigns : roster.campaigns.countP (fun c =>
                decide ((w'.campaign c).status = .QUEUED ∨ (w'.campaign c).status = .SENDING)) ≤
                roster.campaigns.countP fun c =>
                  decide ((w.campaign c).status = .QUEUED ∨ (w.campaign c).status = .SENDING) := by
              refine List.countP_mono_left fun d _ hd => ?_
              rw [DeliveryWorld.campaign, hw'.campaign] at hd
              exact decide_eq_true (open_of_dispatched (of_decide_eq_true hd))
            unfold remaining
            omega
          have hsending'' : w'.Sending roster r := by
            rw [DeliveryWorld.Sending, DeliveryWorld.campaign, hw'.campaign]
            exact hsending'
          exact (ih w' (by omega) (hkept.follows hw'.follows)
            ((hw'.others r hne).1.trans hpending) hsending''
            ((hw'.others r hne).2.trans hnone)).of_follows (hfollows.trans hw'.follows)

/-- A PENDING recipient of a campaign that is being sent has a live job, or a later pass adds
    one. -/
theorem DeliveryKept.notStranded (h : DeliveryKept roster w) (hr : r ∈ roster.recipients)
    (hpending : w.status r = .PENDING) (hsending : w.Sending roster r) :
    (w.locals r).Live ∨ Enqueued roster w r := by
  match hl : w.locals r with
  | .waiting made stalls | .loaded made stalls | .answered outcome made stalls =>
      exact .inl trivial
  | .none => exact .inr (DeliveryKept.enqueued hr _ w (Nat.le_refl _) h hpending hsending hl)
  | .failed => exact absurd hl (h.alive r hpending)
  | .completed =>
      -- the queue removes the completed job by its age
      have hexec : w.exec roster (.expire r) = some (w.set r w.shared .none) := by
        unfold exec
        simp [hl]
      have hfollows : Follows roster w (w.set r w.shared .none) :=
        .next (i := .expire r) (.start rfl) trivial hexec
      exact .inr ((DeliveryKept.enqueued hr _ _ (Nat.le_refl _) (h.follows hfollows) hpending
        hsending Threads.set_locals_self).of_follows hfollows)

/-- Campaign delivery, in runs without the accidents that `SendsSafely` names. -/
theorem delivered_once {tr : List (DeliveryWorld × DeliveryMove × DeliveryWorld)}
    (h : Run DeliveryWorld.Init (DeliveryWorld.Step roster) (SendsSafely roster) tr w) :
    ∀ x ∈ tr, DeliveredOnce roster x :=
  h.steps (P := fun w m w' => DeliveredOnce roster (w, m, w')) fun w m w' hw hg hs => by
    have hbefore : DeliveryKept roster w := hw.invariant (I := DeliveryKept roster)
      (fun _ h => deliveryKept_init h) fun _ _ _ hI hg hs => hI.step hg hs
    have hafter := hbefore.step hg hs
    refine ⟨hafter.once, fun r hr => settled_step hs hr, ?_, fun r hr hpending hsending hpaused =>
      hafter.notStranded hr hpending ⟨hsending, hpaused⟩⟩
    rintro r outcome rfl
    match hl : w.locals r with
    | .loaded made stalls => exact hbefore.notCancelled r made stalls hl
    | .none | .waiting _ _ | .answered _ _ _ | .completed | .failed =>
        unfold DeliveryWorld.Step exec at hs
        simp [hl] at hs

/-- A job that failed is never added again. -/
theorem failed_step {m : DeliveryMove} (hs : Step roster w m w') (hr : w.locals r = .failed) :
    w'.locals r = .failed := by
  have hother : ∀ {q shared job}, some (w.set q shared job) = some w' → q ≠ r →
      w'.locals r = .failed := by
    intro q shared job hset hne
    obtain rfl := Option.some.inj hset
    rw [Threads.set_locals_ne (Ne.symm hne)]
    exact hr
  unfold Step exec at hs
  cases m with
  | confirm c | cancel c =>
      simp only at hs
      split at hs
      · obtain rfl := Option.some.inj hs
        exact hr
      · cases hs
  | pause c | resume c | dispatch =>
      obtain rfl := Option.some.inj hs
      exact hr
  | add q =>
      simp only at hs
      split at hs
      · by_cases hq : q = r
        · -- the id exists
          subst hq
          rw [hr] at hs
          obtain rfl := Option.some.inj hs
          exact Threads.set_locals_self
        · split at hs <;> exact hother hs hq
      · cases hs
  | load q _ | send q _ | record q | throw q | crash q | expire q =>
      have hq : q ≠ r := by
        rintro rfl
        simp [hr] at hs
      simp only at hs
      split at hs <;>
        first
        | exact hother hs hq
        | cases hs
        | (split at hs <;> first | exact hother hs hq | cases hs)

end Follow

/-- One campaign, of two recipients. -/
def demoRoster : Roster where
  campaigns := [1]
  recipients := [1, 2]
  campaignOf _ := 1
  campaignOf_mem _ _ := List.mem_singleton_self 1

/-- No worker dies, nothing is cancelled, and no last attempt is rate limited. -/
def sendsSafely (w : DeliveryWorld) : DeliveryMove → Bool
  | .cancel _ | .throw _ | .crash _ => false
  | .send r outcome =>
    match w.locals r with
    | .loaded made _ => decide (outcome = .RATE_LIMITED → made + 1 < ATTEMPTS)
    | _ => true
  | _ => true

theorem sendsSafely_of {roster : Roster} {w : DeliveryWorld} {m : DeliveryMove}
    (h : sendsSafely w m = true) : SendsSafely roster w m := by
  match m with
  | .cancel _ | .throw _ | .crash _ => cases h
  | .confirm _ | .pause _ | .resume _ | .dispatch | .add _ | .load _ _ | .record _ | .expire _ =>
      trivial
  | .send r outcome =>
      intro ho made stalls hl hlast
      rw [sendsSafely, hl] at h
      exact absurd (of_decide_eq_true h ho) (Nat.not_lt.2 hlast.2)

/-- The first recipient is rate limited once; the campaign is paused before the second one is
    loaded, and the second one sent after it is resumed. -/
def pausedMoves : List DeliveryMove :=
  [.confirm 1, .dispatch, .add 1, .add 2, .load 1 true, .send 1 .RATE_LIMITED, .record 1,
    .load 1 true, .send 1 .SENT, .record 1, .pause 1, .load 2 true, .resume 1, .expire 2,
    .dispatch, .add 2, .load 2 true, .send 2 .SENT, .record 2, .dispatch]

theorem delivered_once_paused :
    ∃ (tr : List (DeliveryWorld × DeliveryMove × DeliveryWorld)) (w : DeliveryWorld),
    (∀ x ∈ tr, DeliveredOnce demoRoster x) ∧ tr.length = 20 ∧ w.shared.handed = [1, 2] ∧
      (w.campaign 1).status = .COMPLETED := by
  have hplay : guardList (DeliveryWorld.exec demoRoster) sendsSafely .initial pausedMoves = true ∧
      (traceList (DeliveryWorld.exec demoRoster) .initial pausedMoves).length = 20 ∧
      (runList (DeliveryWorld.exec demoRoster) .initial pausedMoves).any (fun w =>
        decide (w.shared.handed = [1, 2] ∧ (w.campaign 1).status = .COMPLETED)) = true := by
    decide
  obtain ⟨w, hw, hsent⟩ := (Option.any_eq_true _ _).1 hplay.2.2
  have hrun : Run DeliveryWorld.Init (DeliveryWorld.Step demoRoster) (SendsSafely demoRoster)
      (traceList (DeliveryWorld.exec demoRoster) .initial pausedMoves) w :=
    run_of_runList (g := sendsSafely) (fun _ _ _ h => h) (fun _ _ => sendsSafely_of)
    (.start DeliveryWorld.init_initial) hplay.1 hw
  exact ⟨_, w, delivered_once hrun, hplay.2.1, of_decide_eq_true hsent⟩

/-- The first recipient is rate limited on every attempt of its job. -/
def limitedMoves : List DeliveryMove :=
  [.confirm 1, .dispatch, .add 1] ++
    (List.replicate ATTEMPTS [.load 1 true, .send 1 .RATE_LIMITED, .record 1]).flatten

/-- Its campaign is being sent and the recipient PENDING, and its failed job keeps every later
    pass from adding another one. -/
theorem recipient_stranded : ∃ w,
    Reachable DeliveryWorld.Init (DeliveryWorld.Step demoRoster) w ∧ w.status 1 = .PENDING ∧
    (w.campaign 1).status = .SENDING ∧ (w.campaign 1).paused = false ∧
    ∀ w', Reachable (· = w) (DeliveryWorld.Step demoRoster) w' → w'.locals 1 = .failed := by
  have hplay : (runList (DeliveryWorld.exec demoRoster) .initial limitedMoves).any (fun w =>
      decide (w.status 1 = .PENDING ∧ (w.campaign 1).status = .SENDING ∧
        (w.campaign 1).paused = false ∧ w.locals 1 = .failed)) = true := by
    decide
  obtain ⟨w, hw, hleft⟩ := (Option.any_eq_true _ _).1 hplay
  obtain ⟨hpending, hsending, hpaused, hfailed⟩ := of_decide_eq_true hleft
  refine ⟨w, reachable_of_runList (fun _ _ _ h => h) (.start DeliveryWorld.init_initial) hw,
    hpending, hsending, hpaused, fun w' hw' => ?_⟩
  exact hw'.invariant (I := fun w => w.locals 1 = .failed) (fun _ he => he ▸ hfailed)
    fun _ _ _ hI _ hs => failed_step hs hI

end Delivery

end Paayatam
