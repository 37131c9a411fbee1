/-
  Paayatam.Messaging.Announcements

  `MessagingService.createCampaign` and `confirm`, and the two announcements
  that call them, step by step.

  A campaign is inserted, its recipients are written a page at a time, and it
  is confirmed, each in a statement of its own.  A process may die between any
  two of them, and several may be at work on one key.  The users an audience
  selects do not change meanwhile, so the cursor of a page is the number of
  rows before it.
-/

import Paayatam.Types
import Paayatam.Lib.System
import Paayatam.Lib.Threads

namespace Paayatam

open Lib

namespace Messaging

/-! ## The tables -/

/-- `idempotency_key`, one constructor for each key function. -/
inductive CampaignKey where
  /-- `releaseAnnouncementKey` -/
  | release (version : String)
  /-- `cityLaunchKey` -/
  | city (id : CityId)
  /-- The key a request brings. -/
  | request (key : String)
  deriving DecidableEq

/-- The columns of `message_campaign` that creation and confirmation use, with the rows of
    `message_recipient` that belong to it. -/
structure Campaign where
  /-- No longer a DRAFT. -/
  confirmed : Bool
  estimatedRecipients : Nat
  recipients : List UserId
  deriving DecidableEq

/-- The users an audience selects, by id. -/
abbrev Audience := {users : List UserId // users.Nodup}

def PAGE : Nat := 1000

/-! ## The system -/

inductive CampaignPhase where
  /-- Nothing was found under the key; the insert is next. -/
  | creating
  /-- The campaign is inserted; so many users are read, and so many rows written. -/
  | materialising (read created : Nat)
  /-- Every page is written; the estimate is next. -/
  | estimating (created : Nat)
  /-- The campaign is there as a DRAFT; the confirmation is next. -/
  | confirming
  /-- The campaign is confirmed; the city is stamped next. -/
  | stamping

/-- A call in progress: an announcement, or `createCampaign` for a request. -/
structure CampaignCall where
  key : CampaignKey
  phase : CampaignPhase

structure CampaignShared where
  campaigns : CampaignKey → Option Campaign
  /-- `city.launchAnnouncedAt`, where it is set. -/
  launchAnnounced : List CityId
  /-- The keys of the calls that came to their end. -/
  ended : List CampaignKey

abbrev CampaignWorld := Threads Nat CampaignShared (Option CampaignCall)

inductive CampaignMove where
  /-- Call `i` looks its key up; an announcement of a city only while it is due. -/
  | begin (i : Nat) (key : CampaignKey)
  /-- Call `i` inserts the campaign. -/
  | create (i : Nat)
  /-- Call `i` writes the next page of recipients. -/
  | page (i : Nat)
  | estimate (i : Nat)
  | confirm (i : Nat)
  | stamp (i : Nat)
  /-- The process of call `i` dies. -/
  | crash (i : Nat)
  /-- An operator confirms. -/
  | confirmByAdmin (key : CampaignKey)

/-- What a call does once the campaign is there as a DRAFT. -/
def CampaignKey.afterCreation : CampaignKey → Option CampaignPhase
  | .release _ | .city _ => some .confirming
  | .request _ => none

/-- What a call does once the campaign is confirmed. -/
def CampaignKey.afterConfirmation : CampaignKey → Option CampaignPhase
  | .city _ => some .stamping
  | .release _ | .request _ => none

/-- What the lookup of an announcement leads to; a request is created at once. -/
def phaseOnLookup (key : CampaignKey) (found : Option Campaign) : Option CampaignPhase :=
  match key, found with
  | .release _, none | .city _, none | .request _, _ => some .creating
  -- «already announced»
  | .release _, some _ => none
  | .city _, some campaign => some (if campaign.confirmed then .stamping else .confirming)

variable (audience : CampaignKey → Audience)

/-- The next page of an audience. -/
def pageFrom (key : CampaignKey) (read : Nat) : List UserId :=
  ((audience key).1.drop read).take PAGE

namespace CampaignWorld

def campaigns (w : CampaignWorld) : CampaignKey → Option Campaign := w.shared.campaigns

/-- Call `i` goes on with the phase, or comes to its end. -/
def goOn (w : CampaignWorld) (i : Nat) (shared : CampaignShared) (key : CampaignKey) :
    Option CampaignPhase → CampaignWorld
  | some phase => w.set i shared (some ⟨key, phase⟩)
  | none => w.set i { shared with ended := shared.ended ++ [key] } none

/-- The world with the campaign of a key written. -/
def put (s : CampaignShared) (key : CampaignKey) (campaign : Campaign) : CampaignShared :=
  { s with campaigns := Function.update s.campaigns key (some campaign) }

def exec (w : CampaignWorld) : CampaignMove → Option CampaignWorld
  | .begin i key =>
    match w.locals i, key with
    | some _, _ => none
    | none, .city id =>
      if id ∈ w.shared.launchAnnounced then some w
      else some (w.goOn i w.shared (.city id) (phaseOnLookup (.city id) (w.campaigns (.city id))))
    | none, key => some (w.goOn i w.shared key (phaseOnLookup key (w.campaigns key)))
  | .create i =>
    match w.locals i with
    | some ⟨key, .creating⟩ =>
      match w.campaigns key with
      -- the unique key answers: the campaign that is there is returned
      | some _ => some (w.goOn i w.shared key key.afterCreation)
      | none => some (w.goOn i (put w.shared key ⟨false, 0, []⟩) key (some (.materialising 0 0)))
    | _ => none
  | .page i =>
    match w.locals i with
    | some ⟨key, .materialising read created⟩ =>
      match w.campaigns key with
      | none => none
      | some campaign =>
        let page := pageFrom audience key read
        let fresh := page.filter fun user => user ∉ campaign.recipients
        let written := put w.shared key { campaign with recipients := campaign.recipients ++ fresh }
        if page.length < PAGE then
          some (w.goOn i written key (some (.estimating (created + fresh.length))))
        else some (w.goOn i written key
          (some (.materialising (read + page.length) (created + fresh.length))))
    | _ => none
  | .estimate i =>
    match w.locals i with
    | some ⟨key, .estimating created⟩ =>
      match w.campaigns key with
      | none => none
      | some campaign => some (w.goOn i
          (put w.shared key { campaign with estimatedRecipients := created }) key key.afterCreation)
    | _ => none
  | .confirm i =>
    match w.locals i with
    | some ⟨key, .confirming⟩ =>
      match w.campaigns key with
      | none => none
      | some campaign =>
        -- INVALID_STATE_TRANSITION: the call fails
        if campaign.confirmed then some (w.set i w.shared none)
        else some (w.goOn i (put w.shared key { campaign with confirmed := true }) key
          key.afterConfirmation)
    | _ => none
  | .stamp i =>
    match w.locals i with
    | some ⟨.city id, .stamping⟩ => some (w.goOn i
        { w.shared with launchAnnounced := id :: w.shared.launchAnnounced } (.city id) none)
    | _ => none
  | .crash i => (w.locals i).map fun _ => w.set i w.shared none
  | .confirmByAdmin key =>
    match w.campaigns key with
    | none => none
    | some campaign =>
      some { w with shared := put w.shared key { campaign with confirmed := true } }

def Step (w : CampaignWorld) (m : CampaignMove) (w' : CampaignWorld) : Prop :=
  w.exec audience m = some w'

/-- No campaign, and nobody at work. -/
def Init (w : CampaignWorld) : Prop :=
  (∀ key, w.campaigns key = none) ∧ w.shared.ended = [] ∧ ∀ i, w.locals i = none

def initial : CampaignWorld where
  shared := ⟨fun _ => none, [], []⟩
  locals _ := none

theorem init_initial : initial.Init := ⟨fun _ => rfl, rfl, fun _ => rfl⟩

/-- Nobody is at work on the key. -/
def Quiet (w : CampaignWorld) (key : CampaignKey) : Prop :=
  ∀ i, ∀ call ∈ w.locals i, call.key ≠ key

end CampaignWorld

/-- A death here leaves nothing behind, or something that a later call completes. -/
def CampaignCall.MayDie (call : CampaignCall) : Prop :=
  match call.phase with
  | .creating | .stamping => True
  | .materialising _ _ => False
  | .estimating _ | .confirming => ∀ version, call.key ≠ .release version

/-- A key is worked on by one call at a time, an operator confirms while nobody works on it, and
    no process dies while a campaign is partly written, nor before a release is confirmed. -/
def OneCallPerKey (w : CampaignWorld) : CampaignMove → Prop
  | .begin _ key | .confirmByAdmin key => w.Quiet key
  | .crash i => ∀ call ∈ w.locals i, call.MayDie
  | _ => True

/-! ## What survives -/

/-- The campaign of a key is all there. -/
def Campaign.Complete (key : CampaignKey) (campaign : Campaign) : Prop :=
  campaign.recipients = (audience key).1

/-- What holds of a key that nobody works on. -/
structure KeySettled (shared : CampaignShared) (key : CampaignKey) : Prop where
  complete : ∀ c, shared.campaigns key = some c → c.Complete audience key
  release : ∀ version, key = .release version → ∀ c, shared.campaigns key = some c →
    c.confirmed = true

/-- What a call has behind it. -/
def CampaignCall.Holds (shared : CampaignShared) (call : CampaignCall) : Prop :=
  match call.phase with
  | .creating => KeySettled audience shared call.key ∧
      ((∀ key, call.key ≠ .request key) → shared.campaigns call.key = none)
  | .materialising read created => ∃ c, shared.campaigns call.key = some c ∧
      c.confirmed = false ∧ c.recipients = (audience call.key).1.take read ∧ created = read
  | .estimating _ | .confirming => ∃ c, shared.campaigns call.key = some c ∧
      c.confirmed = false ∧ c.Complete audience call.key
  | .stamping => ∃ c, shared.campaigns call.key = some c ∧ c.confirmed = true ∧
      c.Complete audience call.key

/-- The invariant, key by key. -/
structure CampaignsKept (w : CampaignWorld) : Prop where
  quiet : ∀ key, w.Quiet key → KeySettled audience w.shared key
  /-- No campaign is confirmed with a part of its recipients. -/
  confirmed : ∀ key c, w.campaigns key = some c → c.confirmed = true → c.Complete audience key
  ended : ∀ key ∈ w.shared.ended, (∀ k, key ≠ .request k) →
    ∃ c, w.campaigns key = some c ∧ c.confirmed = true
  alone : ∀ i j, ∀ a ∈ w.locals i, ∀ b ∈ w.locals j, a.key = b.key → i = j
  own : ∀ i, ∀ call ∈ w.locals i, call.Holds audience w.shared

section Steps

variable {audience} {w w' : CampaignWorld} {i : Nat} {key : CampaignKey} {call : CampaignCall}
  {shared shared' : CampaignShared} {campaign : Campaign} {next : Option CampaignPhase}

theorem KeySettled.congr (h : KeySettled audience shared key)
    (hsame : shared'.campaigns key = shared.campaigns key) : KeySettled audience shared' key :=
  ⟨fun c hc => h.complete c (hsame ▸ hc), fun v hv c hc => h.release v hv c (hsame ▸ hc)⟩

theorem CampaignCall.Holds.congr (h : call.Holds audience shared)
    (hsame : shared'.campaigns call.key = shared.campaigns call.key) :
    call.Holds audience shared' := by
  obtain ⟨key, phase⟩ := call
  cases phase with
  | creating => exact ⟨h.1.congr hsame, fun hk => hsame.trans (h.2 hk)⟩
  | materialising read created | estimating created | confirming | stamping =>
      obtain ⟨c, hc, hrest⟩ := h
      exact ⟨c, hsame.trans hc, hrest⟩

/-- A move about one key: what it leaves to show of that key. -/
theorem CampaignsKept.change (key : CampaignKey) (h : CampaignsKept audience w)
    (hframe : ∀ k, k ≠ key → w'.campaigns k = w.campaigns k)
    (hothers : ∀ j, ∀ c, c.key ≠ key → (c ∈ w'.locals j ↔ c ∈ w.locals j))
    (hquiet : w'.Quiet key → KeySettled audience w'.shared key)
    (hconfirmed : ∀ c, w'.campaigns key = some c → c.confirmed = true → c.Complete audience key)
    (hkept : ∀ c, w.campaigns key = some c → c.confirmed = true →
      ∃ c', w'.campaigns key = some c' ∧ c'.confirmed = true)
    (hended : ∀ k ∈ w'.shared.ended, k ∈ w.shared.ended ∨ k = key ∧
      ((∀ r, key ≠ .request r) → ∃ c, w'.campaigns key = some c ∧ c.confirmed = true))
    (halone : ∀ i j, ∀ a ∈ w'.locals i, ∀ b ∈ w'.locals j, a.key = key → b.key = key → i = j)
    (hown : ∀ j, ∀ c ∈ w'.locals j, c.key = key → c.Holds audience w'.shared) :
    CampaignsKept audience w' := by
  refine ⟨fun k hk => ?_, fun k c hc hconf => ?_, fun k hk hrequest => ?_,
    fun i j a ha b hb hab => ?_, fun j c hc => ?_⟩
  · by_cases hkey : k = key
    · subst hkey
      exact hquiet hk
    · refine (h.quiet k fun j c hc hck => ?_).congr (hframe k hkey)
      exact hk j c ((hothers j c fun he => hkey (hck.symm.trans he)).2 hc) hck
  · by_cases hkey : k = key
    · subst hkey
      exact hconfirmed c hc hconf
    · exact h.confirmed k c ((hframe k hkey).symm.trans hc) hconf
  · rcases hended k hk with hold | ⟨rfl, hnew⟩
    · obtain ⟨c, hc, hconf⟩ := h.ended k hold hrequest
      by_cases hkey : k = key
      · subst hkey
        exact hkept c hc hconf
      · exact ⟨c, (hframe k hkey).trans hc, hconf⟩
    · exact hnew hrequest
  · by_cases hkey : a.key = key
    · exact halone i j a ha b hb hkey (hab ▸ hkey)
    · have hkey' : b.key ≠ key := hab ▸ hkey
      exact h.alone i j a ((hothers i a hkey).1 ha) b ((hothers j b hkey').1 hb) hab
  · by_cases hkey : c.key = key
    · exact hown j c hc hkey
    · exact (h.own j c ((hothers j c hkey).1 hc)).congr (hframe _ hkey)

/-- Call `i` is the only one on the key, if it is on a key at all. -/
def CampaignWorld.Only (w : CampaignWorld) (i : Nat) (key : CampaignKey) : Prop :=
  (∀ c ∈ w.locals i, c.key = key) ∧ ∀ j, j ≠ i → ∀ c ∈ w.locals j, c.key ≠ key

theorem CampaignsKept.only (h : CampaignsKept audience w) (hl : w.locals i = some call) :
    w.Only i call.key := by
  refine ⟨fun c hc => ?_, fun j hj c hc hkey => hj (h.alone j i c hc call hl hkey)⟩
  rw [Option.some.inj (hl.symm.trans hc)]

/-- Call `i` moves on, to a phase of its key or to nothing. -/
theorem CampaignsKept.set (h : CampaignsKept audience w) (honly : w.Only i key)
    {l : Option CampaignCall} (hl : ∀ c ∈ l, c.key = key ∧ c.Holds audience shared)
    (hframe : ∀ k, k ≠ key → shared.campaigns k = w.campaigns k)
    (hquiet : l = none → KeySettled audience shared key)
    (hconfirmed : ∀ c, shared.campaigns key = some c → c.confirmed = true →
      c.Complete audience key)
    (hkept : ∀ c, w.campaigns key = some c → c.confirmed = true →
      ∃ c', shared.campaigns key = some c' ∧ c'.confirmed = true)
    (hended : ∀ k ∈ shared.ended, k ∈ w.shared.ended ∨ k = key ∧
      ((∀ r, key ≠ .request r) → ∃ c, shared.campaigns key = some c ∧ c.confirmed = true)) :
    CampaignsKept audience (w.set i shared l) := by
  -- a call on the key is call `i`
  have hmine : ∀ j, ∀ c ∈ (w.set i shared l).locals j, c.key = key → j = i ∧ c ∈ l := by
    intro j c hc hkey
    by_cases hj : j = i
    · subst hj
      exact ⟨rfl, by simpa using hc⟩
    · rw [Threads.set_locals_ne hj] at hc
      exact absurd hkey (honly.2 j hj c hc)
  refine h.change key hframe (fun j c hkey => ?_) (fun hq => hquiet ?_) hconfirmed hkept
    hended (fun a b x hx y hy hxk hyk => ?_) fun j c hc hkey => (hl c (hmine j c hc hkey).2).2
  · by_cases hj : j = i
    · subst hj
      rw [Threads.set_locals_self]
      exact ⟨fun hc => absurd (hl c hc).1 hkey, fun hc => absurd (honly.1 c hc) hkey⟩
    · rw [Threads.set_locals_ne hj]
  · cases hlocal : l with
    | none => rfl
    | some c =>
        have hc : c ∈ (w.set i shared l).locals i := by
          rw [Threads.set_locals_self, hlocal]
          rfl
        exact absurd (hl c (by rw [hlocal]; rfl)).1 (hq i c hc)
  · rw [(hmine a x hx hxk).1, (hmine b y hy hyk).1]

/-- Call `i` goes on with the next phase, or comes to its end. -/
theorem CampaignsKept.goOn (h : CampaignsKept audience w) (honly : w.Only i key)
    (hsame : shared.ended = w.shared.ended)
    (hframe : ∀ k, k ≠ key → shared.campaigns k = w.campaigns k)
    (hnext : ∀ phase ∈ next, CampaignCall.Holds audience shared ⟨key, phase⟩)
    (hdone : next = none → KeySettled audience shared key ∧
      ((∀ r, key ≠ .request r) → ∃ c, shared.campaigns key = some c ∧ c.confirmed = true))
    (hconfirmed : ∀ c, shared.campaigns key = some c → c.confirmed = true →
      c.Complete audience key)
    (hkept : ∀ c, w.campaigns key = some c → c.confirmed = true →
      ∃ c', shared.campaigns key = some c' ∧ c'.confirmed = true) :
    CampaignsKept audience (w.goOn i shared key next) := by
  cases next with
  | some phase =>
      refine h.set honly ?_ hframe (by simp) hconfirmed hkept fun k hk => .inl (hsame ▸ hk)
      rintro c ⟨⟩
      exact ⟨rfl, hnext phase rfl⟩
  | none =>
      obtain ⟨hsettled, hthere⟩ := hdone rfl
      refine h.set honly (by simp) hframe (fun _ => hsettled.congr rfl) hconfirmed hkept ?_
      intro k hk
      rcases List.mem_append.1 hk with hold | hnew
      · exact .inl (hsame ▸ hold)
      · exact .inr ⟨List.mem_singleton.1 hnew, hthere⟩

/-- Call `i` ends with nothing written. -/
theorem CampaignsKept.leave (h : CampaignsKept audience w) (honly : w.Only i key)
    (hsettled : KeySettled audience w.shared key) :
    CampaignsKept audience (w.set i w.shared none) :=
  h.set honly (by simp) (fun _ _ => rfl) (fun _ => hsettled) (h.confirmed key)
    (fun c hc hconf => ⟨c, hc, hconf⟩) fun _ hk => .inl hk

@[simp] theorem put_self : (CampaignWorld.put shared key campaign).campaigns key = some campaign :=
  Function.update_self ..

theorem put_ne {k : CampaignKey} (hk : k ≠ key) :
    (CampaignWorld.put shared key campaign).campaigns k = shared.campaigns k :=
  Function.update_of_ne hk ..

/-- The next page of an audience continues the rows before it. -/
theorem take_page (audience : CampaignKey → Audience) (key : CampaignKey) (read : Nat) :
    (audience key).1.take read ++ (pageFrom audience key read).filter
      (fun user => user ∉ (audience key).1.take read) =
        (audience key).1.take (read + (pageFrom audience key read).length) := by
  have hnodup := (audience key).2
  have hfresh : (pageFrom audience key read).filter
      (fun user => user ∉ (audience key).1.take read) = pageFrom audience key read := by
    refine List.filter_eq_self.2 fun user huser => ?_
    have hdrop : user ∈ (audience key).1.drop read := List.mem_of_mem_take huser
    have hdisjoint := List.disjoint_take_drop hnodup (Nat.le_refl read)
    simpa using fun htake => hdisjoint htake hdrop
  have hlength : (pageFrom audience key read).length ≤ (audience key).1.length - read := by
    rw [pageFrom, List.length_take, List.length_drop]
    omega
  rw [hfresh, List.take_add, pageFrom, List.length_take]
  congr 1
  rw [List.take_eq_take_iff, List.length_drop]
  omega

/-- A page that is not full is the last one. -/
theorem take_last_page {read : Nat} (h : (pageFrom audience key read).length < PAGE) :
    (audience key).1.take (read + (pageFrom audience key read).length) = (audience key).1 := by
  have hlength : (pageFrom audience key read).length =
      min PAGE ((audience key).1.length - read) := by
    rw [pageFrom, List.length_take, List.length_drop]
  apply List.take_of_length_le
  omega

theorem CampaignWorld.Only.of_quiet (h : w.Quiet key) (hl : w.locals i = none) :
    w.Only i key :=
  ⟨by simp [hl], fun j _ => h j⟩

theorem CampaignsKept.begin (h : CampaignsKept audience w) (hq : w.Quiet key)
    (hl : w.locals i = none) :
    CampaignsKept audience (w.goOn i w.shared key (phaseOnLookup key (w.campaigns key))) := by
  have hsettled := h.quiet key hq
  have honly : w.Only i key := .of_quiet hq hl
  refine h.goOn honly rfl (fun _ _ => rfl) (fun phase hphase => ?_) (fun hdone => ?_)
    (h.confirmed key) fun c hc hconf => ⟨c, hc, hconf⟩
  · cases key with
    | release version =>
        cases hfound : w.campaigns (.release version) with
        | none =>
            rw [hfound] at hphase
            obtain rfl := Option.some.inj hphase
            exact ⟨hsettled, fun _ => hfound⟩
        | some c =>
            rw [hfound] at hphase
            cases hphase
    | city id =>
        cases hfound : w.campaigns (.city id) with
        | none =>
            rw [hfound] at hphase
            obtain rfl := Option.some.inj hphase
            exact ⟨hsettled, fun _ => hfound⟩
        | some c =>
            rw [hfound] at hphase
            obtain rfl := Option.some.inj hphase
            have hcomplete := hsettled.complete c hfound
            by_cases hconf : c.confirmed = true
            · rw [if_pos hconf]
              exact ⟨c, hfound, hconf, hcomplete⟩
            · rw [if_neg hconf]
              exact ⟨c, hfound, Bool.eq_false_iff.2 hconf, hcomplete⟩
    | request r =>
        have hcreating : phase = .creating := by
          cases hfound : w.campaigns (.request r) <;>
            (rw [hfound] at hphase; exact (Option.some.inj hphase).symm)
        subst hcreating
        exact ⟨hsettled, fun hr => absurd rfl (hr r)⟩
  · refine ⟨hsettled, fun _ => ?_⟩
    cases key with
    | release version =>
        cases hfound : w.campaigns (.release version) with
        | none =>
            rw [hfound] at hdone
            cases hdone
        | some c => exact ⟨c, hfound, hsettled.release version rfl c hfound⟩
    | city id =>
        cases hfound : w.campaigns (.city id) <;> (rw [hfound] at hdone; cases hdone)
    | request r =>
        cases hfound : w.campaigns (.request r) <;> (rw [hfound] at hdone; cases hdone)

/-- The insert; for an announcement nothing can be there, for a request what is there is whole. -/
theorem CampaignsKept.create (h : CampaignsKept audience w)
    (hl : w.locals i = some ⟨key, .creating⟩)
    (hs : w.exec audience (.create i) = some w') : CampaignsKept audience w' := by
  unfold CampaignWorld.exec at hs
  simp only [hl] at hs
  have honly := h.only hl
  obtain ⟨hsettled, hnone⟩ := h.own i _ hl
  cases hfound : w.campaigns key with
  | some c =>
      simp only [hfound] at hs
      obtain rfl := Option.some.inj hs
      have hrequest : ¬ ∀ r, key ≠ .request r := fun hk => by
        have hnothing : w.campaigns key = none := hnone hk
        rw [hfound] at hnothing
        cases hnothing
      obtain ⟨r, rfl⟩ : ∃ r, key = .request r := by
        by_contra hk
        exact hrequest fun r he => hk ⟨r, he⟩
      exact h.goOn honly rfl (fun _ _ => rfl) (by rintro phase ⟨⟩)
        (fun _ => ⟨hsettled, fun hk => absurd rfl (hk r)⟩) (h.confirmed _)
        fun c hc hconf => ⟨c, hc, hconf⟩
  | none =>
      simp only [hfound] at hs
      obtain rfl := Option.some.inj hs
      refine h.goOn honly rfl (fun k hk => put_ne hk) ?_ (fun hdone => (nomatch hdone)) ?_ ?_
      · rintro phase ⟨⟩
        exact ⟨_, put_self, rfl, rfl, rfl⟩
      · intro c hc hconf
        obtain rfl := Option.some.inj (put_self.symm.trans hc)
        cases hconf
      · intro c hc
        have hthere : w.campaigns key = some c := hc
        rw [hfound] at hthere
        cases hthere

theorem CampaignsKept.page (h : CampaignsKept audience w) {read created : Nat}
    (hl : w.locals i = some ⟨key, .materialising read created⟩)
    (hs : w.exec audience (.page i) = some w') : CampaignsKept audience w' := by
  unfold CampaignWorld.exec at hs
  simp only [hl] at hs
  have honly := h.only hl
  obtain ⟨c, hc, hdraft, htaken, rfl⟩ := h.own i _ hl
  have hfound : w.campaigns key = some c := hc
  have hrows : c.recipients = (audience key).1.take created := htaken
  simp only [hfound] at hs
  have hwritten := take_page audience key created
  rw [← hrows] at hwritten
  have hfresh : ((pageFrom audience key created).filter fun user => user ∉ c.recipients).length =
      (pageFrom audience key created).length := by
    have hlen := congrArg List.length hwritten
    rw [List.length_append, hrows, List.length_take, List.length_take] at hlen
    have hpage : (pageFrom audience key created).length =
        min PAGE ((audience key).1.length - created) := by
      rw [pageFrom, List.length_take, List.length_drop]
    rw [hrows]
    omega
  have hdraft' : ∀ c', (CampaignWorld.put w.shared key { c with
      recipients := c.recipients ++ (pageFrom audience key created).filter
        fun user => user ∉ c.recipients }).campaigns key = some c' → c'.confirmed = false := by
    intro c' hc'
    obtain rfl := Option.some.inj (put_self.symm.trans hc')
    exact hdraft
  have hkept : ∀ c', w.campaigns key = some c' → c'.confirmed = true → False := by
    intro c' hc' hconf
    obtain rfl := Option.some.inj (hfound.symm.trans hc')
    rw [hdraft] at hconf
    cases hconf
  by_cases hlast : (pageFrom audience key created).length < PAGE
  · simp only [if_pos hlast] at hs
    obtain rfl := Option.some.inj hs
    refine h.goOn honly rfl (fun k hk => put_ne hk) ?_ (fun hdone => (nomatch hdone))
      (fun c' hc' hconf => ?_) fun c' hc' hconf => (hkept c' hc' hconf).elim
    · rintro phase ⟨⟩
      exact ⟨_, put_self, hdraft, hwritten.trans (take_last_page hlast)⟩
    · rw [hdraft' c' hc'] at hconf
      cases hconf
  · simp only [if_neg hlast] at hs
    obtain rfl := Option.some.inj hs
    refine h.goOn honly rfl (fun k hk => put_ne hk) ?_ (fun hdone => (nomatch hdone))
      (fun c' hc' hconf => ?_) fun c' hc' hconf => (hkept c' hc' hconf).elim
    · rintro phase ⟨⟩
      exact ⟨_, put_self, hdraft, hwritten, by rw [hfresh]⟩
    · rw [hdraft' c' hc'] at hconf
      cases hconf

/-- A DRAFT that is complete, with only its estimate or its confirmation written. -/
theorem CampaignsKept.write (h : CampaignsKept audience w) {old new : Campaign}
    (hl : w.locals i = some call) (hkey : call.key = key) (hold : w.campaigns key = some old)
    (hdraft : old.confirmed = false) (hcomplete : new.Complete audience key)
    (hnext : ∀ phase ∈ next, CampaignCall.Holds audience (CampaignWorld.put w.shared key new)
      ⟨key, phase⟩)
    (hdone : next = none → (∀ r, key ≠ .request r) → new.confirmed = true) :
    CampaignsKept audience (w.goOn i (CampaignWorld.put w.shared key new) key next) := by
  have honly : w.Only i key := hkey ▸ h.only hl
  refine h.goOn honly rfl (fun k hk => put_ne hk) hnext (fun hend => ⟨⟨fun c hc => ?_, ?_⟩,
    fun hr => ⟨new, put_self, hdone hend hr⟩⟩) (fun c hc _ => ?_) fun c hc hconf => ?_
  · obtain rfl := Option.some.inj (put_self.symm.trans hc)
    exact hcomplete
  · rintro version rfl c hc
    obtain rfl := Option.some.inj (put_self.symm.trans hc)
    exact hdone hend fun r he => (nomatch he)
  · obtain rfl := Option.some.inj (put_self.symm.trans hc)
    exact hcomplete
  · obtain rfl := Option.some.inj (hold.symm.trans hc)
    rw [hdraft] at hconf
    cases hconf

theorem CampaignsKept.estimate (h : CampaignsKept audience w) {created : Nat}
    (hl : w.locals i = some ⟨key, .estimating created⟩)
    (hs : w.exec audience (.estimate i) = some w') : CampaignsKept audience w' := by
  unfold CampaignWorld.exec at hs
  simp only [hl] at hs
  obtain ⟨c, hc, hdraft, hcomplete⟩ := h.own i _ hl
  have hfound : w.campaigns key = some c := hc
  simp only [hfound] at hs
  obtain rfl := Option.some.inj hs
  refine h.write hl rfl hfound hdraft hcomplete (fun phase hphase => ?_) fun hend hr => ?_
  · cases key with
    | release version | city id =>
        obtain rfl := Option.some.inj hphase
        exact ⟨_, put_self, hdraft, hcomplete⟩
    | request r => cases hphase
  · cases key with
    | release version | city id => cases hend
    | request r => exact absurd rfl (hr r)

theorem CampaignsKept.confirm (h : CampaignsKept audience w)
    (hl : w.locals i = some ⟨key, .confirming⟩)
    (hs : w.exec audience (.confirm i) = some w') : CampaignsKept audience w' := by
  unfold CampaignWorld.exec at hs
  simp only [hl] at hs
  obtain ⟨c, hc, hdraft, hcomplete⟩ := h.own i _ hl
  have hfound : w.campaigns key = some c := hc
  simp only [hfound, hdraft] at hs
  obtain rfl := Option.some.inj hs
  refine h.write hl rfl hfound hdraft hcomplete (fun phase hphase => ?_) fun _ _ => rfl
  cases key with
  | city id =>
      obtain rfl := Option.some.inj hphase
      exact ⟨_, put_self, rfl, hcomplete⟩
  | release version | request r => cases hphase

theorem CampaignsKept.step (h : CampaignsKept audience w) {m : CampaignMove}
    (hg : OneCallPerKey w m) (hs : CampaignWorld.Step audience w m w') :
    CampaignsKept audience w' := by
  have hexec : w.exec audience m = some w' := hs
  unfold CampaignWorld.Step CampaignWorld.exec at hs
  cases m with
  | begin i key =>
      cases hl : w.locals i with
      | some call => simp [hl] at hs
      | none =>
          simp only [hl] at hs
          cases key with
          | city id =>
              simp only at hs
              split at hs
              · obtain rfl := Option.some.inj hs
                exact h
              · obtain rfl := Option.some.inj hs
                exact h.begin hg hl
          | release version | request r =>
              obtain rfl := Option.some.inj hs
              exact h.begin hg hl
  | create i =>
      match hl : w.locals i with
      | none => simp [hl] at hs
      | some ⟨key, .creating⟩ => exact h.create hl hexec
      | some ⟨key, .materialising _ _⟩ | some ⟨key, .estimating _⟩ | some ⟨key, .confirming⟩
      | some ⟨key, .stamping⟩ => simp [hl] at hs
  | page i =>
      match hl : w.locals i with
      | none => simp [hl] at hs
      | some ⟨key, .materialising read created⟩ => exact h.page hl hexec
      | some ⟨key, .creating⟩ | some ⟨key, .estimating _⟩ | some ⟨key, .confirming⟩
      | some ⟨key, .stamping⟩ => simp [hl] at hs
  | estimate i =>
      match hl : w.locals i with
      | none => simp [hl] at hs
      | some ⟨key, .estimating created⟩ => exact h.estimate hl hexec
      | some ⟨key, .creating⟩ | some ⟨key, .materialising _ _⟩ | some ⟨key, .confirming⟩
      | some ⟨key, .stamping⟩ => simp [hl] at hs
  | confirm i =>
      match hl : w.locals i with
      | none => simp [hl] at hs
      | some ⟨key, .confirming⟩ => exact h.confirm hl hexec
      | some ⟨key, .creating⟩ | some ⟨key, .materialising _ _⟩ | some ⟨key, .estimating _⟩
      | some ⟨key, .stamping⟩ => simp [hl] at hs
  | stamp i =>
      match hl : w.locals i with
      | none => simp [hl] at hs
      | some ⟨.city id, .stamping⟩ =>
          simp only [hl] at hs
          obtain rfl := Option.some.inj hs
          obtain ⟨c, hc, hconf, hcomplete⟩ := h.own i _ hl
          refine h.goOn (h.only hl) rfl (fun _ _ => rfl) (by rintro phase ⟨⟩)
            (fun _ => ⟨⟨fun d hd => ?_, by rintro version ⟨⟩⟩, fun _ => ⟨c, hc, hconf⟩⟩)
            (h.confirmed _) fun d hd hdconf => ⟨d, hd, hdconf⟩
          obtain rfl := Option.some.inj (hc.symm.trans hd)
          exact hcomplete
      | some ⟨.release _, .stamping⟩ | some ⟨.request _, .stamping⟩
      | some ⟨_, .creating⟩ | some ⟨_, .materialising _ _⟩ | some ⟨_, .estimating _⟩
      | some ⟨_, .confirming⟩ => simp [hl] at hs
  | crash i =>
      obtain ⟨call, hl, rfl⟩ := Option.map_eq_some_iff.1 hs
      have hdie : call.MayDie := hg call hl
      have hown := h.own i call hl
      refine h.leave (h.only hl) ?_
      obtain ⟨key, phase⟩ := call
      cases phase with
      | creating => exact hown.1
      | materialising read created => exact hdie.elim
      | estimating created | confirming =>
          obtain ⟨c, hc, -, hcomplete⟩ := hown
          refine ⟨fun d hd => ?_, fun version hv => absurd hv (hdie version)⟩
          obtain rfl := Option.some.inj (hc.symm.trans hd)
          exact hcomplete
      | stamping =>
          obtain ⟨c, hc, hconf, hcomplete⟩ := hown
          refine ⟨fun d hd => ?_, fun version _ d hd => ?_⟩ <;>
            obtain rfl := Option.some.inj (hc.symm.trans hd)
          · exact hcomplete
          · exact hconf
  | confirmByAdmin key =>
      have hq : w.Quiet key := hg
      cases hfound : w.campaigns key with
      | none => simp [hfound] at hs
      | some c =>
          simp only [hfound] at hs
          obtain rfl := Option.some.inj hs
          have hcomplete := (h.quiet key hq).complete c hfound
          refine h.change key (fun k hk => put_ne hk) (fun _ _ _ => Iff.rfl)
            (fun _ => ⟨fun d hd => ?_, fun _ _ d hd => ?_⟩) (fun d hd _ => ?_)
            (fun _ _ _ => ⟨_, put_self, rfl⟩) (fun _ hk => .inl hk)
            (fun j k a ha b hb hak => absurd hak (hq j a ha)) fun j d hd hk => absurd hk (hq j d hd)
          · obtain rfl := Option.some.inj (put_self.symm.trans hd)
            exact hcomplete
          · obtain rfl := Option.some.inj (put_self.symm.trans hd)
            rfl
          · obtain rfl := Option.some.inj (put_self.symm.trans hd)
            exact hcomplete

theorem campaignsKept_init (h : w.Init) : CampaignsKept audience w := by
  obtain ⟨hnone, hended, hidle⟩ := h
  refine ⟨fun key _ => ⟨fun c hc => ?_, fun _ _ c hc => ?_⟩, fun key c hc => ?_, by simp [hended],
    by simp [hidle], by simp [hidle]⟩ <;>
    · have hthere : w.campaigns key = some c := hc
      rw [hnone key] at hthere
      cases hthere

/-- Announcements and creations survive: no confirmed campaign lacks a recipient; a campaign
    nobody is at work on has exactly its audience; and a release or a city whose announcement has
    come to its end has a confirmed campaign, the only one its key can have. -/
theorem campaigns_kept
    (h : Reach CampaignWorld.Init (CampaignWorld.Step audience) OneCallPerKey w) :
    (∀ key c, w.campaigns key = some c → c.confirmed = true → c.recipients = (audience key).1) ∧
      (∀ key, w.Quiet key → ∀ c, w.campaigns key = some c → c.recipients = (audience key).1) ∧
      ∀ key ∈ w.shared.ended, (∀ k, key ≠ .request k) →
        ∃ c, w.campaigns key = some c ∧ c.confirmed = true ∧ c.recipients = (audience key).1 := by
  have hkept : CampaignsKept audience w := h.invariant (I := CampaignsKept audience)
    (fun _ h => campaignsKept_init h) fun _ _ _ hI hg hs => hI.step hg hs
  refine ⟨hkept.confirmed, fun key hq => (hkept.quiet key hq).complete, fun key hk hr => ?_⟩
  obtain ⟨c, hc, hconf⟩ := hkept.ended key hk hr
  exact ⟨c, hc, hconf, hkept.confirmed key c hc hconf⟩

end Steps

/-! ## A crash that is made good, and crashes that are not -/

/-- The moves of call `0` alone; it dies only before the confirmation of a city. -/
def firstCampaigns (w : CampaignWorld) : CampaignMove → Bool
  | .begin i _ => decide (i = 0) && (w.locals 0).isNone
  | .create i | .page i | .estimate i | .confirm i | .stamp i => decide (i = 0)
  | .crash i => decide (i = 0) && (w.locals 0).all fun call => match call with
      | ⟨.city _, .confirming⟩ => true
      | _ => false
  | .confirmByAdmin _ => (w.locals 0).isNone

section FirstCampaigns

variable {audience} {w w' : CampaignWorld} {m : CampaignMove}

theorem others_of_firstCampaigns (hm : firstCampaigns w m = true)
    (hw : ∀ j, j ≠ 0 → w.locals j = none) (h : CampaignWorld.Step audience w m w') :
    ∀ j, j ≠ 0 → w'.locals j = none := by
  intro j hj
  -- whatever call `0` goes on with, the others stand still
  have hgoOn : ∀ shared key next, (w.goOn 0 shared key next).locals j = none := by
    intro shared key next
    cases next <;> simp [CampaignWorld.goOn, hj, hw j hj]
  unfold CampaignWorld.Step CampaignWorld.exec at h
  cases m with
  | begin i key | create i | page i | estimate i | confirm i | stamp i | crash i =>
      obtain rfl : i = 0 := by
        simp only [firstCampaigns, Bool.and_eq_true, decide_eq_true_eq] at hm
        omega
      simp only at h
      repeat' split at h
      all_goals first
        | (obtain rfl := Option.some.inj h; simp [hgoOn, hj, hw j hj])
        | (obtain ⟨_, _, rfl⟩ := Option.map_eq_some_iff.1 h; simp [hj, hw j hj])
        | cases h
  | confirmByAdmin key =>
      simp only at h
      split at h
      · cases h
      · obtain rfl := Option.some.inj h
        exact hw j hj

theorem oneCallPerKey_of_firstCampaigns (hm : firstCampaigns w m = true)
    (hw : ∀ j, j ≠ 0 → w.locals j = none) : OneCallPerKey w m := by
  have hquiet : ∀ key, (w.locals 0).isNone = true → w.Quiet key := by
    intro key hnone j call hcall
    by_cases hj : j = 0
    · rw [hj, Option.isNone_iff_eq_none.1 hnone] at hcall
      cases hcall
    · rw [hw j hj] at hcall
      cases hcall
  cases m with
  | begin i key =>
      simp only [firstCampaigns, Bool.and_eq_true] at hm
      exact hquiet key hm.2
  | confirmByAdmin key => exact hquiet key hm
  | create i | page i | estimate i | confirm i | stamp i => trivial
  | crash i =>
      simp only [firstCampaigns, Bool.and_eq_true, decide_eq_true_eq] at hm
      obtain ⟨rfl, hcall⟩ := hm
      intro call hl
      rw [show w.locals 0 = some call from hl] at hcall
      match call with
      | ⟨.city id, .confirming⟩ => exact fun version he => nomatch he

end FirstCampaigns

/-- Three users, whoever is asked for. -/
def demoAudience : CampaignKey → Audience := fun _ => ⟨[1, 2, 3], by decide⟩

/-- A city's announcement dies before it is confirmed; the next pass confirms it. -/
def launchMoves : List CampaignMove :=
  [.begin 0 (.city 5), .create 0, .page 0, .estimate 0, .crash 0, .begin 0 (.city 5), .confirm 0,
    .stamp 0]

theorem campaigns_kept_launch : ∃ w : CampaignWorld,
    (∀ key ∈ w.shared.ended, (∀ k, key ≠ .request k) →
      ∃ c, w.campaigns key = some c ∧ c.confirmed = true ∧
        c.recipients = (demoAudience key).1) ∧ w.shared.ended = [.city 5] := by
  have hplay : guardList (CampaignWorld.exec demoAudience) firstCampaigns .initial launchMoves =
        true ∧ (runList (CampaignWorld.exec demoAudience) .initial launchMoves).any
        (fun w => decide (w.shared.ended = [.city 5])) = true := by
    decide
  obtain ⟨w, hw, hended⟩ := (Option.any_eq_true _ _).1 hplay.2
  have hreach : Reach CampaignWorld.Init (CampaignWorld.Step demoAudience)
      (fun w m => firstCampaigns w m = true) w :=
    reach_of_runList (g := firstCampaigns) (fun _ _ _ h => h) (fun _ _ h => h)
    (.start CampaignWorld.init_initial) hplay.1 hw
  have hone : Reach CampaignWorld.Init (CampaignWorld.Step demoAudience) OneCallPerKey w :=
    hreach.mono_of (J := fun w => ∀ j, j ≠ 0 → w.locals j = none) (fun _ h j _ => h.2.2 j)
      (fun _ _ _ hJ hg hs => others_of_firstCampaigns hg hJ hs)
      fun _ _ _ hJ hg _ => oneCallPerKey_of_firstCampaigns hg hJ
  exact ⟨w, (campaigns_kept hone).2.2, of_decide_eq_true hended⟩

/-- A release, a city and a request, each of which dies right after its insert and is tried
    again. -/
def crashMoves : List CampaignMove :=
  [.begin 0 (.release "v1"), .create 0, .crash 0, .begin 0 (.release "v1"),
    .begin 0 (.city 5), .create 0, .crash 0, .begin 0 (.city 5), .confirm 0, .stamp 0,
    .begin 0 (.request "k"), .create 0, .crash 0, .begin 0 (.request "k"), .create 0]

/-- Every call has come to its end: the release is never confirmed, the city's campaign is
    confirmed without its recipients, and the request is answered with an empty campaign. -/
theorem campaign_left_behind : ∃ w,
    Reachable CampaignWorld.Init (CampaignWorld.Step demoAudience) w ∧
    w.shared.ended = [.release "v1", .city 5, .request "k"] ∧
    w.campaigns (.release "v1") = some ⟨false, 0, []⟩ ∧
    w.campaigns (.city 5) = some ⟨true, 0, []⟩ ∧
    w.campaigns (.request "k") = some ⟨false, 0, []⟩ := by
  have hplay : (runList (CampaignWorld.exec demoAudience) .initial crashMoves).any (fun w =>
      decide (w.shared.ended = [.release "v1", .city 5, .request "k"] ∧
        w.campaigns (.release "v1") = some ⟨false, 0, []⟩ ∧
        w.campaigns (.city 5) = some ⟨true, 0, []⟩ ∧
        w.campaigns (.request "k") = some ⟨false, 0, []⟩)) = true := by
    decide
  obtain ⟨w, hw, hleft⟩ := (Option.any_eq_true _ _).1 hplay
  exact ⟨w, reachable_of_runList (fun _ _ _ h => h) (.start CampaignWorld.init_initial) hw,
    of_decide_eq_true hleft⟩

end Messaging

end Paayatam
