/-
  Paayatam.Booking.EventCreation

  The row a new event is, and what was decided about its text on the way.

  Everything `create` does before it looks at the place leaves the database
  alone, so that the quota it was let through by and the row it inserts can be
  told apart when another creation comes between them.
-/

import Paayatam.Booking.World
import Paayatam.Lib.System
import Mathlib.Data.List.DropRight

namespace Paayatam

open Lib

/-! ## Trimmed text -/

/-- What is left after trimming starts and ends with something to keep. -/
theorem trim_toList (s : String) :
    (trim s).toList = (s.toList.dropWhile isTrimmed).rdropWhile isTrimmed := by
  rw [trim, String.toList_ofList, List.rdropWhile]

theorem trim_trim (s : String) : trim (trim s) = trim s := by
  rw [← String.toList_inj, trim_toList, trim_toList]
  have hfront : ∀ l : List Char, ((l.dropWhile isTrimmed).rdropWhile isTrimmed).dropWhile isTrimmed =
      (l.dropWhile isTrimmed).rdropWhile isTrimmed := by
    intro l
    rw [List.dropWhile_eq_self_iff]
    intro hpos
    -- the first character is that of the text trimmed at the front
    have hleading := List.rdropWhile_prefix isTrimmed (l := l.dropWhile isTrimmed)
    have hlen : 0 < (l.dropWhile isTrimmed).length := lt_of_lt_of_le hpos hleading.length_le
    rw [hleading.getElem hpos]
    exact List.dropWhile_get_zero_not isTrimmed l hlen
  rw [hfront, List.rdropWhile_idempotent]

/-- A label as a row keeps it: nothing to trim, and not empty. -/
def Tidy (label : Option String) : Prop := ∀ l ∈ label, trim l = l ∧ l ≠ ""

theorem tidy_trimmed (label : Option String) : Tidy ((label.map trim).filter (· ≠ "")) := by
  intro l hl
  simp only [Option.mem_def, Option.filter_eq_some_iff, Option.map_eq_some_iff,
    decide_eq_true_eq] at hl
  obtain ⟨⟨raw, -, rfl⟩, hne⟩ := hl
  exact ⟨trim_trim raw, hne⟩

/-- Trimming a tidy label changes nothing. -/
theorem Tidy.trimmed {label : Option String} (h : Tidy label) :
    (label.map trim).filter (· ≠ "") = label := by
  cases label with
  | none => rfl
  | some l =>
      obtain ⟨htrim, hne⟩ := h l rfl
      simp [htrim, hne]

/-! ## Places and categories -/

/-- The category is offered in the city, and has a label exactly when it allows one. -/
structure Offered (catalog : Catalog) (categoryId : CategoryId) (label : Option String)
    (cityId : CityId) : Prop where
  label : ∃ c, catalog.category categoryId = some c ∧ (label.isSome = true ↔ c.allowsCustomLabel = true)
  city : catalog.cityCategory categoryId = [] ∨ cityId ∈ catalog.cityCategory categoryId

theorem resolveLocation_spec {catalog : Catalog} {cityId c : CityId} {d d' : Option DistrictId}
    {launched : Bool} (h : resolveLocation catalog cityId d launched = .ok (c, d')) :
    c = cityId ∧ d' = d := by
  unfold resolveLocation at h
  obtain ⟨city, -, h⟩ := except_bind_eq_ok.1 h
  simp only [require_bind_eq_ok] at h
  obtain ⟨-, -, h⟩ := h
  cases d with
  | none =>
      obtain ⟨rfl, rfl⟩ := Prod.mk.inj (Except.ok.inj h)
      exact ⟨rfl, rfl⟩
  | some d =>
      obtain ⟨district, -, h⟩ := except_bind_eq_ok.1 h
      rw [require_bind_eq_ok] at h
      obtain ⟨rfl, rfl⟩ := Prod.mk.inj (Except.ok.inj h.2)
      exact ⟨rfl, rfl⟩

theorem resolveCategory_spec {catalog : Catalog} {k k' : CategoryId} {cityId : CityId}
    {label l : Option String} (h : resolveCategory catalog k cityId label = .ok (k', l)) :
    k' = k ∧ l = (label.map trim).filter (· ≠ "") ∧ Offered catalog k' l cityId := by
  unfold resolveCategory at h
  obtain ⟨category, hcategory, h⟩ := except_bind_eq_ok.1 h
  simp only [require_bind_eq_ok] at h
  obtain ⟨-, hcity, hneeds, hrefuses, h⟩ := h
  have hpair := Except.ok.inj h
  obtain rfl : k = k' := congrArg Prod.fst hpair
  obtain rfl : (label.map trim).filter (· ≠ "") = l := congrArg Prod.snd hpair
  refine ⟨rfl, rfl, ⟨category, ?_, ?_⟩, hcity⟩
  · cases hk : catalog.category k with
    | none => simp [hk] at hcategory
    | some c => simpa [hk] using hcategory
  · constructor
    · intro hsome
      by_contra hallows
      have hnone := hrefuses (by simpa using hallows)
      rw [hnone] at hsome
      cases hsome
    · exact hneeds

theorem tidy_resolveNeighbourhood (d : Option DistrictId) (label : Option String) :
    Tidy (resolveNeighbourhood d label).2 := by
  unfold resolveNeighbourhood
  split
  · intro l hl
    cases hl
  · exact tidy_trimmed label

/-! ## What is created -/

/-- The text `create` scans: what it was sent, with the labels as resolved. -/
def createContent (env : Env) (input : CreateEventInput) : Except AppError EventContent := do
  let (cityId, district) ← resolveLocation env.catalog input.cityId input.districtId true
  let (_, label) ← resolveCategory env.catalog input.categoryId cityId input.customCategoryLabel
  return { title := input.title, description := input.description, customCategoryLabel := label
           districtLabel := (resolveNeighbourhood district input.districtLabel).2 }

/-- The rest of `create`, from the location on, once the quota let the host through. -/
def finishCreate (env : Env) (hostUserId : UserId) (input : CreateEventInput) (seeded : Bool)
    (newId : EventId) : Act EventId := do
  let st := env.settings
  let (cityId, district) ← fromExcept (resolveLocation env.catalog input.cityId input.districtId true)
  let (categoryId, label) ← fromExcept
    (resolveCategory env.catalog input.categoryId cityId input.customCategoryLabel)
  let (districtId, districtLabel) := resolveNeighbourhood district input.districtLabel
  let decision := env.scanEventContent
    { title := input.title, description := input.description, customCategoryLabel := label
      districtLabel := districtLabel }
  let outcome := outcomeFor decision
  insertRow
    { id := newId, hostUserId := hostUserId, title := input.title
      description := input.description, categoryId := categoryId
      customCategoryLabel := label, cityId := cityId, districtId := districtId
      districtLabel := districtLabel, startsAt := input.startsAt, endsAt := input.endsAt
      hostAbsentAt := none, capacity := input.capacity, acceptedCount := 0
      genderPreference := input.genderPreference, minAge := input.minAge, maxAge := input.maxAge
      status := .DRAFT, moderationStatus := .PENDING, publishedAt := none
      isSeeded := seeded, requestCount := 0, version := 0, createdAt := env.now
      deletedAt := none : EventRow }
  assertEventTransition .DRAFT .PENDING_MODERATION (some newId)
  whenTx (outcome.status ≠ .PENDING_MODERATION)
    (assertEventTransition .PENDING_MODERATION outcome.status (some newId))
  updateRow newId fun e : EventRow =>
    { e with status := outcome.status, moderationStatus := outcome.moderationStatus
             publishedAt := if outcome.status = .PUBLISHED then some env.now else none }
  whenTx (decision ≠ .CLEAN) (openCase env newId)
  chargeHostSpend env hostUserId newId st.economy_event_create_coins .EVENT_CREATE_SPEND
    EVENT_CREATE_REASON (.eventCreateSpend newId)
  whenTx (outcome.status = .PUBLISHED ∧ env.channelPublishable = true)
    (chargeHostSpend env hostUserId newId st.economy_event_channel_publish_coins
      .CHANNEL_POST_SPEND EVENT_CHANNEL_POST_REASON (.channelPostSpend newId 0))
  return newId

/-- `create` is its checks, the quota, and the rest. -/
theorem create_eq (env : Env) (host : UserId) (input : CreateEventInput) (seeded : Bool)
    (e : EventId) : create env host input seeded e = (do
      fromExcept (assertScheduleSane input.startsAt input.endsAt env.now)
      assertHostCanAuthor env host
      assertAllowed env host .EVENT_CREATE
      whenTx (seeded = false) (assertWithinQuota env host)
      finishCreate env host input seeded e) := rfl

/-- The row `create` leaves, and what it scanned on the way. -/
structure CreatedAs (env : Env) (host : UserId) (input : CreateEventInput) (seeded : Bool)
    (e : EventId) (content : EventContent) (ev : EventRow) : Prop where
  id : ev.id = e
  hostUserId : ev.hostUserId = host
  isSeeded : ev.isSeeded = seeded
  createdAt : ev.createdAt = env.now
  scanned : createContent env input = .ok content
  startsAt : ev.startsAt = input.startsAt
  endsAt : ev.endsAt = input.endsAt
  title : ev.title = content.title
  description : ev.description = content.description
  customCategoryLabel : ev.customCategoryLabel = content.customCategoryLabel
  districtLabel : ev.districtLabel = content.districtLabel
  tidyCustom : Tidy ev.customCategoryLabel
  tidyDistrict : Tidy ev.districtLabel
  offered : Offered env.catalog ev.categoryId ev.customCategoryLabel ev.cityId
  status : ev.status = (outcomeFor (env.scanEventContent content)).status
  moderationStatus : ev.moderationStatus = (outcomeFor (env.scanEventContent content)).moderationStatus
  deletedAt : ev.deletedAt = none

theorem finishCreate_spec {env : Env} {host : UserId} {input : CreateEventInput} {seeded : Bool}
    {e r : EventId} {s s' : Db} (h : Runs (finishCreate env host input seeded e) s r s') :
    ∃ ev content, CreatedAs env host input seeded e content ev ∧
      s'.events.rows = s.events.rows ++ [ev] := by
  simp only [finishCreate, runs_fromExcept_bind, runs_bind (m := whenTx _ _), runs_insertRow_bind,
    runs_assertEventTransition_bind, runs_updateRow_bind] at h
  obtain ⟨⟨cityId, district⟩, hloc, ⟨k, label⟩, hcat, h⟩ := h
  obtain ⟨t, ht, -, _, s₃, hedge, x, hx, t', ht', _, s₄, hcase, h⟩ := h
  obtain rfl : s₃ = HasTable.setTable t s :=
    whenTx_rel (R := fun a b => b = a) rfl (fun hm => (runs_assertEventTransition.1 hm).2) hedge
  obtain ⟨hcases, -⟩ := whenTx_openCase_spec hcase
  rw [runs_bind] at h
  obtain ⟨_, s₅, hspend, h⟩ := h
  rw [runs_bind] at h
  obtain ⟨_, s₆, hpost, h⟩ := h
  rw [runs_pure] at h
  obtain ⟨-, rfl⟩ := h
  have hspent := chargeHostSpend_ordinary (.inl rfl) (by simp) hspend
  have hposted : Books Ordinary s₅ s' := whenTx_rel (.refl _)
    (chargeHostSpend_ordinary (.inr ⟨0, rfl⟩) (by simp)) hpost
  have hbooks := hspent.trans hposted
  rw [hcases] at hbooks
  have hrows := (congrArg Table.rows hbooks.events).trans (Table.Rewrites.of_insert ht hx ht')
  obtain ⟨rfl, hlabel, hoffered⟩ := resolveCategory_spec hcat
  refine ⟨_, _, ⟨rfl, rfl, rfl, rfl, ?_, rfl, rfl, rfl, rfl, rfl, rfl, ?_, ?_, hoffered, rfl, rfl, rfl⟩,
    hrows⟩
  · exact except_bind_eq_ok.2 ⟨_, hloc, except_bind_eq_ok.2 ⟨_, hcat, rfl⟩⟩
  · change Tidy label
    rw [hlabel]
    exact tidy_trimmed _
  · exact tidy_resolveNeighbourhood _ _

theorem create_spec {env : Env} {host : UserId} {input : CreateEventInput} {seeded : Bool}
    {e r : EventId} {s s' : Db} (h : Runs (create env host input seeded e) s r s') :
    input.startsAt < input.endsAt ∧ ∃ ev content, CreatedAs env host input seeded e content ev ∧
      s'.events.rows = s.events.rows ++ [ev] := by
  simp only [create_eq, runs_fromExcept_bind, runs_bind (m := assertHostCanAuthor _ _),
    assertAllowed, runs_guardTx_bind, runs_bind (m := whenTx _ _)] at h
  obtain ⟨_, hschedule, _, s₁, hauthor, -, _, s₂, hquota, h⟩ := h
  obtain rfl := assertHostCanAuthor_state hauthor
  obtain rfl : s₂ = s₁ := whenTx_rel (R := fun a b => b = a) rfl assertWithinQuota_state hquota
  simp only [assertScheduleSane, require_bind_eq_ok] at hschedule
  exact ⟨hschedule.1, finishCreate_spec h⟩

/-- A host with coins to spend, and nothing else. -/
def fundedHost : Db :=
  commit ((Op.moveCoins (onboardingReward 1 100)).act (demoEnv 0)) (World.initial 0).db

theorem fundedHost_events : fundedHost.events.rows = [] := by decide

end Paayatam
