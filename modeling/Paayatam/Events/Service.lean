/-
  Paayatam.Events.Service

  `EventService`: creating an event, editing it, and the host calling it off.

  `create` and `cancelByHost` decide and write in one transaction.  `update`
  reads the event, decides, and writes, and takes the event lock only when
  the capacity is edited; its decision is therefore a function of the row it
  read (`planUpdate`), and its write (`EventEdit.apply`) is a function of the
  row it finds, so that the two can be told apart when another writer comes
  between them.
-/

import Paayatam.Participation.Service

namespace Paayatam

open Lib

def EVENT_CREATE_REASON : String := "event.created"
def EVENT_CHANNEL_POST_REASON : String := "event.channel_post"

structure CreateEventInput where
  title : String
  description : String
  categoryId : CategoryId
  customCategoryLabel : Option String
  cityId : CityId
  districtId : Option DistrictId
  districtLabel : Option String
  startsAt : Instant
  endsAt : Instant
  capacity : Int
  genderPreference : Option GenderPreference
  minAge : Option Int
  maxAge : Option Int

/-- Every field is optional; absent means "leave it as it is".  A district label
    may be sent as null. -/
structure UpdateEventInput where
  title : Option String := none
  description : Option String := none
  categoryId : Option CategoryId := none
  customCategoryLabel : Option String := none
  cityId : Option CityId := none
  districtId : Option DistrictId := none
  districtLabel : Option (Option String) := none
  startsAt : Option Instant := none
  endsAt : Option Instant := none
  capacity : Option Int := none
  genderPreference : Option GenderPreference := none
  minAge : Option Int := none
  maxAge : Option Int := none

/-- `ACTIVE_EVENT_STATUSES`. -/
def ACTIVE_EVENT_STATUSES : List EventStatus := [.DRAFT, .PENDING_MODERATION, .PUBLISHED, .ONGOING]

structure Outcome where
  status : EventStatus
  moderationStatus : EventModerationStatus

def outcomeFor : ScanDecision → Outcome
  | .CLEAN => ⟨.PUBLISHED, .APPROVED⟩
  | .FLAG => ⟨.PUBLISHED, .FLAGGED⟩
  | .BLOCK => ⟨.PENDING_MODERATION, .PENDING⟩

/-! ## Checks -/

def validationError (path message : String) : AppError :=
  .raised .VALIDATION_FAILED (.field path message)

def assertScheduleSane (startsAt endsAt now : Instant) : Except AppError Unit := do
  require (startsAt < endsAt) (validationError "endsAt" "must be after startsAt")
  require (now < startsAt) (validationError "startsAt" "must be in the future")

/-- A host must have finished onboarding. -/
def assertHostCanAuthor (env : Env) (hostUserId : UserId) : Act Unit := do
  let user ← orThrow (.of .UNAUTHENTICATED) (env.user hostUserId)
  guardTx (user.onboardingState = .PROFILE_COMPLETE) (.of .PROFILE_INCOMPLETE)

/-- `readQuota` and `assertWithinQuota`: created today, and active now. -/
def assertWithinQuota (env : Env) (hostUserId : UserId) : Act Unit := do
  let since := env.startOfDay env.now
  let createdToday ← countRows fun e : EventRow =>
    decide (e.hostUserId = hostUserId) && !e.isSeeded && decide (since ≤ e.createdAt)
  let activeCount ← countRows fun e : EventRow =>
    decide (e.hostUserId = hostUserId) && !e.isSeeded && e.deletedAt.isNone &&
    ACTIVE_EVENT_STATUSES.contains e.status && decide (env.now < e.startsAt)
  guardTx (createdToday < env.settings.events_max_per_day)
    (.raised .EVENT_QUOTA_EXCEEDED (.limit env.settings.events_max_per_day "per_day"))
  guardTx (activeCount < env.settings.events_max_concurrent_active)
    (.raised .EVENT_ACTIVE_QUOTA_EXCEEDED
      (.limit env.settings.events_max_concurrent_active "concurrent_active"))

/-- `CatalogService.resolveLocation`. -/
def resolveLocation (catalog : Catalog) (cityId : CityId) (districtId : Option DistrictId)
    (requireLaunched : Bool) : Except AppError (CityId × Option DistrictId) := do
  let city ← (catalog.city cityId).elim (.error (.of .CITY_NOT_AVAILABLE)) .ok
  require (city.isActive = true) (.of .CITY_NOT_AVAILABLE)
  require (requireLaunched = true → city.isLaunched = true) (.of .CITY_NOT_LAUNCHED)
  match districtId with
  | none => return (cityId, none)
  | some d =>
    let district ← (catalog.district d).elim (.error (.of .INVALID_DISTRICT)) .ok
    require (district.isActive = true ∧ district.cityId = cityId) (.of .INVALID_DISTRICT)
    return (cityId, some d)

def resolveCategory (catalog : Catalog) (categoryId : CategoryId) (cityId : CityId)
    (customCategoryLabel : Option String) : Except AppError (CategoryId × Option String) := do
  let unselectable := validationError "categoryId" "is not a selectable category"
  let category ← (catalog.category categoryId).elim (.error unselectable) .ok
  require (category.isActive = true) unselectable
  -- no row at all means the category is offered everywhere
  require (catalog.cityCategory categoryId = [] ∨ cityId ∈ catalog.cityCategory categoryId)
    (validationError "categoryId" "is not offered in this city")
  let label := (customCategoryLabel.map trim).filter (· ≠ "")
  require (category.allowsCustomLabel = true → label.isSome = true) (.of .CUSTOM_LABEL_REQUIRED)
  require (category.allowsCustomLabel = false → label = none) (.of .CUSTOM_LABEL_NOT_ALLOWED)
  return (categoryId, label)

/-- The catalogue district wins over a typed neighbourhood. -/
def resolveNeighbourhood (districtId : Option DistrictId) (districtLabel : Option String) :
    Option DistrictId × Option String :=
  if districtId.isSome then (districtId, none)
  else (none, (districtLabel.map trim).filter (· ≠ ""))

/-- `ModerationService.openCase`. -/
def openCase (env : Env) (eventId : EventId) : Act Unit := do
  let db ← get
  insertRow
    { id := freshId (db.cases.rows.map (·.id)), subjectType := .EVENT, subjectId := eventId
      trigger := .AUTO_BLACKLIST, status := .OPEN, reportCount := 0, decision := none
      decisionNote := none, decidedBy := none, decidedAt := none, assignedAdminId := none
      createdAt := env.now : CaseRow }

/-! ## Creating -/

/-- A spend of the host's on the event, or nothing when it is free. -/
def chargeHostSpend (env : Env) (hostUserId : UserId) (eventId : EventId) (cost : Nat)
    (type : CoinLedgerType) (reasonCode : String) (key : CoinKey) : Act Unit :=
  if 0 < cost then do
    let _ ← applyCoins env
      { userId := hostUserId, amount := -(cost : Int), type := type, reasonCode := reasonCode
        idempotencyKey := key, actorType := .USER, actorId := some hostUserId
        ref := some (.event eventId) }
  else return ()

/-- `create`.  `newId` is the id the insert generates; a new event has no channel
    post, so the paid publication of one is never already claimed. -/
def create (env : Env) (hostUserId : UserId) (input : CreateEventInput) (seeded : Bool)
    (newId : EventId) : Act EventId := do
  let st := env.settings
  fromExcept (assertScheduleSane input.startsAt input.endsAt env.now)
  assertHostCanAuthor env hostUserId
  assertAllowed env hostUserId .EVENT_CREATE
  whenTx (seeded = false) (assertWithinQuota env hostUserId)
  let (cityId, district) ← fromExcept (resolveLocation env.catalog input.cityId input.districtId true)
  let (categoryId, label) ← fromExcept
    (resolveCategory env.catalog input.categoryId cityId input.customCategoryLabel)
  let (districtId, districtLabel) := resolveNeighbourhood district input.districtLabel
  let decision := env.scanEventContent
    { title := input.title, description := input.description, customCategoryLabel := label
      districtLabel := districtLabel }
  let outcome := outcomeFor decision
  insertRow
    { id := newId, hostUserId := hostUserId, title := input.title
      description := input.description, categoryId := categoryId
      customCategoryLabel := label, cityId := cityId, districtId := districtId
      districtLabel := districtLabel, startsAt := input.startsAt, endsAt := input.endsAt
      hostAbsentAt := none, capacity := input.capacity, acceptedCount := 0
      genderPreference := input.genderPreference, minAge := input.minAge, maxAge := input.maxAge
      status := .DRAFT, moderationStatus := .PENDING, publishedAt := none
      isSeeded := seeded, requestCount := 0, version := 0, createdAt := env.now
      deletedAt := none : EventRow }
  assertEventTransition .DRAFT .PENDING_MODERATION (some newId)
  whenTx (outcome.status ≠ .PENDING_MODERATION)
    (assertEventTransition .PENDING_MODERATION outcome.status (some newId))
  updateRow newId fun e : EventRow =>
    { e with status := outcome.status, moderationStatus := outcome.moderationStatus
             publishedAt := if outcome.status = .PUBLISHED then some env.now else none }
  whenTx (decision ≠ .CLEAN) (openCase env newId)
  chargeHostSpend env hostUserId newId st.economy_event_create_coins .EVENT_CREATE_SPEND
    EVENT_CREATE_REASON (.eventCreateSpend newId)
  whenTx (outcome.status = .PUBLISHED ∧ env.channelPublishable = true)
    (chargeHostSpend env hostUserId newId st.economy_event_channel_publish_coins
      .CHANNEL_POST_SPEND EVENT_CHANNEL_POST_REASON (.channelPostSpend newId 0))
  return newId

/-! ## Editing -/

/-- The columns an edit writes; an absent one is left as the row has it. -/
structure EventEdit where
  title : Option String
  description : Option String
  startsAt : Option Instant
  endsAt : Option Instant
  capacity : Option Int
  genderPreference : Option GenderPreference
  minAge : Option Int
  maxAge : Option Int
  /-- City, district and typed neighbourhood, settled together. -/
  location : Option (CityId × Option DistrictId × Option String)
  category : Option (CategoryId × Option String)
  outcome : Option Outcome
  publishedAt : Option Instant

/-- The write of an edit, on whatever row it finds. -/
def EventEdit.apply (d : EventEdit) (e : EventRow) : EventRow :=
  { e with
    title := d.title.getD e.title
    description := d.description.getD e.description
    startsAt := d.startsAt.getD e.startsAt
    endsAt := d.endsAt.getD e.endsAt
    capacity := d.capacity.getD e.capacity
    genderPreference := d.genderPreference <|> e.genderPreference
    minAge := d.minAge <|> e.minAge
    maxAge := d.maxAge <|> e.maxAge
    cityId := (d.location.map (·.1)).getD e.cityId
    districtId := (d.location.map (·.2.1)).getD e.districtId
    districtLabel := (d.location.map (·.2.2)).getD e.districtLabel
    categoryId := (d.category.map (·.1)).getD e.categoryId
    customCategoryLabel := (d.category.map (·.2)).getD e.customCategoryLabel
    status := (d.outcome.map (·.status)).getD e.status
    moderationStatus := (d.outcome.map (·.moderationStatus)).getD e.moderationStatus
    publishedAt := d.publishedAt <|> e.publishedAt
    version := e.version + 1 }

/-- What an edit will write, and the verdict of the scan it ran, if it ran one. -/
structure UpdatePlan where
  edit : EventEdit
  scanned : Option ScanDecision

/-- A host may edit while the event is theirs to shape, not after it has run. -/
def isEditable (status : EventStatus) : Bool :=
  decide (status = .DRAFT ∨ status = .PENDING_MODERATION ∨ status = .PUBLISHED)

/-- Some field that carries the host's words was sent with a new value. -/
def contentChanged (input : UpdateEventInput) (existing : EventRow) : Bool :=
  input.title.any (· != existing.title) || input.description.any (· != existing.description) ||
  input.customCategoryLabel.any (fun l => some l != existing.customCategoryLabel) ||
  input.districtLabel.any (· != existing.districtLabel)

/-- The transitions an edit's verdict is checked against. -/
def assertRescanTransitions (existing : EventRow) (outcome : Outcome) : Except AppError Unit := do
  require (existing.status = .PUBLISHED →
      canTransition EVENT_TRANSITIONS .PUBLISHED .PENDING_MODERATION = true)
    (eventTransitionError .PUBLISHED .PENDING_MODERATION (some existing.id))
  require (outcome.status ≠ .PENDING_MODERATION →
      canTransition EVENT_TRANSITIONS .PENDING_MODERATION outcome.status = true)
    (eventTransitionError .PENDING_MODERATION outcome.status (some existing.id))

/-- City, district and neighbourhood, resolved as one answer when any was sent. -/
def planLocation (env : Env) (input : UpdateEventInput) (existing : EventRow) :
    Except AppError (Option (CityId × Option DistrictId × Option String)) :=
  if input.cityId.isSome || input.districtId.isSome || input.districtLabel.isSome then do
    let (city, district) ← resolveLocation env.catalog (input.cityId.getD existing.cityId)
      input.districtId false
    return some (city, resolveNeighbourhood district
      (input.districtLabel.getD existing.districtLabel))
  else return none

/-- The category, re-resolved when it, its label or the city moves. -/
def planCategory (env : Env) (input : UpdateEventInput) (existing : EventRow)
    (effectiveCityId : CityId) : Except AppError (Option (CategoryId × Option String)) :=
  if input.categoryId.isSome || input.customCategoryLabel.isSome ||
      effectiveCityId != existing.cityId then do
    let c ← resolveCategory env.catalog (input.categoryId.getD existing.categoryId)
      effectiveCityId (input.customCategoryLabel <|> existing.customCategoryLabel)
    return some c
  else return none

/-- Everything `update` decides from the row it read. -/
def planUpdate (env : Env) (hostUserId : UserId) (input : UpdateEventInput)
    (expectedVersion : Option Nat) (existing : EventRow) : Except AppError UpdatePlan := do
  require (existing.deletedAt = none ∧ existing.hostUserId = hostUserId) (.of .EVENT_NOT_FOUND)
  require (∀ v ∈ expectedVersion, v = existing.version)
    (.raised .CONFLICT_STALE_VERSION (.versions (expectedVersion.getD 0) existing.version))
  require (isEditable existing.status = true) (.of .INVALID_STATE_TRANSITION)
  assertScheduleSane (input.startsAt.getD existing.startsAt) (input.endsAt.getD existing.endsAt)
    env.now
  require (∀ c ∈ input.capacity, existing.acceptedCount ≤ c)
    (.raised .CAPACITY_BELOW_ACCEPTED (.seats (input.capacity.getD 0) existing.acceptedCount))
  let location ← planLocation env input existing
  let effectiveCityId := (location.map (·.1)).getD existing.cityId
  let neighbourhoodLabel := (location.map (·.2.2)).getD existing.districtLabel
  let category ← planCategory env input existing effectiveCityId
  let edit : EventEdit :=
    { title := input.title, description := input.description, startsAt := input.startsAt
      endsAt := input.endsAt, capacity := input.capacity
      genderPreference := input.genderPreference, minAge := input.minAge, maxAge := input.maxAge
      location := location, category := category, outcome := none, publishedAt := none }
  if contentChanged input existing then do
    let decision := env.scanEventContent
      { title := input.title.getD existing.title
        description := input.description.getD existing.description
        customCategoryLabel := input.customCategoryLabel <|> existing.customCategoryLabel
        districtLabel := neighbourhoodLabel }
    let outcome := outcomeFor decision
    assertRescanTransitions existing outcome
    -- written once and never moved
    let publishedAt := if outcome.status = .PUBLISHED ∧ existing.publishedAt = none
      then some env.now else none
    return { edit := { edit with outcome := some outcome, publishedAt := publishedAt }
             scanned := some decision }
  else
    return { edit := edit, scanned := none }

/-- The rest of `update`, after the event was read. -/
def finishUpdate (env : Env) (hostUserId : UserId) (input : UpdateEventInput)
    (expectedVersion : Option Nat) (existing : EventRow) : Act Unit := do
  let plan ← fromExcept (planUpdate env hostUserId input expectedVersion existing)
  updateRow existing.id plan.edit.apply
  whenTx (plan.scanned.any (fun d => decide (d ≠ .CLEAN)) = true) (openCase env existing.id)

/-- `update`. -/
def update (env : Env) (hostUserId : UserId) (eventId : EventId) (input : UpdateEventInput)
    (expectedVersion : Option Nat) : Act Unit := do
  let found ← findRow eventId
  let existing ← orThrow (.of .EVENT_NOT_FOUND) (found : Option EventRow)
  finishUpdate env hostUserId input expectedVersion existing

/-! ## Calling it off -/

/-- `EventCancellation`, the figures of it. -/
structure EventCancellation where
  cancelled : Nat
  hadSeats : Nat
  coinsCharged : Int
  coinsRequested : Int
  trustApplied : Int
  coinsRefunded : Int
  bucket : CancellationBucket

/-- Where a host's cancellation puts a live participation. -/
def cancelledStatus (status : ParticipantStatus) : ParticipantStatus :=
  if status = .ACCEPTED then .CANCELLED_BY_HOST else .EXPIRED

/-- The update a host's cancellation writes on a participation read as `status`. -/
def ParticipantRow.calledOff (status : ParticipantStatus) (now : Instant) (reason : Option String)
    (p : ParticipantRow) : ParticipantRow :=
  { p with
    status := cancelledStatus status
    cancelledAt := if status = .ACCEPTED then some now else p.cancelledAt
    cancellationReason := if status = .ACCEPTED then reason else p.cancellationReason
    version := p.version + 1 }

/-- A seated guest is refunded whatever taking part cost; a request is not. -/
def refundSeat (env : Env) (hostUserId : UserId) (participant : ParticipantRow) : Act Int :=
  if participant.status = .ACCEPTED then
    refundParticipant env participant.id hostUserId .USER HOST_REFUND_REASON
  else return 0

/-- One participation of a cancelled event: a seat is refunded, a request expires. -/
def callOffGuest (env : Env) (hostUserId : UserId) (reason : Option String)
    (participant : ParticipantRow) : Act Int := do
  assertParticipantTransition participant.status (cancelledStatus participant.status)
    (some participant.id)
  let refunded ← refundSeat env hostUserId participant
  updateRow participant.id (ParticipantRow.calledOff participant.status env.now reason)
  return refunded

/-- The live participations of an event, oldest request first. -/
def Db.liveGuests (db : Db) (eventId : EventId) : List ParticipantRow :=
  (db.participants.rows.filter fun p =>
    decide (p.eventId = eventId) && LIVE_PARTICIPANT_STATUSES.contains p.status).insertionSort
      fun p q => queueKey p ≤ queueKey q

def cancelByHost (env : Env) (hostUserId : UserId) (eventId : EventId) (reason : Option String) :
    Act EventCancellation := do
  let found ← lockEvent eventId
  let locked ← orThrow (.of .EVENT_NOT_FOUND) found
  guardTx (locked.deletedAt = none) (.of .EVENT_NOT_FOUND)
  guardTx (locked.hostUserId = hostUserId) (.of .EVENT_NOT_FOUND)
  assertEventTransition locked.status .CANCELLED_BY_HOST (some locked.id)
  guardTx (env.now < locked.startsAt) (.of .EVENT_ALREADY_STARTED)
  let db ← get
  let participants := db.liveGuests locked.id
  let accepted := participants.filter fun p => decide (p.status = .ACCEPTED)
  lockAccounts (hostUserId :: accepted.map (·.userId))
  let refunded ← participants.foldlM (fun total participant => do
    let n ← callOffGuest env hostUserId reason participant
    return total + n) 0
  let bucket := bucketForLateness locked.startsAt env.now
  let penalty ← chargeHost env locked.id hostUserId bucket accepted.length
  updateRow locked.id fun e : EventRow =>
    { e with status := .CANCELLED_BY_HOST, acceptedCount := 0, version := e.version + 1 }
  emit (.event_cancelled_by_host locked.id
    (participants.map fun p => (p.id, p.userId, decide (p.status = .ACCEPTED))))
  return { cancelled := participants.length, hadSeats := accepted.length
           coinsCharged := penalty.coinsCharged, coinsRequested := penalty.price.coins
           trustApplied := penalty.trustApplied, coinsRefunded := refunded, bucket := bucket }

end Paayatam
