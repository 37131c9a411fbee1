/-
  Paayatam.Outbox.Fanout

  One domain event becomes the notifications it should produce.

  `planNotifications` is a pure function of the outbox row.  Every key it
  plans is derived from the row and the recipient, so a row that is fanned out
  again plans the same keys.  A key is the string `<row id>:<suffix>` in the
  database; row ids contain no colon, so the pair is kept instead.
-/

import Mathlib.Data.Rat.Defs

namespace Paayatam

abbrev OutboxId := Nat

/-- A field of a JSON payload, as far as the fan-out looks into it.  The entries of a
    list are kept by their text fields. -/
inductive PayloadField where
  | text (value : String)
  | number (value : ℚ)
  | list (entries : List (List (String × String)))
  | other
  deriving DecidableEq

abbrev Payload := List (String × PayloadField)

/-- `event_type`; a type no message exists for is `other`. -/
inductive OutboxEventType where
  | participation_requested | participation_accepted | participation_rejected
  | participation_no_show | participation_no_show_dispute_offer | no_show_host_absent_reported
  | no_show_claim_decided | participation_cancelled | waitlist_promoted | event_cancelled_by_host
  | direct_message_sent | direct_message_seen | delivery_counterpart_blocked
  | participation_expired | event_reminder_guest | event_reminder_host
  | event_attendance_prompt | review_window_open | review_revealed | moderation_content_hidden
  | moderation_content_restored | user_blocked | referral_qualified | host_settled
  | economy_comeback_granted | profile_gender_requested
  | other (eventType : String)
  deriving DecidableEq

/-- The `TEMPLATES` the fan-out names. -/
inductive TemplateKey where
  | PARTICIPATION_REQUESTED_HOST | PARTICIPATION_REQUESTED_GUEST | PARTICIPATION_ACCEPTED
  | PARTICIPATION_REJECTED | PARTICIPATION_CANCELLED_HOST | PARTICIPATION_EXPIRED
  | WAITLIST_PROMOTED_GUEST | WAITLIST_PROMOTED_HOST | EVENT_CANCELLED | REVIEW_REVEALED
  | EVENT_REMINDER_GUEST | EVENT_REMINDER_HOST | EVENT_ATTENDANCE_PROMPT | REVIEW_WINDOW_OPEN
  | NO_SHOW_RECORDED | NO_SHOW_DISPUTE_OFFER | HOST_ABSENT_REPORTED | NO_SHOW_CLAIM_DECIDED
  | CONTENT_HIDDEN | CONTENT_RESTORED | DIRECT_MESSAGE_RECEIVED | DIRECT_MESSAGE_SEEN
  | COUNTERPART_BLOCKED_BOT | ACCOUNT_BLOCKED | REFERRAL_QUALIFIED_REFERRER
  | REFERRAL_QUALIFIED_REFERRER_CAPPED | REFERRAL_QUALIFIED_REFERRED | HOST_SETTLED
  | COMEBACK_GRANTED | PROFILE_GENDER_REQUEST
  deriving DecidableEq

/-- What the relay reads of an outbox row. -/
structure OutboxEvent where
  id : OutboxId
  eventType : OutboxEventType
  aggregateId : String
  payload : Payload
  deriving DecidableEq

/-- `dedupe_key`. -/
structure DedupeKey where
  outboxId : OutboxId
  suffix : String
  deriving DecidableEq

/-- One notification a domain event should produce. -/
structure PlannedNotification where
  userPublicId : String
  templateKey : TemplateKey
  dedupeKey : DedupeKey
  payload : Payload

/-! ## Reading payloads -/

/-- The text of a field, or the empty string. -/
def text (payload : Payload) (key : String) : String :=
  match payload.lookup key with
  | some (.text value) => value
  | _ => ""

/-- A number out of a payload, or zero. -/
def number (payload : Payload) (key : String) : ℚ :=
  match payload.lookup key with
  | some (.number value) => value
  | _ => 0

/-- The list of a field, or an empty one. -/
def list (payload : Payload) (key : String) : List (List (String × String)) :=
  match payload.lookup key with
  | some (.list entries) => entries
  | _ => []

/-- `{ ...payload, [key]: value }`. -/
def withText (payload : Payload) (key value : String) : Payload :=
  payload.filter (fun f => f.1 != key) ++ [(key, .text value)]

/-! ## Planning -/

/-- A message to the user named in a field, when somebody is. -/
def planFor (row : OutboxEvent) (userPublicId suffix : String) (templateKey : TemplateKey)
    (payload : Payload) : List PlannedNotification :=
  if userPublicId = "" then []
  else [{ userPublicId := userPublicId, templateKey := templateKey
          dedupeKey := { outboxId := row.id, suffix := suffix }, payload := payload }]

/-- A message to one side of a fact that has two. -/
def planSide (row : OutboxEvent) (key suffix : String) (templateKey : TemplateKey) :
    List PlannedNotification :=
  planFor row (text row.payload key) suffix templateKey row.payload

def recipient (row : OutboxEvent) (key : String) (templateKey : TemplateKey) :
    List PlannedNotification :=
  planSide row key key templateKey

def planNotifications (row : OutboxEvent) : List PlannedNotification :=
  match row.eventType with
  | .participation_requested =>
    planSide row "hostUserPublicId" "host" .PARTICIPATION_REQUESTED_HOST ++
    planSide row "participantUserPublicId" "guest" .PARTICIPATION_REQUESTED_GUEST
  | .participation_accepted => recipient row "participantUserPublicId" .PARTICIPATION_ACCEPTED
  | .participation_rejected => recipient row "participantUserPublicId" .PARTICIPATION_REJECTED
  | .participation_no_show => recipient row "participantUserPublicId" .NO_SHOW_RECORDED
  | .participation_no_show_dispute_offer =>
    recipient row "participantUserPublicId" .NO_SHOW_DISPUTE_OFFER
  | .no_show_host_absent_reported => recipient row "hostUserPublicId" .HOST_ABSENT_REPORTED
  | .no_show_claim_decided => recipient row "recipientUserPublicId" .NO_SHOW_CLAIM_DECIDED
  | .participation_cancelled => recipient row "hostUserPublicId" .PARTICIPATION_CANCELLED_HOST
  | .waitlist_promoted =>
    planSide row "promotedUserPublicId" "guest" .WAITLIST_PROMOTED_GUEST ++
    planSide row "hostUserPublicId" "host" .WAITLIST_PROMOTED_HOST
  | .event_cancelled_by_host =>
    -- the key names the participation, so a new recipient shifts nobody's key
    (list row.payload "participants").flatMap fun record =>
      planFor row ((record.lookup "userPublicId").getD "")
        ((record.lookup "participantPublicId").getD "") .EVENT_CANCELLED row.payload
  | .direct_message_sent => recipient row "recipientUserPublicId" .DIRECT_MESSAGE_RECEIVED
  | .direct_message_seen => recipient row "senderUserPublicId" .DIRECT_MESSAGE_SEEN
  | .delivery_counterpart_blocked => recipient row "senderUserPublicId" .COUNTERPART_BLOCKED_BOT
  | .participation_expired => recipient row "participantUserPublicId" .PARTICIPATION_EXPIRED
  | .event_reminder_guest => recipient row "participantUserPublicId" .EVENT_REMINDER_GUEST
  | .event_reminder_host => recipient row "hostUserPublicId" .EVENT_REMINDER_HOST
  | .event_attendance_prompt => recipient row "hostUserPublicId" .EVENT_ATTENDANCE_PROMPT
  | .review_window_open =>
    [("hostUserPublicId", "HOST"), ("guestUserPublicId", "GUEST")].flatMap fun (key, role) =>
      planFor row (text row.payload key) key .REVIEW_WINDOW_OPEN
        (withText row.payload "recipientRole" role)
  | .review_revealed =>
    ["hostUserPublicId", "guestUserPublicId"].flatMap fun key =>
      planSide row key key .REVIEW_REVEALED
  | .moderation_content_hidden => recipient row "ownerUserPublicId" .CONTENT_HIDDEN
  | .moderation_content_restored => recipient row "ownerUserPublicId" .CONTENT_RESTORED
  | .user_blocked => recipient row "userPublicId" .ACCOUNT_BLOCKED
  | .referral_qualified =>
    planSide row "referrerUserPublicId" "referrer"
      (if 0 < number row.payload "referrerCoins" then .REFERRAL_QUALIFIED_REFERRER
        else .REFERRAL_QUALIFIED_REFERRER_CAPPED) ++
    planSide row "referredUserPublicId" "referred" .REFERRAL_QUALIFIED_REFERRED
  | .host_settled => recipient row "hostUserPublicId" .HOST_SETTLED
  | .economy_comeback_granted => recipient row "userPublicId" .COMEBACK_GRANTED
  | .profile_gender_requested => recipient row "userPublicId" .PROFILE_GENDER_REQUEST
  | .other _ => []

/-! ## Keys -/

/-- Every key names the row. -/
def NamesRow (row : OutboxEvent) (plans : List PlannedNotification) : Prop :=
  ∀ plan ∈ plans, plan.dedupeKey.outboxId = row.id

section NamesRow

variable {row : OutboxEvent}

theorem NamesRow.nil : NamesRow row [] := by simp [NamesRow]

theorem NamesRow.append {ps qs : List PlannedNotification} (hp : NamesRow row ps)
    (hq : NamesRow row qs) : NamesRow row (ps ++ qs) := by
  intro plan h
  exact (List.mem_append.1 h).elim (hp plan) (hq plan)

theorem NamesRow.flatMap {α : Type} {xs : List α} {f : α → List PlannedNotification}
    (h : ∀ x, NamesRow row (f x)) : NamesRow row (xs.flatMap f) := by
  intro plan hplan
  obtain ⟨x, -, hx⟩ := List.mem_flatMap.1 hplan
  exact h x plan hx

theorem planFor_namesRow (userPublicId suffix : String) (t : TemplateKey) (payload : Payload) :
    NamesRow row (planFor row userPublicId suffix t payload) := by
  unfold planFor
  split
  · exact .nil
  · simp [NamesRow]

theorem planSide_namesRow (key suffix : String) (t : TemplateKey) :
    NamesRow row (planSide row key suffix t) :=
  planFor_namesRow _ _ _ _

end NamesRow

/-- Every planned key names the row it was planned from. -/
theorem planNotifications_namesRow (row : OutboxEvent) : NamesRow row (planNotifications row) := by
  unfold planNotifications
  cases row.eventType with
  | participation_requested | waitlist_promoted | referral_qualified =>
      exact (planSide_namesRow _ _ _).append (planSide_namesRow _ _ _)
  | event_cancelled_by_host | review_window_open => exact .flatMap fun _ => planFor_namesRow _ _ _ _
  | review_revealed => exact .flatMap fun _ => planSide_namesRow _ _ _
  | other => exact .nil
  | _ => exact planSide_namesRow _ _ _

end Paayatam
