/-
  Paayatam.Env

  Everything a transaction reads that it does not own: the clock, the
  operator's settings, the profiles, the catalogue, the blacklist scan and the
  local calendar.  Each operation takes one `Env`; nothing relates the `Env`
  of one operation to that of the next, so a result about all runs is a result
  about settings, profiles and catalogues that change between any two steps.

  Settings are natural numbers where `updateSetting` refuses a negative one and
  the default is non-negative; what a star is worth is signed, and the one
  fractional setting is rational.
-/

import Paayatam.Db
import Mathlib.Data.Rat.Defs
import Mathlib.Data.Rat.Floor

namespace Paayatam

/-- The settings the modelled operations read, named by their keys. -/
structure Settings where
  participation_host_response_hours : Nat
  participation_min_hours_before_event : Nat
  participation_min_response_minutes : Nat
  participation_grace_minutes : Nat
  participation_settlement_delay_hours : Nat
  waitlist_promotion_deadline_hours : Nat
  waitlist_min_hours_before_event : Nat
  economy_event_join_coins : Nat
  economy_event_create_coins : Nat
  economy_event_channel_publish_coins : Nat
  economy_host_deposit_refund_coins : Nat
  economy_host_reward_per_attendee_coins : Nat
  economy_host_reward_min_attendees : Nat
  economy_host_reward_cap : Nat
  economy_earning_cap_days : Nat
  cancellation_coins_gt_24h : Nat
  cancellation_coins_h24_to_h3 : Nat
  cancellation_coins_lt_3h : Nat
  cancellation_coins_no_show : Nat
  cancellation_trust_gt_24h : Nat
  cancellation_trust_h24_to_h3 : Nat
  cancellation_trust_lt_3h : Nat
  cancellation_trust_no_show : Nat
  cancellation_host_penalty_multiplier : ℚ
  cancellation_host_trust_gt24h : Nat
  cancellation_host_trust_lt24h : Nat
  cancellation_dispute_window_days : Nat
  cancellation_response_window_hours : Nat
  trust_initial_score : Nat
  trust_attendance_delta : Nat
  trust_attendance_daily_cap : Nat
  events_max_per_day : Nat
  events_max_concurrent_active : Nat
  review_window_opens_hours : Nat
  review_window_deadline_days : Nat
  review_edit_window_minutes : Nat
  review_partial_reveal_affects_trust : Nat
  economy_review_reward_coins : Nat
  economy_review_reward_cap : Nat
  trust_review_rating_5 : Int
  trust_review_rating_4 : Int
  trust_review_rating_3 : Int
  trust_review_rating_2 : Int
  trust_review_rating_1 : Int

/-- `SETTING_DEFAULTS`, of the modelled settings. -/
def Settings.defaults : Settings where
  participation_host_response_hours := 24
  participation_min_hours_before_event := 3
  participation_min_response_minutes := 30
  participation_grace_minutes := 15
  participation_settlement_delay_hours := 18
  waitlist_promotion_deadline_hours := 12
  waitlist_min_hours_before_event := 3
  economy_event_join_coins := 20
  economy_event_create_coins := 10
  economy_event_channel_publish_coins := 15
  economy_host_deposit_refund_coins := 25
  economy_host_reward_per_attendee_coins := 2
  economy_host_reward_min_attendees := 2
  economy_host_reward_cap := 20
  economy_earning_cap_days := 30
  cancellation_coins_gt_24h := 5
  cancellation_coins_h24_to_h3 := 15
  cancellation_coins_lt_3h := 40
  cancellation_coins_no_show := 60
  cancellation_trust_gt_24h := 0
  cancellation_trust_h24_to_h3 := 3
  cancellation_trust_lt_3h := 8
  cancellation_trust_no_show := 15
  cancellation_host_penalty_multiplier := 3 / 2
  cancellation_host_trust_gt24h := 5
  cancellation_host_trust_lt24h := 12
  cancellation_dispute_window_days := 7
  cancellation_response_window_hours := 48
  trust_initial_score := 50
  trust_attendance_delta := 2
  trust_attendance_daily_cap := 2
  events_max_per_day := 5
  events_max_concurrent_active := 3
  review_window_opens_hours := 0
  review_window_deadline_days := 7
  review_edit_window_minutes := 60
  review_partial_reveal_affects_trust := 0
  economy_review_reward_coins := 5
  economy_review_reward_cap := 20
  trust_review_rating_5 := 3
  trust_review_rating_4 := 1
  trust_review_rating_3 := 0
  trust_review_rating_2 := -2
  trust_review_rating_1 := -5

/-- `user_profile`, as far as eligibility reads it. -/
structure Profile where
  birthYear : Option Int
  gender : Gender
  cityId : CityId

/-- `user`, as far as the modelled operations read it. -/
structure User where
  status : UserStatus
  onboardingState : OnboardingState
  profile : Option Profile
  isSeed : Bool

structure City where
  isActive : Bool
  isLaunched : Bool

structure District where
  cityId : CityId
  isActive : Bool

structure Category where
  isActive : Bool
  allowsCustomLabel : Bool

/-- The catalogue: what exists, and the cities a category is restricted to (none
    at all means it is offered everywhere). -/
structure Catalog where
  city : CityId → Option City
  district : DistrictId → Option District
  category : CategoryId → Option Category
  cityCategory : CategoryId → List CityId

/-- The host's text that one moderation scan judges together. -/
structure EventContent where
  title : String
  description : String
  customCategoryLabel : Option String
  districtLabel : Option String

inductive GatedAction where
  | EVENT_JOIN | EVENT_CREATE

structure Env where
  now : Instant
  settings : Settings
  user : UserId → Option User
  catalog : Catalog
  /-- `ChannelMembershipService.assertAllowed` lets the user through. -/
  membershipAllowed : UserId → GatedAction → Bool
  /-- `ModerationService.scanEventContent`, under the active blacklist. -/
  scanEventContent : EventContent → ScanDecision
  /-- `ModerationService.scanText`, under the active blacklist. -/
  scanText : String → ScanDecision
  /-- `EventService.channelPublishable`. -/
  channelPublishable : Bool
  /-- `startOfDayIn(now, APP_TIMEZONE)`. -/
  startOfDay : Instant → Instant
  /-- `gregorianYearIn(now, APP_TIMEZONE)`. -/
  gregorianYear : Instant → Int
  /-- `review.count({ eventId, reviewerUserId })`. -/
  reviewsWritten : EventId → UserId → Nat

/-- `Math.round`: to the nearest integer, halves up. -/
def mathRound (x : ℚ) : Int := ⌊x + 1 / 2⌋

/-- White space and line terminators, as `String.prototype.trim` sees them. -/
def isTrimmed (c : Char) : Bool :=
  [0x9, 0xA, 0xB, 0xC, 0xD, 0x20, 0xA0, 0x1680, 0x2028, 0x2029, 0x202F, 0x205F, 0x3000,
    0xFEFF].contains c.toNat || (0x2000 ≤ c.toNat && c.toNat ≤ 0x200A)

/-- `String.prototype.trim`. -/
def trim (s : String) : String :=
  String.ofList (((s.toList.dropWhile isTrimmed).reverse.dropWhile isTrimmed).reverse)

/-- The length of a string in UTF-16 code units. -/
def utf16Length (s : String) : Nat :=
  (s.toList.map fun c => if 0x10000 ≤ c.toNat then 2 else 1).sum

end Paayatam
