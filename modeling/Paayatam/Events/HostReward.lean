/-
  Paayatam.Events.HostReward

  `HostRewardService`: after an event is over its host gets the deposit back
  and a bonus for each guest who came.

  One settlement of one event is three reads and one write, none of which
  holds the event lock: the scan that lists candidates (`settleCandidates`),
  the assessment of one (`assess`), and the paying transaction
  (`paySettlement`), which trusts the figures it was handed.
-/

import Paayatam.Events.NoShowClaim

namespace Paayatam

open Lib

def HOST_DEPOSIT_REFUND_REASON : String := "host.deposit_refund"
def HOST_REWARD_REASON : String := "host.attendance_bonus"

/-- What an assessed event is owed. -/
structure Settlement where
  eventId : EventId
  hostUserId : UserId
  attendees : Nat
  refund : Int
  bonus : Int
  deriving DecidableEq

/-- Some guest has reported the host absent and the case is still open. -/
def Db.hasOpenAbsenceReport (db : Db) (eventId : EventId) : Bool :=
  db.claims.rows.any fun c =>
    decide (c.eventId = eventId) && decide (c.kind = .HOST_ABSENT_REPORT) &&
    c.moderationCaseId.any fun k =>
      (db.cases.find? k).any fun m => OPEN_CASE_STATUSES.contains m.status

/-- The events one `settle` pass will look at, with their hosts. -/
def settleCandidates (env : Env) (db : Db) : List (EventId × UserId) :=
  let st := env.settings
  if st.economy_host_deposit_refund_coins = 0 ∧ st.economy_host_reward_per_attendee_coins = 0 then []
  else
    let settledBefore := env.now - st.participation_settlement_delay_hours * msPerHour
    let oldestCandidate := env.now - (st.review_window_deadline_days + 1) * 24 * msPerHour
    (db.events.rows.filter fun e =>
      decide (e.status = .COMPLETED) && e.deletedAt.isNone &&
      decide (e.endsAt ≤ settledBefore) && decide (oldestCandidate ≤ e.endsAt) &&
      e.hostAbsentAt.isNone && !db.hasOpenAbsenceReport e.id).map fun e => (e.id, e.hostUserId)

/-- `refundFor`: the configured deposit, capped at what was charged. -/
def refundFor (env : Env) (db : Db) (eventId : EventId) : Int :=
  let configured : Int := env.settings.economy_host_deposit_refund_coins
  if configured ≤ 0 then 0
  else
    let charges := db.coinLedger.rows.filter fun r =>
      decide (r.idempotencyKey = .eventCreateSpend eventId) ||
      decide (r.idempotencyKey = .channelPostSpend eventId 0)
    let charged := -(charges.map (·.amount)).sum
    max 0 (min configured charged)

/-- `CoinService.earnedSince` over `HOST_REWARD` rows. -/
def Db.hostRewardsSince (db : Db) (userId : UserId) (since : Instant) : Int :=
  ((db.coinLedger.rows.filter fun r =>
    decide (r.userId = userId) && decide (r.type = .HOST_REWARD) &&
    decide (since ≤ r.createdAt)).map (·.amount)).sum

/-- `bonusFor`: the per-guest bonus, after the rolling cap. -/
def bonusFor (env : Env) (db : Db) (hostUserId : UserId) (attendees : Nat) : Int :=
  let perAttendee : Int := env.settings.economy_host_reward_per_attendee_coins
  if perAttendee ≤ 0 then 0
  else
    let earned := perAttendee * attendees
    let cap : Int := env.settings.economy_host_reward_cap
    let days : Int := env.settings.economy_earning_cap_days
    if cap ≤ 0 ∨ days ≤ 0 then earned
    else max 0 (min earned (cap - db.hostRewardsSince hostUserId (env.now - days * 24 * msPerHour)))

/-- `assess`: what the event qualifies for, read outside any transaction. -/
def assess (env : Env) (db : Db) (eventId : EventId) (hostUserId : UserId) : Option Settlement :=
  let minAttendees := max env.settings.economy_host_reward_min_attendees 1
  let alreadyRefunded := (db.ledgerByKey (.hostDepositRefund eventId)).isSome
  let alreadyPaid := (db.ledgerByKey (.hostReward eventId)).isSome
  let seated := db.countGuests eventId [.COMPLETED, .NO_SHOW]
  let attended := db.participants.rows.countP fun p =>
    decide (p.eventId = eventId) && decide (p.status = .COMPLETED) && decide (p.attended = some true)
  if alreadyRefunded && alreadyPaid then none
  else
    let depositDue := !alreadyRefunded && decide (1 ≤ seated)
    let bonusDue := !alreadyPaid && decide (minAttendees ≤ attended)
    if !depositDue && !bonusDue then none
    else if env.reviewsWritten eventId hostUserId < attended then none
    else
      let refund := if depositDue then refundFor env db eventId else 0
      let bonus := if bonusDue then bonusFor env db hostUserId attended else 0
      if refund ≤ 0 ∧ bonus ≤ 0 then none
      else some { eventId := eventId, hostUserId := hostUserId, attendees := attended
                  refund := refund, bonus := bonus }

/-- One credit to the host, when there is any: what was paid now. -/
def payHost (env : Env) (s : Settlement) (amount : Int) (type : CoinLedgerType)
    (reasonCode : String) (key : CoinKey) : Act Int :=
  if 0 < amount then do
    let movement ← applyCoins env
      { userId := s.hostUserId, amount := amount, type := type, reasonCode := reasonCode
        idempotencyKey := key, actorType := .SYSTEM, ref := some (.event s.eventId) }
    return if movement.applied then amount else 0
  else return 0

/-- The paying transaction of `settleOne`. -/
def paySettlement (env : Env) (s : Settlement) : Act Int := do
  let paidRefund ← payHost env s s.refund .EVENT_DEPOSIT_REFUND HOST_DEPOSIT_REFUND_REASON
    (.hostDepositRefund s.eventId)
  let paidBonus ← payHost env s s.bonus .HOST_REWARD HOST_REWARD_REASON (.hostReward s.eventId)
  let paid := paidRefund + paidBonus
  if paid = 0 then return 0
  else do
    emit (.host_settled s.eventId s.hostUserId s.attendees paidRefund paidBonus)
    return paid

end Paayatam
