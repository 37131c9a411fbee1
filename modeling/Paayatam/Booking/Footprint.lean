/-
  Paayatam.Booking.Footprint

  The writes an operation is made of.

  `Admits R` lists, for a relation `R` between databases, every kind of write
  the operations make that decide no case and settle no attendance, and says
  that `R` allows it.  From the list alone each service function respects `R`,
  so what no operation does to some table is proved by going through the list
  once, not through the services.  `AdmitsWindows` adds the review windows the
  settlement opens, `AdmitsCases` the writes of the two operations that decide
  a case, and `AdmitsDecisions` both.
-/

import Paayatam.Booking.World
import Paayatam.Moderation.CaseDecision
import Paayatam.Lib.Respects

namespace Paayatam

open Lib

/-! ## The writes -/

/-- `R` allows every write of an operation that decides no case and opens no review
    window.  A participation keeps its guest and its event, an event its host; a case is
    opened open; a trust movement is not that of a review. -/
class Admits (R : Db → Db → Prop) : Prop extends Std.Refl R, IsTrans Db R where
  insertEvent {r : EventRow} : Respects R (insertRow r : Act Unit)
  updateEvent {e : EventId} {f : EventRow → EventRow}
    (h : ∀ x, (f x).id = x.id ∧ (f x).hostUserId = x.hostUserId) :
    Respects R (updateRow e f : Act Unit)
  insertParticipant {r : ParticipantRow} : Respects R (insertRow r : Act Unit)
  requestParticipant {r : ParticipantRow} : Respects R (insertRowOrIgnore r : Act Bool)
  updateParticipant {p : ParticipantId} {f : ParticipantRow → ParticipantRow}
    (h : ∀ x, (f x).id = x.id ∧ (f x).userId = x.userId ∧ (f x).eventId = x.eventId) :
    Respects R (updateRow p f : Act Unit)
  coins {s s' : Db} (h : CoinsOnly s s') : R s s'
  trust {env : Env} {input : TrustMovementInput} (h : ∀ r, input.idempotencyKey ≠ .review r) :
    Respects R (applyTrust env input)
  openCase {c : CaseRow} (h : c.status = .OPEN) : Respects R (insertRow c : Act Unit)
  countReports {k : CaseId} {n : Nat} :
    Respects R (updateRow k fun c : CaseRow => { c with reportCount := n } : Act Unit)
  fileClaim {c : NoShowClaimRow} : Respects R (insertRowOrIgnore c : Act Bool)
  emit {m : DomainEvent} : Respects R (emit m)

/-- `R` allows the settlement as well, which opens a review window empty. -/
class AdmitsWindows (R : Db → Db → Prop) : Prop extends Admits R where
  openWindow {p : ReviewPairRow} (h : p.status = .PENDING) :
    Respects R (insertRowOrIgnore p : Act Bool)

/-- `R` allows the writes of the operations that decide a case as well. -/
class AdmitsCases (R : Db → Db → Prop) : Prop extends Admits R where
  updateCase {k : CaseId} {f : CaseRow → CaseRow} : Respects R (updateRow k f : Act Unit)
  updateCases {p : CaseRow → Bool} {f : CaseRow → CaseRow} :
    Respects R (updateRows p f : Act Unit)

/-- `R` allows every write of every operation. -/
class AdmitsDecisions (R : Db → Db → Prop) : Prop extends AdmitsWindows R, AdmitsCases R

variable {R : Db → Db → Prop}

section Respecting

variable [Admits R]

/-! ## Coins and trust -/

section Economy

variable {env : Env} {user : UserId} {p : ParticipantId} {e : EventId} {reason : String}

theorem applyCoins_respects {input : CoinMovementInput} : Respects R (applyCoins env input) :=
  fun _ _ _ hrun => Admits.coins (applyCoins_spec hrun).1.coinsOnly

theorem penalize_respects {input : CoinMovementInput} : Respects R (penalize env input) :=
  .ite (fun _ => .bind .get fun _ => .pure) fun _ _ _ _ hrun =>
    Admits.coins (applyWithin_spec hrun).2.coinsOnly

theorem reverse_respects {l : LedgerId} {t : ActorType} {actor : Option UserId} :
    Respects R (reverse env l reason t actor) := by
  intro s r s' hrun
  obtain ⟨o, -, -, hmove⟩ := reverse_spec hrun
  exact Admits.coins hmove.coinsOnly

theorem reverseCharges_respects {charges : List CoinLedgerRow} {t : ActorType}
    {actor : Option UserId} : Respects R (reverseCharges env charges reason t actor) :=
  .foldlM fun _ _ _ => .bind reverse_respects fun _ => .pure

theorem ensureCoinAccount_respects : Respects R (ensureCoinAccount user) := by
  intro s u s' hrun
  refine Admits.coins ?_
  show s' = { s with coinAccounts := s'.coinAccounts, coinLedger := s'.coinLedger }
  rw [ensureCoinAccount_coinsOnly hrun]

theorem lockAccounts_respects {us : List UserId} : Respects R (lockAccounts us) :=
  .forM fun _ _ => ensureCoinAccount_respects

theorem chargeTrust_respects {price : Int} {input : TrustMovementInput}
    (h : ∀ r, input.idempotencyKey ≠ .review r) : Respects R (chargeTrust env price input) :=
  .ite (fun _ => .bind (Admits.trust h) fun _ => .pure) fun _ => .pure

theorem charge_respects {b : CancellationBucket} {price : PenaltyPrice} {coins : CoinMovementInput}
    {trust : TrustMovementInput} (h : ∀ r, trust.idempotencyKey ≠ .review r) :
    Respects R (charge env b price coins trust) :=
  .bind penalize_respects fun _ => .bind (chargeTrust_respects h) fun _ => .pure

theorem chargeParticipant_respects {b : CancellationBucket} :
    Respects R (chargeParticipant env p user b) :=
  charge_respects fun _ h => TrustKey.noConfusion h

theorem chargeHost_respects {b : CancellationBucket} {n : Nat} :
    Respects R (chargeHost env e user b n) :=
  charge_respects fun _ h => TrustKey.noConfusion h

theorem refundParticipant_respects {t : ActorType} :
    Respects R (refundParticipant env p user t reason) :=
  .bind .get fun _ => reverseCharges_respects

theorem refundJoinCharge_respects {t : ActorType} {actor : Option UserId} :
    Respects R (refundJoinCharge env p reason t actor) :=
  .bind .get fun _ => reverseCharges_respects

theorem creditAttendance_respects : Respects R (creditAttendance env user p) := by
  refine .ite (fun _ => .pure) fun _ => .bind .get fun _ => .ite (fun _ => .pure) fun _ => ?_
  exact .bind (Admits.trust fun _ h => TrustKey.noConfusion h) fun _ => .pure

theorem chargeJoin_respects {q : ParticipantRow} : Respects R (chargeJoin env q) :=
  .ite (fun _ => .bind applyCoins_respects fun _ => .pure) fun _ => .pure

theorem chargeHostSpend_respects {cost : Nat} {type : CoinLedgerType} {key : CoinKey} :
    Respects R (chargeHostSpend env user e cost type reason key) :=
  .ite (fun _ => .bind applyCoins_respects fun _ => .pure) fun _ => .pure

theorem chargeBucket_respects {b : Option CancellationBucket} :
    Respects R (chargeBucket env p user b) := by
  cases b with
  | none => exact .pure
  | some b => exact .bind chargeParticipant_respects fun _ => .pure

theorem payHost_respects {st : Settlement} {amount : Int} {type : CoinLedgerType} {key : CoinKey} :
    Respects R (payHost env st amount type reason key) :=
  .ite (fun _ => .bind applyCoins_respects fun _ => .pure) fun _ => .pure

end Economy

/-! ## Participations -/

section Participations

variable {env : Env} {user : UserId} {e : EventId} {p : ParticipantId} {ev : EventRow}
  {participant : ParticipantRow}

theorem toDetail_respects : Respects R (toDetail participant e) :=
  .bind (.ite (fun _ => .map (.bind .countRows fun _ => .pure)) fun _ => .pure) fun _ => .pure

theorem lockEventByParticipant_respects : Respects R (lockEventByParticipant p) := by
  refine .bind .findRow fun found => ?_
  cases found with
  | none => exact .pure
  | some participant => exact .findRow

theorem readParticipantByPublicId_respects :
    Respects R (readParticipantByPublicId p) :=
  .bind .findRow fun _ => .orThrow

theorem assertParticipantTransition_respects {st st' : ParticipantStatus}
    {k : Option ParticipantId} : Respects R (assertParticipantTransition st st' k) := .guardTx

theorem assertEventTransition_respects {st st' : EventStatus} {k : Option EventId} :
    Respects R (assertEventTransition st st' k) := .guardTx

theorem takeSeat_respects : Respects R (takeSeat ev) :=
  .bind .guardTx fun _ => .bind (Admits.updateEvent fun _ => ⟨rfl, rfl⟩) fun _ => .pure

theorem releaseSeatIfHeld_respects {st : ParticipantStatus} :
    Respects R (releaseSeatIfHeld ev st) :=
  .ite (fun _ => .bind (Admits.updateEvent fun _ => ⟨rfl, rfl⟩) fun _ => .pure) fun _ => .pure

theorem promoteNext_respects {d : Instant} {n : Nat} :
    Respects R (promoteNext env ev d n) := by
  induction n with
  | zero => exact .pure
  | succ n ih =>
      refine .bind .findRows fun waiting => ?_
      cases waiting.argmin queueKey with
      | none => exact .pure
      | some next =>
          refine .bind assertParticipantTransition_respects fun _ => ?_
          refine .bind (Admits.updateParticipant fun _ => ⟨rfl, rfl, rfl⟩) fun _ => ?_
          refine .bind Admits.emit fun _ => ?_
          exact .bind ih fun _ => .pure

theorem fillFreedSeats_respects : Respects R (fillFreedSeats env ev) :=
  .bind .countRows fun _ => promoteNext_respects

theorem promoteForEvent_respects : Respects R (promoteForEvent env e) := by
  refine .bind .findRow fun found => ?_
  cases found with
  | none => exact .pure
  | some ev =>
      exact .ite (fun _ => .pure) fun _ => .ite (fun _ => .pure) fun _ =>
        .bind fillFreedSeats_respects fun _ => .pure

theorem loadJoiner_respects : Respects R (loadJoiner env user) := by
  refine .bind .orThrow fun _ => .bind .guardTx fun _ => .bind .guardTx fun _ => ?_
  exact .bind .orThrow fun _ => .bind .orThrow fun _ => .pure

theorem join_respects : Respects R (join env user e p) := by
  refine .bind .guardTx fun _ => .bind loadJoiner_respects fun joiner => ?_
  refine .bind .findRow fun locked => .bind .orThrow fun event => ?_
  refine .bind (.bind .guardTx fun _ => .guardTx) fun _ => .bind .guardTx fun _ => ?_
  refine .bind (.bind .guardTx fun _ => .bind .guardTx fun _ => .guardTx) fun _ => ?_
  refine .bind .countRows fun n => .bind Admits.requestParticipant fun _ => ?_
  refine .bind .guardTx fun _ => .bind (Admits.updateEvent fun _ => ⟨rfl, rfl⟩) fun _ => ?_
  refine .bind Admits.emit fun _ => ?_
  exact .bind chargeJoin_respects fun _ => toDetail_respects

theorem decideParticipation_respects {apply : EventRow → ParticipantRow → Act ParticipantRow}
    (h : ∀ ev q, Respects R (apply ev q)) :
    Respects R (decideParticipation user p apply) := by
  refine .bind lockEventByParticipant_respects fun _ => .bind .orThrow fun _ => ?_
  refine .bind .guardTx fun _ => .bind readParticipantByPublicId_respects fun _ => ?_
  exact .bind (h _ _) fun _ => toDetail_respects

theorem accept_respects : Respects R (accept env user p) := by
  refine decideParticipation_respects fun ev q => ?_
  refine .bind assertParticipantTransition_respects fun _ => .bind ?_ fun _ => ?_
  · refine .ite (fun _ => .pure) fun _ => .bind .guardTx fun _ => ?_
    exact .bind takeSeat_respects fun _ => .pure
  · refine .bind (Admits.updateParticipant fun _ => ⟨rfl, rfl, rfl⟩) fun _ => ?_
    exact .bind Admits.emit fun _ => .pure

theorem seatSeedParticipant_respects : Respects R (seatSeedParticipant env e user p) := by
  refine .bind .findRow fun _ => .bind .orThrow fun _ => .bind .guardTx fun _ => ?_
  exact .bind takeSeat_respects fun _ => Admits.insertParticipant

theorem reject_respects : Respects R (reject env user p) := by
  refine decideParticipation_respects fun ev q => ?_
  refine .bind assertParticipantTransition_respects fun _ => ?_
  refine .bind releaseSeatIfHeld_respects fun _ => ?_
  refine .bind (Admits.updateParticipant fun _ => ⟨rfl, rfl, rfl⟩) fun _ => ?_
  refine .bind refundJoinCharge_respects fun _ => ?_
  exact .bind fillFreedSeats_respects fun _ => .bind Admits.emit fun _ => .pure

theorem cancel_respects {reason : Option String} :
    Respects R (cancel env user p reason) := by
  refine .bind lockEventByParticipant_respects fun _ => .bind .orThrow fun _ => ?_
  refine .bind readParticipantByPublicId_respects fun _ => .bind .guardTx fun _ => ?_
  refine .bind assertParticipantTransition_respects fun _ => ?_
  refine .bind releaseSeatIfHeld_respects fun _ => ?_
  refine .bind chargeBucket_respects fun _ => ?_
  refine .bind (Admits.updateParticipant fun _ => ⟨rfl, rfl, rfl⟩) fun _ => ?_
  refine .bind Admits.emit fun _ => .bind fillFreedSeats_respects fun _ => ?_
  exact toDetail_respects

theorem expireOne_respects : Respects R (expireOne env p) := by
  refine .bind lockEventByParticipant_respects fun locked => ?_
  cases locked with
  | none => exact .pure
  | some ev =>
      refine .bind readParticipantByPublicId_respects fun q => ?_
      refine .ite (fun _ => .pure) fun _ => .ite (fun _ => .pure) fun _ => ?_
      refine .bind assertParticipantTransition_respects fun _ => ?_
      refine .bind (Admits.updateParticipant fun _ => ⟨rfl, rfl, rfl⟩) fun _ => ?_
      refine .bind refundJoinCharge_respects fun _ => ?_
      exact .bind Admits.emit fun _ => .bind fillFreedSeats_respects fun _ => .pure

theorem expireWaitlistedOne_respects : Respects R (expireWaitlistedOne env p) := by
  refine .bind lockEventByParticipant_respects fun locked => ?_
  cases locked with
  | none => exact .pure
  | some ev =>
      refine .ite (fun _ => .pure) fun _ => .bind readParticipantByPublicId_respects fun q => ?_
      refine .ite (fun _ => .pure) fun _ => .bind assertParticipantTransition_respects fun _ => ?_
      refine .bind (Admits.updateParticipant fun _ => ⟨rfl, rfl, rfl⟩) fun _ => ?_
      refine .bind refundJoinCharge_respects fun _ => ?_
      exact .bind Admits.emit fun _ => .pure

end Participations

/-! ## Events -/

section Events

variable {env : Env} {user : UserId} {e : EventId} {p : ParticipantId} {ev : EventRow}

theorem openCase_respects : Respects R (openCase env e) :=
  .bind .get fun _ => Admits.openCase rfl

theorem assertWithinQuota_respects : Respects R (assertWithinQuota env user) := by
  refine .bind .countRows fun _ => .bind .countRows fun _ => ?_
  exact .bind .guardTx fun _ => .guardTx

theorem create_respects {input : CreateEventInput} {seeded : Bool} :
    Respects R (create env user input seeded e) := by
  refine .bind .fromExcept fun _ => .bind (.bind .orThrow fun _ => .guardTx) fun _ => ?_
  refine .bind .guardTx fun _ => .bind (.whenTx fun _ => assertWithinQuota_respects) fun _ => ?_
  refine .bind .fromExcept fun _ => .bind .fromExcept fun _ => ?_
  refine .bind Admits.insertEvent fun _ => .bind assertEventTransition_respects fun _ => ?_
  refine .bind (.whenTx fun _ => assertEventTransition_respects) fun _ => ?_
  refine .bind (Admits.updateEvent fun _ => ⟨rfl, rfl⟩) fun _ => ?_
  refine .bind (.whenTx fun _ => openCase_respects) fun _ => ?_
  refine .bind chargeHostSpend_respects fun _ => ?_
  exact .bind (.whenTx fun _ => chargeHostSpend_respects) fun _ => .pure

theorem update_respects {input : UpdateEventInput} {v : Option Nat} :
    Respects R (update env user e input v) := by
  refine .bind .findRow fun _ => .bind .orThrow fun _ => .bind .fromExcept fun plan => ?_
  refine .bind (Admits.updateEvent fun _ => ⟨rfl, rfl⟩) fun _ => ?_
  exact .whenTx fun _ => openCase_respects

theorem callOffGuest_respects {reason : Option String} {q : ParticipantRow} :
    Respects R (callOffGuest env user reason q) := by
  refine .bind assertParticipantTransition_respects fun _ => .bind ?_ fun _ => ?_
  · exact .ite (fun _ => refundParticipant_respects) fun _ => .pure
  · exact .bind (Admits.updateParticipant fun _ => ⟨rfl, rfl, rfl⟩) fun _ => .pure

theorem cancelByHost_respects {reason : Option String} :
    Respects R (cancelByHost env user e reason) := by
  refine .bind .findRow fun _ => .bind .orThrow fun locked => .bind .guardTx fun _ => ?_
  refine .bind .guardTx fun _ => .bind assertEventTransition_respects fun _ => ?_
  refine .bind .guardTx fun _ => .bind .get fun db => .bind lockAccounts_respects fun _ => ?_
  refine .bind (.foldlM fun q _ total => .bind callOffGuest_respects fun _ => .pure) fun _ => ?_
  refine .bind chargeHost_respects fun _ => ?_
  refine .bind (Admits.updateEvent fun _ => ⟨rfl, rfl⟩) fun _ => ?_
  exact .bind Admits.emit fun _ => .pure

theorem retireOne_respects : Respects R (retireOne env e) := by
  refine .bind .findRow fun found => ?_
  cases found with
  | none => exact .pure
  | some locked =>
      refine .ite (fun _ => .pure) fun _ => .ite (fun _ => .pure) fun _ => ?_
      refine .ite (fun _ => .pure) fun _ => .bind .countRows fun seated => ?_
      refine .ite (fun _ => .pure) fun _ => .bind ?_ fun _ => ?_
      · refine .ite (fun _ => ?_) fun _ => assertEventTransition_respects
        refine .bind assertEventTransition_respects fun _ => ?_
        refine .bind (Admits.updateEvent fun _ => ⟨rfl, rfl⟩) fun _ => ?_
        exact assertEventTransition_respects
      · exact .bind (Admits.updateEvent fun _ => ⟨rfl, rfl⟩) fun _ => .pure

theorem markNoShow_respects : Respects R (markNoShow env user p) := by
  refine .bind lockEventByParticipant_respects fun _ => .bind .orThrow fun _ => ?_
  refine .bind .guardTx fun _ => .bind readParticipantByPublicId_respects fun _ => ?_
  refine .bind assertParticipantTransition_respects fun _ => .bind .guardTx fun _ => ?_
  refine .bind .guardTx fun _ => .bind chargeParticipant_respects fun _ => ?_
  exact .bind (Admits.updateParticipant fun _ => ⟨rfl, rfl, rfl⟩) fun _ => Admits.emit

theorem paySettlement_respects {st : Settlement} : Respects R (paySettlement env st) := by
  refine .bind payHost_respects fun _ => .bind payHost_respects fun _ => ?_
  exact .ite (fun _ => .pure) fun _ => .bind Admits.emit fun _ => .pure

end Events

/-! ## Filing and moderating -/

section Filing

variable {env : Env} {user : UserId} {e : EventId} {p : ParticipantId}

theorem openDispute_respects {t : ModerationSubjectType} {k n : Nat} :
    Respects R (openDispute env t k n) :=
  .bind .get fun _ => .bind (Admits.openCase rfl) fun _ => .pure

theorem writeClaim_respects {k : NoShowClaimKind} {q : Option ParticipantId} {text : String}
    {c : CaseId} : Respects R (writeClaim env e k q user text c) :=
  .bind .get fun _ => .bind Admits.fileClaim fun _ => .guardTx

theorem assertNotClaimed_respects {k : NoShowClaimKind} :
    Respects R (assertNotClaimed k e user) :=
  .bind .countRows fun _ => .guardTx

theorem dispute_respects {text : String} : Respects R (dispute env user p text) := by
  refine .bind .fromExcept fun _ => .bind ?_ fun seat => ?_
  · refine .bind .findRow fun _ => .bind .orThrow fun _ => .bind .guardTx fun _ => ?_
    refine .bind .guardTx fun _ => .bind .orThrow fun _ => .bind .guardTx fun _ => ?_
    exact .bind assertNotClaimed_respects fun _ => .pure
  · exact .bind openDispute_respects fun _ => writeClaim_respects

theorem loadReportable_respects : Respects R (loadReportable env user p) := by
  refine .bind .findRow fun _ => .bind .orThrow fun _ => .bind .guardTx fun _ => ?_
  refine .bind .guardTx fun _ => .bind .findRow fun _ => .bind .orThrow fun _ => ?_
  refine .bind .guardTx fun _ => .bind .guardTx fun _ => .bind .guardTx fun _ => ?_
  exact .bind assertNotClaimed_respects fun _ => .pure

theorem reportHostAbsent_respects {text : String} :
    Respects R (reportHostAbsent env user p text) := by
  refine .bind .fromExcept fun _ => .bind loadReportable_respects fun seat => ?_
  refine .bind .findRow fun _ => .bind .orThrow fun _ => .bind .findRows fun existing => ?_
  refine .bind ?_ fun caseId => .bind writeClaim_respects fun _ => .bind .countRows fun n => ?_
  · cases existing.head? with
    | none => exact openDispute_respects
    | some c => exact .pure
  · exact .bind Admits.countReports fun _ => .whenTx fun _ => Admits.emit

theorem moderateEvent_respects {may : Bool} {action : ModerationAction} {reason : String} :
    Respects R (moderateEvent may e action reason) := by
  refine .bind .guardTx fun _ => .bind .guardTx fun _ => .bind .findRow fun _ => ?_
  refine .bind .orThrow fun _ => .bind .fromExcept fun _ => ?_
  refine .bind (Admits.updateEvent fun _ => ⟨rfl, rfl⟩) fun _ => ?_
  refine .bind ?_ fun _ => .pure
  cases action with
  | HIDE => exact Admits.emit
  | PUBLISH => exact Admits.emit
  | REJECT => exact .pure

theorem writeDecision_respects {ev : EventRow} {w : Option StatusWrite} :
    Respects R (writeDecision ev w) := by
  cases w with
  | none => exact .pure
  | some w =>
      refine .bind (Admits.updateEvent fun _ => ⟨rfl, rfl⟩) fun _ => ?_
      exact .whenTx fun _ => Admits.emit

theorem applyEventDecision_respects {d : CaseDecision} :
    Respects R (applyEventDecision e d) := by
  refine .bind .findRow fun found => ?_
  cases found with
  | none => exact .pure
  | some ev => exact .bind .fromExcept fun _ => writeDecision_respects

theorem escalateEvent_respects {n : Nat} {notify : Bool} :
    Respects R (escalateEvent env e n notify) := by
  refine .bind .findRows fun existing => .bind ?_ fun _ => .bind .findRow fun _ => ?_
  · cases existing.head? with
    | none => exact .bind .get fun _ => Admits.openCase rfl
    | some c => exact Admits.countReports
  · refine .bind .orThrow fun _ => .bind .fromExcept fun _ => ?_
    exact .bind writeDecision_respects fun _ => .whenTx fun _ => Admits.emit

theorem openSubjectCase_respects {trigger : ModerationTrigger} {t : ModerationSubjectType}
    {k n : Nat} : Respects R (openSubjectCase env trigger t k n) :=
  .bind .get fun _ => Admits.openCase rfl

theorem escalateSubject_respects {t : ModerationSubjectType} {k n : Nat} :
    Respects R (escalateSubject env t k n) := by
  refine .bind .findRows fun existing => ?_
  cases existing.head? with
  | none => exact openSubjectCase_respects
  | some c => exact Admits.countReports

end Filing

end Respecting

/-! ## Settling attendance -/

section Settling

variable [AdmitsWindows R] {env : Env} {e : EventId} {ev : EventRow}

theorem settleGuest_respects {q : ParticipantRow} : Respects R (settleGuest env ev q) := by
  refine .bind assertParticipantTransition_respects fun _ => ?_
  refine .bind (Admits.updateParticipant fun _ => ⟨rfl, rfl, rfl⟩) fun _ => ?_
  refine .ite (fun _ => .pure) fun _ => .bind creditAttendance_respects fun _ => ?_
  exact .bind (AdmitsWindows.openWindow rfl) fun _ => .pure

theorem settleOne_respects : Respects R (settleOne env e) := by
  refine .bind .findRow fun found => ?_
  cases found with
  | none => exact .pure
  | some locked =>
      refine .ite (fun _ => .pure) fun _ => .bind .findRows fun attendees => ?_
      exact .bind (.forM fun q _ => settleGuest_respects) fun _ => .pure

end Settling

/-! ## Deciding a case -/

section Deciding

variable [AdmitsCases R] {env : Env} {admin : UserId} {e : EventId} {p : ParticipantId}
  {c : CaseId} {upheld : Bool} {note : String}

theorem returnPenalty_respects {l : Option LedgerId} : Respects R (returnPenalty env admin l) := by
  cases l with
  | none => exact .pure
  | some l =>
      refine .bind .findRow fun _ => .bind .orThrow fun _ => .bind .get fun _ => ?_
      exact .ite (fun _ => .pure) fun _ => .bind reverse_respects fun _ => .pure

theorem returnTrust_respects {q : ParticipantRow} : Respects R (returnTrust env admin q) := by
  refine .bind .get fun db => ?_
  cases db.trustByKey (.participantPenalty q.id) with
  | none => exact .pure
  | some taken =>
      refine .ite (fun _ => ?_) fun _ => .pure
      exact .bind (Admits.trust fun _ h => TrustKey.noConfusion h) fun _ => .pure

theorem reverseNoShow_respects : Respects R (reverseNoShow env admin p) := by
  refine .bind .findRow fun _ => .bind .orThrow fun _ => ?_
  refine .bind assertParticipantTransition_respects fun _ => ?_
  refine .bind returnPenalty_respects fun _ => .bind returnTrust_respects fun _ => ?_
  exact .bind (Admits.updateParticipant fun _ => ⟨rfl, rfl, rfl⟩) fun _ => .pure

theorem settleDispute_respects : Respects R (settleDispute env admin c p upheld) := by
  refine .bind .findRow fun _ => .bind .orThrow fun _ => .bind .findRow fun _ => ?_
  refine .bind .orThrow fun _ => .ite (fun _ => ?_) fun _ => Admits.emit
  exact .bind reverseNoShow_respects fun _ => .bind Admits.emit fun _ => Admits.emit

theorem releaseSeatedGuest_respects {q : ParticipantRow} :
    Respects R (releaseSeatedGuest env admin c q) := by
  refine .bind refundParticipant_respects fun _ => .bind ?_ fun _ => Admits.emit
  refine .ite (fun _ => ?_) fun _ => .pure
  exact .bind reverseNoShow_respects fun _ => .bind AdmitsCases.updateCases fun _ => .pure

theorem settleHostAbsence_respects : Respects R (settleHostAbsence env admin c e upheld) := by
  refine .bind .findRow fun _ => .bind .orThrow fun _ => .ite (fun _ => ?_) fun _ => ?_
  · refine .bind .guardTx fun _ => .bind .findRows fun _ => .bind lockAccounts_respects fun _ => ?_
    refine .bind (charge_respects fun _ h => TrustKey.noConfusion h) fun _ => .bind .get fun _ => ?_
    refine .bind reverseCharges_respects fun _ => ?_
    refine .bind (Admits.updateEvent fun _ => ⟨rfl, rfl⟩) fun _ => ?_
    exact .bind (.forM fun _ _ => releaseSeatedGuest_respects) fun _ => Admits.emit
  · exact .bind .findRows fun _ => .bind (.forM fun _ _ => Admits.emit) fun _ => Admits.emit

theorem decideClaim_respects {may : Bool} :
    Respects R (decideClaim env admin may c upheld note) := by
  refine .bind .guardTx fun _ => .bind .guardTx fun _ => .bind .findRow fun _ => ?_
  refine .bind .orThrow fun m => .bind .guardTx fun _ => .bind .guardTx fun _ => ?_
  refine .bind ?_ fun _ => AdmitsCases.updateCase
  unfold settleClaim
  split
  · exact settleDispute_respects
  · exact settleHostAbsence_respects
  · exact .throw

theorem decideCase_respects {may : Bool} {d : CaseDecision} :
    Respects R (decideCase env admin may c d note) := by
  refine .bind .guardTx fun _ => .bind .guardTx fun _ => .bind .findRow fun _ => ?_
  refine .bind .orThrow fun _ => .bind .guardTx fun _ => .bind .guardTx fun _ => ?_
  refine .bind AdmitsCases.updateCase fun _ => ?_
  exact .ite (fun _ => applyEventDecision_respects) fun _ => .pure

end Deciding

/-! ## Operations -/

/-- The operation decides a case. -/
def Op.decidesCase : Op → Bool
  | .decideClaim _ _ _ _ _ => true
  | .decideCase _ _ _ _ _ => true
  | _ => false

/-- The operations that neither decide a case nor open a review window. -/
theorem Op.plain_respects [Admits R] {env : Env} {op : Op} (h : op.decidesCase = false)
    (hopens : ∀ e, op ≠ .settleOne e) : Respects R (op.act env) := by
  cases op with
  | create => exact .map create_respects
  | update => exact update_respects
  | cancelByHost => exact .map cancelByHost_respects
  | join => exact .map join_respects
  | accept => exact .map accept_respects
  | seatSeedParticipant => exact seatSeedParticipant_respects
  | reject => exact .map reject_respects
  | cancel => exact .map cancel_respects
  | expireOne => exact .map expireOne_respects
  | expireWaitlistedOne => exact .map expireWaitlistedOne_respects
  | promoteForEvent => exact .map promoteForEvent_respects
  | retireOne => exact .map retireOne_respects
  | settleOne e => exact absurd rfl (hopens e)
  | markNoShow => exact markNoShow_respects
  | dispute => exact dispute_respects
  | reportHostAbsent => exact reportHostAbsent_respects
  | decideClaim => simp [Op.decidesCase] at h
  | moderateEvent => exact .map moderateEvent_respects
  | decideCase => simp [Op.decidesCase] at h
  | escalateEvent => exact escalateEvent_respects
  | scanAttendance | scanRewards | assess => exact .pure
  | pay => exact .map paySettlement_respects
  | moveCoins => exact .map applyCoins_respects

theorem Op.act_respects [AdmitsWindows R] {env : Env} {op : Op} (h : op.decidesCase = false) :
    Respects R (op.act env) := by
  by_cases hopens : ∃ e, op = .settleOne e
  · obtain ⟨e, rfl⟩ := hopens
    exact .map settleOne_respects
  · exact op.plain_respects h fun e he => hopens ⟨e, he⟩

/-- Only the settlement of attendance opens review windows. -/
theorem Op.unopened_respects [AdmitsCases R] {env : Env} {op : Op}
    (hopens : ∀ e, op ≠ .settleOne e) : Respects R (op.act env) := by
  by_cases h : op.decidesCase = false
  · exact op.plain_respects h hopens
  · cases op with
    | decideClaim => exact decideClaim_respects
    | decideCase => exact decideCase_respects
    | _ => exact absurd rfl h

/-- Where everything is allowed, every operation is. -/
theorem Op.respects [AdmitsDecisions R] {env : Env} {op : Op} : Respects R (op.act env) := by
  by_cases hopens : ∃ e, op = .settleOne e
  · obtain ⟨e, rfl⟩ := hopens
    exact .map settleOne_respects
  · exact op.unopened_respects fun e he => hopens ⟨e, he⟩

end Paayatam
