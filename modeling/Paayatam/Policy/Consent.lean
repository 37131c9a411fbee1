/-
  Paayatam.Policy.Consent

  `ConsentService`: who has accepted which version of the legal documents, under
  which circumstance, and what is still owed.

  An acceptance counts the user's rows and looks up what is already accepted in two
  reads, outside the transaction that inserts the rest.  The unique key includes the
  context, so it stops a second row only where both calls chose the same one.
-/

import Paayatam.Policy.Versions
import Mathlib.Data.List.Sort
import Mathlib.Data.List.Dedup

namespace Paayatam

open Lib

namespace Policy

inductive ConsentContext where
  | ONBOARDING | REACCEPT | CONTACT_SHARE
  deriving DecidableEq

/-- The columns of `consent` that tell who accepted what. -/
structure ConsentRow where
  userId : UserId
  policyVersionId : PolicyId
  context : ConsentContext
  acceptedAt : Instant
  deriving DecidableEq

/-- The tables, the users' onboarding states, and beside them what each successful
    `acceptPolicies` was given. -/
structure ConsentDb where
  policies : PolicyTable
  consents : List ConsentRow
  onboardingState : UserId → OnboardingState
  succeeded : List (UserId × List PolicyId)

inductive ConsentError where
  | INTERNAL_ERROR | POLICY_VERSION_STALE

/-! ## The documents -/

def PolicyType.rank : PolicyType → Nat
  | .TERMS => 0
  | .PRIVACY => 1
  | .COMMUNITY => 2

def REQUIRED_TYPES : List PolicyType := [.TERMS, .PRIVACY, .COMMUNITY]

def currentPolicies (t : PolicyTable) : List PolicyVersionRow :=
  (t.rows.filter fun r => r.isCurrent).insertionSort fun r q => r.type.rank ≤ q.type.rank

def requiredPolicies (t : PolicyTable) : List PolicyVersionRow :=
  (currentPolicies t).filter fun r => REQUIRED_TYPES.contains r.type

def requiredIds (t : PolicyTable) : List PolicyId := (requiredPolicies t).map (·.id)

/-! ## Accepting -/

/-- The unique key of `consent`. -/
def ConsentRow.sameKey (r q : ConsentRow) : Bool :=
  decide (r.userId = q.userId) && decide (r.policyVersionId = q.policyVersionId) &&
    decide (r.context = q.context)

/-- One row of a `createMany` with `skipDuplicates`. -/
def addRow (rows : List ConsentRow) (r : ConsentRow) : List ConsentRow :=
  if rows.any r.sameKey then rows else rows ++ [r]

def createMany (rows new : List ConsentRow) : List ConsentRow := new.foldl addRow rows

/-- The user has accepted the version, under whatever context. -/
def hasAccepted (rows : List ConsentRow) (userId : UserId) (id : PolicyId) : Bool :=
  rows.any fun r => decide (r.userId = userId) && decide (r.policyVersionId = id)

/-- `consent.count({ userId }) > 0`. -/
def acceptedAnything (rows : List ConsentRow) (userId : UserId) : Bool :=
  rows.any fun r => decide (r.userId = userId)

/-- What `acceptPolicies` asks of what it is given. -/
def mayAccept (required given : List PolicyId) : Except ConsentError Unit := do
  if required = [] then throw .INTERNAL_ERROR
  if required.any fun id => !given.contains id then throw .POLICY_VERSION_STALE
  if given.any fun id => !required.contains id then throw .POLICY_VERSION_STALE

/-- The context of a call that counted the user's rows. -/
def contextFor (prior : Bool) : ConsentContext := if prior then .REACCEPT else .ONBOARDING

/-- The rows the call has to write. -/
def outstandingRows (userId : UserId) (required done : List PolicyId) (prior : Bool)
    (now : Instant) : List ConsentRow :=
  (required.filter fun id => !done.contains id).map fun id =>
    ⟨userId, id, contextFor prior, now⟩

/-! ## The gate and the standing page -/

/-- The distinct versions among these that the user has accepted. -/
def acceptedAmong (rows : List ConsentRow) (userId : UserId) (ids : List PolicyId) :
    List PolicyId :=
  ((rows.filter fun r => decide (r.userId = userId) && ids.contains r.policyVersionId).map
    (·.policyVersionId)).dedup

def hasAcceptedCurrentPolicies (db : ConsentDb) (userId : UserId) : Bool :=
  if (requiredIds db.policies).length = 0 then true
  else decide ((acceptedAmong db.consents userId (requiredIds db.policies)).length =
    (requiredIds db.policies).length)

/-- When the user first accepted the version. -/
def firstAcceptedAt (rows : List ConsentRow) (userId : UserId) (id : PolicyId) : Option Instant :=
  ((rows.filter fun r => decide (r.userId = userId) && decide (r.policyVersionId = id)).map
    (·.acceptedAt)).min?

structure PolicyStanding where
  pending : List PolicyVersionRow
  accepted : List (PolicyVersionRow × Instant)

def standingFor (db : ConsentDb) (userId : UserId) : PolicyStanding where
  pending := (currentPolicies db.policies).filter fun p =>
    (firstAcceptedAt db.consents userId p.id).isNone
  accepted := (currentPolicies db.policies).filterMap fun p =>
    (firstAcceptedAt db.consents userId p.id).map fun at' => (p, at')

/-! ## Calls and publications -/

/-- An `acceptPolicies` that has passed its checks: what was required, and what its two reads
    have found so far. -/
structure AcceptWork where
  userId : UserId
  given : List PolicyId
  required : List PolicyId
  prior : Option Bool
  done : Option (List PolicyId)
  deriving DecidableEq

inductive ConsentMove (ι : Type) where
  | accept (i : ι) (userId : UserId) (given : List PolicyId)
  | count (i : ι)
  | already (i : ι)
  | write (i : ι) (now : Instant)
  | createDraft (type : PolicyType) (text : PolicyText) (now : Instant)
  | publish (id : PolicyId) (now : Instant)
  | abort (i : ι)

abbrev ConsentWorld (ι : Type) := Threads ι ConsentDb (Option AcceptWork)

/-- The transaction of `acceptPolicies`. -/
def writeAcceptance (db : ConsentDb) (work : AcceptWork) (prior : Bool) (done : List PolicyId)
    (now : Instant) : ConsentDb :=
  { db with
    consents := createMany db.consents (outstandingRows work.userId work.required done prior now)
    onboardingState := Function.update db.onboardingState work.userId
      (if db.onboardingState work.userId = .NEW then .TERMS_ACCEPTED
        else db.onboardingState work.userId)
    succeeded := (work.userId, work.given) :: db.succeeded }

namespace ConsentWorld

variable {ι : Type} [DecidableEq ι]

/-- The documents change, or the table refuses. -/
def changed (w : ConsentWorld ι) : Except DbError PolicyTable → ConsentWorld ι
  | .ok t => { w with shared := { w.shared with policies := t } }
  | .error _ => w

def exec (w : ConsentWorld ι) : ConsentMove ι → Option (ConsentWorld ι)
  | .accept i userId given =>
    match w.locals i with
    | none =>
      match mayAccept (requiredIds w.shared.policies) given with
      | .ok () => some (w.set i w.shared
          (some ⟨userId, given, requiredIds w.shared.policies, none, none⟩))
      | .error _ => some w
    | some _ => none
  | .count i =>
    match w.locals i with
    | some work =>
      some (w.set i w.shared
        (some { work with prior := some (acceptedAnything w.shared.consents work.userId) }))
    | none => none
  | .already i =>
    match w.locals i with
    | some work =>
      some (w.set i w.shared
        (some { work with done := some (work.required.filter fun id =>
          hasAccepted w.shared.consents work.userId id) }))
    | none => none
  | .write i now =>
    match w.locals i with
    | some ⟨userId, given, required, some prior, some done⟩ =>
      some (w.set i
        (writeAcceptance w.shared ⟨userId, given, required, some prior, some done⟩ prior done now)
        none)
    | _ => none
  | .createDraft type text now =>
    some (w.changed (w.shared.policies.insert (draftRow
      (freshId (w.shared.policies.rows.map (·.id))) type
      (latestVersion w.shared.policies type + 1) text now)))
  | .publish id now =>
    match w.shared.policies.find? id with
    | some draft =>
      if draft.status = .DRAFT then some (w.changed (publishRow w.shared.policies draft now))
      else some w
    | none => some w
  | .abort i => some (w.set i w.shared none)

def Step (w : ConsentWorld ι) (m : ConsentMove ι) (w' : ConsentWorld ι) : Prop :=
  w.exec m = some w'

/-- No row is from `acceptPolicies` yet, whatever other rows there are. -/
def Init (w : ConsentWorld ι) : Prop :=
  (∀ r ∈ w.shared.consents, r.context = .CONTACT_SHARE) ∧ w.shared.succeeded = [] ∧
    ∀ i, w.locals i = none

/-- What a call is about to write is there already under its context, or its two reads still
    hold: the version is not accepted, and the user's rows are as counted. -/
def Timely (w : ConsentWorld ι) : ConsentMove ι → Prop
  | .write i _ => ∀ work prior done, w.locals i = some work → work.prior = some prior →
      work.done = some done → ∀ id ∈ work.required, id ∉ done →
        (∃ r ∈ w.shared.consents, r.userId = work.userId ∧ r.policyVersionId = id ∧
          r.context = contextFor prior) ∨
        (hasAccepted w.shared.consents work.userId id = false ∧
          acceptedAnything w.shared.consents work.userId = prior)
  | _ => True

end ConsentWorld

/-! ## Rows -/

section Rows

variable {rows new : List ConsentRow} {r x : ConsentRow} {u : UserId} {v : PolicyId}

theorem sameKey_iff : r.sameKey x = true ↔
    r.userId = x.userId ∧ r.policyVersionId = x.policyVersionId ∧ r.context = x.context := by
  simp [ConsentRow.sameKey, and_assoc]

theorem hasAccepted_iff : hasAccepted rows u v = true ↔
    ∃ r ∈ rows, r.userId = u ∧ r.policyVersionId = v := by
  simp [hasAccepted]

theorem acceptedAnything_iff : acceptedAnything rows u = true ↔ ∃ r ∈ rows, r.userId = u := by
  simp [acceptedAnything]

theorem mem_addRow : x ∈ addRow rows r ↔ x ∈ rows ∨ (x = r ∧ rows.any r.sameKey = false) := by
  unfold addRow
  split
  · next h => simp [h]
  · next h => simp [h]

theorem mem_createMany_of_mem (h : x ∈ rows) : x ∈ createMany rows new := by
  induction new generalizing rows with
  | nil => exact h
  | cons r new ih => exact ih (mem_addRow.2 (.inl h))

/-- What is new is one of the rows given, and its key was not there. -/
theorem mem_createMany (h : x ∈ createMany rows new) :
    x ∈ rows ∨ (x ∈ new ∧ rows.any x.sameKey = false) := by
  induction new generalizing rows with
  | nil => exact .inl h
  | cons r new ih =>
      rcases ih h with hx | ⟨hx, hnew⟩
      · rcases mem_addRow.1 hx with hx | ⟨rfl, hnew⟩
        · exact .inl hx
        · exact .inr ⟨List.mem_cons_self, hnew⟩
      · refine .inr ⟨List.mem_cons_of_mem _ hx, ?_⟩
        rw [List.any_eq_false] at hnew ⊢
        exact fun q hq => hnew q (mem_addRow.2 (.inl hq))

/-- Every row given is there afterwards, at least by its key. -/
theorem createMany_covers (h : r ∈ new) :
    ∃ x ∈ createMany rows new, x.userId = r.userId ∧ x.policyVersionId = r.policyVersionId := by
  induction new generalizing rows with
  | nil => cases h
  | cons q new ih =>
      show ∃ x ∈ createMany (addRow rows q) new, _
      rcases List.mem_cons.1 h with rfl | h
      · cases hany : rows.any r.sameKey with
        | true =>
            obtain ⟨x, hx, hkey⟩ := List.any_eq_true.1 hany
            obtain ⟨hu, hv, -⟩ := sameKey_iff.1 hkey
            exact ⟨x, mem_createMany_of_mem (mem_addRow.2 (.inl hx)), hu.symm, hv.symm⟩
        | false => exact ⟨r, mem_createMany_of_mem (mem_addRow.2 (.inr ⟨rfl, hany⟩)), rfl, rfl⟩
      · exact ih h

/-- One row of `acceptPolicies` for each user and version. -/
def OneAcceptance (rows : List ConsentRow) : Prop :=
  rows.Pairwise fun r q => r.userId = q.userId → r.policyVersionId = q.policyVersionId →
    r.context = .CONTACT_SHARE ∨ q.context = .CONTACT_SHARE

theorem OneAcceptance.addRow (h : OneAcceptance rows)
    (hr : rows.any r.sameKey = true ∨ hasAccepted rows r.userId r.policyVersionId = false) :
    OneAcceptance (addRow rows r) := by
  unfold Policy.addRow
  split
  · exact h
  · next hnew =>
      rcases hr with hr | hr
      · exact absurd hr hnew
      · refine List.pairwise_append.2 ⟨h, List.pairwise_singleton _ _, fun x hx q hq hu hv => ?_⟩
        obtain rfl := List.mem_singleton.1 hq
        rw [hasAccepted_iff.2 ⟨x, hx, hu, hv⟩] at hr
        cases hr

theorem OneAcceptance.createMany (h : OneAcceptance rows)
    (hdistinct : new.Pairwise fun r q => r.policyVersionId ≠ q.policyVersionId)
    (hnew : ∀ r ∈ new, rows.any r.sameKey = true ∨
      hasAccepted rows r.userId r.policyVersionId = false) : OneAcceptance (createMany rows new) := by
  induction new generalizing rows with
  | nil => exact h
  | cons r new ih =>
      obtain ⟨hr, hrest⟩ := List.pairwise_cons.1 hdistinct
      refine ih (h.addRow (hnew r List.mem_cons_self)) hrest fun q hq => ?_
      rcases hnew q (List.mem_cons_of_mem _ hq) with hsame | hfree
      · obtain ⟨x, hx, hkey⟩ := List.any_eq_true.1 hsame
        exact .inl (List.any_eq_true.2 ⟨x, mem_addRow.2 (.inl hx), hkey⟩)
      · refine .inr ?_
        cases hacc : hasAccepted (Policy.addRow rows r) q.userId q.policyVersionId with
        | false => rfl
        | true =>
            obtain ⟨x, hx, hu, hv⟩ := hasAccepted_iff.1 hacc
            rcases mem_addRow.1 hx with hx | ⟨rfl, -⟩
            · rw [hasAccepted_iff.2 ⟨x, hx, hu, hv⟩] at hfree
              cases hfree
            · exact absurd hv (hr q hq)

end Rows

/-! ## The gate tells what the standing page tells -/

section Gate

variable {t : PolicyTable} {db : ConsentDb} {u : UserId} {p : PolicyVersionRow}

theorem mem_requiredPolicies : p ∈ requiredPolicies t ↔
    p ∈ currentPolicies t ∧ REQUIRED_TYPES.contains p.type = true := by
  rw [requiredPolicies, List.mem_filter]

theorem requiredIds_distinct : (requiredIds t).Nodup := by
  have hrows : (t.rows.map (·.id)).Nodup := by
    rw [List.Nodup, List.pairwise_map]
    exact t.distinct.imp fun h => h.1
  have hcurrent : ((currentPolicies t).map (·.id)).Nodup := by
    rw [currentPolicies, ((List.perm_insertionSort _ _).map _).nodup_iff]
    exact hrows.sublist (List.filter_sublist.map _)
  exact hcurrent.sublist (List.filter_sublist.map _)

theorem firstAcceptedAt_none {rows : List ConsentRow} {v : PolicyId} :
    firstAcceptedAt rows u v = none ↔ hasAccepted rows u v = false := by
  rw [firstAcceptedAt, List.min?_eq_none_iff, List.map_eq_nil_iff, List.filter_eq_nil_iff,
    hasAccepted, List.any_eq_false]

/-- Distinct members of a list without repetitions, as many as it has, are all of them. -/
theorem length_dedup_eq {required accepted : List PolicyId} (hdistinct : required.Nodup)
    (hsub : ∀ v ∈ accepted, v ∈ required) :
    accepted.dedup.length = required.length ↔ ∀ v ∈ required, v ∈ accepted := by
  have hsubperm : accepted.dedup.Subperm required :=
    List.subperm_of_subset (List.nodup_dedup accepted) fun v hv => hsub v (List.mem_dedup.1 hv)
  constructor
  · intro hlength v hv
    have hperm := hsubperm.perm_of_length_le (Nat.le_of_eq hlength.symm)
    exact List.mem_dedup.1 (hperm.mem_iff.2 hv)
  · intro hall
    apply Nat.le_antisymm hsubperm.length_le
    exact (List.subperm_of_subset hdistinct fun v hv => List.mem_dedup.2 (hall v hv)).length_le

theorem mem_acceptedAmong {rows : List ConsentRow} {ids : List PolicyId} {v : PolicyId} :
    v ∈ (rows.filter fun r => decide (r.userId = u) && ids.contains r.policyVersionId).map
      (·.policyVersionId) ↔ v ∈ ids ∧ hasAccepted rows u v = true := by
  simp only [List.mem_map, List.mem_filter, Bool.and_eq_true, decide_eq_true_eq,
    List.contains_iff_mem, hasAccepted_iff]
  constructor
  · rintro ⟨r, ⟨hr, hu, hid⟩, rfl⟩
    exact ⟨hid, r, hr, hu, rfl⟩
  · rintro ⟨hid, r, hr, hu, rfl⟩
    exact ⟨r, ⟨hr, hu, hid⟩, rfl⟩

theorem hasAcceptedCurrentPolicies_iff : hasAcceptedCurrentPolicies db u = true ↔
    ∀ p ∈ requiredPolicies db.policies, hasAccepted db.consents u p.id = true := by
  unfold hasAcceptedCurrentPolicies
  split
  · next hnone =>
      have hnil := List.map_eq_nil_iff.1 (List.length_eq_zero_iff.1 hnone)
      simp [hnil]
  · rw [decide_eq_true_eq, acceptedAmong, length_dedup_eq requiredIds_distinct fun v hv =>
      (mem_acceptedAmong.1 hv).1]
    constructor
    · intro h p hp
      exact (mem_acceptedAmong.1 (h p.id (List.mem_map_of_mem hp))).2
    · intro h v hv
      obtain ⟨p, hp, rfl⟩ := List.mem_map.1 hv
      exact mem_acceptedAmong.2 ⟨hv, h p hp⟩

/-- The gate is open exactly when no required document is pending. -/
theorem gate_iff_standing : hasAcceptedCurrentPolicies db u = true ↔
    ∀ p ∈ (standingFor db u).pending, REQUIRED_TYPES.contains p.type = false := by
  rw [hasAcceptedCurrentPolicies_iff]
  simp only [standingFor, List.mem_filter, Option.isNone_iff_eq_none, firstAcceptedAt_none,
    mem_requiredPolicies]
  constructor
  · rintro h p ⟨hp, hpending⟩
    cases hrequired : REQUIRED_TYPES.contains p.type with
    | false => rfl
    | true =>
        have haccepted := h p ⟨hp, hrequired⟩
        rw [hpending] at haccepted
        cases haccepted
  · rintro h p ⟨hp, hrequired⟩
    cases haccepted : hasAccepted db.consents u p.id with
    | true => rfl
    | false =>
        have hnot := h p ⟨hp, haccepted⟩
        rw [hrequired] at hnot
        cases hnot

end Gate

/-! ## Every run -/

/-- What a successful call was given is accepted. -/
def Honoured (db : ConsentDb) : Prop :=
  ∀ p ∈ db.succeeded, ∀ v ∈ p.2, hasAccepted db.consents p.1 v = true

structure ConsentKept (db : ConsentDb) : Prop where
  one : OneAcceptance db.consents
  honoured : Honoured db
  gate : ∀ u, hasAcceptedCurrentPolicies db u = true ↔
    ∀ p ∈ (standingFor db u).pending, REQUIRED_TYPES.contains p.type = false

/-- The rows a step writes are `ONBOARDING` exactly when their user had none. -/
def WellLabelled (db db' : ConsentDb) : Prop :=
  ∀ r ∈ db'.consents, r ∉ db.consents →
    (r.context = .ONBOARDING ↔ ∀ q ∈ db.consents, q.userId ≠ r.userId)

/-- What a call has found stays found. -/
structure AcceptWork.Good (rows : List ConsentRow) (work : AcceptWork) : Prop where
  distinct : work.required.Nodup
  given : ∀ v ∈ work.given, v ∈ work.required
  done : ∀ done, work.done = some done → ∀ v ∈ done, hasAccepted rows work.userId v = true

section Runs

variable {ι : Type} [DecidableEq ι] {w w' : ConsentWorld ι} {m : ConsentMove ι} {i : ι}
  {rows rows' : List ConsentRow} {db : ConsentDb} {work : AcceptWork}

abbrev ConsentSound (w : ConsentWorld ι) : Prop :=
  w.Holds (fun db => OneAcceptance db.consents ∧ Honoured db)
    (fun db l => ∀ work, l = some work → work.Good db.consents) fun _ _ => True

theorem hasAccepted_mono (h : ∀ r ∈ rows, r ∈ rows') {u : UserId} {v : PolicyId}
    (hv : hasAccepted rows u v = true) : hasAccepted rows' u v = true := by
  obtain ⟨r, hr, hrv⟩ := hasAccepted_iff.1 hv
  exact hasAccepted_iff.2 ⟨r, h r hr, hrv⟩

theorem AcceptWork.Good.mono (hw : work.Good rows) (h : ∀ r ∈ rows, r ∈ rows') :
    work.Good rows' :=
  ⟨hw.distinct, hw.given, fun done hd v hv => hasAccepted_mono h (hw.done done hd v hv)⟩

theorem mayAccept_given {required given : List PolicyId}
    (h : mayAccept required given = .ok ()) : ∀ v ∈ given, v ∈ required := by
  intro v hv
  by_contra hnot
  have hextra : (given.any fun id => !required.contains id) = true :=
    List.any_eq_true.2 ⟨v, hv, by simpa using hnot⟩
  unfold mayAccept at h
  by_cases hnone : required = []
  · simp [hnone, bind, Except.bind, throw, throwThe, MonadExceptOf.throw] at h
  · cases hmissing : required.any fun id => !given.contains id <;>
      rw [hmissing, hextra] at h <;>
      simp [hnone, bind, Except.bind, throw, throwThe, MonadExceptOf.throw] at h

theorem mem_outstandingRows {u : UserId} {required done : List PolicyId} {prior : Bool}
    {now : Instant} {r : ConsentRow} : r ∈ outstandingRows u required done prior now ↔
      ∃ v ∈ required, v ∉ done ∧ r = ⟨u, v, contextFor prior, now⟩ := by
  simp only [outstandingRows, List.mem_map, List.mem_filter, Bool.not_eq_true',
    List.contains_eq_mem, decide_eq_false_iff_not]
  exact ⟨fun ⟨v, hv, hr⟩ => ⟨v, hv.1, hv.2, hr.symm⟩, fun ⟨v, hv, hnot, hr⟩ =>
    ⟨v, ⟨hv, hnot⟩, hr.symm⟩⟩

/-- The write of a call, where what it relies on still holds. -/
theorem writeAcceptance_kept (hone : OneAcceptance db.consents) (hhonoured : Honoured db)
    (hgood : work.Good db.consents) {prior : Bool} {done : List PolicyId} (now : Instant)
    (hdone : work.done = some done)
    (htimely : ∀ id ∈ work.required, id ∉ done →
      (∃ r ∈ db.consents, r.userId = work.userId ∧ r.policyVersionId = id ∧
        r.context = contextFor prior) ∨
      (hasAccepted db.consents work.userId id = false ∧
        acceptedAnything db.consents work.userId = prior)) :
    OneAcceptance (writeAcceptance db work prior done now).consents ∧
      Honoured (writeAcceptance db work prior done now) ∧
      WellLabelled db (writeAcceptance db work prior done now) := by
  refine ⟨?_, ?_, ?_⟩
  · apply hone.createMany
    · rw [outstandingRows, List.pairwise_map]
      exact hgood.distinct.sublist List.filter_sublist
    · intro r hr
      obtain ⟨v, hv, hnot, rfl⟩ := mem_outstandingRows.1 hr
      rcases htimely v hv hnot with ⟨q, hq, hu, hqv, hc⟩ | ⟨hfree, -⟩
      · exact .inl (List.any_eq_true.2 ⟨q, hq, sameKey_iff.2 ⟨hu.symm, hqv.symm, hc.symm⟩⟩)
      · exact .inr hfree
  · rintro p hp v hv
    rcases List.mem_cons.1 hp with rfl | hp
    · by_cases hin : v ∈ done
      · exact hasAccepted_mono (fun r hr => mem_createMany_of_mem hr) (hgood.done done hdone v hin)
      · obtain ⟨x, hx, hxv⟩ := @createMany_covers db.consents _ _
          (mem_outstandingRows.2 ⟨v, hgood.given v hv, hin, rfl⟩)
        exact hasAccepted_iff.2 ⟨x, hx, hxv⟩
    · exact hasAccepted_mono (fun r hr => mem_createMany_of_mem hr) (hhonoured p hp v hv)
  · intro r hr hold
    rcases mem_createMany hr with hin | ⟨hnew, hkey⟩
    · exact absurd hin hold
    · obtain ⟨v, hv, hnot, rfl⟩ := mem_outstandingRows.1 hnew
      rcases htimely v hv hnot with ⟨q, hq, hu, hqv, hc⟩ | ⟨-, hcounted⟩
      · rw [List.any_eq_false] at hkey
        exact absurd (sameKey_iff.2 ⟨hu.symm, hqv.symm, hc.symm⟩) (hkey q hq)
      · cases prior with
        | true =>
            obtain ⟨q, hq, hu⟩ := acceptedAnything_iff.1 hcounted
            exact ⟨nofun, fun h => absurd hu (h q hq)⟩
        | false =>
            refine ⟨fun _ q hq hu => ?_, fun _ => rfl⟩
            rw [acceptedAnything_iff.2 ⟨q, hq, hu⟩] at hcounted
            cases hcounted

theorem ConsentSound.goes (h : ConsentSound w) (hgood : work.Good w.shared.consents) :
    ConsentSound (w.set i w.shared (some work)) := by
  apply h.set_own
  intro work' hw
  obtain rfl := Option.some.inj hw
  exact hgood

omit [DecidableEq ι] in
theorem ConsentSound.changed (h : ConsentSound w) (result : Except DbError PolicyTable) :
    ConsentSound (w.changed result) ∧ WellLabelled w.shared (w.changed result).shared := by
  unfold ConsentWorld.changed
  split
  · exact ⟨⟨h.shared, h.own, fun _ _ _ => trivial⟩, fun r hr hold => absurd hr hold⟩
  · exact ⟨h, fun r hr hold => absurd hr hold⟩

theorem ConsentSound.step (h : ConsentSound w) (hg : w.Timely m) (hs : w.Step m w') :
    ConsentSound w' ∧ WellLabelled w.shared w'.shared := by
  have hstill : ∀ {v : ConsentWorld ι}, v.shared = w.shared → WellLabelled w.shared v.shared := by
    intro v hv r hr hold
    rw [hv] at hr
    exact absurd hr hold
  cases m with
  | accept i u given =>
      simp only [ConsentWorld.Step, ConsentWorld.exec] at hs
      split at hs
      · split at hs
        · next hmay =>
            obtain rfl := Option.some.inj hs
            exact ⟨h.goes ⟨requiredIds_distinct, mayAccept_given hmay, nofun⟩, hstill rfl⟩
        · obtain rfl := Option.some.inj hs
          exact ⟨h, hstill rfl⟩
      · cases hs
  | count i =>
      simp only [ConsentWorld.Step, ConsentWorld.exec] at hs
      split at hs
      · next work hl =>
          obtain rfl := Option.some.inj hs
          have hgood := h.own i work hl
          exact ⟨h.goes ⟨hgood.distinct, hgood.given, hgood.done⟩, hstill rfl⟩
      · cases hs
  | already i =>
      simp only [ConsentWorld.Step, ConsentWorld.exec] at hs
      split at hs
      · next work hl =>
          obtain rfl := Option.some.inj hs
          have hgood := h.own i work hl
          refine ⟨h.goes ⟨hgood.distinct, hgood.given, fun done hd v hv => ?_⟩, hstill rfl⟩
          obtain rfl := Option.some.inj hd
          exact (List.mem_filter.1 hv).2
      · cases hs
  | write i now =>
      simp only [ConsentWorld.Step, ConsentWorld.exec] at hs
      split at hs
      · next u given required prior done hl =>
          obtain rfl := Option.some.inj hs
          obtain ⟨hone, hhonoured, hlabelled⟩ := writeAcceptance_kept h.shared.1
            h.shared.2 (h.own i _ hl) now rfl (hg _ prior done hl rfl rfl)
          refine ⟨h.set_alone ⟨hone, hhonoured⟩ nofun fun j _ work hw =>
            (h.own j work hw).mono fun r hr => ?_, hlabelled⟩
          exact mem_createMany_of_mem hr
      · cases hs
  | createDraft type text now =>
      obtain rfl := Option.some.inj hs
      exact h.changed _
  | publish id now =>
      simp only [ConsentWorld.Step, ConsentWorld.exec] at hs
      split at hs
      · split at hs
        · obtain rfl := Option.some.inj hs
          exact h.changed _
        · obtain rfl := Option.some.inj hs
          exact ⟨h, hstill rfl⟩
      · obtain rfl := Option.some.inj hs
        exact ⟨h, hstill rfl⟩
  | abort i =>
      obtain rfl := Option.some.inj hs
      exact ⟨h.set_own nofun, hstill rfl⟩

omit [DecidableEq ι] in
theorem consentSound_init (h : w.Init) : ConsentSound w := by
  obtain ⟨hextra, hsucceeded, hidle⟩ := h
  refine ⟨⟨?_, fun p hp => ?_⟩, fun i work hl => ?_, fun _ _ _ => trivial⟩
  · exact List.pairwise_iff_forall_sublist.2 fun hsub _ _ =>
      .inl (hextra _ (hsub.subset List.mem_cons_self))
  · rw [hsucceeded] at hp
    cases hp
  · rw [hidle i] at hl
    cases hl

/-- Where every call writes what its reads still justify. -/
theorem consent_evidence_kept {tr : List (ConsentWorld ι × ConsentMove ι × ConsentWorld ι)}
    (h : Run ConsentWorld.Init ConsentWorld.Step ConsentWorld.Timely tr w) :
    (∀ x ∈ tr, WellLabelled x.1.shared x.2.2.shared) ∧ ConsentKept w.shared := by
  have hsound : ∀ {v : ConsentWorld ι}, Reach ConsentWorld.Init ConsentWorld.Step
      ConsentWorld.Timely v → ConsentSound v := fun hv =>
    hv.invariant (I := ConsentSound) (fun _ => consentSound_init)
      fun _ _ _ hI hg hs => (hI.step hg hs).1
  refine ⟨h.steps fun v m v' hv hg hs => ((hsound hv).step hg hs).2, ?_⟩
  obtain ⟨hone, hhonoured⟩ := (hsound h.reach).shared
  exact ⟨hone, hhonoured, fun _ => gate_iff_standing⟩

end Runs

/-! ## Overlaps -/

def nothingAccepted : ConsentWorld Bool where
  shared := ⟨.empty, [], fun _ => .NEW, []⟩
  locals _ := none

theorem nothingAccepted_init : nothingAccepted.Init :=
  ⟨fun _ hr => absurd hr List.not_mem_nil, rfl, fun _ => rfl⟩

/-- The first version of the terms is published and accepted, then the second. -/
def acceptedTwice : List (ConsentMove Bool) :=
  [.createDraft .TERMS terms 1, .publish 1 2, .accept true 7 [1], .count true, .already true,
    .write true 3, .createDraft .TERMS terms 4, .publish 2 5, .accept false 7 [2], .count false,
    .already false, .write false 6]

def timely (w : ConsentWorld Bool) : ConsentMove Bool → Bool
  | .write i _ => match w.locals i with
    | some ⟨u, _, required, some prior, some done⟩ => required.all fun id => done.contains id ||
        (!hasAccepted w.shared.consents u id && (acceptedAnything w.shared.consents u == prior))
    | _ => true
  | _ => true

theorem timely_of_timely {w : ConsentWorld Bool} {m : ConsentMove Bool}
    (h : timely w m = true) : w.Timely m := by
  cases m with
  | write i now =>
      intro work prior done hl hprior hdone id hid hnot
      obtain ⟨u, given, required, prior', done'⟩ := work
      obtain rfl : prior' = some prior := hprior
      obtain rfl : done' = some done := hdone
      simp only [timely, hl, List.all_eq_true] at h
      have hone := h id hid
      rw [List.contains_eq_mem, decide_eq_false hnot] at hone
      exact .inr (by simpa using hone)
  | accept | count | already | createDraft | publish | abort => trivial

theorem consent_evidence_kept_twice : ∃ w : ConsentWorld Bool,
    ConsentKept w.shared ∧ w.shared.consents.map (·.context) = [.ONBOARDING, .REACCEPT] := by
  have hrun : Run ConsentWorld.Init ConsentWorld.Step ConsentWorld.Timely _ _ :=
    run_of_runList (fun _ _ _ h => h) (fun _ _ => timely_of_timely) (.start nothingAccepted_init)
      (show guardList ConsentWorld.exec timely nothingAccepted acceptedTwice = true by decide)
      (show runList ConsentWorld.exec nothingAccepted acceptedTwice = some _ from rfl)
  exact ⟨_, (consent_evidence_kept hrun).2, rfl⟩

/-- One submission, twice at once: the second looks for what is accepted before the first has
    written, and counts after. -/
def submittedTwice : List (ConsentMove Bool) :=
  [.createDraft .TERMS terms 1, .publish 1 2, .accept true 7 [1], .accept false 7 [1],
    .already false, .count true, .already true, .write true 3, .count false, .write false 4]

/-- A first acceptance of the old version, after one of the new version. -/
def overtaken : List (ConsentMove Bool) :=
  [.createDraft .TERMS terms 1, .publish 1 2, .accept true 7 [1], .count true, .already true,
    .createDraft .TERMS terms 3, .publish 2 4, .accept false 7 [2], .count false, .already false,
    .write false 5]

theorem acceptances_overlap :
    (∃ w : ConsentWorld Bool, Reachable ConsentWorld.Init ConsentWorld.Step w ∧
      ¬ OneAcceptance w.shared.consents) ∧
    ∃ w w' : ConsentWorld Bool, Reachable ConsentWorld.Init ConsentWorld.Step w ∧
      w.Step (.write true 6) w' ∧ ¬ WellLabelled w.shared w'.shared := by
  refine ⟨⟨_, reachable_of_runList (fun _ _ _ h => h) (.start nothingAccepted_init)
    (show runList ConsentWorld.exec nothingAccepted submittedTwice = some _ from rfl), ?_⟩,
    ⟨_, _, reachable_of_runList (fun _ _ _ h => h) (.start nothingAccepted_init)
    (show runList ConsentWorld.exec nothingAccepted overtaken = some _ from rfl),
    (rfl : ConsentWorld.exec _ _ = some _), ?_⟩⟩
  · unfold OneAcceptance
    decide
  · unfold WellLabelled
    decide

end Policy

end Paayatam
