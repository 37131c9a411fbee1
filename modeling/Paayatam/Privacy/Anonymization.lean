/-
  Paayatam.Privacy.Anonymization

  Anonymising an account while relay passes, reviews, reports and profile edits
  go on.

  The erasure is one transaction of seven statements: each finds the rows that
  are committed when it runs, and what they change is visible from the commit
  on.  No other writer asks for the status of the user it writes for, so a row
  that is written for the user after its statement ran stays.
-/

import Paayatam.Reviews.Interleaving
import Paayatam.Outbox.Records
import Paayatam.Identity.Completion
import Paayatam.Policy.Consent
import Paayatam.Economy.Referral
import Paayatam.Moderation.Reports

namespace Paayatam

open Lib

namespace Privacy

open Completion (UserProfileRow InterestId UpdateProfileInput ProfileEditor ProfileEdit
  CompletionSettings setInterests)
open Policy (ConsentRow)
open Reviews (ReviewWorld ReviewMove ReviewWork)

/-! ## The tables -/

/-- What a deleted account's display name becomes. -/
def ANONYMOUS_DISPLAY_NAME : String := "کاربر حذف‌شده"

/-- `user`. -/
structure UserRow where
  id : UserId
  publicId : String
  status : UserStatus
  deletedAt : Option Instant
  referralCode : Option String
  isSeed : Bool

/-- `telegram_account`. -/
structure TelegramAccountRow where
  telegramUserId : Nat
  userId : UserId

/-- The `audit_log` row of an anonymisation: counts, never content. -/
structure AnonymizedAudit where
  actorAdminId : Option Nat
  userId : UserId
  statusBefore : UserStatus
  redactedReviews : Nat
  redactedReports : Nat

/-! ## The calls in progress -/

/-- The statements of `anonymize`, by the table they write. -/
inductive Statement where
  | telegramAccount | userInterest | notification | userProfile | review | report | user
  deriving DecidableEq

def Statement.all : List Statement :=
  [.telegramAccount, .userInterest, .notification, .userProfile, .review, .report, .user]

/-- The rows the statements found. -/
structure Found where
  telegram : List Nat := []
  interests : List InterestId := []
  notifications : List NotificationId := []
  reviews : List ReviewId := []
  reports : List ReportKey := []

/-- An `anonymize` between its read of the user and its commit. -/
structure Erasure where
  userId : UserId
  actorAdminId : Option Nat
  now : Instant
  statusBefore : UserStatus
  left : List Statement
  found : Found

/-- A profile edit between its read and its write. -/
structure EditCall where
  userId : UserId
  edit : ProfileEdit

/-- The tables, and the calls in progress. -/
structure PrivacyWorld where
  reviews : ReviewWorld
  relay : RelayWorld
  users : List UserRow
  telegramAccounts : List TelegramAccountRow
  profiles : UserId → Option UserProfileRow
  interests : UserId → List InterestId
  reports : Table ReportRow
  referrals : List ReferralRow
  consents : List ConsentRow
  audit : List AnonymizedAudit
  edits : Nat → Option EditCall
  filings : Nat → Option ReportRow
  erasures : Nat → Option Erasure

inductive PrivacyMove where
  /-- The reviews, and every other operation on the tables they share. -/
  | review (m : ReviewMove)
  /-- The outbox, its relay passes and the sender. -/
  | relay (m : RelayMove)
  /-- Worker `i` makes the checks of `update` and reads the profile. -/
  | readEdit (i : Nat) (userId : UserId) (env : Env) (settings : CompletionSettings)
      (active : InterestId → Bool) (editor : ProfileEditor) (input : UpdateProfileInput)
  | writeEdit (i : Nat)
  /-- Worker `i` looks up what is reported. -/
  | readReport (i : Nat) (env : ReportEnv) (reporter : UserId) (input : FileReportInput)
  | writeReport (i : Nat)
  /-- What the referral and consent services write. -/
  | records (referrals : List ReferralRow) (consents : List ConsentRow)
  /-- Worker `i` reads the user and begins to anonymise the account. -/
  | begin (i : Nat) (userId : UserId) (actorAdminId : Option Nat) (now : Instant)
  | statement (i : Nat)
  | commit (i : Nat)
  | rollback (i : Nat)

namespace PrivacyWorld

/-- The committed tables of the core. -/
def db (w : PrivacyWorld) : Db := w.reviews.db

def notifications (w : PrivacyWorld) : Table NotificationRow := w.relay.shared.db.notifications

/-- What the relay reads of an account: its row is there whatever its status. -/
def directory (w : PrivacyWorld) : Directory := fun publicId =>
  (w.users.find? fun row => decide (row.publicId = publicId)).map fun row => ⟨row.id, row.isSeed⟩

end PrivacyWorld

/-! ## Anonymising -/

def anonymousProfile (p : UserProfileRow) : UserProfileRow :=
  { p with displayName := ANONYMOUS_DISPLAY_NAME, bio := none, gender := none, birthYear := none
           districtId := none }

def anonymousUser (now : Instant) (row : UserRow) : UserRow :=
  { row with status := .DELETED, deletedAt := some now, referralCode := none }

/-- What a statement finds among the committed rows. -/
def Statement.find (w : PrivacyWorld) (u : UserId) (found : Found) : Statement → Found
  | .telegramAccount => { found with
      telegram :=
        (w.telegramAccounts.filter fun t => decide (t.userId = u)).map (·.telegramUserId) }
  | .userInterest => { found with interests := w.interests u }
  | .notification => { found with
      notifications := (w.notifications.rows.filter fun n => decide (n.userId = u)).map (·.id) }
  | .review => { found with reviews := (w.db.reviews.rows.filter fun r =>
      decide (r.reviewerUserId = u) && r.comment.isSome).map (·.id) }
  | .report => { found with reports := (w.reports.rows.filter fun r =>
      decide (r.reporterUserId = u) && r.description.isSome).map Row.key }
  -- the row of the user is locked from here on
  | .userProfile => found
  | .user => found

namespace Erasure

def redacts (e : Erasure) (r : ReviewRow) : Bool :=
  decide (r.reviewerUserId = e.userId) && e.found.reviews.contains r.id

def redactsReport (e : Erasure) (r : ReportRow) : Bool :=
  decide (r.reporterUserId = e.userId) && e.found.reports.contains (Row.key r)

def deletesNotification (e : Erasure) (n : NotificationRow) : Bool :=
  decide (n.userId = e.userId) && e.found.notifications.contains n.id

/-- The commit of the transaction. -/
def commit (e : Erasure) (reviews : Table ReviewRow) (reports : Table ReportRow)
    (w : PrivacyWorld) : PrivacyWorld :=
  { w with
    telegramAccounts := w.telegramAccounts.filter fun t =>
      !(decide (t.userId = e.userId) && e.found.telegram.contains t.telegramUserId)
    interests := Function.update w.interests e.userId
      ((w.interests e.userId).filter fun x => !e.found.interests.contains x)
    relay := { w.relay with shared := { w.relay.shared with db :=
      { w.relay.shared.db with
        notifications := w.notifications.deleteMany e.deletesNotification } } }
    profiles := Function.update w.profiles e.userId ((w.profiles e.userId).map anonymousProfile)
    reviews := { w.reviews with shared := w.reviews.put { w.db with reviews := reviews } }
    reports := reports
    users := w.users.map fun row => if row.id = e.userId then anonymousUser e.now row else row
    audit := w.audit ++ [⟨e.actorAdminId, e.userId, e.statusBefore, e.found.reviews.length,
      e.found.reports.length⟩] }

end Erasure

/-- `findResidualPii`: whether an account still holds personal data. -/
def findResidualPii (w : PrivacyWorld) (u : UserId) : List String :=
  let when' (c : Bool) (name : String) : List String := if c then [name] else []
  when' (w.telegramAccounts.any fun t => decide (t.userId = u)) "telegram_account" ++
  when' (!(w.interests u).isEmpty) "user_interest" ++
  when' (w.notifications.rows.any fun n => decide (n.userId = u)) "notification" ++
  when' (w.db.reviews.rows.any fun r => decide (r.reviewerUserId = u) && r.comment.isSome)
    "review.comment" ++
  when' (w.reports.rows.any fun r => decide (r.reporterUserId = u) && r.description.isSome)
    "report.description" ++
  when' (w.users.any fun row => decide (row.id = u) && row.referralCode.isSome)
    "user.referral_code" ++
  match w.profiles u with
  | none => []
  | some profile =>
      when' (decide (profile.displayName ≠ ANONYMOUS_DISPLAY_NAME)) "user_profile.display_name" ++
      when' profile.bio.isSome "user_profile.bio" ++
      when' profile.birthYear.isSome "user_profile.birth_year" ++
      when' profile.gender.isSome "user_profile.gender"

/-! ## The system -/

namespace PrivacyWorld

def exec (w : PrivacyWorld) : PrivacyMove → Option PrivacyWorld
  | .review m => (w.reviews.exec m).map fun r => { w with reviews := r }
  | .relay m => (w.relay.exec w.directory m).map fun r => { w with relay := r }
  | .readEdit i u env settings active editor input =>
    match w.edits i, Completion.mayUpdate env settings editor input,
        Completion.planUpdate env active (w.profiles u) input with
    | none, .ok _, .ok edit =>
      some { w with edits := Function.update w.edits i (some ⟨u, edit⟩) }
    | _, _, _ => none
  | .writeEdit i =>
    (w.edits i).map fun c =>
      { w with
        profiles := Function.update w.profiles c.userId ((w.profiles c.userId).map c.edit.apply)
        interests := Function.update w.interests c.userId (match c.edit.interestIds with
          | some ids => setInterests (w.interests c.userId) ids
          | none => w.interests c.userId)
        edits := Function.update w.edits i none }
  | .readReport i env reporter input =>
    match w.filings i, reportable env w.db reporter input.target with
    | none, .ok _ =>
      some { w with filings := Function.update w.filings i (some (newReport env reporter input)) }
    | _, _ => none
  | .writeReport i =>
    match w.filings i with
    | none => none
    | some report =>
      match w.reports.insert report with
      | .ok reports =>
        some { w with reports := reports, filings := Function.update w.filings i none }
      | .error _ => some { w with filings := Function.update w.filings i none }
  | .records referrals consents => some { w with referrals := referrals, consents := consents }
  | .begin i u admin now =>
    match w.erasures i, w.users.find? fun row => decide (row.id = u) with
    | none, some row =>
      let e : Erasure := ⟨u, admin, now, row.status, Statement.all, {}⟩
      some { w with erasures := Function.update w.erasures i (some e) }
    | _, _ => none
  | .statement i =>
    match w.erasures i with
    | none => none
    | some e =>
      match e.left with
      | [] => none
      | st :: left =>
        let e' := { e with left := left, found := st.find w e.userId e.found }
        some { w with erasures := Function.update w.erasures i (some e') }
  | .commit i =>
    match w.erasures i with
    | none => none
    | some e =>
      if e.left = [] then
        match w.db.reviews.updateMany e.redacts (fun r => { r with comment := none }),
            w.reports.updateMany e.redactsReport (fun r => { r with description := none }) with
        | .ok reviews, .ok reports =>
          some { e.commit reviews reports w with erasures := Function.update w.erasures i none }
        | _, _ => none
      else none
  | .rollback i => (w.erasures i).map fun _ =>
      { w with erasures := Function.update w.erasures i none }

def Step (w : PrivacyWorld) (m : PrivacyMove) (w' : PrivacyWorld) : Prop := w.exec m = some w'

/-- Nobody is anonymised and nothing is in progress; accounts, profiles, reports and the rest
are as they may be. -/
def Init (w : PrivacyWorld) : Prop :=
  w.reviews.Init ∧ w.relay.Init ∧ (w.users.map (·.id)).Nodup ∧
    (∀ row ∈ w.users, row.status ≠ .DELETED) ∧ (∀ i, w.edits i = none) ∧
    (∀ i, w.filings i = none) ∧ ∀ i, w.erasures i = none

/-- The account is anonymised. -/
def Anonymised (w : PrivacyWorld) (u : UserId) : Prop :=
  ∃ row ∈ w.users, row.id = u ∧ row.status = .DELETED

/-- The account is anonymised or about to be. -/
def Closing (w : PrivacyWorld) (u : UserId) : Prop :=
  w.Anonymised u ∨ ∃ i e, w.erasures i = some e ∧ e.userId = u

/-- The move writes words or personal rows for the user. -/
def WritesFor (w : PrivacyWorld) (u : UserId) : PrivacyMove → Prop
  | .relay (.next i _) => ∃ row plan plans rest queued,
      w.relay.locals i = .fanning row (plan :: plans) rest queued ∧
        resolveUserId w.directory plan.userPublicId = some u
  | .review (.finish i) => ∃ f, w.reviews.locals i = some f ∧ match f.work with
      | .submit userId input _ => userId = u ∧ input.comment.isSome = true
      | .edit input read => input.comment.isSome = true ∧
          ∃ r, w.db.reviews.find? read.id = some r ∧ r.reviewerUserId = u
      | .settleOne _ => False
  | .writeEdit i => ∃ c, w.edits i = some c ∧ c.userId = u
  | .writeReport i => ∃ r, w.filings i = some r ∧ r.reporterUserId = u ∧ r.description.isSome = true
  | _ => False

/-- No writer writes for an account that is anonymised or about to be. -/
def Final (w : PrivacyWorld) (m : PrivacyMove) : Prop := ∀ u, w.WritesFor u m → ¬ w.Closing u

end PrivacyWorld

/-! ## Nothing personal is left -/

/-- Nothing personal of the user is left in the tables, nor the district. -/
structure Erased (w : PrivacyWorld) (u : UserId) : Prop where
  telegram : ∀ t ∈ w.telegramAccounts, t.userId ≠ u
  interests : w.interests u = []
  notifications : ∀ n ∈ w.notifications.rows, n.userId ≠ u
  reviews : ∀ r ∈ w.db.reviews.rows, r.reviewerUserId = u → r.comment = none
  reports : ∀ r ∈ w.reports.rows, r.reporterUserId = u → r.description = none
  code : ∀ row ∈ w.users, row.id = u → row.referralCode = none
  profile : ∀ p, w.profiles u = some p → anonymousProfile p = p

/-- What was left of the user's personal rows only became fewer. -/
structure Fewer (w w' : PrivacyWorld) (u : UserId) : Prop where
  telegram : ∀ t ∈ w'.telegramAccounts, t.userId = u → t ∈ w.telegramAccounts
  interests : ∀ x ∈ w'.interests u, x ∈ w.interests u
  notifications : ∀ n' ∈ w'.notifications.rows, n'.userId = u →
    ∃ n ∈ w.notifications.rows, n.id = n'.id ∧ n.userId = u
  reviews : ∀ r' ∈ w'.db.reviews.rows, r'.reviewerUserId = u → r'.comment.isSome = true →
    ∃ r ∈ w.db.reviews.rows, r.id = r'.id ∧ r.reviewerUserId = u ∧ r.comment.isSome = true
  reports : ∀ r' ∈ w'.reports.rows, r'.reporterUserId = u → r'.description.isSome = true →
    ∃ r ∈ w.reports.rows, Row.key r = Row.key r' ∧ r.reporterUserId = u ∧
      r.description.isSome = true

/-- The user's row and profile stayed, and the personal rows only became fewer. -/
structure Kept (w w' : PrivacyWorld) (u : UserId) : Prop where
  fewer : Fewer w w' u
  users : w'.users = w.users
  profile : w'.profiles u = w.profiles u

section Erased

variable {w w' : PrivacyWorld} {u : UserId}

theorem Erased.findResidualPii (h : Erased w u) : findResidualPii w u = [] := by
  have htelegram : (w.telegramAccounts.any fun t => decide (t.userId = u)) = false :=
    List.any_eq_false.2 fun t ht => by simpa using h.telegram t ht
  have hnotifications : (w.notifications.rows.any fun n => decide (n.userId = u)) = false :=
    List.any_eq_false.2 fun n hn => by simpa using h.notifications n hn
  have hreviews : (w.db.reviews.rows.any fun r => decide (r.reviewerUserId = u) &&
      r.comment.isSome) = false :=
    List.any_eq_false.2 fun r hr => by simpa using h.reviews r hr
  have hreports : (w.reports.rows.any fun r => decide (r.reporterUserId = u) &&
      r.description.isSome) = false :=
    List.any_eq_false.2 fun r hr => by simpa using h.reports r hr
  have hcode : (w.users.any fun row => decide (row.id = u) && row.referralCode.isSome) = false :=
    List.any_eq_false.2 fun row hrow => by simpa using h.code row hrow
  unfold Privacy.findResidualPii
  rw [htelegram, h.interests, hnotifications, hreviews, hreports, hcode]
  cases hp : w.profiles u with
  | none => rfl
  | some p =>
      have hsame := h.profile p hp
      rw [← hsame]
      simp [anonymousProfile]

theorem Erased.fewer (h : Erased w u) (hf : Fewer w w' u)
    (hcode : ∀ row ∈ w'.users, row.id = u → row.referralCode = none)
    (hprofile : ∀ p, w'.profiles u = some p → anonymousProfile p = p) : Erased w' u where
  telegram t ht hu := h.telegram t (hf.telegram t ht hu) hu
  interests := by
    refine List.eq_nil_iff_forall_not_mem.2 fun x hx => ?_
    have hx' := hf.interests x hx
    rw [h.interests] at hx'
    exact List.not_mem_nil hx'
  notifications n hn hu := by
    obtain ⟨n', hn', -, hu'⟩ := hf.notifications n hn hu
    exact h.notifications n' hn' hu'
  reviews r hr hu := by
    by_contra hsome
    obtain ⟨r', hr', -, hu', hsome'⟩ :=
      hf.reviews r hr hu (Option.isSome_iff_ne_none.2 hsome)
    rw [h.reviews r' hr' hu'] at hsome'
    cases hsome'
  reports r hr hu := by
    by_contra hsome
    obtain ⟨r', hr', -, hu', hsome'⟩ :=
      hf.reports r hr hu (Option.isSome_iff_ne_none.2 hsome)
    rw [h.reports r' hr' hu'] at hsome'
    cases hsome'
  code := hcode
  profile := hprofile

theorem Erased.kept (h : Erased w u) (hk : Kept w w' u) : Erased w' u := by
  refine h.fewer hk.fewer ?_ ?_
  · rw [hk.users]
    exact h.code
  · rw [hk.profile]
    exact h.profile

end Erased

/-- What a statement of the erasure found covers what is there of its table. -/
def Covered (w : PrivacyWorld) (e : Erasure) : Statement → Prop
  | .telegramAccount =>
      ∀ t ∈ w.telegramAccounts, t.userId = e.userId → t.telegramUserId ∈ e.found.telegram
  | .userInterest => ∀ x ∈ w.interests e.userId, x ∈ e.found.interests
  | .notification => ∀ n ∈ w.notifications.rows, n.userId = e.userId → n.id ∈ e.found.notifications
  | .review => ∀ r ∈ w.db.reviews.rows, r.reviewerUserId = e.userId → r.comment.isSome = true →
      r.id ∈ e.found.reviews
  | .report => ∀ r ∈ w.reports.rows, r.reporterUserId = e.userId → r.description.isSome = true →
      Row.key r ∈ e.found.reports
  | .userProfile => True
  | .user => True

theorem Covered.fewer {w w' : PrivacyWorld} {e : Erasure} {st : Statement} (h : Covered w e st)
    (hf : Fewer w w' e.userId) : Covered w' e st := by
  cases st with
  | telegramAccount => exact fun t ht hu => h t (hf.telegram t ht hu) hu
  | userInterest => exact fun x hx => h x (hf.interests x hx)
  | notification =>
      intro n hn hu
      obtain ⟨n', hn', hid, hu'⟩ := hf.notifications n hn hu
      exact hid ▸ h n' hn' hu'
  | review =>
      intro r hr hu hsome
      obtain ⟨r', hr', hid, hu', hsome'⟩ := hf.reviews r hr hu hsome
      exact hid ▸ h r' hr' hu' hsome'
  | report =>
      intro r hr hu hsome
      obtain ⟨r', hr', hid, hu', hsome'⟩ := hf.reports r hr hu hsome
      exact hid ▸ h r' hr' hu' hsome'
  | userProfile => trivial
  | user => trivial

/-- An anonymised account has nothing personal left, and what the statements of an erasure
found covers what is there. -/
structure Sealed (w : PrivacyWorld) : Prop where
  accounts : (w.users.map (·.id)).Nodup
  known : ∀ i e, w.erasures i = some e → ∃ row ∈ w.users, row.id = e.userId
  erased : ∀ u, w.Anonymised u → Erased w u
  covered : ∀ i e, w.erasures i = some e → ∀ st, st ∉ e.left → Covered w e st

/-! ## What the other writers leave -/

section Writers

variable {w w' : PrivacyWorld} {u : UserId}

theorem Sealed.kept (hs : Sealed w) (husers : w'.users = w.users)
    (herasures : w'.erasures = w.erasures) (hkept : ∀ u, w.Closing u → Kept w w' u) :
    Sealed w' where
  accounts := by
    rw [husers]
    exact hs.accounts
  known i e he := by
    rw [herasures] at he
    rw [husers]
    exact hs.known i e he
  erased u hu := by
    have hu' : w.Anonymised u := by
      unfold PrivacyWorld.Anonymised at hu ⊢
      rwa [husers] at hu
    exact (hs.erased u hu').kept (hkept u (.inl hu'))
  covered i e he st hst := by
    rw [herasures] at he
    exact (hs.covered i e he st hst).fewer (hkept e.userId (.inr ⟨i, e, he, rfl⟩)).fewer

/-- The words of the user's reviews are the old ones, or gone. -/
def WordsFrom (s s' : Db) (u : UserId) : Prop :=
  ∀ r' ∈ s'.reviews.rows, r'.reviewerUserId = u → r'.comment.isSome = true →
    ∃ r ∈ s.reviews.rows, r.id = r'.id ∧ r.reviewerUserId = u ∧ r.comment.isSome = true

theorem wordsFrom_of_eq {s s' : Db} (h : s'.reviews = s.reviews) : WordsFrom s s' u := by
  intro r hr hu hsome
  rw [h] at hr
  exact ⟨r, hr, rfl, hu, hsome⟩

/-- A write of a pair leaves the words of all but its author. -/
theorem wordsFrom_of_pairWrite {env : Env} {new : Option (Reviews.ReviewerRole × ReviewRow)}
    {pair pair' : ReviewPairRow} {stale : List ReviewRow} {s s' : Db}
    (hw : Reviews.PairWrite env new pair pair' stale s s')
    (hnew : ∀ role r, new = some (role, r) → r.reviewerUserId = u → r.comment = none) :
    WordsFrom s s' u := by
  intro r' hr' hu hsome
  have hfind := hw.reviews r'.id
  have hrow : s'.reviews.find? r'.id = some r' := Table.find?_of_mem hr'
  rw [hrow] at hfind
  obtain ⟨r, hr, rfl⟩ := Option.map_eq_some_iff.1 hfind.symm
  have hsame : Reviews.SameReview r (Reviews.touched env.now
    (Reviews.revealedRows s new pair' stale) r) := Reviews.touched_same
  have hid := Reviews.withNew_id hr
  rw [hsame.reviewerUserId] at hu
  rw [hsame.comment] at hsome
  rcases Reviews.withNew_cases hr with hold | ⟨role, hnew'⟩
  · exact ⟨r, Table.mem_of_find? hold, hid, hu, hsome⟩
  · rw [hnew role r hnew' hu] at hsome
    cases hsome

theorem wordsFrom_of_edited {env : Env} {input : Reviews.SubmitReviewInput} {k : ReviewId}
    {s s' : Db} (h : Reviews.Edited env input k s s')
    (hnew : ∀ r, s.reviews.find? k = some r → r.reviewerUserId = u → input.comment = none) :
    WordsFrom s s' u := by
  intro r' hr' hu hsome
  obtain ⟨review, hreview, hfind⟩ := h.reviews
  have hr := hfind r'.id
  have hrow : s'.reviews.find? r'.id = some r' := Table.find?_of_mem hr'
  rw [hrow] at hr
  split at hr
  · obtain rfl := Option.some.inj hr
    have hnone : input.comment = none := hnew review hreview hu
    have hsome' : input.comment.isSome = true := hsome
    rw [hnone] at hsome'
    cases hsome'
  · exact ⟨r', Table.mem_of_find? hr.symm, rfl, hu, hsome⟩

/-- A committed or failed call of the reviews that is not for the user. -/
theorem wordsFrom_of_finish {f : Reviews.InFlight} {s : Db}
    (hno : ¬ match f.work with
      | .submit userId input _ => userId = u ∧ input.comment.isSome = true
      | .edit input read => input.comment.isSome = true ∧
          ∃ r, s.reviews.find? read.id = some r ∧ r.reviewerUserId = u
      | .settleOne _ => False) :
    WordsFrom s (commit (f.work.finish f.env f.stale) s) u := by
  rcases commit_cases (f.work.finish f.env f.stale) s with ⟨_, hrun⟩ | hsame
  · generalize commit (f.work.finish f.env f.stale) s = s' at hrun
    cases hwork : f.work with
    | submit userId input context =>
        rw [hwork] at hrun hno
        obtain ⟨own, hrun⟩ := runs_drop.1 hrun
        obtain ⟨review, pair, hreview, -, hw⟩ := (Reviews.finishSubmit_spec hrun).write
        refine wordsFrom_of_pairWrite hw fun role r hr hu => ?_
        obtain ⟨-, rfl⟩ := Prod.mk.inj (Option.some.inj hr)
        rw [hreview] at hu ⊢
        by_contra hsome
        exact hno ⟨hu, Option.isSome_iff_ne_none.2 hsome⟩
    | edit input read =>
        rw [hwork] at hrun hno
        obtain ⟨own, hrun⟩ := runs_drop.1 hrun
        refine wordsFrom_of_edited (Reviews.finishEdit_spec hrun) fun r hr hu => ?_
        by_contra hsome
        exact hno ⟨Option.isSome_iff_ne_none.2 hsome, r, hr, hu⟩
    | settleOne read =>
        rw [hwork] at hrun
        obtain ⟨o, hrun⟩ := runs_drop.1 hrun
        rcases Reviews.finishSettle_spec hrun with hsame | ⟨-, pair, -, hw⟩
        · exact wordsFrom_of_eq (by rw [hsame])
        · exact wordsFrom_of_pairWrite hw fun _ _ hnew => (nomatch hnew)
  · rw [hsame]
    exact wordsFrom_of_eq rfl

theorem review_kept {m : ReviewMove} (h : PrivacyWorld.Step w (.review m) w')
    (hno : ¬ w.WritesFor u (.review m)) : Kept w w' u := by
  obtain ⟨v, hv, rfl⟩ := Option.map_eq_some_iff.1 h
  suffices hwords : WordsFrom w.db v.db u from
    ⟨⟨fun _ ht _ => ht, fun _ hx => hx, fun n hn hu => ⟨n, hn, rfl, hu⟩, hwords,
      fun r hr hu hsome => ⟨r, hr, rfl, hu, hsome⟩⟩, rfl, rfl⟩
  cases m with
  | call c =>
      obtain ⟨s, hstep, rfl⟩ := Option.map_eq_some_iff.1 hv
      obtain ⟨-, -, rfl⟩ := World.step_iff.1 hstep
      have hkept : Reviews.ReviewsKept w.db (w.reviews.shared.world.after c).db :=
        Respects.commit (show Respects Reviews.ReviewsKept (c.op.act c.env) from
          Op.respects) w.db
      exact wordsFrom_of_eq hkept.reviews
  | read i env request =>
      simp only [ReviewWorld.exec] at hv
      split at hv
      · split at hv
        · obtain rfl := Option.some.inj hv
          exact wordsFrom_of_eq rfl
        · cases hv
      · cases hv
  | lock i =>
      simp only [ReviewWorld.exec] at hv
      split at hv
      · split at hv
        · split at hv
          · obtain rfl := Option.some.inj hv
            exact wordsFrom_of_eq rfl
          · cases hv
        · cases hv
      · cases hv
  | finish i =>
      simp only [ReviewWorld.exec] at hv
      split at hv
      · next f hf =>
          split at hv
          · obtain rfl := Option.some.inj hv
            have hdb : ReviewWorld.db (w.reviews.set i ((w.reviews.put (commit
                (f.work.finish f.env f.stale) w.reviews.db)).leave f) none) =
                  commit (f.work.finish f.env f.stale) w.db := by
              show (Reviews.ReviewShared.leave _ f).world.db = _
              rw [Reviews.leave_world]
              rfl
            rw [hdb]
            exact wordsFrom_of_finish fun hwrites => hno ⟨f, hf, hwrites⟩
          · cases hv
      · cases hv
  | crash i =>
      simp only [ReviewWorld.exec] at hv
      split at hv
      · next f hf =>
          obtain rfl := Option.some.inj hv
          have hdb : ReviewWorld.db (w.reviews.set i (w.reviews.shared.leave f) none) = w.db := by
            show (Reviews.ReviewShared.leave _ f).world.db = _
            rw [Reviews.leave_world]
            rfl
          rw [hdb]
          exact wordsFrom_of_eq rfl
      · cases hv

/-- A statement of a relay pass that records nothing for the user. -/
theorem relay_kept {m : RelayMove} (h : PrivacyWorld.Step w (.relay m) w')
    (hno : ¬ w.WritesFor u (.relay m)) : Kept w w' u := by
  obtain ⟨v, hv, rfl⟩ := Option.map_eq_some_iff.1 h
  suffices hrows : ∀ n' ∈ v.shared.db.notifications.rows, n'.userId = u →
      ∃ n ∈ w.relay.shared.db.notifications.rows, n.id = n'.id ∧ n.userId = u from
    ⟨⟨fun _ ht _ => ht, fun _ hx => hx, hrows, fun r hr hu hsome => ⟨r, hr, rfl, hu, hsome⟩,
      fun r hr hu hsome => ⟨r, hr, rfl, hu, hsome⟩⟩, rfl, rfl⟩
  have hsame : v.shared.db.notifications = w.relay.shared.db.notifications →
      ∀ n' ∈ v.shared.db.notifications.rows, n'.userId = u →
        ∃ n ∈ w.relay.shared.db.notifications.rows, n.id = n'.id ∧ n.userId = u := by
    intro heq n hn hu
    rw [heq] at hn
    exact ⟨n, hn, rfl, hu⟩
  cases m with
  | emit event createdAt =>
      obtain ⟨t, -, rfl⟩ := Option.map_eq_some_iff.1 hv
      exact hsame rfl
  | start i limit =>
      simp only [RelayWorld.exec] at hv
      split at hv
      · obtain rfl := Option.some.inj hv
        exact hsame rfl
      · cases hv
  | next i now =>
      obtain ⟨p, hp, rfl⟩ := Option.map_eq_some_iff.1 hv
      have hmove := Pass.step_move (show (w.relay.locals i).step w.directory now w.relay.shared =
        some (p.1, p.2) from hp)
      generalize hl : w.relay.locals i = l at hmove
      rcases p with ⟨st, l'⟩
      cases hmove with
      | skip hres => exact hsame rfl
      | found hres hkey hn => exact hsame rfl
      | @created row plan plans rest queued n userId t hres hn ht =>
          intro n' hn' hu
          have hmem : n' ∈ w.relay.shared.db.notifications.rows ++ [n] := ht ▸ hn'
          rcases List.mem_append.1 hmem with hold | hnew
          · exact ⟨n', hold, rfl, hu⟩
          · obtain rfl := List.mem_singleton.1 hnew
            have huser : userId = u := by
              rw [← hu, hn]
              rfl
            exact absurd ⟨_, plan, plans, rest, queued, hl, huser ▸ hres⟩ hno
      | marked hr ht => exact hsame rfl
      | enqueued => exact hsame rfl
      | finished => exact hsame rfl
  | crash i =>
      obtain rfl := Option.some.inj hv
      exact hsame rfl
  | send id outcome =>
      obtain ⟨st, hst, rfl⟩ := Option.map_eq_some_iff.1 hv
      obtain ⟨-, -, -, ⟨heq, -⟩ | ⟨n, hn, hrw⟩⟩ := RelayStore.send_spec hst
      · exact hsame heq
      · intro n' hn' hu
        rcases hrw.cases hn' with rfl | ⟨hold, -⟩
        · obtain ⟨hid, -, huser, -⟩ := NotificationRow.settled_same n outcome
          exact ⟨n, hrw.mem, hid.symm, huser ▸ hu⟩
        · exact ⟨n', hold, rfl, hu⟩

theorem kept_of_same (htelegram : w'.telegramAccounts = w.telegramAccounts)
    (hinterests : w'.interests u = w.interests u) (hrelay : w'.relay = w.relay)
    (hreviews : w'.reviews = w.reviews) (hreports : w'.reports = w.reports)
    (husers : w'.users = w.users) (hprofile : w'.profiles u = w.profiles u) : Kept w w' u where
  fewer :=
    { telegram := fun t ht _ => htelegram ▸ ht
      interests := fun x hx => hinterests ▸ hx
      notifications := fun n hn hu => by
        unfold PrivacyWorld.notifications at hn
        rw [hrelay] at hn
        exact ⟨n, hn, rfl, hu⟩
      reviews := fun r hr hu hsome => by
        unfold PrivacyWorld.db at hr
        rw [hreviews] at hr
        exact ⟨r, hr, rfl, hu, hsome⟩
      reports := fun r hr hu hsome => ⟨r, hreports ▸ hr, rfl, hu, hsome⟩ }
  users := husers
  profile := hprofile

theorem writeEdit_kept {i : Nat} (h : PrivacyWorld.Step w (.writeEdit i) w')
    (hno : ¬ w.WritesFor u (.writeEdit i)) : Kept w w' u := by
  obtain ⟨c, hc, rfl⟩ := Option.map_eq_some_iff.1 h
  have hne : u ≠ c.userId := fun he => hno ⟨c, hc, he.symm⟩
  exact kept_of_same rfl (Function.update_of_ne hne _ _) rfl rfl rfl rfl
    (Function.update_of_ne hne _ _)

theorem writeReport_beside {i : Nat} (h : PrivacyWorld.Step w (.writeReport i) w') :
    w'.users = w.users ∧ w'.erasures = w.erasures := by
  simp only [PrivacyWorld.Step, PrivacyWorld.exec] at h
  split at h
  · cases h
  · split at h
    · rw [← Option.some.inj h]
      exact ⟨rfl, rfl⟩
    · rw [← Option.some.inj h]
      exact ⟨rfl, rfl⟩

theorem writeReport_kept {i : Nat} (h : PrivacyWorld.Step w (.writeReport i) w')
    (hno : ¬ w.WritesFor u (.writeReport i)) : Kept w w' u := by
  simp only [PrivacyWorld.Step, PrivacyWorld.exec] at h
  split at h
  · cases h
  · next report hreport =>
      split at h
      · next reports hinsert =>
          obtain rfl := Option.some.inj h
          have hrows : reports.rows = w.reports.rows ++ [report] := Table.insert_eq_ok.1 hinsert
          have hkept : Kept w { w with filings := Function.update w.filings i none } u :=
            kept_of_same rfl rfl rfl rfl rfl rfl rfl
          refine ⟨{ hkept.fewer with reports := fun r hr hu hsome => ?_ }, rfl, rfl⟩
          have hmem : r ∈ w.reports.rows ++ [report] := hrows ▸ hr
          rcases List.mem_append.1 hmem with hold | hnew
          · exact ⟨r, hold, rfl, hu, hsome⟩
          · obtain rfl := List.mem_singleton.1 hnew
            exact absurd ⟨r, hreport, hu, hsome⟩ hno
      · obtain rfl := Option.some.inj h
        exact kept_of_same rfl rfl rfl rfl rfl rfl rfl

end Writers

/-! ## The erasure -/

section Erasing

variable {w w' : PrivacyWorld} {e : Erasure} {i : Nat} {reviews : Table ReviewRow}
  {reports : Table ReportRow}

/-- Only the calls in progress changed. -/
theorem Sealed.moved (hs : Sealed w) {o : Option Erasure}
    (hknown : ∀ e, o = some e → ∃ row ∈ w.users, row.id = e.userId)
    (ho : ∀ e, o = some e → ∀ st, st ∉ e.left → Covered w e st) :
    Sealed { w with erasures := Function.update w.erasures i o } := by
  have hkept : ∀ u, Kept w { w with erasures := Function.update w.erasures i o } u :=
    fun u => kept_of_same rfl rfl rfl rfl rfl rfl rfl
  refine ⟨hs.accounts, fun j e he => ?_, fun u hu => (hs.erased u hu).kept (hkept u),
    fun j e he st hst => ?_⟩
  all_goals have hat : Function.update w.erasures i o j = some e := he
  · by_cases hj : j = i
    · rw [hj, Function.update_self] at hat
      exact hknown e hat
    · rw [Function.update_of_ne hj] at hat
      exact hs.known j e hat
  have hcovered : Covered w e st := by
    by_cases hj : j = i
    · rw [hj, Function.update_self] at hat
      exact ho e hat st hst
    · rw [Function.update_of_ne hj] at hat
      exact hs.covered j e hat st hst
  exact hcovered.fewer (hkept e.userId).fewer

/-- A statement covers its own table. -/
theorem covered_find (w : PrivacyWorld) (e : Erasure) (st : Statement) (left : List Statement) :
    Covered w { e with left := left, found := st.find w e.userId e.found } st := by
  cases st with
  | telegramAccount =>
      exact fun t ht hu => List.mem_map.2 ⟨t, List.mem_filter.2 ⟨ht, decide_eq_true hu⟩, rfl⟩
  | userInterest => exact fun x hx => hx
  | notification =>
      exact fun n hn hu => List.mem_map.2 ⟨n, List.mem_filter.2 ⟨hn, decide_eq_true hu⟩, rfl⟩
  | review =>
      intro r hr hu hsome
      exact List.mem_map.2 ⟨r, List.mem_filter.2 ⟨hr, by simp [hu, hsome]⟩, rfl⟩
  | report =>
      intro r hr hu hsome
      exact List.mem_map.2 ⟨r, List.mem_filter.2 ⟨hr, by simp [hu, hsome]⟩, rfl⟩
  | userProfile => trivial
  | user => trivial

/-- A statement leaves what the others found. -/
theorem Covered.find {st st' : Statement} {left : List Statement} (h : Covered w e st')
    (hne : st' ≠ st) :
    Covered w { e with left := left, found := st.find w e.userId e.found } st' := by
  cases st <;> cases st' <;> first | exact h | exact absurd rfl hne

theorem mem_all (st : Statement) : st ∈ Statement.all := by
  cases st <;> decide

theorem Sealed.begin {u : UserId} {admin : Option Nat} {now : Instant} (hs : Sealed w)
    (h : PrivacyWorld.Step w (.begin i u admin now) w') : Sealed w' := by
  simp only [PrivacyWorld.Step, PrivacyWorld.exec] at h
  split at h
  · next row hidle hrow =>
      obtain rfl := Option.some.inj h
      refine hs.moved (fun e he => ?_) fun e he st hst => ?_
      · obtain rfl := Option.some.inj he
        exact ⟨row, List.mem_of_find?_eq_some hrow,
          of_decide_eq_true (List.find?_some hrow :)⟩
      · obtain rfl := Option.some.inj he
        exact absurd (mem_all st) hst
  · cases h

theorem Sealed.statement (hs : Sealed w) (h : PrivacyWorld.Step w (.statement i) w') :
    Sealed w' := by
  simp only [PrivacyWorld.Step, PrivacyWorld.exec] at h
  split at h
  · cases h
  · next e he =>
      split at h
      · cases h
      · next st left hleft =>
          obtain rfl := Option.some.inj h
          refine hs.moved (fun e' he' => ?_) fun e' he' st' hst' => ?_
          · obtain rfl := Option.some.inj he'
            exact hs.known i e he
          obtain rfl := Option.some.inj he'
          by_cases hst : st' = st
          · rw [hst]
            exact covered_find w e st left
          · refine (hs.covered i e he st' ?_).find hst
            rw [hleft, List.mem_cons, not_or]
            exact ⟨hst, hst'⟩

theorem Sealed.rollback (hs : Sealed w) (h : PrivacyWorld.Step w (.rollback i) w') : Sealed w' := by
  obtain ⟨e, -, rfl⟩ := Option.map_eq_some_iff.1 h
  exact hs.moved nofun nofun

/-- What a commit is made of. -/
theorem commit_spec (h : PrivacyWorld.Step w (.commit i) w') :
    ∃ e reviews reports, w.erasures i = some e ∧ e.left = [] ∧
      w.db.reviews.RewritesAll e.redacts (fun r => { r with comment := none }) reviews ∧
      w.reports.RewritesAll e.redactsReport (fun r => { r with description := none }) reports ∧
      w' = { e.commit reviews reports w with erasures := Function.update w.erasures i none } := by
  simp only [PrivacyWorld.Step, PrivacyWorld.exec] at h
  split at h
  · cases h
  · next e he =>
      split at h
      · next hleft =>
          split at h
          · next reviews reports hreviews hreports =>
              exact ⟨e, reviews, reports, he, hleft, Table.updateMany_eq_ok.1 hreviews,
                Table.updateMany_eq_ok.1 hreports, (Option.some.inj h).symm⟩
          · cases h
      · cases h

/-- A commit only takes away. -/
theorem commit_fewer (hreviews : w.db.reviews.RewritesAll e.redacts
      (fun r => { r with comment := none }) reviews)
    (hreports : w.reports.RewritesAll e.redactsReport (fun r => { r with description := none })
      reports) (u : UserId) : Fewer w (e.commit reviews reports w) u where
  telegram t ht _ := (List.mem_filter.1 ht).1
  interests x hx := by
    by_cases hu : u = e.userId
    · subst hu
      have hx' : x ∈ Function.update w.interests e.userId
        ((w.interests e.userId).filter fun x => !e.found.interests.contains x) e.userId := hx
      rw [Function.update_self] at hx'
      exact (List.mem_filter.1 hx').1
    · have hsame : (e.commit reviews reports w).interests u = w.interests u :=
        Function.update_of_ne hu _ _
      exact hsame ▸ hx
  notifications n hn hu := ⟨n, (Table.mem_deleteMany.1 hn).1, rfl, hu⟩
  reviews r hr hu hsome := by
    rcases hreviews.cases hr with ⟨x, -, -, rfl⟩ | ⟨hold, -⟩
    · cases hsome
    · exact ⟨r, hold, rfl, hu, hsome⟩
  reports r hr hu hsome := by
    rcases hreports.cases hr with ⟨x, -, -, rfl⟩ | ⟨hold, -⟩
    · cases hsome
    · exact ⟨r, hold, rfl, hu, hsome⟩

/-- After the commit nothing personal of the account is left. -/
theorem commit_erased (hcovered : ∀ st, Covered w e st)
    (hreviews : w.db.reviews.RewritesAll e.redacts (fun r => { r with comment := none }) reviews)
    (hreports : w.reports.RewritesAll e.redactsReport (fun r => { r with description := none })
      reports) : Erased (e.commit reviews reports w) e.userId where
  telegram t ht hu := by
    obtain ⟨hold, hkept⟩ := List.mem_filter.1 ht
    have hfound := hcovered .telegramAccount t hold hu
    simp [hu, hfound] at hkept
  interests := by
    show Function.update w.interests e.userId _ e.userId = []
    rw [Function.update_self, List.filter_eq_nil_iff]
    intro x hx
    have hfound := hcovered .userInterest x hx
    simpa using hfound
  notifications n hn hu := by
    obtain ⟨hold, hkept⟩ := Table.mem_deleteMany.1 hn
    have hfound := hcovered .notification n hold hu
    simp [Erasure.deletesNotification, hu, hfound] at hkept
  reviews r hr hu := by
    rcases hreviews.cases hr with ⟨x, -, -, rfl⟩ | ⟨hold, hkept⟩
    · rfl
    · by_contra hsome
      have hfound := hcovered .review r hold hu (Option.isSome_iff_ne_none.2 hsome)
      simp [Erasure.redacts, hu, hfound] at hkept
  reports r hr hu := by
    rcases hreports.cases hr with ⟨x, -, -, rfl⟩ | ⟨hold, hkept⟩
    · rfl
    · by_contra hsome
      have hfound := hcovered .report r hold hu (Option.isSome_iff_ne_none.2 hsome)
      simp [Erasure.redactsReport, hu, hfound] at hkept
  code row hrow hu := by
    obtain ⟨old, -, rfl⟩ := List.mem_map.1 hrow
    split at hu
    · next hold =>
        rw [if_pos hold]
        rfl
    · next hold => exact absurd hu hold
  profile p hp := by
    have hp' : Function.update w.profiles e.userId ((w.profiles e.userId).map anonymousProfile)
      e.userId = some p := hp
    rw [Function.update_self] at hp'
    obtain ⟨old, -, rfl⟩ := Option.map_eq_some_iff.1 hp'
    rfl

/-- A commit does not change another account's row or profile. -/
theorem commit_other {u : UserId} (hu : u ≠ e.userId) :
    (∀ row ∈ (e.commit reviews reports w).users, row.id = u → row ∈ w.users) ∧
      (e.commit reviews reports w).profiles u = w.profiles u := by
  refine ⟨fun row hrow hid => ?_, Function.update_of_ne hu _ _⟩
  obtain ⟨old, hold, rfl⟩ := List.mem_map.1 hrow
  split at hid
  · next heq => exact absurd (hid.symm.trans heq) hu
  · next hne =>
      rw [if_neg hne]
      exact hold

theorem commit_ids : (e.commit reviews reports w).users.map (·.id) = w.users.map (·.id) := by
  show (w.users.map _).map _ = _
  rw [List.map_map]
  refine List.map_congr_left fun row _ => ?_
  show (if row.id = e.userId then anonymousUser e.now row else row).id = row.id
  split
  · rfl
  · rfl

theorem Sealed.commit (hs : Sealed w) (h : PrivacyWorld.Step w (.commit i) w') : Sealed w' := by
  obtain ⟨e, reviews, reports, he, hleft, hreviews, hreports, rfl⟩ := commit_spec h
  have hcovered : ∀ st, Covered w e st := fun st => hs.covered i e he st (by rw [hleft]; simp)
  suffices hcommit : Sealed (e.commit reviews reports w) from hcommit.moved nofun nofun
  refine ⟨by rw [commit_ids]; exact hs.accounts, fun j e' he' => ?_, fun u hu => ?_,
    fun j e' he' st hst => ?_⟩
  · obtain ⟨row, hrow, hid⟩ := hs.known j e' he'
    have hmem : e'.userId ∈ (e.commit reviews reports w).users.map (·.id) := by
      rw [commit_ids]
      exact List.mem_map.2 ⟨row, hrow, hid⟩
    exact List.mem_map.1 hmem
  · by_cases hue : u = e.userId
    · rw [hue]
      exact commit_erased hcovered hreviews hreports
    · obtain ⟨husers, hprofile⟩ : (∀ row ∈ (e.commit reviews reports w).users, row.id = u →
          row ∈ w.users) ∧ (e.commit reviews reports w).profiles u = w.profiles u :=
        commit_other hue
      obtain ⟨row, hrow, hid, hstatus⟩ := hu
      have herased := hs.erased u ⟨row, husers row hrow hid, hid, hstatus⟩
      refine herased.fewer (commit_fewer hreviews hreports u)
        (fun row hrow hid => herased.code row (husers row hrow hid) hid) ?_
      rw [hprofile]
      exact herased.profile
  · exact (hs.covered j e' he' st hst).fewer (commit_fewer hreviews hreports e'.userId)

/-- Every step that writes for no closing account keeps the invariant. -/
theorem Sealed.step {m : PrivacyMove} (hs : Sealed w) (hfinal : w.Final m)
    (h : PrivacyWorld.Step w m w') : Sealed w' := by
  cases m with
  | review m =>
      have hkept : ∀ u, w.Closing u → Kept w w' u := fun u hu =>
        review_kept h fun hwrites => hfinal u hwrites hu
      obtain ⟨v, -, rfl⟩ := Option.map_eq_some_iff.1 h
      exact hs.kept rfl rfl hkept
  | relay m =>
      have hkept : ∀ u, w.Closing u → Kept w w' u := fun u hu =>
        relay_kept h fun hwrites => hfinal u hwrites hu
      obtain ⟨v, -, rfl⟩ := Option.map_eq_some_iff.1 h
      exact hs.kept rfl rfl hkept
  | readEdit i u env settings active editor input =>
      simp only [PrivacyWorld.Step, PrivacyWorld.exec] at h
      split at h
      · obtain rfl := Option.some.inj h
        exact hs.kept rfl rfl fun u _ => kept_of_same rfl rfl rfl rfl rfl rfl rfl
      · cases h
  | writeEdit i =>
      have hkept : ∀ u, w.Closing u → Kept w w' u := fun u hu =>
        writeEdit_kept h fun hwrites => hfinal u hwrites hu
      obtain ⟨c, -, rfl⟩ := Option.map_eq_some_iff.1 h
      exact hs.kept rfl rfl hkept
  | readReport i env reporter input =>
      simp only [PrivacyWorld.Step, PrivacyWorld.exec] at h
      split at h
      · obtain rfl := Option.some.inj h
        exact hs.kept rfl rfl fun u _ => kept_of_same rfl rfl rfl rfl rfl rfl rfl
      · cases h
  | writeReport i =>
      have hkept : ∀ u, w.Closing u → Kept w w' u := fun u hu =>
        writeReport_kept h fun hwrites => hfinal u hwrites hu
      obtain ⟨husers, herasures⟩ := writeReport_beside h
      exact hs.kept husers herasures hkept
  | records referrals consents =>
      obtain rfl := Option.some.inj h
      exact hs.kept rfl rfl fun u _ => kept_of_same rfl rfl rfl rfl rfl rfl rfl
  | begin i u admin now => exact hs.begin h
  | statement i => exact hs.statement h
  | commit i => exact hs.commit h
  | rollback i => exact hs.rollback h

theorem sealed_init (h : PrivacyWorld.Init w) : Sealed w := by
  obtain ⟨-, -, hids, hlive, -, -, hidle⟩ := h
  refine ⟨hids, fun i e he => ?_, fun u hu => ?_, fun i e he => ?_⟩
  · rw [hidle i] at he
    cases he
  · obtain ⟨row, hrow, -, hdeleted⟩ := hu
    exact absurd hdeleted (hlive row hrow)
  · rw [hidle i] at he
    cases he

/-! ## What an anonymisation leaves -/

/-- The columns of a review that belong to the person reviewed. -/
def ratingOf (r : ReviewRow) : ReviewId × UserId × UserId × Int :=
  (r.id, r.reviewerUserId, r.revieweeUserId, r.rating)

/-- The ratings, the ledgers, the referrals and the consents are left as they were. -/
structure Untouched (w w' : PrivacyWorld) : Prop where
  ratings : w'.db.reviews.rows.map ratingOf = w.db.reviews.rows.map ratingOf
  coinLedger : w'.db.coinLedger = w.db.coinLedger
  coinAccounts : w'.db.coinAccounts = w.db.coinAccounts
  trustLedger : w'.db.trustLedger = w.db.trustLedger
  trustScores : w'.db.trustScores = w.db.trustScores
  referrals : w'.referrals = w.referrals
  consents : w'.consents = w.consents

/-- Only `deletedAt`, the audit trail and the call itself changed. -/
def OnlyMarks (w w' : PrivacyWorld) : Prop :=
  ∃ users audit erasures, w' = { w with users := users, audit := audit, erasures := erasures } ∧
    users.map (fun row => { row with deletedAt := none }) =
      w.users.map (fun row => { row with deletedAt := none }) ∧ w.audit <+: audit

theorem commit_untouched (h : PrivacyWorld.Step w (.commit i) w') : Untouched w w' := by
  obtain ⟨e, reviews, reports, -, -, hreviews, -, rfl⟩ := commit_spec h
  refine ⟨?_, rfl, rfl, rfl, rfl, rfl, rfl⟩
  show reviews.rows.map ratingOf = _
  rw [hreviews, List.map_map]
  refine List.map_congr_left fun r _ => ?_
  show ratingOf (Table.updateIf e.redacts _ r) = ratingOf r
  unfold Table.updateIf
  split
  · rfl
  · rfl

/-- The commit anonymises the account. -/
theorem commit_anonymised (h : PrivacyWorld.Step w (.commit i) w') (he : w.erasures i = some e)
    (hthere : ∃ row ∈ w.users, row.id = e.userId) : w'.Anonymised e.userId := by
  obtain ⟨e', reviews, reports, he', -, -, -, rfl⟩ := commit_spec h
  obtain rfl := Option.some.inj (he.symm.trans he')
  obtain ⟨row, hrow, hid⟩ := hthere
  refine ⟨anonymousUser e.now row, List.mem_map.2 ⟨row, hrow, if_pos hid⟩, hid, rfl⟩

/-- Rewriting no row leaves the table. -/
theorem rewritesAll_none {ρ κ : Type} [DecidableEq κ] [Row ρ κ] {t t' : Table ρ} {p : ρ → Bool}
    {f : ρ → ρ} (h : t.RewritesAll p f t') (hnone : ∀ r ∈ t.rows, p r = true → f r = r) :
    t' = t := by
  refine Table.ext (h.trans (List.map_congr_left (fun r hr => ?_) |>.trans (List.map_id _)))
  unfold Table.updateIf
  split
  · next hp => exact hnone r hr hp
  · rfl

/-- Anonymising an account again changes nothing but marks. -/
theorem commit_again (hs : Sealed w) (h : PrivacyWorld.Step w (.commit i) w')
    (he : w.erasures i = some e) (hdone : w.Anonymised e.userId) : OnlyMarks w w' := by
  obtain ⟨e', reviews, reports, he', -, hreviews, hreports, rfl⟩ := commit_spec h
  obtain rfl := Option.some.inj (he.symm.trans he')
  have herased := hs.erased e.userId hdone
  have htelegram : (w.telegramAccounts.filter fun t =>
      !(decide (t.userId = e.userId) && e.found.telegram.contains t.telegramUserId)) =
        w.telegramAccounts :=
    List.filter_eq_self.2 fun t ht => by simp [herased.telegram t ht]
  have hinterests : Function.update w.interests e.userId
      ((w.interests e.userId).filter fun x => !e.found.interests.contains x) = w.interests := by
    have hempty : ((w.interests e.userId).filter fun x => !e.found.interests.contains x) =
        w.interests e.userId := by
      rw [herased.interests]
      rfl
    rw [hempty, Function.update_eq_self]
  have hnotifications : w.notifications.deleteMany e.deletesNotification =
      w.relay.shared.db.notifications :=
    Table.ext (List.filter_eq_self.2 fun n hn => by
      simp [Erasure.deletesNotification, herased.notifications n hn])
  have hprofiles : Function.update w.profiles e.userId
      ((w.profiles e.userId).map anonymousProfile) = w.profiles := by
    have hsame : (w.profiles e.userId).map anonymousProfile = w.profiles e.userId := by
      cases hp : w.profiles e.userId with
      | none => rfl
      | some p => exact congrArg some (herased.profile p hp)
    rw [hsame, Function.update_eq_self]
  have hwords : reviews = w.db.reviews := by
    refine rewritesAll_none hreviews fun r hr hp => ?_
    have hauthor : r.reviewerUserId = e.userId := by
      simp only [Erasure.redacts, Bool.and_eq_true, decide_eq_true_eq] at hp
      exact hp.1
    rw [← herased.reviews r hr hauthor]
  have hdescriptions : reports = w.reports := by
    refine rewritesAll_none hreports fun r hr hp => ?_
    have hauthor : r.reporterUserId = e.userId := by
      simp only [Erasure.redactsReport, Bool.and_eq_true, decide_eq_true_eq] at hp
      exact hp.1
    rw [← herased.reports r hr hauthor]
  refine ⟨(e.commit reviews reports w).users, (e.commit reviews reports w).audit,
    Function.update w.erasures i none, ?_, ?_, List.prefix_append w.audit _⟩
  · unfold Erasure.commit
    rw [htelegram, hinterests, hnotifications, hprofiles, hwords, hdescriptions]
    rfl
  · obtain ⟨done, hmem, hid, hstatus⟩ := hdone
    show (w.users.map _).map _ = _
    rw [List.map_map]
    refine List.map_congr_left fun row hrow => ?_
    by_cases hrowid : row.id = e.userId
    · have hsame : row = done :=
        List.inj_on_of_nodup_map hs.accounts hrow hmem (hrowid.trans hid.symm)
      have hcode := herased.code row hrow hrowid
      rw [hsame] at hrowid hcode ⊢
      show ({ (if done.id = e.userId then anonymousUser e.now done else done) with
        deletedAt := none } : UserRow) = _
      rw [if_pos hrowid]
      unfold anonymousUser
      rw [← hstatus, ← hcode]
    · show ({ (if row.id = e.userId then anonymousUser e.now row else row) with
        deletedAt := none } : UserRow) = _
      rw [if_neg hrowid]

/-! ## Runs -/

/-- Nothing takes an anonymisation back. -/
theorem anonymised_step {m : PrivacyMove} {u : UserId} (h : PrivacyWorld.Step w m w')
    (hu : w.Anonymised u) : w'.Anonymised u := by
  have hsame : w'.users = w.users → w'.Anonymised u := by
    intro husers
    unfold PrivacyWorld.Anonymised
    rwa [husers]
  cases m with
  | review m =>
      obtain ⟨v, -, rfl⟩ := Option.map_eq_some_iff.1 h
      exact hsame rfl
  | relay m =>
      obtain ⟨v, -, rfl⟩ := Option.map_eq_some_iff.1 h
      exact hsame rfl
  | readEdit i u env settings active editor input =>
      simp only [PrivacyWorld.Step, PrivacyWorld.exec] at h
      split at h
      · exact hsame (by rw [← Option.some.inj h])
      · cases h
  | writeEdit i =>
      obtain ⟨c, -, rfl⟩ := Option.map_eq_some_iff.1 h
      exact hsame rfl
  | readReport i env reporter input =>
      simp only [PrivacyWorld.Step, PrivacyWorld.exec] at h
      split at h
      · exact hsame (by rw [← Option.some.inj h])
      · cases h
  | writeReport i => exact hsame (writeReport_beside h).1
  | records referrals consents => exact hsame (by rw [← Option.some.inj h])
  | begin i u admin now =>
      simp only [PrivacyWorld.Step, PrivacyWorld.exec] at h
      split at h
      · exact hsame (by rw [← Option.some.inj h])
      · cases h
  | statement i =>
      simp only [PrivacyWorld.Step, PrivacyWorld.exec] at h
      split at h
      · cases h
      · split at h
        · cases h
        · exact hsame (by rw [← Option.some.inj h])
  | commit i =>
      obtain ⟨e, reviews, reports, -, -, -, -, rfl⟩ := commit_spec h
      obtain ⟨row, hrow, hid, hstatus⟩ := hu
      by_cases hue : row.id = e.userId
      · exact ⟨anonymousUser e.now row, List.mem_map.2 ⟨row, hrow, if_pos hue⟩, hid, rfl⟩
      · exact ⟨row, List.mem_map.2 ⟨row, hrow, if_neg hue⟩, hid, hstatus⟩
  | rollback i =>
      obtain ⟨e, -, rfl⟩ := Option.map_eq_some_iff.1 h
      exact hsame rfl

theorem sealed_of_reach (h : Reach PrivacyWorld.Init PrivacyWorld.Step PrivacyWorld.Final w) :
    Sealed w :=
  h.invariant (fun _ => sealed_init) fun _ _ _ hI hg hs => hI.step hg hs

variable {tr : List (PrivacyWorld × PrivacyMove × PrivacyWorld)}

/-- An account is anonymised in every state after an erasure of it has committed. -/
theorem anonymised_after (h : Run PrivacyWorld.Init PrivacyWorld.Step PrivacyWorld.Final tr w) :
    ∀ x ∈ tr, ∀ i e, x.2.1 = .commit i → x.1.erasures i = some e → w.Anonymised e.userId := by
  induction h with
  | start => exact fun x hx => absurd hx List.not_mem_nil
  | @next tr v v' m hrun hfinal hstep ih =>
      intro x hx i e hm he
      rcases List.mem_append.1 hx with hx | hx
      · exact anonymised_step hstep (ih x hx i e hm he)
      · obtain rfl := List.mem_singleton.1 hx
        obtain rfl : m = .commit i := hm
        exact commit_anonymised hstep he ((sealed_of_reach hrun.reach).known i e he)

/-- Where no writer writes for an account that is anonymised or about to be: once an erasure has
committed its account keeps nothing personal, anonymising it again leaves only marks, and no
anonymisation touches a rating, a ledger, a referral or a consent. -/
theorem anonymisation_final
    (h : Run PrivacyWorld.Init PrivacyWorld.Step PrivacyWorld.Final tr w) :
    ∀ x ∈ tr, ∀ i e, x.2.1 = .commit i → x.1.erasures i = some e →
      findResidualPii w e.userId = [] ∧ Untouched x.1 x.2.2 ∧
        (x.1.Anonymised e.userId → OnlyMarks x.1 x.2.2) := by
  intro x hx i e hm he
  have hcommit : Untouched x.1 x.2.2 ∧ (x.1.Anonymised e.userId → OnlyMarks x.1 x.2.2) := by
    refine h.steps (P := fun v m v' => ∀ e, m = .commit i → v.erasures i = some e →
      Untouched v v' ∧ (v.Anonymised e.userId → OnlyMarks v v')) ?_ x hx e hm he
    intro v m v' hv _ hstep e hm he
    subst hm
    exact ⟨commit_untouched hstep, commit_again (sealed_of_reach hv) hstep he⟩
  have hdone := anonymised_after h x hx i e hm he
  exact ⟨((sealed_of_reach h.reach).erased e.userId hdone).findResidualPii, hcommit⟩

end Erasing

/-! ## An account that is anonymised -/

/-- One account with a Telegram link, a profile and an interest. -/
def oneAccount : PrivacyWorld where
  reviews := Reviews.ReviewWorld.initial
  relay := RelayWorld.initial
  users := [⟨1, "u1", .ACTIVE, none, some "SARA", false⟩]
  telegramAccounts := [⟨700, 1⟩]
  profiles := Function.update (fun _ => none) 1
    (some ⟨"Sara", some .FEMALE, some 2000, 1, some 2, some "hello", false, some 0⟩)
  interests := Function.update (fun _ => []) 1 [4]
  reports := .empty
  referrals := []
  consents := []
  audit := []
  edits _ := none
  filings _ := none
  erasures _ := none

theorem oneAccount_init : PrivacyWorld.Init oneAccount :=
  ⟨Reviews.ReviewWorld.init_initial, rfl, by decide, by decide, fun _ => rfl, fun _ => rfl,
    fun _ => rfl⟩

/-- Worker `i` does all of an erasure of the account but the commit. -/
def preparing (i : Nat) (now : Instant) : List PrivacyMove :=
  .begin i 1 none now :: List.replicate 7 (.statement i)

/-- The moves of an erasure, which write for nobody. -/
def erasing (_ : PrivacyWorld) : PrivacyMove → Bool
  | .begin .. => true
  | .statement _ => true
  | .commit _ => true
  | _ => false

theorem final_of_erasing {w : PrivacyWorld} {m : PrivacyMove} (h : erasing w m = true) :
    w.Final m := by
  intro u hwrites
  cases m with
  | begin i u admin now => exact hwrites.elim
  | statement i => exact hwrites.elim
  | commit i => exact hwrites.elim
  | review m => cases h
  | relay m => cases h
  | readEdit => cases h
  | writeEdit i => cases h
  | readReport => cases h
  | writeReport i => cases h
  | records => cases h
  | rollback i => cases h

/-- The account is anonymised a second time. -/
theorem anonymisation_final_twice : ∃ w : PrivacyWorld,
    findResidualPii w 1 = [] ∧ w.audit.length = 2 := by
  have hplay : (runList PrivacyWorld.exec oneAccount
      (preparing 0 5 ++ [.commit 0] ++ preparing 1 9)).any (fun v =>
        (v.erasures 1).any (fun e => decide (e.userId = 1)) &&
        (v.exec (.commit 1)).any fun w => decide (w.audit.length = 2)) = true := by
    decide
  obtain ⟨v, hv, hcheck⟩ := (Option.any_eq_true _ _).1 hplay
  obtain ⟨herasure, hcommit⟩ := Bool.and_eq_true_iff.1 hcheck
  obtain ⟨e, he, hid⟩ := (Option.any_eq_true _ _).1 herasure
  obtain ⟨w, hw, haudit⟩ := (Option.any_eq_true _ _).1 hcommit
  have hrun : Run PrivacyWorld.Init PrivacyWorld.Step PrivacyWorld.Final _ v :=
    run_of_runList (fun _ _ _ h => h) (fun _ _ => final_of_erasing) (.start oneAccount_init)
      (show guardList PrivacyWorld.exec erasing oneAccount
        (preparing 0 5 ++ [.commit 0] ++ preparing 1 9) = true by decide) hv
  have hlast := anonymisation_final (hrun.next (final_of_erasing rfl) hw) _
    (List.mem_append_right _ (List.mem_singleton_self _)) 1 e rfl he
  rw [of_decide_eq_true hid] at hlast
  exact ⟨w, hlast.1, of_decide_eq_true haudit⟩

/-- An outbox row for the account is written, and the relay goes on with it after the account
was anonymised. -/
def relayedAfter : List PrivacyMove :=
  .relay (.emit (requestedBy 1 "u1" "u2") 0) :: .relay (.start 0 100) :: preparing 0 5 ++
    [.commit 0, .relay (.next 0 6)]

theorem notification_after_erasure : ∃ w, Reachable PrivacyWorld.Init PrivacyWorld.Step w ∧
    w.Anonymised 1 ∧ findResidualPii w 1 = ["notification"] := by
  have hreach := reachable_of_runList (fun _ _ _ h => h) (.start oneAccount_init)
    (show runList PrivacyWorld.exec oneAccount relayedAfter = some _ from rfl)
  exact ⟨_, hreach, ⟨_, List.mem_singleton_self _, rfl, rfl⟩, by decide⟩

end Privacy

end Paayatam
