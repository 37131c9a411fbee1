/-
  Paayatam.Outbox.Sending

  The sender: `onSend` with `NotificationService.load` and the four marks.

  A job loads its notification, decides from the account and the recipient's
  settings whether to send, hands the message to Telegram, and marks the row.
  Each of these is a statement of its own, and the marks look at no status.
  Any number of jobs run at once, also for one notification; a job may be
  gone at any point, and the queue may start it again.
-/

import Paayatam.Outbox.Relay

namespace Paayatam

open Lib

/-! ## What the sender reads -/

inductive NotificationCategory where
  | chat | events | campaigns | essential

/-- The category of a template; a preference never silences an `essential` one. -/
def notificationCategory : TemplateKey → NotificationCategory
  | .PARTICIPATION_REQUESTED_HOST | .PARTICIPATION_REQUESTED_GUEST | .PARTICIPATION_ACCEPTED
  | .PARTICIPATION_REJECTED | .PARTICIPATION_EXPIRED | .WAITLIST_PROMOTED_GUEST
  | .WAITLIST_PROMOTED_HOST | .EVENT_CANCELLED | .EVENT_REMINDER_GUEST | .EVENT_REMINDER_HOST
  | .EVENT_ATTENDANCE_PROMPT | .REVIEW_WINDOW_OPEN | .REVIEW_REVEALED => .events
  | .DIRECT_MESSAGE_RECEIVED | .DIRECT_MESSAGE_SEEN => .chat
  | _ => .essential

/-- `user_setting`: what a recipient has chosen to be told about. -/
structure UserNotificationSettings where
  notifyChat : Bool := true
  notifyEvents : Bool := true
  notifyCampaigns : Bool := true

/-- The recipient wants messages of this category. -/
def UserNotificationSettings.wants (settings : UserNotificationSettings) :
    NotificationCategory → Bool
  | .chat => settings.notifyChat
  | .events => settings.notifyEvents
  | .campaigns => settings.notifyCampaigns
  | .essential => true

/-- `telegram_account`. -/
structure TelegramAccount where
  telegramUserId : Int
  botBlocked : Bool

/-- What `load` hands the sender. -/
structure NotificationToSend where
  id : NotificationId
  userId : UserId
  templateKey : TemplateKey
  payload : Payload
  telegramUserId : Option Int
  botBlocked : Bool

/-- What Telegram answers. -/
inductive TelegramOutcome where
  | SENT | BLOCKED | RETRY | RATE_LIMITED

/-- How a send ended, for the row. -/
def TelegramOutcome.toSendOutcome : TelegramOutcome → SendOutcome
  | .SENT => .sent
  | .BLOCKED => .undeliverable
  | .RETRY | .RATE_LIMITED => .retry

/-! ## The system -/

/-- Postgres as the sender sees it, and the messages handed to Telegram so far. -/
structure SendShared where
  notifications : Table NotificationRow
  accounts : UserId → Option TelegramAccount
  settings : UserId → UserNotificationSettings
  handed : List NotificationId

inductive SendPhase where
  | loaded
  /-- Rendered; the call to Telegram is next. -/
  | sending
  | marking (outcome : SendOutcome)

structure SendJob where
  notification : NotificationToSend
  phase : SendPhase

abbrev SendWorld := Threads Nat SendShared (Option SendJob)

inductive SendMove where
  /-- Job `i` starts on a notification, or starts on it again. -/
  | load (i : Nat) (id : NotificationId)
  /-- Job `i` reads the settings and renders. -/
  | decide (i : Nat)
  /-- Job `i` hands the message to Telegram. -/
  | send (i : Nat) (outcome : TelegramOutcome)
  /-- Job `i` writes its mark. -/
  | mark (i : Nat)
  | crash (i : Nat)
  /-- The relay records a notification. -/
  | queue (userId : UserId) (now : Instant) (plan : PlannedNotification)
  | setSettings (userId : UserId) (settings : UserNotificationSettings)
  | setAccount (userId : UserId) (account : Option TelegramAccount)
  /-- Retention or anonymisation deletes notifications. -/
  | delete (ids : List NotificationId)

/-- The row still asks to be delivered, as `load` reads the status. -/
def NotificationStatus.loads : NotificationStatus → Bool
  | .SENT | .UNDELIVERABLE => false
  | .PENDING | .FAILED | .SUPPRESSED => true

/-- `load`. -/
def SendShared.load (s : SendShared) (id : NotificationId) : Option NotificationToSend :=
  match s.notifications.find? id with
  | none => none
  | some row =>
    if row.status.loads then
      some {
        id := row.id
        userId := row.userId
        templateKey := row.templateKey
        payload := row.payload
        telegramUserId := (s.accounts row.userId).map (·.telegramUserId)
        botBlocked := (s.accounts row.userId).any (·.botBlocked) }
    else none

section Sender

variable (renders : TemplateKey → Payload → Bool)

/-- What a loaded job does next: nobody to reach, opted out, nothing to render, or send. -/
def decideSend (settings : UserNotificationSettings) (n : NotificationToSend) : SendPhase :=
  if n.telegramUserId = none ∨ n.botBlocked = true then .marking .undeliverable
  else if settings.wants (notificationCategory n.templateKey) = false then .marking .suppressed
  else if renders n.templateKey n.payload = false then .marking .unknownTemplate
  else .sending

/-- A mark, and the `bot_blocked` that goes with a block. -/
def SendShared.write (s : SendShared) (n : NotificationToSend) (outcome : SendOutcome) :
    Option SendShared :=
  match s.notifications.update n.id fun row => row.settled outcome with
  | .error _ => none
  | .ok t =>
    let accounts := if outcome = .undeliverable then
        Function.update s.accounts n.userId
          ((s.accounts n.userId).map fun a => { a with botBlocked := true })
      else s.accounts
    some { s with notifications := t, accounts }

namespace SendWorld

def exec (w : SendWorld) : SendMove → Option SendWorld
  | .load i id =>
    match w.locals i with
    | some _ => none
    | none => some (w.set i w.shared ((w.shared.load id).map fun n => ⟨n, .loaded⟩))
  | .decide i =>
    match w.locals i with
    | some ⟨n, .loaded⟩ =>
      some (w.set i w.shared (some ⟨n, decideSend renders (w.shared.settings n.userId) n⟩))
    | _ => none
  | .send i outcome =>
    match w.locals i with
    | some ⟨n, .sending⟩ =>
      some (w.set i { w.shared with handed := w.shared.handed ++ [n.id] }
        (some ⟨n, .marking outcome.toSendOutcome⟩))
    | _ => none
  | .mark i =>
    match w.locals i with
    | some ⟨n, .marking outcome⟩ =>
      match w.shared.write n outcome with
      | some s => some (w.set i s none)
      -- the row is gone, and the job fails
      | none => some (w.set i w.shared none)
    | _ => none
  | .crash i =>
    match w.locals i with
    | some _ => some (w.set i w.shared none)
    | none => none
  | .queue userId now plan =>
    match w.shared.notifications.insertOrIgnore (newNotification
        (freshId (w.shared.notifications.rows.map (·.id))) userId now plan) with
    | .ok (_, t) => some { w with shared := { w.shared with notifications := t } }
    | .error _ => none
  | .setSettings userId settings => some { w with
      shared := { w.shared with settings := Function.update w.shared.settings userId settings } }
  | .setAccount userId account => some { w with
      shared := { w.shared with accounts := Function.update w.shared.accounts userId account } }
  | .delete ids => some { w with shared := { w.shared with
      notifications := w.shared.notifications.deleteMany fun n => decide (n.id ∈ ids) } }

def Step (w : SendWorld) (m : SendMove) (w' : SendWorld) : Prop := w.exec renders m = some w'

/-- No notifications, nobody sending. -/
def Init (w : SendWorld) : Prop := w.shared.notifications = Table.empty ∧ ∀ i, w.locals i = none

def initial (accounts : UserId → Option TelegramAccount) : SendWorld where
  shared := ⟨Table.empty, accounts, fun _ => {}, []⟩
  locals _ := none

theorem init_initial (accounts : UserId → Option TelegramAccount) : (initial accounts).Init :=
  ⟨rfl, fun _ => rfl⟩

end SendWorld

/-! ## Terminal statuses -/

/-- The statuses the schema calls terminal. -/
def NotificationStatus.terminal : NotificationStatus → Bool
  | .SENT | .UNDELIVERABLE | .SUPPRESSED => true
  | .PENDING | .FAILED => false

/-- The step leaves every settled notification as it is, and hands none to Telegram. -/
def KeepsSettled (x : SendWorld × SendMove × SendWorld) : Prop :=
  ∀ n ∈ x.1.shared.notifications.rows, n.status.terminal = true →
    (∀ n' ∈ x.2.2.shared.notifications.rows, n'.id = n.id → n' = n) ∧
    x.2.2.shared.handed.count n.id = x.1.shared.handed.count n.id

/-- A job starts on a notification only while no other job is at it, and never on one that is
    SUPPRESSED. -/
def StartsAlone (w : SendWorld) : SendMove → Prop
  | .load _ id => (∀ j, ∀ job ∈ w.locals j, job.notification.id ≠ id) ∧
      ∀ n ∈ w.shared.notifications.find? id, n.status ≠ .SUPPRESSED
  | _ => True

/-- The notification a job is at is not settled. -/
def SendJob.Unsettled (s : SendShared) (job : SendJob) : Prop :=
  ∀ n ∈ s.notifications.rows, n.id = job.notification.id → n.status.terminal = false

/-- The jobs in progress are at unsettled notifications, each at its own. -/
abbrev SendsApart : SendWorld → Prop :=
  Threads.Holds (fun _ : SendShared => True) (fun s job => ∀ k ∈ job, SendJob.Unsettled s k)
    fun a b => ∀ k ∈ a, ∀ l ∈ b, k.notification.id ≠ l.notification.id

section Steps

variable {renders : TemplateKey → Payload → Bool} {w w' : SendWorld} {i : Nat} {s : SendShared}
  {n : NotificationToSend}

theorem apart_symm (a b : Option SendJob)
    (h : ∀ k ∈ a, ∀ l ∈ b, k.notification.id ≠ l.notification.id) :
    ∀ k ∈ b, ∀ l ∈ a, k.notification.id ≠ l.notification.id :=
  fun k hk l hl => (h l hl k hk).symm

/-- `load` finds the row, unless it is settled. -/
theorem load_spec {id : NotificationId} (h : w.shared.load id = some n) :
    n.id = id ∧ ∃ row, w.shared.notifications.find? id = some row ∧ row.status.loads = true := by
  unfold SendShared.load at h
  cases hrow : w.shared.notifications.find? id with
  | none => simp [hrow] at h
  | some row =>
      simp only [hrow] at h
      split at h
      · next hloads =>
          obtain rfl := Option.some.inj h
          exact ⟨Table.key_of_find? hrow, row, rfl, hloads⟩
      · cases h

/-- A mark rewrites the row it is about. -/
theorem write_spec {outcome : SendOutcome} {s' : SendShared} (h : s.write n outcome = some s') :
    s'.handed = s.handed ∧ ∃ row, s.notifications.find? n.id = some row ∧
      s.notifications.Rewrites row (fun r => r.settled outcome) s'.notifications := by
  unfold SendShared.write at h
  cases ht : s.notifications.update n.id fun row => row.settled outcome with
  | error e => simp [ht] at h
  | ok t =>
      simp only [ht] at h
      obtain rfl := Option.some.inj h
      exact ⟨rfl, Table.update_eq_ok.1 ht⟩

/-- A move that writes no notification. -/
theorem keepsSettled_of_same {m : SendMove}
    (hrows : w'.shared.notifications = w.shared.notifications)
    (hhanded : w'.shared.handed = w.shared.handed) : KeepsSettled (w, m, w') := by
  intro row hrow _
  refine ⟨fun row' hrow' hid => ?_, ?_⟩
  · rw [show ((w, m, w').2.2.shared.notifications) = w.shared.notifications from hrows] at hrow'
    exact Table.eq_of_key hrow' hrow hid
  · exact congrArg (List.count row.id) hhanded

@[simp] theorem settled_id (row : NotificationRow) (outcome : SendOutcome) :
    (row.settled outcome).id = row.id := by cases outcome <;> rfl

/-- A move of job `i` that writes no notification and hands nothing over. -/
theorem SendsApart.quiet (h : SendsApart w) {s : SendShared} {job : Option SendJob}
    (hrows : s.notifications = w.shared.notifications)
    (hjob : ∀ k ∈ job, k.Unsettled w.shared ∧
      ∀ j, j ≠ i → ∀ l ∈ w.locals j, k.notification.id ≠ l.notification.id) :
    SendsApart (w.set i s job) := by
  refine h.set apart_symm trivial ?_ fun j hj => ⟨?_, ?_⟩
  · intro k hk
    unfold SendJob.Unsettled
    rw [hrows]
    exact (hjob k hk).1
  · intro l hl
    unfold SendJob.Unsettled
    rw [hrows]
    exact h.own j l hl
  · exact fun k hk l hl => (hjob k hk).2 j hj l hl

/-- A move of nobody's that leaves the status of every row. -/
theorem SendsApart.elsewhere (h : SendsApart w) {s : SendShared}
    (hrows : ∀ row ∈ s.notifications.rows, row ∈ w.shared.notifications.rows ∨
      row.status.terminal = false) : SendsApart { w with shared := s } := by
  refine ⟨trivial, fun i k hk row hrow hid => ?_, h.apart⟩
  rcases hrows row hrow with hold | hnew
  · exact h.own i k hk row hold hid
  · exact hnew

/-- What a step leaves behind. -/
abbrev SendStep (w : SendWorld) (m : SendMove) (w' : SendWorld) : Prop :=
  SendsApart w' ∧ KeepsSettled (w, m, w')

/-- A job that goes on keeps its notification. -/
theorem SendsApart.goes (h : SendsApart w) {k : SendJob} (hl : w.locals i = some k)
    {phase : SendPhase} : ∀ k' ∈ some (⟨k.notification, phase⟩ : SendJob), k'.Unsettled w.shared ∧
      ∀ j, j ≠ i → ∀ l ∈ w.locals j, k'.notification.id ≠ l.notification.id := by
  rintro k' ⟨⟩
  exact ⟨h.own i k hl, fun j hj l hlj => h.apart i j (Ne.symm hj) k hl l hlj⟩

theorem SendsApart.load (h : SendsApart w) {id : NotificationId}
    (hstart : StartsAlone w (.load i id)) (hs : w.Step renders (.load i id) w') :
    SendStep w (.load i id) w' := by
  unfold SendWorld.Step SendWorld.exec at hs
  cases hl : w.locals i with
  | some k => simp [hl] at hs
  | none =>
      simp only [hl] at hs
      obtain rfl := Option.some.inj hs
      refine ⟨h.quiet rfl fun k hk => ?_, keepsSettled_of_same rfl rfl⟩
      obtain ⟨n, hload, rfl⟩ := Option.map_eq_some_iff.1 hk
      obtain ⟨hid, row, hrow, hloads⟩ := load_spec hload
      refine ⟨fun row' hrow' hid' => ?_, fun j hj l hlj hsame => ?_⟩
      · have hfound : row' = row := by
          refine Table.eq_of_key hrow' (Table.mem_of_find? hrow) ?_
          have hkey : Row.key row = id := Table.key_of_find? hrow
          rw [hkey, ← hid]
          exact hid'
        have hnot := hstart.2 row hrow
        rw [hfound]
        cases hst : row.status with
        | PENDING => rfl
        | FAILED => rfl
        | SUPPRESSED => exact absurd hst hnot
        | SENT => rw [hst] at hloads; cases hloads
        | UNDELIVERABLE => rw [hst] at hloads; cases hloads
      · exact hstart.1 j l hlj (hsame.symm.trans hid)

theorem SendsApart.decide (h : SendsApart w) (hs : w.Step renders (.decide i) w') :
    SendStep w (.decide i) w' := by
  unfold SendWorld.Step SendWorld.exec at hs
  match hl : w.locals i with
  | none => simp [hl] at hs
  | some ⟨n, .loaded⟩ =>
      simp only [hl] at hs
      obtain rfl := Option.some.inj hs
      exact ⟨h.quiet rfl (h.goes hl), keepsSettled_of_same rfl rfl⟩
  | some ⟨n, .sending⟩ => simp [hl] at hs
  | some ⟨n, .marking outcome⟩ => simp [hl] at hs

theorem SendsApart.send (h : SendsApart w) {outcome : TelegramOutcome}
    (hs : w.Step renders (.send i outcome) w') : SendStep w (.send i outcome) w' := by
  unfold SendWorld.Step SendWorld.exec at hs
  match hl : w.locals i with
  | none => simp [hl] at hs
  | some ⟨n, .sending⟩ =>
      simp only [hl] at hs
      obtain rfl := Option.some.inj hs
      refine ⟨h.quiet rfl (h.goes hl), fun row hrow hterm => ⟨fun row' hrow' hid => ?_, ?_⟩⟩
      · exact Table.eq_of_key hrow' hrow hid
      · have hne : n.id ≠ row.id := by
          intro he
          have hfalse := h.own i _ hl row hrow he.symm
          rw [hterm] at hfalse
          cases hfalse
        show List.count row.id (w.shared.handed ++ [n.id]) = List.count row.id w.shared.handed
        rw [List.count_append, List.count_singleton, if_neg (by simpa using hne), Nat.add_zero]
  | some ⟨n, .loaded⟩ => simp [hl] at hs
  | some ⟨n, .marking outcome⟩ => simp [hl] at hs

theorem SendsApart.mark (h : SendsApart w) (hs : w.Step renders (.mark i) w') :
    SendStep w (.mark i) w' := by
  unfold SendWorld.Step SendWorld.exec at hs
  match hl : w.locals i with
  | none => simp [hl] at hs
  | some ⟨n, .marking outcome⟩ =>
      simp only [hl] at hs
      cases hw : w.shared.write n outcome with
      | none =>
          simp only [hw] at hs
          obtain rfl := Option.some.inj hs
          exact ⟨h.quiet rfl (by simp), keepsSettled_of_same rfl rfl⟩
      | some s =>
          simp only [hw] at hs
          obtain rfl := Option.some.inj hs
          obtain ⟨hhanded, row, hrow, hrewrites⟩ := write_spec hw
          have hid : row.id = n.id := Table.key_of_find? hrow
          have hown : row.status.terminal = false :=
            h.own i _ hl row (Table.mem_of_find? hrow) hid
          -- the others are at other rows, and a settled row is not the one that is marked
          constructor
          · refine h.set apart_symm trivial (by simp)
              fun j hj => ⟨fun l hlj x hx hxid => ?_, by simp⟩
            rcases hrewrites.cases hx with rfl | ⟨hold, -⟩
            · have hsame : n.id = l.notification.id := by rw [← hid, ← hxid, settled_id]
              exact absurd hsame (h.apart i j (Ne.symm hj) _ hl l hlj)
            · exact h.own j l hlj x hold hxid
          · refine fun x hx hterm => ⟨fun x' hx' hxid => ?_, congrArg (List.count x.id) hhanded⟩
            rcases hrewrites.cases hx' with rfl | ⟨hold, -⟩
            · have hsame : x = row := by
                refine Table.eq_of_key hx (Table.mem_of_find? hrow) ?_
                exact hxid.symm.trans (settled_id row outcome)
              rw [hsame, hown] at hterm
              cases hterm
            · exact Table.eq_of_key hold hx hxid
  | some ⟨n, .loaded⟩ => simp [hl] at hs
  | some ⟨n, .sending⟩ => simp [hl] at hs

theorem SendsApart.queue (h : SendsApart w) {userId : UserId} {now : Instant}
    {plan : PlannedNotification} (hs : w.Step renders (.queue userId now plan) w') :
    SendStep w (.queue userId now plan) w' := by
  unfold SendWorld.Step SendWorld.exec at hs
  cases hins : w.shared.notifications.insertOrIgnore (newNotification
      (freshId (w.shared.notifications.rows.map (·.id))) userId now plan) with
  | error e => simp [hins] at hs
  | ok p =>
      obtain ⟨created, t⟩ := p
      simp only [hins] at hs
      obtain rfl := Option.some.inj hs
      rcases Table.insertOrIgnore_eq_ok hins with ⟨-, hrows⟩ | ⟨-, rfl, -⟩
      · have hcases : ∀ row ∈ t.rows, row ∈ w.shared.notifications.rows ∨
            row.status.terminal = false ∧
              row.id = freshId (w.shared.notifications.rows.map (·.id)) := by
          intro row hrow
          rw [hrows] at hrow
          rcases List.mem_append.1 hrow with hold | hnew
          · exact .inl hold
          · rw [List.mem_singleton.1 hnew]
            exact .inr ⟨rfl, rfl⟩
        refine ⟨h.elsewhere fun row hrow => (hcases row hrow).imp id And.left, ?_⟩
        refine fun x hx _ => ⟨fun x' hx' hid => ?_, rfl⟩
        rcases hcases x' hx' with hold | ⟨-, hfresh⟩
        · exact Table.eq_of_key hold hx hid
        · have hlt := lt_freshId (List.mem_map_of_mem (f := (·.id)) hx)
          rw [← hfresh, hid] at hlt
          exact absurd hlt (Nat.lt_irrefl _)
      · exact ⟨h.elsewhere fun row hrow => .inl hrow, keepsSettled_of_same rfl rfl⟩

/-- Every move under the condition. -/
theorem SendsApart.step (h : SendsApart w) {m : SendMove} (hstart : StartsAlone w m)
    (hs : w.Step renders m w') : SendStep w m w' := by
  cases m with
  | load i id => exact h.load hstart hs
  | decide i => exact h.decide hs
  | send i outcome => exact h.send hs
  | mark i => exact h.mark hs
  | crash i =>
      unfold SendWorld.Step SendWorld.exec at hs
      cases hl : w.locals i with
      | none => simp [hl] at hs
      | some k =>
          simp only [hl] at hs
          obtain rfl := Option.some.inj hs
          exact ⟨h.quiet rfl (by simp), keepsSettled_of_same rfl rfl⟩
  | queue userId now plan => exact h.queue hs
  | setSettings userId settings =>
      obtain rfl := Option.some.inj hs
      exact ⟨h.elsewhere fun row hrow => .inl hrow, keepsSettled_of_same rfl rfl⟩
  | setAccount userId account =>
      obtain rfl := Option.some.inj hs
      exact ⟨h.elsewhere fun row hrow => .inl hrow, keepsSettled_of_same rfl rfl⟩
  | delete ids =>
      obtain rfl := Option.some.inj hs
      have hold : ∀ row ∈
          (w.shared.notifications.deleteMany fun n => Decidable.decide (n.id ∈ ids)).rows,
          row ∈ w.shared.notifications.rows := fun row hrow => (Table.mem_deleteMany.1 hrow).1
      exact ⟨h.elsewhere fun row hrow => .inl (hold row hrow),
        fun x hx _ => ⟨fun x' hx' hid => Table.eq_of_key (hold x' hx') hx hid, rfl⟩⟩

theorem sendsApart_init (h : w.Init) : SendsApart w := by
  obtain ⟨hnone, hidle⟩ := h
  exact ⟨trivial, by simp [hidle], by simp [hidle]⟩

end Steps

/-- Terminal statuses are never left: in a run whose jobs start on a notification only while no
    other job is at it, and never on a SUPPRESSED one, every step leaves a SENT, UNDELIVERABLE
    or SUPPRESSED notification as it is and does not hand it to Telegram. -/
theorem settled_notifications_kept {tr : List (SendWorld × SendMove × SendWorld)} {w : SendWorld}
    (h : Run SendWorld.Init (SendWorld.Step renders) StartsAlone tr w) : ∀ x ∈ tr, KeepsSettled x :=
  h.steps (P := fun w m w' => KeepsSettled (w, m, w')) fun _ _ _ hw hg hs =>
    ((hw.invariant (I := SendsApart) (fun _ h => sendsApart_init h)
      fun _ _ _ hI hg hs => (hI.step hg hs).1).step hg hs).2

end Sender

/-! ## Runs of one job, and of two -/

/-- The moves of job `0`, and those of nobody. -/
def SendMove.OnlyFirst : SendMove → Prop
  | .load i _ | .decide i | .send i _ | .mark i => i = 0
  | .crash _ => False
  | .queue _ _ _ | .setSettings _ _ | .setAccount _ _ | .delete _ => True

/-- One job at a time, and none on a SUPPRESSED notification. -/
def FirstStarts (w : SendWorld) (m : SendMove) : Prop :=
  m.OnlyFirst ∧ match m with
    | .load _ id => ∀ n ∈ w.shared.notifications.find? id, n.status ≠ .SUPPRESSED
    | _ => True

instance (w : SendWorld) (m : SendMove) : Decidable (FirstStarts w m) :=
  match m with
  | .load i _ => inferInstanceAs (Decidable (i = 0 ∧ ∀ n ∈ _, _))
  | .decide i | .send i _ | .mark i => inferInstanceAs (Decidable (i = 0 ∧ True))
  | .crash _ => .isFalse fun h => h.1
  | .queue _ _ _ | .setSettings _ _ | .setAccount _ _ | .delete _ => .isTrue ⟨trivial, trivial⟩

theorem SendMove.OnlyFirst.others {renders : TemplateKey → Payload → Bool} {w w' : SendWorld}
    {m : SendMove} (hm : m.OnlyFirst) (hw : ∀ j, j ≠ 0 → w.locals j = none)
    (h : w.Step renders m w') : ∀ j, j ≠ 0 → w'.locals j = none := by
  intro j hj
  unfold SendWorld.Step SendWorld.exec at h
  cases m <;> cases hm <;> simp only at h <;> repeat' split at h
  all_goals first
    | (obtain rfl := Option.some.inj h; simpa [hj] using hw j hj)
    | cases h

/-- Only job `0` moves, so it starts alone. -/
theorem FirstStarts.startsAlone {renders : TemplateKey → Payload → Bool} {w w' : SendWorld}
    {m : SendMove} (h : FirstStarts w m) (hw : ∀ j, j ≠ 0 → w.locals j = none)
    (hs : w.Step renders m w') : StartsAlone w m := by
  cases m with
  | load i id =>
      obtain ⟨hi, hstatus⟩ := h
      obtain rfl : i = 0 := hi
      refine ⟨fun j job hjob => ?_, hstatus⟩
      by_cases hj : j = 0
      · subst hj
        unfold SendWorld.Step SendWorld.exec at hs
        rw [Option.mem_def] at hjob
        simp [hjob] at hs
      · rw [hw j hj] at hjob
        cases hjob
  | decide i => trivial
  | send i outcome => trivial
  | mark i => trivial
  | crash i => trivial
  | queue userId now plan => trivial
  | setSettings userId settings => trivial
  | setAccount userId account => trivial
  | delete ids => trivial

/-- An evening was called off: a notification that a setting may silence. -/
def calledOffNotice : PlannedNotification where
  userPublicId := "guest"
  templateKey := .EVENT_CANCELLED
  dedupeKey := ⟨1, "guest"⟩
  payload := []

def reachable : UserId → Option TelegramAccount := fun _ => some ⟨555, false⟩

/-- A first attempt that fails, a second that arrives, and a third that finds it settled. -/
def retriedMoves : List SendMove :=
  [.queue 5 0 calledOffNotice, .load 0 1, .decide 0, .send 0 .RETRY, .mark 0,
    .load 0 1, .decide 0, .send 0 .SENT, .mark 0, .load 0 1]

theorem settled_notifications_kept_retried : ∃ tr w,
    Run SendWorld.Init (SendWorld.Step fun _ _ => true) StartsAlone tr w ∧
    w.shared.notifications.rows.map (·.status) = [.SENT] ∧ w.shared.handed = [1, 1] ∧
    ∀ x ∈ tr, KeepsSettled x := by
  have hplay : guardList (SendWorld.exec fun _ _ => true) (fun w m => decide (FirstStarts w m))
        (.initial reachable) retriedMoves = true ∧
      (runList (SendWorld.exec fun _ _ => true) (.initial reachable) retriedMoves).any (fun w =>
        decide (w.shared.notifications.rows.map (·.status) = [.SENT] ∧
          w.shared.handed = [1, 1])) = true := by
    decide
  obtain ⟨hguard, hrun⟩ := hplay
  obtain ⟨w, hw, hend⟩ := (Option.any_eq_true _ _).1 hrun
  have hfirst := run_of_runList (G := FirstStarts) (g := fun w m => decide (FirstStarts w m))
    (I := SendWorld.Init) (fun _ _ _ h => h) (fun _ _ h => of_decide_eq_true h)
    (.start (SendWorld.init_initial reachable)) hguard hw
  have hothers : ∀ w, Reach SendWorld.Init (SendWorld.Step fun _ _ => true) FirstStarts w →
      ∀ j, j ≠ 0 → w.locals j = none := fun w h =>
    h.invariant (I := fun w => ∀ j, j ≠ 0 → w.locals j = none) (fun _ h j _ => h.2 j)
      fun _ _ _ hI hg hs => hg.1.others hI hs
  have halone := hfirst.guarded (G := StartsAlone) (hfirst.steps
    (P := fun w m _ => StartsAlone w m) fun w m w' hr hg hs => hg.startsAlone (hothers w hr) hs)
  obtain ⟨hstatus, hhanded⟩ := of_decide_eq_true hend
  exact ⟨_, w, halone, hstatus, hhanded, settled_notifications_kept _ halone⟩

/-- An opt-out that is taken back, and a second job for the notification. -/
def suppressedMoves : List SendMove :=
  [.queue 5 0 calledOffNotice, .setSettings 5 ⟨true, false, true⟩, .load 0 1, .decide 0, .mark 0,
    .setSettings 5 {}, .load 0 1, .decide 0, .send 0 .SENT, .mark 0]

/-- Two jobs for one notification at once. -/
def doubledMoves : List SendMove :=
  [.queue 5 0 calledOffNotice, .load 0 1, .load 1 1, .decide 0, .decide 1, .send 0 .SENT, .mark 0,
    .send 1 .RETRY, .mark 1]

/-- A SUPPRESSED notification is sent after all, and a SENT one is handed over again and left
    FAILED. -/
theorem settled_notifications_left :
    (∃ tr w, Run SendWorld.Init (SendWorld.Step fun _ _ => true) (fun _ _ => True) tr w ∧
      ∃ x ∈ tr, ∃ n ∈ x.1.shared.notifications.rows, n.status = .SUPPRESSED ∧
        ∃ n' ∈ x.2.2.shared.notifications.rows, n'.id = n.id ∧ n'.status = .SENT) ∧
    ∃ tr w, Run SendWorld.Init (SendWorld.Step fun _ _ => true) (fun _ _ => True) tr w ∧
      (∃ x ∈ tr, ∃ n ∈ x.1.shared.notifications.rows, n.status = .SENT ∧
        x.2.2.shared.handed = x.1.shared.handed ++ [n.id]) ∧
      ∃ x ∈ tr, ∃ n ∈ x.1.shared.notifications.rows, n.status = .SENT ∧
        ∃ n' ∈ x.2.2.shared.notifications.rows, n'.id = n.id ∧ n'.status = .FAILED := by
  have hrun : ∀ ms : List SendMove,
      (runList (SendWorld.exec fun _ _ => true) (.initial reachable) ms).isSome = true →
      guardList (SendWorld.exec fun _ _ => true) (fun _ _ => true) (.initial reachable) ms = true →
      ∃ w, Run SendWorld.Init (SendWorld.Step fun _ _ => true) (fun _ _ => True)
        (traceList (SendWorld.exec fun _ _ => true) (.initial reachable) ms) w := by
    intro ms hsome hguard
    obtain ⟨w, hw⟩ := Option.isSome_iff_exists.1 hsome
    exact ⟨w, run_of_runList (g := fun _ _ => true) (fun _ _ _ h => h) (fun _ _ _ => trivial)
      (.start (SendWorld.init_initial reachable)) hguard hw⟩
  constructor
  · obtain ⟨w, hw⟩ := hrun suppressedMoves (by decide) (by decide +kernel)
    refine ⟨_, w, hw, ?_⟩
    have hstep : (traceList (SendWorld.exec fun _ _ => true) (.initial reachable)
        suppressedMoves).any (fun x => decide (∃ n ∈ x.1.shared.notifications.rows,
          n.status = .SUPPRESSED ∧ ∃ n' ∈ x.2.2.shared.notifications.rows,
            n'.id = n.id ∧ n'.status = .SENT)) = true := by
      decide
    obtain ⟨x, hx, hleft⟩ := List.any_eq_true.1 hstep
    exact ⟨x, hx, of_decide_eq_true hleft⟩
  · obtain ⟨w, hw⟩ := hrun doubledMoves (by decide) (by decide +kernel)
    refine ⟨_, w, hw, ?_, ?_⟩
    · have hstep : (traceList (SendWorld.exec fun _ _ => true) (.initial reachable)
          doubledMoves).any (fun x => decide (∃ n ∈ x.1.shared.notifications.rows,
            n.status = .SENT ∧ x.2.2.shared.handed = x.1.shared.handed ++ [n.id])) = true := by
        decide
      obtain ⟨x, hx, hleft⟩ := List.any_eq_true.1 hstep
      exact ⟨x, hx, of_decide_eq_true hleft⟩
    · have hstep : (traceList (SendWorld.exec fun _ _ => true) (.initial reachable)
          doubledMoves).any (fun x => decide (∃ n ∈ x.1.shared.notifications.rows,
            n.status = .SENT ∧ ∃ n' ∈ x.2.2.shared.notifications.rows,
              n'.id = n.id ∧ n'.status = .FAILED)) = true := by
        decide
      obtain ⟨x, hx, hleft⟩ := List.any_eq_true.1 hstep
      exact ⟨x, hx, of_decide_eq_true hleft⟩

end Paayatam
