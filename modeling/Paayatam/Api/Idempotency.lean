/-
  Paayatam.Api.Idempotency

  `IdempotencyInterceptor`: the key a mutating request may carry, and any
  number of requests in flight at once.

  A request looks its key up, runs its handler when nothing is stored, and
  leaves the result to a write that nobody waits for.  From the lookup to that
  write, nothing in the table says that the key is taken.

  A body stands for its JSON text, and `sha256` for the hash of one.  Moments
  are milliseconds.
-/

import Paayatam.Env
import Paayatam.Lib.System
import Paayatam.Lib.Threads

namespace Paayatam

open Lib

/-! ## The table and the requests -/

/-- What a key belongs to: `(user_id, key)`. -/
abbrev KeySlot := UserId × String

/-- `request_idempotency`. -/
structure RequestIdempotencyRow where
  id : Nat
  userId : UserId
  key : String
  method : String
  path : String
  requestFingerprint : String
  statusCode : Nat
  responseBody : String
  expiresAt : Int

def RequestIdempotencyRow.slot (r : RequestIdempotencyRow) : KeySlot := (r.userId, r.key)

instance : Row RequestIdempotencyRow Nat where
  key := RequestIdempotencyRow.id
  check _ := true
  collide a b := decide (a.slot = b.slot)
  collide_comm _ _ := decide_eq_decide.2 eq_comm

structure ApiRequest where
  user : Option UserId
  method : String
  url : String
  body : String
  /-- The `Idempotency-Key` header. -/
  idempotencyKey : Option String
  deriving DecidableEq

def TTL_HOURS : Nat := 24

/-- Reads the header, and rejects one too long to be meant. -/
def keyOf (header : Option String) : Except AppError (Option String) :=
  match header with
  | none => .ok none
  | some value =>
    if utf16Length (trim value) = 0 then .ok none
    else if utf16Length (trim value) > 200 then .error (.of .VALIDATION_FAILED)
    else .ok (some (trim value))

/-- Path without the query string. -/
def ApiRequest.pathOf (r : ApiRequest) : String :=
  String.ofList ((r.url.toList.takeWhile fun c => c ≠ '?').take 255)

/-- What makes two requests the same: method, path and fingerprint of the body. -/
structure RequestIdentity where
  method : String
  path : String
  fingerprint : String
  deriving DecidableEq

section Interceptor

variable (sha256 : String → String)

def ApiRequest.identity (r : ApiRequest) : RequestIdentity :=
  ⟨r.method, r.pathOf, sha256 r.body⟩

def RequestIdempotencyRow.identity (r : RequestIdempotencyRow) : RequestIdentity :=
  ⟨r.method, r.path, r.requestFingerprint⟩

/-- What `replayOrClaim` finds. -/
inductive KeyLookup where
  | claimed
  /-- The row no longer speaks for anything, and is cleared first. -/
  | expired (id : Nat)
  | replay (statusCode : Nat) (responseBody : String)
  | conflict

def slotRows (t : Table RequestIdempotencyRow) (s : KeySlot) : List RequestIdempotencyRow :=
  t.rows.filter fun row => decide (row.slot = s)

def replayOrClaim (t : Table RequestIdempotencyRow) (now : Int) (r : ApiRequest) (s : KeySlot) :
    KeyLookup :=
  match (slotRows t s).head? with
  | none => .claimed
  | some existing =>
    if existing.expiresAt ≤ now then .expired existing.id
    else if existing.identity = r.identity sha256 then
      .replay existing.statusCode existing.responseBody
    else .conflict

/-- Anything that is not a success stays retryable. -/
def isSuccessStatus (statusCode : Nat) : Bool := decide (200 ≤ statusCode) && decide (statusCode < 300)

/-- The row `store` writes. -/
def storedRow (id : Nat) (r : ApiRequest) (s : KeySlot) (statusCode : Nat) (body : String)
    (now : Int) : RequestIdempotencyRow where
  id
  userId := s.1
  key := s.2
  method := r.method
  path := r.pathOf
  requestFingerprint := sha256 r.body
  statusCode
  responseBody := body
  expiresAt := now + TTL_HOURS * 3600000

/-! ## The system -/

inductive ApiPhase where
  /-- An expired row is about to be deleted. -/
  | clearing (id : Nat)
  /-- The handler runs. -/
  | running
  /-- The caller has its answer; the row is still to be written. -/
  | storing (statusCode : Nat) (body : String)

/-- A request in flight, and the key it claimed, if it carried one. -/
structure ApiCall where
  request : ApiRequest
  claim : Option KeySlot
  phase : ApiPhase

/-- What became of a request with a key. -/
inductive KeyEvent where
  | started (r : ApiRequest)
  /-- The handler answered with a success. -/
  | succeeded (r : ApiRequest) (statusCode : Nat) (body : String)
  /-- It ended in anything else. -/
  | failed (r : ApiRequest)
  | replayed (r : ApiRequest) (statusCode : Nat) (body : String)
  | refused (r : ApiRequest)
  deriving DecidableEq

structure ApiShared where
  stored : Table RequestIdempotencyRow
  /-- The next id; ids are never used again. -/
  issued : Nat
  /-- What became of the requests with a key, oldest first. -/
  log : List (KeySlot × KeyEvent)

abbrev ApiWorld := Threads Nat ApiShared (Option ApiCall)

inductive ApiMove where
  /-- Request `i` arrives and looks its key up. -/
  | receive (i : Nat) (now : Int) (request : ApiRequest)
  /-- Request `i` deletes the expired row it found. -/
  | clear (i : Nat)
  /-- The handler of request `i` answers, or throws. -/
  | finish (i : Nat) (answer : Option (Nat × String))
  /-- The write behind request `i` reaches the table. -/
  | store (i : Nat) (now : Int)
  /-- The retention job deletes what has expired. -/
  | sweep (now : Int)
  /-- The process of request `i` is gone. -/
  | crash (i : Nat)

/-- The slot a request asks for, when it asks for one. -/
def ApiRequest.slot (r : ApiRequest) : Option KeySlot :=
  match keyOf r.idempotencyKey, r.user with
  | .ok (some key), some user => some (user, key)
  | _, _ => none

def ApiShared.record (shared : ApiShared) (s : KeySlot) (e : KeyEvent) : ApiShared :=
  { shared with log := shared.log ++ [(s, e)] }

/-- What became of the requests of one slot, oldest first. -/
def ApiShared.events (shared : ApiShared) (s : KeySlot) : List KeyEvent :=
  (shared.log.filter fun e => decide (e.1 = s)).map (·.2)

namespace ApiWorld

def exec (w : ApiWorld) : ApiMove → Option ApiWorld
  | .receive i now r =>
    match w.locals i with
    | some _ => none
    | none =>
      match r.slot with
      | none =>
        match keyOf r.idempotencyKey with
        | .error _ => some w
        | .ok _ => some (w.set i w.shared (some ⟨r, none, .running⟩))
      | some s =>
        match replayOrClaim sha256 w.shared.stored now r s with
        | .claimed => some (w.set i (w.shared.record s (.started r)) (some ⟨r, some s, .running⟩))
        | .expired id => some (w.set i w.shared (some ⟨r, some s, .clearing id⟩))
        | .replay statusCode body =>
          some (w.set i (w.shared.record s (.replayed r statusCode body)) none)
        | .conflict => some (w.set i (w.shared.record s (.refused r)) none)
  | .clear i =>
    match w.locals i with
    | some ⟨r, some s, .clearing id⟩ =>
      match w.shared.stored.find? id with
      | none => some (w.set i (w.shared.record s (.failed r)) none)
      | some _ =>
        let shared := { w.shared with
          stored := w.shared.stored.deleteMany fun row => decide (row.id = id) }
        some (w.set i (shared.record s (.started r)) (some ⟨r, some s, .running⟩))
    | _ => none
  | .finish i answer =>
    match w.locals i with
    | some ⟨_, none, .running⟩ => some (w.set i w.shared none)
    | some ⟨r, some s, .running⟩ =>
      match answer with
      | none => some (w.set i (w.shared.record s (.failed r)) none)
      | some (statusCode, body) =>
        if isSuccessStatus statusCode then
          some (w.set i (w.shared.record s (.succeeded r statusCode body))
            (some ⟨r, some s, .storing statusCode body⟩))
        else some (w.set i (w.shared.record s (.failed r)) none)
    | _ => none
  | .store i now =>
    match w.locals i with
    | some ⟨r, some s, .storing statusCode body⟩ =>
      match w.shared.stored.insert
          (storedRow sha256 w.shared.issued r s statusCode body now) with
      | .ok t => some (w.set i { w.shared with stored := t, issued := w.shared.issued + 1 } none)
      -- a unique violation is logged and nothing else
      | .error _ => some (w.set i { w.shared with issued := w.shared.issued + 1 } none)
    | _ => none
  | .sweep now =>
    some { w with shared := { w.shared with
      stored := w.shared.stored.deleteMany fun row => decide (row.expiresAt ≤ now) } }
  | .crash i =>
    match w.locals i with
    | some _ => some (w.set i w.shared none)
    | none => none

def Step (w : ApiWorld) (m : ApiMove) (w' : ApiWorld) : Prop := w.exec sha256 m = some w'

/-- Nothing stored, nothing in flight. -/
def Init (w : ApiWorld) : Prop :=
  w.shared.stored = Table.empty ∧ w.shared.log = [] ∧ ∀ i, w.locals i = none

def initial : ApiWorld where
  shared := ⟨Table.empty, 0, []⟩
  locals _ := none

theorem init_initial : initial.Init := ⟨rfl, rfl, fun _ => rfl⟩

def events (w : ApiWorld) (s : KeySlot) : List KeyEvent := w.shared.events s

end ApiWorld

/-! ## What a key promises -/

def KeyEvent.isSuccess : KeyEvent → Bool
  | .succeeded _ _ _ => true
  | _ => false

/-- The event answers a request from the success of `r`: the stored response where the request
    is the same, a refusal where it is not. -/
def KeyEvent.Answered (r : ApiRequest) (statusCode : Nat) (body : String) : KeyEvent → Prop
  | .replayed r' statusCode' body' =>
    r'.identity sha256 = r.identity sha256 ∧ statusCode' = statusCode ∧ body' = body
  | .refused r' => r'.identity sha256 ≠ r.identity sha256
  | _ => False

instance (r : ApiRequest) (statusCode : Nat) (body : String) (e : KeyEvent) :
    Decidable (e.Answered sha256 r statusCode body) :=
  match e with
  | .replayed _ _ _ => inferInstanceAs (Decidable (_ ∧ _ ∧ _))
  | .refused _ => inferInstanceAs (Decidable (_ ≠ _))
  | .started _ | .succeeded _ _ _ | .failed _ => .isFalse id

/-- At most one success, and every request that ends after it is answered from it. -/
def ExecutesOnce : List KeyEvent → Prop
  | [] => True
  | .succeeded r statusCode body :: rest => ∀ e ∈ rest, e.Answered sha256 r statusCode body
  | _ :: rest => ExecutesOnce rest

instance executesOnceDecidable : (l : List KeyEvent) → Decidable (ExecutesOnce sha256 l)
  | [] => .isTrue trivial
  | .succeeded _ _ _ :: rest => inferInstanceAs (Decidable (∀ e ∈ rest, _))
  | .started _ :: rest | .failed _ :: rest | .replayed _ _ _ :: rest | .refused _ :: rest =>
    executesOnceDecidable rest

/-! ## The condition -/

/-- No request with this key is being answered, and no success waits to be written. -/
def KeyFree (s : KeySlot) (w : ApiWorld) : Prop := ∀ j, ∀ c ∈ w.locals j, c.claim ≠ some s

/-- The move finds no row of this key past its time. -/
def WithinLifetime (s : KeySlot) (w : ApiWorld) : ApiMove → Prop
  | .receive _ now r => r.slot = some s → ∀ row ∈ slotRows w.shared.stored s, now < row.expiresAt
  | .sweep now => ∀ row ∈ slotRows w.shared.stored s, now < row.expiresAt
  | _ => True

instance (s : KeySlot) (w : ApiWorld) (m : ApiMove) : Decidable (WithinLifetime s w m) :=
  match m with
  | .receive _ _ _ => inferInstanceAs (Decidable (_ → ∀ row ∈ _, _))
  | .sweep _ => inferInstanceAs (Decidable (∀ row ∈ _, _))
  | .clear _ | .finish _ _ | .store _ _ | .crash _ => .isTrue trivial

/-- The key is looked up only while it is free, and no process is lost between a success and
    the write of its row. -/
def OneAtATime (s : KeySlot) (w : ApiWorld) : ApiMove → Prop
  | .receive _ _ r => r.slot = some s → KeyFree s w
  | .crash i => ∀ c ∈ w.locals i, c.claim = some s → ∀ statusCode body,
      c.phase ≠ .storing statusCode body
  | _ => True

/-! ## The events of a key and its row -/

/-- A success, and answers from it ever since. -/
def AfterSuccess (r : ApiRequest) (statusCode : Nat) (body : String) (l : List KeyEvent) : Prop :=
  ∃ before since, l = before ++ .succeeded r statusCode body :: since ∧
    (∀ e ∈ before, e.isSuccess = false) ∧ ∀ e ∈ since, e.Answered sha256 r statusCode body

/-- Nothing succeeded yet, and nothing is stored. -/
def Quiet (l : List KeyEvent) (rows : List RequestIdempotencyRow) : Prop :=
  (∀ e ∈ l, e.isSuccess = false) ∧ rows = []

/-- A success that is not stored yet. -/
def Unwritten (r : ApiRequest) (statusCode : Nat) (body : String) (l : List KeyEvent)
    (rows : List RequestIdempotencyRow) : Prop :=
  AfterSuccess sha256 r statusCode body l ∧ rows = []

/-- A success and the row that answers for it. -/
def Kept (l : List KeyEvent) (rows : List RequestIdempotencyRow) : Prop :=
  ∃ r row, rows = [row] ∧ row.identity = r.identity sha256 ∧
    AfterSuccess sha256 r row.statusCode row.responseBody l

section Events

variable {sha256 : String → String} {r : ApiRequest} {statusCode : Nat} {body : String}
  {l : List KeyEvent} {rows : List RequestIdempotencyRow} {e : KeyEvent}

theorem executesOnce_of_none (h : ∀ e ∈ l, e.isSuccess = false) : ExecutesOnce sha256 l := by
  induction l with
  | nil => trivial
  | cons e rest ih =>
      have hrest := ih fun x hx => h x (List.mem_cons_of_mem _ hx)
      have he := h e List.mem_cons_self
      cases e with
      | succeeded r statusCode body => cases he
      | started r => exact hrest
      | failed r => exact hrest
      | replayed r statusCode body => exact hrest
      | refused r => exact hrest

theorem AfterSuccess.executesOnce (h : AfterSuccess sha256 r statusCode body l) :
    ExecutesOnce sha256 l := by
  obtain ⟨before, since, rfl, hbefore, hsince⟩ := h
  induction before with
  | nil => exact hsince
  | cons e rest ih =>
      have hrest := ih fun x hx => hbefore x (List.mem_cons_of_mem _ hx)
      have he := hbefore e List.mem_cons_self
      cases e with
      | succeeded r statusCode body => cases he
      | started r => exact hrest
      | failed r => exact hrest
      | replayed r statusCode body => exact hrest
      | refused r => exact hrest

/-- The promise leaves room for one success. -/
theorem ExecutesOnce.countP (h : ExecutesOnce sha256 l) : l.countP KeyEvent.isSuccess ≤ 1 := by
  induction l with
  | nil => exact Nat.zero_le 1
  | cons e rest ih =>
      cases e with
      | succeeded r statusCode body =>
          have hrest : rest.countP KeyEvent.isSuccess = 0 := by
            rw [List.countP_eq_zero]
            intro x hx hsuccess
            have hanswered : x.Answered sha256 r statusCode body := h x hx
            cases x with
            | succeeded r' statusCode' body' => exact hanswered
            | started r' => cases hsuccess
            | failed r' => cases hsuccess
            | replayed r' statusCode' body' => cases hsuccess
            | refused r' => cases hsuccess
          rw [List.countP_cons, hrest]
          exact Nat.le_refl 1
      | started r => simpa [KeyEvent.isSuccess] using ih h
      | failed r => simpa [KeyEvent.isSuccess] using ih h
      | replayed r statusCode body => simpa [KeyEvent.isSuccess] using ih h
      | refused r => simpa [KeyEvent.isSuccess] using ih h

theorem AfterSuccess.first (h : ∀ e ∈ l, e.isSuccess = false) :
    AfterSuccess sha256 r statusCode body (l ++ [.succeeded r statusCode body]) :=
  ⟨l, [], rfl, h, by simp⟩

theorem AfterSuccess.answered (h : AfterSuccess sha256 r statusCode body l)
    (he : e.Answered sha256 r statusCode body) :
    AfterSuccess sha256 r statusCode body (l ++ [e]) := by
  obtain ⟨before, since, rfl, hbefore, hsince⟩ := h
  refine ⟨before, since ++ [e], by simp, hbefore, fun x hx => ?_⟩
  rcases List.mem_append.1 hx with hx | hx
  · exact hsince x hx
  · rw [List.mem_singleton.1 hx]
    exact he

theorem Quiet.snoc (h : Quiet l rows) (he : e.isSuccess = false) : Quiet (l ++ [e]) rows := by
  refine ⟨fun x hx => ?_, h.2⟩
  rcases List.mem_append.1 hx with hx | hx
  · exact h.1 x hx
  · rw [List.mem_singleton.1 hx]
    exact he

end Events

/-! ## What each request knows -/

/-- What a request in flight holds of the key `s` over the table. -/
structure CallKnows (s : KeySlot) (shared : ApiShared) (c : ApiCall) : Prop where
  running : c.claim = some s → c.phase = .running →
    Quiet (shared.events s) (slotRows shared.stored s)
  storing : ∀ statusCode body, c.claim = some s → c.phase = .storing statusCode body →
    Unwritten sha256 c.request statusCode body (shared.events s) (slotRows shared.stored s)
  clearing : ∀ id, c.phase = .clearing id → c.claim ≠ some s ∧ id < shared.issued ∧
    ∀ row ∈ shared.stored.rows, row.id = id → row.slot ≠ s

/-- The three states a key can be in, and the ids of the table. -/
structure KeyStored (s : KeySlot) (shared : ApiShared) : Prop where
  state : Quiet (shared.events s) (slotRows shared.stored s) ∨
    (∃ r statusCode body, Unwritten sha256 r statusCode body (shared.events s)
      (slotRows shared.stored s)) ∨
    Kept sha256 (shared.events s) (slotRows shared.stored s)
  issued : ∀ row ∈ shared.stored.rows, row.id < shared.issued

/-- The call of a thread is for the key `s`. -/
def ClaimsKey (s : KeySlot) (call : Option ApiCall) : Prop := ∃ c ∈ call, c.claim = some s

abbrev KeyHeld (s : KeySlot) : ApiWorld → Prop :=
  Threads.Holds (KeyStored sha256 s) (fun shared call => ∀ c ∈ call, CallKnows sha256 s shared c)
    fun a b => ¬ (ClaimsKey s a ∧ ClaimsKey s b)

/-- The invariant: with a success that is not stored yet, somebody is about to store it. -/
structure KeyKept (s : KeySlot) (w : ApiWorld) : Prop where
  held : KeyHeld sha256 s w
  awaited : ∀ r statusCode body, Unwritten sha256 r statusCode body (w.events s)
    (slotRows w.shared.stored s) → ∃ i r statusCode body,
      w.locals i = some ⟨r, some s, .storing statusCode body⟩

section Moves

variable {sha256 : String → String} {s s' : KeySlot} {w w' : ApiWorld} {i : Nat}
  {shared shared' : ApiShared} {call : Option ApiCall} {c : ApiCall}

theorem events_record (e : KeyEvent) :
    (shared.record s' e).events s = shared.events s ++ if s' = s then [e] else [] := by
  by_cases h : s' = s <;> simp [ApiShared.record, ApiShared.events, List.filter_append, h]

theorem events_record_self (e : KeyEvent) :
    (shared.record s e).events s = shared.events s ++ [e] := by
  rw [events_record, if_pos rfl]

theorem events_record_other (h : s' ≠ s) (e : KeyEvent) :
    (shared.record s' e).events s = shared.events s := by
  rw [events_record, if_neg h, List.append_nil]

/-- The rows are old ones, or the one that was issued. -/
def OldOrIssued (shared shared' : ApiShared) : Prop :=
  shared.issued ≤ shared'.issued ∧
    ∀ row ∈ shared'.stored.rows, row ∈ shared.stored.rows ∨ row.id = shared.issued

theorem OldOrIssued.record (e : KeyEvent) : OldOrIssued shared (shared.record s' e) :=
  ⟨le_refl _, fun _ h => .inl h⟩

theorem OldOrIssued.refl : OldOrIssued shared shared := ⟨le_refl _, fun _ h => .inl h⟩

/-- What a request knows survives a move that does not touch the key, if the request is for it. -/
theorem CallKnows.frame (h : CallKnows sha256 s shared c) (hrows : OldOrIssued shared shared')
    (hview : c.claim = some s → shared'.events s = shared.events s ∧
      slotRows shared'.stored s = slotRows shared.stored s) : CallKnows sha256 s shared' c where
  running hclaim hphase := by
    rw [(hview hclaim).1, (hview hclaim).2]
    exact h.running hclaim hphase
  storing statusCode body hclaim hphase := by
    rw [(hview hclaim).1, (hview hclaim).2]
    exact h.storing statusCode body hclaim hphase
  clearing id hphase := by
    obtain ⟨hclaim, hid, hslot⟩ := h.clearing id hphase
    refine ⟨hclaim, hid.trans_le hrows.1, fun row hrow hrid => ?_⟩
    rcases hrows.2 row hrow with hold | hissued
    · exact hslot row hold hrid
    · omega

/-- A move that leaves the events and the rows of the key alone. -/
theorem KeyKept.elsewhere (h : KeyKept sha256 s w)
    (hevents : shared.events s = w.shared.events s)
    (hview : slotRows shared.stored s = slotRows w.shared.stored s)
    (hrows : OldOrIssued w.shared shared) (hids : ∀ row ∈ shared.stored.rows, row.id < shared.issued)
    (hidle : ∀ c ∈ w.locals i, c.claim = some s → ∀ statusCode body,
      c.phase ≠ .storing statusCode body)
    (hmine : ∀ c ∈ call, CallKnows sha256 s shared c)
    (hclaim : ClaimsKey s call → ClaimsKey s (w.locals i)) :
    KeyKept sha256 s (w.set i shared call) where
  held := by
    refine h.held.set (fun a b hab hba => hab ⟨hba.2, hba.1⟩) ?_ hmine fun j hj => ⟨?_, ?_⟩
    · refine ⟨?_, hids⟩
      rw [hevents, hview]
      exact h.held.shared.state
    · intro c hc
      exact (h.held.own j c hc).frame hrows fun _ => ⟨hevents, hview⟩
    · rintro ⟨hcall, hother⟩
      exact h.held.apart i j (Ne.symm hj) ⟨hclaim hcall, hother⟩
  awaited r statusCode body hun := by
    have hun' : Unwritten sha256 r statusCode body (shared.events s) (slotRows shared.stored s) := hun
    rw [hevents, hview] at hun'
    obtain ⟨j, r', st, b, hj⟩ := h.awaited _ _ _ hun'
    have hne : j ≠ i := by
      rintro rfl
      exact hidle _ hj rfl st b rfl
    exact ⟨j, r', st, b, by rw [Threads.set_locals_ne hne, hj]⟩

/-- A move for the key, with nobody else at it. -/
theorem KeyKept.here (h : KeyKept sha256 s w)
    (halone : ∀ j, j ≠ i → ¬ ClaimsKey s (w.locals j))
    (hrows : OldOrIssued w.shared shared) (hstored : KeyStored sha256 s shared)
    (hmine : ∀ c ∈ call, CallKnows sha256 s shared c)
    (hawait : ∀ r statusCode body, Unwritten sha256 r statusCode body (shared.events s)
      (slotRows shared.stored s) → ∃ r statusCode body,
        call = some ⟨r, some s, .storing statusCode body⟩) :
    KeyKept sha256 s (w.set i shared call) where
  held := by
    refine h.held.set (fun a b hab hba => hab ⟨hba.2, hba.1⟩) hstored hmine fun j hj => ⟨?_, ?_⟩
    · intro c hc
      exact (h.held.own j c hc).frame hrows fun hclaim => absurd ⟨c, hc, hclaim⟩ (halone j hj)
    · exact fun hboth => halone j hj hboth.2
  awaited r statusCode body hun := by
    obtain ⟨r', st, b, hcall⟩ := hawait r statusCode body hun
    exact ⟨i, r', st, b, by rw [Threads.set_locals_self, hcall]⟩

theorem head?_eq_of_mem {t : Table RequestIdempotencyRow} {row : RequestIdempotencyRow}
    (h : (slotRows t s).head? = some row) : row ∈ t.rows ∧ row.slot = s := by
  have hmem : row ∈ slotRows t s := List.mem_of_mem_head? h
  simpa [slotRows] using hmem

/-- A request for another key, or for none. -/
theorem KeyKept.receive_other (h : KeyKept sha256 s w) {now : Int} {r : ApiRequest}
    (hslot : r.slot ≠ some s) (hs : w.Step sha256 (.receive i now r) w') :
    KeyKept sha256 s w' := by
  have hids := h.held.shared.issued
  unfold ApiWorld.Step ApiWorld.exec at hs
  cases hl : w.locals i with
  | some c => simp [hl] at hs
  | none =>
      have hidle : ∀ c ∈ w.locals i, c.claim = some s → ∀ statusCode body,
          c.phase ≠ .storing statusCode body := by simp [hl]
      simp only [hl] at hs
      cases hr : r.slot with
      | none =>
          simp only [hr] at hs
          split at hs
          · obtain rfl := Option.some.inj hs
            exact h
          · obtain rfl := Option.some.inj hs
            refine h.elsewhere rfl rfl .refl hids hidle ?_ ?_
            · rintro c ⟨⟩
              exact ⟨fun h => (nomatch h), fun _ _ h => (nomatch h), fun _ h => (nomatch h)⟩
            · rintro ⟨c, ⟨⟩, hc⟩
              cases hc
      | some s' =>
          have hne : s' ≠ s := fun he => hslot (by rw [hr, he])
          have hne' : ¬ (some s' = some s) := fun he => hne (Option.some.inj he)
          simp only [hr] at hs
          cases hlook : replayOrClaim sha256 w.shared.stored now r s' with
          | claimed =>
              simp only [hlook] at hs
              obtain rfl := Option.some.inj hs
              refine h.elsewhere (events_record_other hne _) rfl (.record _) hids hidle ?_ ?_
              · rintro c ⟨⟩
                exact ⟨fun h => absurd h hne', fun _ _ h => absurd h hne', fun _ h => (nomatch h)⟩
              · rintro ⟨c, ⟨⟩, hc⟩
                exact absurd hc hne'
          | expired id =>
              simp only [hlook] at hs
              obtain rfl := Option.some.inj hs
              refine h.elsewhere rfl rfl .refl hids hidle ?_ ?_
              · rintro c ⟨⟩
                refine ⟨fun h => absurd h hne', fun _ _ h => absurd h hne', fun id' hid => ?_⟩
                obtain rfl := ApiPhase.clearing.inj hid
                -- the row it found is a row of its own key
                unfold replayOrClaim at hlook
                cases hrow : (slotRows w.shared.stored s').head? with
                | none => simp [hrow] at hlook
                | some row =>
                    obtain ⟨hmem, hrs⟩ := head?_eq_of_mem hrow
                    simp only [hrow] at hlook
                    split at hlook
                    · obtain rfl := KeyLookup.expired.inj hlook
                      refine ⟨hne', hids row hmem, fun x hx hxid => ?_⟩
                      rw [Table.eq_of_key hx hmem hxid, hrs]
                      exact hne
                    · split at hlook <;> cases hlook
              · rintro ⟨c, ⟨⟩, hc⟩
                exact absurd hc hne'
          | replay statusCode body =>
              simp only [hlook] at hs
              obtain rfl := Option.some.inj hs
              exact h.elsewhere (events_record_other hne _) rfl (.record _) hids hidle (by simp)
                (by rintro ⟨c, ⟨⟩, -⟩)
          | conflict =>
              simp only [hlook] at hs
              obtain rfl := Option.some.inj hs
              exact h.elsewhere (events_record_other hne _) rfl (.record _) hids hidle (by simp)
                (by rintro ⟨c, ⟨⟩, -⟩)

/-- A request for the key, while the key is free. -/
theorem KeyKept.receive_self (h : KeyKept sha256 s w) {now : Int} {r : ApiRequest}
    (hslot : r.slot = some s) (hfree : KeyFree s w)
    (hlife : ∀ row ∈ slotRows w.shared.stored s, now < row.expiresAt)
    (hs : w.Step sha256 (.receive i now r) w') : KeyKept sha256 s w' := by
  have hids := h.held.shared.issued
  have halone : ∀ j, j ≠ i → ¬ ClaimsKey s (w.locals j) :=
    fun j _ ⟨c, hc, hclaim⟩ => hfree j c hc hclaim
  unfold ApiWorld.Step ApiWorld.exec at hs
  cases hl : w.locals i with
  | some c => simp [hl] at hs
  | none =>
      simp only [hl, hslot] at hs
      rcases h.held.shared.state with hquiet | ⟨r', st, b, hun⟩ | ⟨r₀, row, hrows, hident, hafter⟩
      · have hlook : replayOrClaim sha256 w.shared.stored now r s = .claimed := by
          simp [replayOrClaim, hquiet.2]
        simp only [hlook] at hs
        obtain rfl := Option.some.inj hs
        have hstays : Quiet ((w.shared.record s (.started r)).events s)
            (slotRows w.shared.stored s) := by
          rw [events_record_self]
          exact hquiet.snoc rfl
        refine h.here halone (.record _) ⟨.inl hstays, hids⟩ ?_ ?_
        · rintro c ⟨⟩
          exact ⟨fun _ _ => hstays, fun _ _ _ h => (nomatch h), fun _ h => (nomatch h)⟩
        · rintro r' st b ⟨⟨before, since, hevents, -⟩, -⟩
          have hbad := hstays.1 (.succeeded r' st b) (by rw [hevents]; simp)
          cases hbad
      · obtain ⟨j, r₁, st₁, b₁, hj⟩ := h.awaited r' st b hun
        exact absurd rfl (hfree j _ hj)
      · have hlive : ¬ row.expiresAt ≤ now := by
          have hlt := hlife row (by rw [hrows]; exact List.mem_singleton.2 rfl)
          omega
        have hwritten : ∀ r' st b l, ¬ Unwritten sha256 r' st b l (slotRows w.shared.stored s) := by
          rintro r' st b l ⟨-, hnil⟩
          rw [hrows] at hnil
          cases hnil
        by_cases hsame : row.identity = r.identity sha256
        · have hlook : replayOrClaim sha256 w.shared.stored now r s =
              .replay row.statusCode row.responseBody := by
            simp [replayOrClaim, hrows, hlive, hsame]
          simp only [hlook] at hs
          obtain rfl := Option.some.inj hs
          refine h.here halone (.record _) ⟨.inr (.inr ⟨r₀, row, hrows, hident, ?_⟩), hids⟩ (by simp)
            fun r' st b hun => absurd hun (hwritten r' st b _)
          rw [events_record_self]
          exact hafter.answered ⟨hsame.symm.trans hident, rfl, rfl⟩
        · have hlook : replayOrClaim sha256 w.shared.stored now r s = .conflict := by
            simp [replayOrClaim, hrows, hlive, hsame]
          simp only [hlook] at hs
          obtain rfl := Option.some.inj hs
          refine h.here halone (.record _) ⟨.inr (.inr ⟨r₀, row, hrows, hident, ?_⟩), hids⟩ (by simp)
            fun r' st b hun => absurd hun (hwritten r' st b _)
          rw [events_record_self]
          exact hafter.answered fun he => hsame (hident.trans he.symm)

/-- A handler answers, or throws. -/
theorem KeyKept.finish (h : KeyKept sha256 s w) {answer : Option (Nat × String)}
    (hs : w.Step sha256 (.finish i answer) w') : KeyKept sha256 s w' := by
  have hids := h.held.shared.issued
  unfold ApiWorld.Step ApiWorld.exec at hs
  match hl : w.locals i with
  | none => simp [hl] at hs
  | some ⟨r, none, .running⟩ =>
      simp only [hl] at hs
      obtain rfl := Option.some.inj hs
      exact h.elsewhere rfl rfl .refl hids (by rw [hl]; rintro c ⟨⟩ ⟨⟩) (by simp)
        (by rintro ⟨c, ⟨⟩, -⟩)
  | some ⟨r, some s', .running⟩ =>
      simp only [hl] at hs
      by_cases hsame : s' = s
      · subst hsame
        have hquiet := (h.held.own i _ hl).running rfl rfl
        have halone : ∀ j, j ≠ i → ¬ ClaimsKey s' (w.locals j) := fun j hj hclaim =>
          h.held.apart i j (Ne.symm hj) ⟨⟨_, hl, rfl⟩, hclaim⟩
        have hfailed : KeyKept sha256 s' (w.set i (w.shared.record s' (.failed r)) none) := by
          have hstays : Quiet ((w.shared.record s' (.failed r)).events s')
              (slotRows w.shared.stored s') := by
            rw [events_record_self]
            exact hquiet.snoc rfl
          refine h.here halone (.record _) ⟨.inl hstays, hids⟩ (by simp) ?_
          rintro r' st b ⟨⟨before, since, hevents, -⟩, -⟩
          have hbad := hstays.1 (.succeeded r' st b) (by rw [hevents]; simp)
          cases hbad
        match answer with
        | none =>
            obtain rfl := Option.some.inj hs
            exact hfailed
        | some (statusCode, body) =>
            by_cases hok : isSuccessStatus statusCode = true
            · simp only [if_pos hok] at hs
              obtain rfl := Option.some.inj hs
              have hun : Unwritten sha256 r statusCode body
                  ((w.shared.record s' (.succeeded r statusCode body)).events s')
                  (slotRows w.shared.stored s') := by
                rw [events_record_self]
                exact ⟨AfterSuccess.first hquiet.1, hquiet.2⟩
              refine h.here halone (.record _) ⟨.inr (.inl ⟨_, _, _, hun⟩), hids⟩ ?_
                fun _ _ _ _ => ⟨_, _, _, rfl⟩
              rintro c ⟨⟩
              refine ⟨fun _ h => (nomatch h), fun st b _ hphase => ?_, fun _ h => (nomatch h)⟩
              obtain ⟨rfl, rfl⟩ := ApiPhase.storing.inj hphase
              exact hun
            · simp only [if_neg hok] at hs
              obtain rfl := Option.some.inj hs
              exact hfailed
      · have hne : ¬ (some s' = some s) := fun he => hsame (Option.some.inj he)
        have hidle : ∀ c ∈ w.locals i, c.claim = some s → ∀ statusCode body,
            c.phase ≠ .storing statusCode body := by
          rw [hl]
          rintro c ⟨⟩ hc
          exact absurd hc hne
        have hfailed : KeyKept sha256 s (w.set i (w.shared.record s' (.failed r)) none) :=
          h.elsewhere (events_record_other hsame _) rfl (.record _) hids hidle (by simp)
            (by rintro ⟨c, ⟨⟩, -⟩)
        match answer with
        | none =>
            obtain rfl := Option.some.inj hs
            exact hfailed
        | some (statusCode, body) =>
            by_cases hok : isSuccessStatus statusCode = true
            · simp only [if_pos hok] at hs
              obtain rfl := Option.some.inj hs
              refine h.elsewhere (events_record_other hsame _) rfl (.record _) hids hidle ?_ ?_
              · rintro c ⟨⟩
                exact ⟨fun h => absurd h hne, fun _ _ h => absurd h hne, fun _ h => (nomatch h)⟩
              · rintro ⟨c, ⟨⟩, hc⟩
                exact absurd hc hne
            · simp only [if_neg hok] at hs
              obtain rfl := Option.some.inj hs
              exact hfailed
  | some ⟨r, none, .clearing id⟩ => simp [hl] at hs
  | some ⟨r, some s', .clearing id⟩ => simp [hl] at hs
  | some ⟨r, none, .storing st b⟩ => simp [hl] at hs
  | some ⟨r, some s', .storing st b⟩ => simp [hl] at hs

/-- An expired row of another key is deleted. -/
theorem KeyKept.clear (h : KeyKept sha256 s w) (hs : w.Step sha256 (.clear i) w') :
    KeyKept sha256 s w' := by
  have hids := h.held.shared.issued
  unfold ApiWorld.Step ApiWorld.exec at hs
  match hl : w.locals i with
  | none => simp [hl] at hs
  | some ⟨r, some s', .clearing id⟩ =>
      simp only [hl] at hs
      obtain ⟨hclaim, -, hslot⟩ := (h.held.own i _ hl).clearing id rfl
      have hsame : s' ≠ s := fun he => hclaim (congrArg some he)
      have hidle : ∀ c ∈ w.locals i, c.claim = some s → ∀ statusCode body,
          c.phase ≠ .storing statusCode body := by
        rw [hl]
        rintro c ⟨⟩ hc
        exact absurd hc hclaim
      split at hs
      · obtain rfl := Option.some.inj hs
        exact h.elsewhere (events_record_other hsame _) rfl (.record _) hids hidle (by simp)
          (by rintro ⟨c, ⟨⟩, -⟩)
      · obtain rfl := Option.some.inj hs
        have hold : ∀ row ∈ (w.shared.stored.deleteMany fun row => decide (row.id = id)).rows,
            row ∈ w.shared.stored.rows := fun row hrow => (Table.mem_deleteMany.1 hrow).1
        refine h.elsewhere (events_record_other hsame _) ?_
          ⟨le_refl _, fun row hrow => .inl (hold row hrow)⟩
          (fun row hrow => hids row (hold row hrow)) hidle ?_ ?_
        · show ((w.shared.stored.rows.filter _).filter _) = w.shared.stored.rows.filter _
          rw [List.filter_filter]
          refine List.filter_congr fun row hrow => ?_
          by_cases hrs : row.slot = s
          · have hid : row.id ≠ id := fun he => hslot row hrow he hrs
            simp [hrs, hid]
          · simp [hrs]
        · rintro c ⟨⟩
          exact ⟨fun h => absurd h hclaim, fun _ _ h => absurd h hclaim, fun _ h => (nomatch h)⟩
        · rintro ⟨c, ⟨⟩, hc⟩
          exact absurd hc hclaim
  | some ⟨r, none, .clearing id⟩ => simp [hl] at hs
  | some ⟨r, none, .running⟩ => simp [hl] at hs
  | some ⟨r, some s', .running⟩ => simp [hl] at hs
  | some ⟨r, none, .storing st b⟩ => simp [hl] at hs
  | some ⟨r, some s', .storing st b⟩ => simp [hl] at hs

/-- A result reaches the table. -/
theorem KeyKept.store (h : KeyKept sha256 s w) {now : Int}
    (hs : w.Step sha256 (.store i now) w') : KeyKept sha256 s w' := by
  have hids := h.held.shared.issued
  unfold ApiWorld.Step ApiWorld.exec at hs
  match hl : w.locals i with
  | none => simp [hl] at hs
  | some ⟨r, some s', .storing st b⟩ =>
      simp only [hl] at hs
      have hlater : ∀ row ∈ w.shared.stored.rows, row.id < w.shared.issued + 1 :=
        fun row hrow => (hids row hrow).trans (Nat.lt_succ_self _)
      cases hins : w.shared.stored.insert (storedRow sha256 w.shared.issued r s' st b now) with
      | error e =>
          simp only [hins] at hs
          obtain rfl := Option.some.inj hs
          by_cases hsame : s' = s
          · -- nothing is stored under the key, so the insert is not refused
            subst hsame
            have hun := (h.held.own i _ hl).storing st b rfl rfl
            have hfree : ∀ x ∈ w.shared.stored.rows, Row.compatible x
                (storedRow sha256 w.shared.issued r s' st b now) := by
              intro x hx
              refine ⟨(hids x hx).ne, decide_eq_false fun hxs => ?_⟩
              have hslot : x.slot = s' := hxs
              have hmem : x ∈ slotRows w.shared.stored s' := by simpa [slotRows, hx] using hslot
              rw [hun.2] at hmem
              cases hmem
            obtain ⟨t, ht⟩ := Table.insert_total rfl hfree
            rw [ht] at hins
            cases hins
          · have hne : ¬ (some s' = some s) := fun he => hsame (Option.some.inj he)
            refine h.elsewhere rfl rfl ⟨Nat.le_succ _, fun _ h => .inl h⟩ hlater ?_ (by simp)
              (by rintro ⟨c, ⟨⟩, -⟩)
            rw [hl]
            rintro c ⟨⟩ hc
            exact absurd hc hne
      | ok t =>
          simp only [hins] at hs
          obtain rfl := Option.some.inj hs
          have hrows := Table.insert_eq_ok.1 hins
          have hmem : ∀ row ∈ t.rows, row ∈ w.shared.stored.rows ∨ row.id = w.shared.issued := by
            intro row hrow
            rw [hrows] at hrow
            rcases List.mem_append.1 hrow with hrow | hrow
            · exact .inl hrow
            · rw [List.mem_singleton.1 hrow]
              exact .inr rfl
          have hids' : ∀ row ∈ t.rows, row.id < w.shared.issued + 1 := by
            intro row hrow
            rcases hmem row hrow with hold | hnew
            · exact hlater row hold
            · omega
          have hview : slotRows t s = slotRows w.shared.stored s ++
              if s' = s then [storedRow sha256 w.shared.issued r s' st b now] else [] := by
            by_cases hsame : s' = s <;>
              simp [slotRows, hrows, List.filter_append, storedRow, RequestIdempotencyRow.slot, hsame]
          by_cases hsame : s' = s
          · subst hsame
            have hun := (h.held.own i _ hl).storing st b rfl rfl
            rw [if_pos rfl, hun.2, List.nil_append] at hview
            refine h.here (fun j hj hclaim => h.held.apart i j (Ne.symm hj) ⟨⟨_, hl, rfl⟩, hclaim⟩)
              ⟨Nat.le_succ _, hmem⟩ ⟨.inr (.inr ⟨r, _, hview, rfl, hun.1⟩), hids'⟩ (by simp) ?_
            rintro r' st' b' ⟨-, hnil⟩
            have hnil' : slotRows t s' = [] := hnil
            rw [hview] at hnil'
            cases hnil'
          · have hne : ¬ (some s' = some s) := fun he => hsame (Option.some.inj he)
            rw [if_neg hsame, List.append_nil] at hview
            refine h.elsewhere rfl hview ⟨Nat.le_succ _, hmem⟩ hids' ?_ (by simp)
              (by rintro ⟨c, ⟨⟩, -⟩)
            rw [hl]
            rintro c ⟨⟩ hc
            exact absurd hc hne
  | some ⟨r, none, .clearing id⟩ => simp [hl] at hs
  | some ⟨r, some s', .clearing id⟩ => simp [hl] at hs
  | some ⟨r, none, .running⟩ => simp [hl] at hs
  | some ⟨r, some s', .running⟩ => simp [hl] at hs
  | some ⟨r, none, .storing st b⟩ => simp [hl] at hs

/-- The retention job, while the row of the key lives. -/
theorem KeyKept.sweep (h : KeyKept sha256 s w) {now : Int}
    (hlife : ∀ row ∈ slotRows w.shared.stored s, now < row.expiresAt)
    (hs : w.Step sha256 (.sweep now) w') : KeyKept sha256 s w' := by
  obtain rfl := Option.some.inj hs
  have hold : ∀ row ∈ (w.shared.stored.deleteMany fun row => decide (row.expiresAt ≤ now)).rows,
      row ∈ w.shared.stored.rows := fun row hrow => (Table.mem_deleteMany.1 hrow).1
  have hview : slotRows (w.shared.stored.deleteMany fun row => decide (row.expiresAt ≤ now)) s =
      slotRows w.shared.stored s := by
    show ((w.shared.stored.rows.filter _).filter _) = w.shared.stored.rows.filter _
    rw [List.filter_filter]
    refine List.filter_congr fun row hrow => ?_
    by_cases hrs : row.slot = s
    · have hlt := hlife row (by simpa [slotRows, hrow] using hrs)
      have hnot : ¬ row.expiresAt ≤ now := by omega
      simp [hrs, hnot]
    · simp [hrs]
  refine ⟨⟨⟨?_, fun row hrow => h.held.shared.issued row (hold row hrow)⟩, fun i c hc => ?_,
    h.held.apart⟩, fun r st b hun => ?_⟩
  · rw [hview]
    exact h.held.shared.state
  · exact (h.held.own i c hc).frame ⟨le_refl _, fun row hrow => .inl (hold row hrow)⟩
      fun _ => ⟨rfl, hview⟩
  · have hun' : Unwritten sha256 r st b (w.events s)
        (slotRows (w.shared.stored.deleteMany fun row => decide (row.expiresAt ≤ now)) s) := hun
    rw [hview] at hun'
    exact h.awaited r st b hun'

/-- A process is gone. -/
theorem KeyKept.crash (h : KeyKept sha256 s w) (hidle : ∀ c ∈ w.locals i, c.claim = some s →
    ∀ statusCode body, c.phase ≠ .storing statusCode body)
    (hs : w.Step sha256 (.crash i) w') : KeyKept sha256 s w' := by
  unfold ApiWorld.Step ApiWorld.exec at hs
  cases hl : w.locals i with
  | none => simp [hl] at hs
  | some c =>
      simp only [hl] at hs
      obtain rfl := Option.some.inj hs
      exact h.elsewhere rfl rfl .refl h.held.shared.issued hidle (by simp) (by rintro ⟨c, ⟨⟩, -⟩)

/-- Every move under the condition. -/
theorem KeyKept.step (h : KeyKept sha256 s w) {m : ApiMove} (hlife : WithinLifetime s w m)
    (hone : OneAtATime s w m) (hs : w.Step sha256 m w') : KeyKept sha256 s w' := by
  cases m with
  | receive i now r =>
      by_cases hslot : r.slot = some s
      · exact h.receive_self hslot (hone hslot) (hlife hslot) hs
      · exact h.receive_other hslot hs
  | clear i => exact h.clear hs
  | finish i answer => exact h.finish hs
  | store i now => exact h.store hs
  | sweep now => exact h.sweep hlife hs
  | crash i => exact h.crash hone hs

theorem keyKept_init (h : w.Init) : KeyKept sha256 s w := by
  obtain ⟨hstored, hlog, hidle⟩ := h
  have hrows : slotRows w.shared.stored s = [] := by simp [slotRows, hstored]
  have hevents : w.events s = [] := by simp [ApiWorld.events, ApiShared.events, hlog]
  refine ⟨⟨⟨.inl ⟨?_, hrows⟩, by simp [hstored]⟩, by simp [hidle], ?_⟩, ?_⟩
  · rw [show w.shared.events s = [] from hevents]
    simp
  · rintro i j - ⟨⟨c, hc, -⟩, -⟩
    rw [hidle] at hc
    cases hc
  · rintro r st b ⟨⟨before, since, hsplit, -⟩, -⟩
    rw [hevents] at hsplit
    simp at hsplit

theorem KeyKept.executesOnce (h : KeyKept sha256 s w) : ExecutesOnce sha256 (w.events s) := by
  rcases h.held.shared.state with hquiet | ⟨r, st, b, hun⟩ | ⟨r, row, -, -, hafter⟩
  · exact executesOnce_of_none hquiet.1
  · exact hun.1.executesOnce
  · exact hafter.executesOnce

end Moves

/-! ## Runs -/

/-- A key executes once: while its row lives, the handler succeeds at most once, and every
    request that ends after it is answered from the stored response, or refused where method,
    path or body differ.  The condition is on the runs: the key is looked up only while no other
    request with it is being answered or waits to be stored. -/
theorem key_executes_once {s : KeySlot} {w : ApiWorld}
    (h : Reach ApiWorld.Init (ApiWorld.Step sha256)
      (fun w m => WithinLifetime s w m ∧ OneAtATime s w m) w) :
    (w.events s).countP KeyEvent.isSuccess ≤ 1 ∧ ExecutesOnce sha256 (w.events s) := by
  have hkept : KeyKept sha256 s w := h.invariant (fun _ h => keyKept_init h)
    fun w m w' hw hg hs => hw.step hg.1 hg.2 hs
  exact ⟨hkept.executesOnce.countP, hkept.executesOnce⟩

end Interceptor

/-- A purchase with a key. -/
def boostRequest (body : String) : ApiRequest where
  user := some 7
  method := "POST"
  url := "/api/v1/events/3/channel?src=bot"
  body
  idempotencyKey := some " k1 "

/-- The request of number `0`, and nothing else. -/
def ApiMove.OnlyFirst : ApiMove → Prop
  | .receive i _ _ | .clear i | .finish i _ | .store i _ => i = 0
  | .sweep _ | .crash _ => False

instance (m : ApiMove) : Decidable m.OnlyFirst :=
  match m with
  | .receive i _ _ | .clear i | .finish i _ | .store i _ => inferInstanceAs (Decidable (i = 0))
  | .sweep _ | .crash _ => .isFalse id

theorem ApiMove.OnlyFirst.others {w w' : ApiWorld} {m : ApiMove} (hm : m.OnlyFirst)
    (hw : ∀ j, j ≠ 0 → w.locals j = none) (h : w.Step id m w') : ∀ j, j ≠ 0 → w'.locals j = none := by
  intro j hj
  unfold ApiWorld.Step at h
  cases m <;> cases hm <;> unfold ApiWorld.exec at h <;> simp only at h <;>
    repeat' split at h
  all_goals first
    | (obtain rfl := Option.some.inj h; simpa [hj] using hw j hj)
    | cases h

/-- One request after another: the second is answered from the first. -/
theorem key_executes_once_replay :
    ∃ w : ApiWorld, w.events (7, "k1") = [.started (boostRequest "1"),
        .succeeded (boostRequest "1") 201 "ok", .replayed (boostRequest "1") 201 "ok"] ∧
      (w.events (7, "k1")).countP KeyEvent.isSuccess ≤ 1 ∧
      ExecutesOnce id (w.events (7, "k1")) := by
  let calls : List ApiMove := [.receive 0 0 (boostRequest "1"), .finish 0 (some (201, "ok")),
    .store 0 5, .receive 0 9 (boostRequest "1")]
  have hplay : guardList (ApiWorld.exec id)
        (fun w m => decide (WithinLifetime (7, "k1") w m) && decide m.OnlyFirst)
        ApiWorld.initial calls = true ∧
      (runList (ApiWorld.exec id) ApiWorld.initial calls).any (fun w =>
        decide (w.events (7, "k1") = [.started (boostRequest "1"),
          .succeeded (boostRequest "1") 201 "ok", .replayed (boostRequest "1") 201 "ok"])) =
        true := by
    decide
  obtain ⟨hguard, hrun⟩ := hplay
  obtain ⟨w, hw, hevents⟩ := (Option.any_eq_true _ _).1 hrun
  have hfirst : Reach ApiWorld.Init (ApiWorld.Step id)
      (fun w m => WithinLifetime (7, "k1") w m ∧ m.OnlyFirst) w :=
    reach_of_runList (g := fun w m => decide (WithinLifetime (7, "k1") w m) && decide m.OnlyFirst)
      (fun _ _ _ h => h) (fun _ _ h => by simpa using h) (.start ApiWorld.init_initial) hguard hw
  -- a request that starts finds thread `0` idle, and no other thread ever moves
  have hreach := hfirst.mono_of (J := fun w => ∀ j, j ≠ 0 → w.locals j = none)
    (G := fun w m => WithinLifetime (7, "k1") w m ∧ OneAtATime (7, "k1") w m)
    (fun _ h j _ => h.2.2 j) (fun _ _ _ hJ hg hs => hg.2.others hJ hs) ?_
  · exact ⟨w, of_decide_eq_true hevents, key_executes_once id hreach⟩
  · rintro w m w' hothers ⟨hlife, hm⟩ hs
    refine ⟨hlife, ?_⟩
    cases m with
    | receive i now r =>
        obtain rfl : i = 0 := hm
        rintro - j c hc
        by_cases hj : j = 0
        · subst hj
          unfold ApiWorld.Step ApiWorld.exec at hs
          rw [Option.mem_def] at hc
          simp [hc] at hs
        · rw [hothers j hj] at hc
          cases hc
    | clear i => trivial
    | finish i answer => trivial
    | store i now => trivial
    | sweep now => cases hm
    | crash i => cases hm

/-- Two taps at once: both requests run their handler to success. -/
theorem key_executed_twice :
    ¬ ∀ (sha256 : String → String) (s : KeySlot) (w : ApiWorld),
      Reach ApiWorld.Init (ApiWorld.Step sha256) (fun w m => WithinLifetime s w m) w →
        ExecutesOnce sha256 (w.events s) := by
  intro hall
  let taps : List ApiMove := [.receive 0 0 (boostRequest "1"), .receive 1 0 (boostRequest "1"),
    .finish 0 (some (201, "a")), .finish 1 (some (201, "b"))]
  have hplay : guardList (ApiWorld.exec id) (fun w m => decide (WithinLifetime (7, "k1") w m))
        ApiWorld.initial taps = true ∧
      (runList (ApiWorld.exec id) ApiWorld.initial taps).any (fun w =>
        !decide (ExecutesOnce id (w.events (7, "k1")))) = true := by
    decide
  obtain ⟨hguard, hrun⟩ := hplay
  obtain ⟨w, hw, hnot⟩ := (Option.any_eq_true _ _).1 hrun
  have hreach : Reach ApiWorld.Init (ApiWorld.Step id) (WithinLifetime (7, "k1")) w :=
    reach_of_runList (g := fun w m => decide (WithinLifetime (7, "k1") w m)) (fun _ _ _ h => h)
      (fun _ _ h => of_decide_eq_true h) (.start ApiWorld.init_initial) hguard hw
  simp [hall id (7, "k1") w hreach] at hnot

end Paayatam
