/-
  Paayatam.Api.RateLimit

  `RateLimitService.consume`: a counter in Redis for each endpoint class,
  subject and window, and any number of calls at once.

  A call reads its window from the clock, and its command is counted later.  One
  that is not answered before the deadline lets the call through, and may still
  be counted.  While commands are counted within their windows the answers of a
  bucket count up: as many calls pass as the limit says, one is told that it is
  the first refused, and none passes behind it (`bucket_within_limit`).
-/

import Paayatam.Lib.Digits
import Paayatam.Lib.Fields
import Paayatam.Lib.System
import Paayatam.Lib.Threads
import Mathlib.Data.List.Perm.Subperm

namespace Paayatam

open Lib

namespace RateLimit

/-! ## Policies -/

structure RateLimitPolicy where
  limit : Nat
  windowSeconds : Nat

inductive RateLimitClass where
  | EVENT_CREATE
  | PARTICIPATION_JOIN
  | DIRECT_MESSAGE_SEND
  | REPORT_FILE
  | BUG_REPORT_FILE
  | PROFILE_UPDATE
  | EVENT_INVITE
  | MEMBERSHIP_CHECK
  | AUTH
  | ADMIN_LOGIN
  | GIFT_CODE_REDEEM
  deriving DecidableEq

def RATE_LIMITS : RateLimitClass → RateLimitPolicy
  | .EVENT_CREATE => ⟨5, 86400⟩
  | .PARTICIPATION_JOIN => ⟨20, 86400⟩
  | .DIRECT_MESSAGE_SEND => ⟨30, 60⟩
  | .REPORT_FILE => ⟨10, 86400⟩
  | .BUG_REPORT_FILE => ⟨5, 3600⟩
  | .PROFILE_UPDATE => ⟨10, 3600⟩
  | .EVENT_INVITE => ⟨10, 86400⟩
  | .MEMBERSHIP_CHECK => ⟨10, 60⟩
  | .AUTH => ⟨30, 60⟩
  | .ADMIN_LOGIN => ⟨10, 300⟩
  | .GIFT_CODE_REDEEM => ⟨10, 3600⟩

def RateLimitClass.name : RateLimitClass → List Char
  | .EVENT_CREATE => "EVENT_CREATE".toList
  | .PARTICIPATION_JOIN => "PARTICIPATION_JOIN".toList
  | .DIRECT_MESSAGE_SEND => "DIRECT_MESSAGE_SEND".toList
  | .REPORT_FILE => "REPORT_FILE".toList
  | .BUG_REPORT_FILE => "BUG_REPORT_FILE".toList
  | .PROFILE_UPDATE => "PROFILE_UPDATE".toList
  | .EVENT_INVITE => "EVENT_INVITE".toList
  | .MEMBERSHIP_CHECK => "MEMBERSHIP_CHECK".toList
  | .AUTH => "AUTH".toList
  | .ADMIN_LOGIN => "ADMIN_LOGIN".toList
  | .GIFT_CODE_REDEEM => "GIFT_CODE_REDEEM".toList

/-- Every limit lets a call through, and every window has a length. -/
theorem limits_pos (c : RateLimitClass) :
    0 < (RATE_LIMITS c).limit ∧ 0 < (RATE_LIMITS c).windowSeconds := by
  cases c <;> decide

/-! ## Buckets -/

/-- What a counter counts. -/
structure Bucket where
  endpointClass : RateLimitClass
  subject : List Char
  window : Nat
  deriving DecidableEq

namespace Bucket

def key (b : Bucket) : List Char :=
  "ratelimit:".toList ++
    (b.endpointClass.name ++ ':' :: (b.subject ++ ':' :: Nat.toDigits 10 b.window))

def windowSeconds (b : Bucket) : Nat := (RATE_LIMITS b.endpointClass).windowSeconds

def limit (b : Bucket) : Nat := (RATE_LIMITS b.endpointClass).limit

/-- When its window begins and ends, in milliseconds. -/
def startsAt (b : Bucket) : Nat := b.window * b.windowSeconds * 1000

def endsAt (b : Bucket) : Nat := (b.window + 1) * b.windowSeconds * 1000

end Bucket

/-- The bucket of a call at a time. -/
def bucketAt (endpointClass : RateLimitClass) (subject : List Char) (now : Nat) : Bucket :=
  ⟨endpointClass, subject, now / 1000 / (RATE_LIMITS endpointClass).windowSeconds⟩

structure RateLimitVerdict where
  allowed : Bool
  remaining : Nat
  resetSeconds : Nat
  firstRefusal : Bool

def resetSeconds (b : Bucket) (now : Nat) : Nat :=
  (b.window + 1) * b.windowSeconds - now / 1000

/-- What a call that was counted is told. -/
def countedVerdict (b : Bucket) (now used : Nat) : RateLimitVerdict where
  allowed := used ≤ b.limit
  remaining := b.limit - used
  resetSeconds := resetSeconds b now
  firstRefusal := used = b.limit + 1

/-- An unreachable or slow Redis allows the request. -/
def openVerdict (b : Bucket) (now : Nat) : RateLimitVerdict where
  allowed := true
  remaining := b.limit
  resetSeconds := resetSeconds b now
  firstRefusal := false

/-! ## Redis -/

structure Counter where
  used : Nat
  expiresAt : Nat

abbrev Redis := List Char → Option Counter

/-- What is counted under a key; an expired one is gone. -/
def Redis.live (redis : Redis) (now : Nat) (key : List Char) : Nat :=
  match redis key with
  | some counter => if now < counter.expiresAt then counter.used else 0
  | none => 0

/-- `INCR` and `EXPIRE`, in one transaction. -/
def Redis.incr (redis : Redis) (now : Nat) (key : List Char) (seconds : Nat) : Redis :=
  Function.update redis key (some ⟨redis.live now key + 1, now + seconds * 1000⟩)

/-! ## Calls -/

/-- What a call was told, `used` if it was counted in time. -/
structure Answer where
  bucket : Bucket
  askedAt : Nat
  used : Option Nat
  verdict : RateLimitVerdict

/-- Redis, the time, the commands nobody waits for, and what was told; `counted` is how many
    commands of a bucket there were. -/
structure Limiter where
  redis : Redis
  clock : Nat
  queued : List Bucket
  answers : List Answer
  counted : Bucket → Nat

inductive RateMove (ι : Type) where
  | tick (now : Nat)
  | ask (i : ι) (endpointClass : RateLimitClass) (subject : List Char)
  /-- The command of a call is counted. -/
  | count (i : ι)
  /-- Its reply is read in time. -/
  | answer (i : ι)
  /-- The deadline of a call passes; its command may still be on its way. -/
  | giveUp (i : ι)
  /-- Such a command is counted. -/
  | late (k : Nat)
  /-- Such a command is lost. -/
  | lose (k : Nat)

/-- A call has its bucket and the time it asked at, and the reply on its way. -/
structure Call where
  bucket : Bucket
  askedAt : Nat
  reply : Option Nat

abbrev RateWorld (ι : Type) := Threads ι Limiter (Option Call)

/-- The command of a bucket is counted. -/
def Limiter.count (s : Limiter) (b : Bucket) : Limiter :=
  { s with
    redis := s.redis.incr s.clock b.key b.windowSeconds
    counted := Function.update s.counted b (s.counted b + 1) }

def Limiter.tell (s : Limiter) (b : Bucket) (askedAt : Nat) (used : Option Nat)
    (verdict : RateLimitVerdict) : Limiter :=
  { s with answers := s.answers ++ [⟨b, askedAt, used, verdict⟩] }

namespace RateWorld

variable {ι : Type} [DecidableEq ι]

def exec (w : RateWorld ι) : RateMove ι → Option (RateWorld ι)
  | .tick now =>
    if w.shared.clock ≤ now then some { w with shared := { w.shared with clock := now } } else none
  | .ask i endpointClass subject =>
    match w.locals i with
    | none =>
      some (w.set i w.shared
        (some ⟨bucketAt endpointClass subject w.shared.clock, w.shared.clock, none⟩))
    | some _ => none
  | .count i =>
    match w.locals i with
    | some ⟨b, askedAt, none⟩ =>
      some (w.set i (w.shared.count b)
        (some ⟨b, askedAt, some (w.shared.redis.live w.shared.clock b.key + 1)⟩))
    | _ => none
  | .answer i =>
    match w.locals i with
    | some ⟨b, askedAt, some used⟩ =>
      some (w.set i (w.shared.tell b askedAt (some used) (countedVerdict b askedAt used)) none)
    | _ => none
  | .giveUp i =>
    match w.locals i with
    | some ⟨b, askedAt, some _⟩ =>
      some (w.set i (w.shared.tell b askedAt none (openVerdict b askedAt)) none)
    | some ⟨b, askedAt, none⟩ =>
      some (w.set i ({ w.shared with queued := w.shared.queued ++ [b] }.tell b askedAt none
        (openVerdict b askedAt)) none)
    | none => none
  | .late k =>
    (w.shared.queued[k]?).map fun b =>
      { w with shared := { w.shared.count b with queued := w.shared.queued.eraseIdx k } }
  | .lose k => some { w with shared := { w.shared with queued := w.shared.queued.eraseIdx k } }

def Step (w : RateWorld ι) (m : RateMove ι) (w' : RateWorld ι) : Prop := w.exec m = some w'

/-- Nothing counted, nobody calling. -/
def Init (w : RateWorld ι) : Prop :=
  (∀ key, w.shared.redis key = none) ∧ w.shared.queued = [] ∧ w.shared.answers = [] ∧
    (∀ b, w.shared.counted b = 0) ∧ ∀ i, w.locals i = none

/-- The bucket whose command a move counts. -/
def counts (w : RateWorld ι) : RateMove ι → Option Bucket
  | .count i => (w.locals i).map (·.bucket)
  | .late k => w.shared.queued[k]?
  | _ => none

/-- A command is counted before its window is over. -/
def InTime (w : RateWorld ι) (m : RateMove ι) : Prop :=
  ∀ b, w.counts m = some b → w.shared.clock < b.endsAt

/-- No command of the bucket is counted. -/
def Spares (b : Bucket) (w : RateWorld ι) (m : RateMove ι) : Prop := w.counts m ≠ some b

end RateWorld

/-! ## Keys -/

theorem name_plain (c : RateLimitClass) : ':' ∉ c.name := by
  cases c <;> decide

theorem name_injective {c d : RateLimitClass} (h : c.name = d.name) : c = d := by
  cases c <;> cases d <;> first | rfl | exact absurd h (by decide)

/-- No two buckets share a counter, whatever colons a subject has. -/
theorem key_injective {b b' : Bucket} (h : b.key = b'.key) : b = b' := by
  have hdigits : ∀ n : Nat, ':' ∉ (Nat.toDigits 10 n).reverse := by
    intro n hmem
    have hdigit := Nat.isDigit_of_mem_toDigits (by omega) (by omega) (List.mem_reverse.1 hmem)
    exact absurd hdigit (by decide)
  have hbehind : b.endpointClass.name ++ ':' :: (b.subject ++ ':' :: Nat.toDigits 10 b.window) =
      b'.endpointClass.name ++ ':' :: (b'.subject ++ ':' :: Nat.toDigits 10 b'.window) :=
    List.append_cancel_left h
  obtain ⟨hname, hrest⟩ := append_cons_inj (name_plain b.endpointClass)
    (name_plain b'.endpointClass) hbehind
  have hback := congrArg List.reverse hrest
  simp only [List.reverse_append, List.reverse_cons, List.append_assoc,
    List.singleton_append] at hback
  obtain ⟨hwindow, hsubject⟩ := append_cons_inj (hdigits _) (hdigits _) hback
  have hnumber := congrArg readDigits (List.reverse_injective hwindow)
  unfold readDigits at hnumber
  rw [Nat.ofDigitChars_ten_toDigits, Nat.ofDigitChars_ten_toDigits] at hnumber
  have hclass := name_injective hname
  have hsame := List.reverse_injective hsubject
  cases b
  cases b'
  simp_all

/-! ## What holds between moves -/

section Runs

variable {ι : Type} [DecidableEq ι] {w w' : RateWorld ι} {m : RateMove ι} {s : Limiter}
  {b : Bucket}

theorem Bucket.endsAt_eq (b : Bucket) : b.endsAt = b.startsAt + b.windowSeconds * 1000 := by
  unfold endsAt startsAt
  rw [Nat.add_mul, Nat.one_mul, Nat.add_mul]

/-- A call asks within the window of its bucket. -/
theorem bucketAt_begun (endpointClass : RateLimitClass) (subject : List Char) (now : Nat) :
    (bucketAt endpointClass subject now).startsAt ≤ now := by
  have hwindow := Nat.div_mul_le_self (now / 1000) (RATE_LIMITS endpointClass).windowSeconds
  show now / 1000 / (RATE_LIMITS endpointClass).windowSeconds *
    (RATE_LIMITS endpointClass).windowSeconds * 1000 ≤ now
  omega

/-- An answer is that of its call, and of a command that was counted. -/
structure Told (s : Limiter) (a : Answer) : Prop where
  asked : a.bucket = bucketAt a.bucket.endpointClass a.bucket.subject a.askedAt
  verdict : a.verdict = match a.used with
    | some used => countedVerdict a.bucket a.askedAt used
    | none => openVerdict a.bucket a.askedAt
  counted : ∀ used, a.used = some used → 1 ≤ used ∧ used ≤ s.counted a.bucket

/-- Two answers were not counted as the same one. -/
def Differ (a a' : Answer) : Prop := a.bucket = a'.bucket → a.used ≠ none → a.used ≠ a'.used

/-- A counter has counted the commands of its bucket and outlives its window. -/
structure Sound (s : Limiter) : Prop where
  stored : ∀ b : Bucket, s.counted b = 0 ∧ s.redis b.key = none ∨
    ∃ e, b.endsAt ≤ e ∧ s.redis b.key = some ⟨s.counted b, e⟩
  begun : ∀ b ∈ s.queued, b.startsAt ≤ s.clock
  told : ∀ a ∈ s.answers, Told s a
  distinct : s.answers.Pairwise Differ

/-- A call asks within its window, and nobody was told its reply. -/
structure Calling (s : Limiter) (l : Option Call) : Prop where
  asked : ∀ call, l = some call →
    call.bucket = bucketAt call.bucket.endpointClass call.bucket.subject call.askedAt ∧
      call.bucket.startsAt ≤ s.clock
  reply : ∀ call used, l = some call → call.reply = some used →
    1 ≤ used ∧ used ≤ s.counted call.bucket ∧
      ∀ a ∈ s.answers, a.bucket = call.bucket → a.used ≠ some used

/-- Two replies on their way are not the same one. -/
def Apart (l l' : Option Call) : Prop :=
  ∀ call call' used, l = some call → l' = some call' → call.bucket = call'.bucket →
    call.reply = some used → call'.reply ≠ some used

def Holds (w : RateWorld ι) : Prop := Threads.Holds Sound Calling Apart w

theorem Apart.symm (l l' : Option Call) (h : Apart l l') : Apart l' l :=
  fun call call' used hl hl' hb hreply hreply' =>
    h call' call used hl' hl hb.symm hreply' hreply

theorem apart_idle (l : Option Call) : Apart none l := fun _ _ _ hl => by cases hl

theorem Sound.live (h : Sound s) (hin : s.clock < b.endsAt) :
    s.redis.live s.clock b.key = s.counted b := by
  unfold Redis.live
  rcases h.stored b with ⟨hnone, hkey⟩ | ⟨e, hends, hkey⟩
  · rw [hkey, hnone]
  · rw [hkey]
    exact if_pos (Nat.lt_of_lt_of_le hin hends)

theorem counted_mono (b c : Bucket) : s.counted c ≤ (s.count b).counted c := by
  show s.counted c ≤ Function.update s.counted b (s.counted b + 1) c
  by_cases hc : c = b
  · rw [hc, Function.update_self]
    omega
  · rw [Function.update_of_ne hc]

theorem counted_self (b : Bucket) : (s.count b).counted b = s.counted b + 1 :=
  Function.update_self ..

/-- A command is counted within its window. -/
theorem Sound.count (h : Sound s) (hin : s.clock < b.endsAt) (hbegun : b.startsAt ≤ s.clock) :
    Sound (s.count b) where
  stored c := by
    have hlive := h.live hin
    have hends := b.endsAt_eq
    by_cases hc : c = b
    · refine .inr ⟨s.clock + b.windowSeconds * 1000, by rw [hc]; omega, ?_⟩
      rw [hc, counted_self, ← hlive]
      exact Function.update_self ..
    · have hkey : c.key ≠ b.key := fun heq => hc (key_injective heq)
      have hredis : (s.count b).redis c.key = s.redis c.key := Function.update_of_ne hkey ..
      have hcounted : (s.count b).counted c = s.counted c := Function.update_of_ne hc ..
      rw [hredis, hcounted]
      exact h.stored c
  begun := h.begun
  told a ha := by
    obtain ⟨hasked, hverdict, hcounted⟩ := h.told a ha
    refine ⟨hasked, hverdict, fun used hused => ?_⟩
    have hbounds := hcounted used hused
    have hmono : s.counted a.bucket ≤ (s.count b).counted a.bucket := counted_mono b a.bucket
    omega
  distinct := h.distinct

theorem Calling.count {l : Option Call} (h : Calling s l) (b : Bucket) :
    Calling (s.count b) l where
  asked := h.asked
  reply call used hl hreply := by
    obtain ⟨hpos, hle, hnew⟩ := h.reply call used hl hreply
    have hmono : s.counted call.bucket ≤ (s.count b).counted call.bucket :=
      counted_mono b call.bucket
    exact ⟨hpos, by omega, hnew⟩

/-- A call is told something: that it was counted, as nobody else was told, or nothing. -/
theorem Sound.tell (h : Sound s) {now : Nat} {reply : Option Nat} {verdict : RateLimitVerdict}
    (htold : Told s ⟨b, now, reply, verdict⟩)
    (hnew : ∀ used, reply = some used → ∀ a ∈ s.answers, a.bucket = b → a.used ≠ some used) :
    Sound (s.tell b now reply verdict) where
  stored := h.stored
  begun := h.begun
  told a ha := by
    rcases List.mem_append.1 ha with hold | hlast
    · exact ⟨(h.told a hold).asked, (h.told a hold).verdict, (h.told a hold).counted⟩
    · rw [List.mem_singleton.1 hlast]
      exact ⟨htold.asked, htold.verdict, htold.counted⟩
  distinct := by
    refine List.pairwise_append.2 ⟨h.distinct, List.pairwise_singleton _ _, ?_⟩
    intro a ha a' ha' hb hcounted heq
    rw [List.mem_singleton.1 ha'] at hb heq
    cases hused : a.used with
    | none => exact hcounted hused
    | some used => exact hnew used (heq.symm.trans hused) a ha hb hused

theorem Calling.tell {l : Option Call} (h : Calling s l) {now : Nat} {reply : Option Nat}
    {verdict : RateLimitVerdict}
    (hnew : ∀ call used, l = some call → call.reply = some used → b = call.bucket →
      reply ≠ some used) : Calling (s.tell b now reply verdict) l where
  asked := h.asked
  reply call used hl hreply := by
    obtain ⟨hpos, hle, hold⟩ := h.reply call used hl hreply
    refine ⟨hpos, hle, fun a ha hb => ?_⟩
    rcases List.mem_append.1 ha with hin | hlast
    · exact hold a hin hb
    · rw [List.mem_singleton.1 hlast] at hb ⊢
      exact hnew call used hl hreply hb

theorem calling_idle (s : Limiter) : Calling s none :=
  ⟨fun _ hl => (by cases hl), fun _ _ hl => (by cases hl)⟩

theorem Sound.drop (h : Sound s) (k : Nat) :
    Sound { s with queued := s.queued.eraseIdx k } :=
  ⟨h.stored, fun b hb => h.begun b (List.mem_of_mem_eraseIdx hb),
    fun a ha => ⟨(h.told a ha).asked, (h.told a ha).verdict, (h.told a ha).counted⟩, h.distinct⟩

omit [DecidableEq ι] in
theorem holds_init (h : w.Init) : Holds w := by
  obtain ⟨hredis, hqueued, hanswers, hcounted, hidle⟩ := h
  refine ⟨⟨fun b => .inl ⟨hcounted b, hredis _⟩, ?_, ?_, ?_⟩, fun i => ?_, fun i j _ => ?_⟩
  · simp [hqueued]
  · simp [hanswers]
  · simp [hanswers]
  · rw [hidle i]
    exact calling_idle _
  · rw [hidle i]
    exact apart_idle _

theorem Holds.step (h : Holds w) (hg : w.InTime m) (hs : w.Step m w') : Holds w' := by
  unfold Holds at h ⊢
  cases m with
  | tick now =>
      simp only [RateWorld.Step, RateWorld.exec] at hs
      split at hs
      · next hle =>
          obtain rfl := Option.some.inj hs
          refine ⟨⟨h.shared.stored, fun b hb => (h.shared.begun b hb).trans hle, fun a ha => ?_,
            h.shared.distinct⟩, fun i => ⟨fun call hl => ?_, (h.own i).reply⟩, h.apart⟩
          · have htold := h.shared.told a ha
            exact ⟨htold.asked, htold.verdict, htold.counted⟩
          · exact ⟨((h.own i).asked call hl).1, ((h.own i).asked call hl).2.trans hle⟩
      · cases hs
  | ask i endpointClass subject =>
      simp only [RateWorld.Step, RateWorld.exec] at hs
      split at hs
      · obtain rfl := Option.some.inj hs
        refine h.set_local Apart.symm ⟨fun call hl => ?_, fun call used hl hreply => ?_⟩
          fun j _ call call' used hl _ _ hreply => ?_
        · obtain rfl := Option.some.inj hl
          exact ⟨rfl, bucketAt_begun _ _ _⟩
        · obtain rfl := Option.some.inj hl
          cases hreply
        · obtain rfl := Option.some.inj hl
          cases hreply
      · cases hs
  | count i =>
      simp only [RateWorld.Step, RateWorld.exec] at hs
      split at hs
      · next b askedAt hl =>
          obtain rfl := Option.some.inj hs
          have hin : w.shared.clock < b.endsAt := hg b (by simp [RateWorld.counts, hl])
          obtain ⟨hasked, hbegun⟩ := (h.own i).asked _ hl
          have hcounted := counted_self (s := w.shared) b
          rw [h.shared.live hin]
          refine h.set Apart.symm (h.shared.count hin hbegun)
            ⟨fun call hc => ?_, fun call used hc hreply => ?_⟩
            fun j _ => ⟨(h.own j).count b, fun call call' used hc hc' hb hreply hreply' => ?_⟩
          · obtain rfl := Option.some.inj hc
            exact ⟨hasked, hbegun⟩
          · obtain rfl := Option.some.inj hc
            obtain rfl := Option.some.inj hreply
            refine ⟨by omega, Nat.le_of_eq hcounted.symm, fun a ha hb hused => ?_⟩
            have hle := ((h.shared.told a ha).counted _ hused).2
            rw [hb] at hle
            exact absurd hle (Nat.not_succ_le_self _)
          · obtain rfl := Option.some.inj hc
            obtain rfl := Option.some.inj hreply
            have hle := ((h.own j).reply call' _ hc' hreply').2.1
            rw [← hb] at hle
            exact absurd hle (Nat.not_succ_le_self _)
      · cases hs
  | answer i =>
      simp only [RateWorld.Step, RateWorld.exec] at hs
      split at hs
      · next b askedAt used hl =>
          obtain rfl := Option.some.inj hs
          obtain ⟨hpos, hle, hnew⟩ := (h.own i).reply _ used hl rfl
          have hasked := ((h.own i).asked _ hl).1
          refine h.set Apart.symm (h.shared.tell ⟨hasked, rfl, fun u hu => ?_⟩ fun u hu => ?_)
            (calling_idle _) fun j hj => ⟨(h.own j).tell fun call u hc hreply hb hu => ?_,
              apart_idle _⟩
          · obtain rfl := Option.some.inj hu
            exact ⟨hpos, hle⟩
          · obtain rfl := Option.some.inj hu
            exact hnew
          · obtain rfl := Option.some.inj hu
            exact h.apart i j hj.symm _ call used hl hc hb rfl hreply
      · cases hs
  | giveUp i =>
      simp only [RateWorld.Step, RateWorld.exec] at hs
      have hopen : ∀ (b : Bucket) (now : Nat), b = bucketAt b.endpointClass b.subject now →
          Told w.shared ⟨b, now, none, openVerdict b now⟩ :=
        fun b now hasked => ⟨hasked, rfl, fun _ hu => by cases hu⟩
      split at hs
      · next b askedAt used hl =>
          obtain rfl := Option.some.inj hs
          refine h.set Apart.symm
            (h.shared.tell (hopen b askedAt ((h.own i).asked _ hl).1) fun _ hu => by cases hu)
            (calling_idle _) fun j _ =>
              ⟨(h.own j).tell fun _ _ _ _ _ hu => (by cases hu), apart_idle _⟩
      · next b askedAt hl =>
          obtain rfl := Option.some.inj hs
          obtain ⟨hasked, hbegun⟩ := (h.own i).asked _ hl
          have hqueue : Sound { w.shared with queued := w.shared.queued ++ [b] } := by
            refine ⟨h.shared.stored, fun c hc => ?_, fun a ha => ?_, h.shared.distinct⟩
            · rcases List.mem_append.1 hc with hold | hlast
              · exact h.shared.begun c hold
              · rw [List.mem_singleton.1 hlast]
                exact hbegun
            · have htold := h.shared.told a ha
              exact ⟨htold.asked, htold.verdict, htold.counted⟩
          have htold := hopen b askedAt hasked
          refine h.set Apart.symm
            (hqueue.tell ⟨htold.asked, htold.verdict, htold.counted⟩ fun _ hu => by cases hu)
            (calling_idle _) fun j _ => ⟨?_, apart_idle _⟩
          have hown : Calling { w.shared with queued := w.shared.queued ++ [b] } (w.locals j) :=
            ⟨(h.own j).asked, (h.own j).reply⟩
          exact hown.tell fun _ _ _ _ _ hu => by cases hu
      · cases hs
  | late k =>
      obtain ⟨b, hb, rfl⟩ := Option.map_eq_some_iff.1 hs
      have hmem : b ∈ w.shared.queued := List.mem_of_getElem? hb
      have hsound := (h.shared.count (hg b hb) (h.shared.begun b hmem)).drop k
      refine ⟨hsound, fun i => ?_, h.apart⟩
      have hown := (h.own i).count b
      exact ⟨hown.asked, hown.reply⟩
  | lose k =>
      obtain rfl := Option.some.inj hs
      exact ⟨h.shared.drop k, fun i => ⟨(h.own i).asked, (h.own i).reply⟩, h.apart⟩

theorem sound (h : Reach RateWorld.Init RateWorld.Step RateWorld.InTime w) : Sound w.shared :=
  (h.invariant (I := Holds) (fun _ => holds_init) fun _ _ _ hI hg hs => hI.step hg hs).shared

end Runs

/-! ## What callers are told -/

section Told

variable {ι : Type} [DecidableEq ι] {w w' : RateWorld ι}

/-- What the calls of a bucket were told. -/
def answersOf (w : RateWorld ι) (b : Bucket) : List Answer :=
  w.shared.answers.filter fun a => a.bucket = b

/-- It was counted, and let through. -/
def Answer.passed (a : Answer) : Bool := a.used.isSome && a.verdict.allowed

theorem countP_le_add {α : Type} {p q r : α → Bool} {l : List α}
    (h : ∀ a ∈ l, p a = true → q a = true ∨ r a = true) :
    l.countP p ≤ l.countP q + l.countP r := by
  induction l with
  | nil => exact Nat.le_refl _
  | cons a l ih =>
      obtain ⟨hhead, htail⟩ := List.forall_mem_cons.1 h
      have hrest := ih htail
      rw [List.countP_cons, List.countP_cons, List.countP_cons]
      split
      · next hp =>
          rcases hhead hp with hq | hr
          · rw [if_pos hq]
            omega
          · rw [if_pos hr]
            omega
      · omega

/-- Answers of a bucket that were counted as one of some numbers are no more than these. -/
theorem countP_le {s : Limiter} (h : Sound s) (b : Bucket) (numbers : List Nat)
    {p : Answer → Bool} (hp : ∀ a ∈ s.answers, p a = true → a.bucket = b ∧
      ∃ used ∈ numbers, a.used = some used) : s.answers.countP p ≤ numbers.length := by
  rw [List.countP_eq_length_filter]
  have hfilter : ∀ a ∈ s.answers.filter p, a.bucket = b ∧ ∃ used ∈ numbers, a.used = some used :=
    fun a ha => hp a (List.mem_filter.1 ha).1 (List.mem_filter.1 ha).2
  have hdiffer : (s.answers.filter p).Pairwise Differ := h.distinct.filter p
  have hnodup : ((s.answers.filter p).map (·.used)).Nodup := by
    refine List.pairwise_map.2 (hdiffer.imp_of_mem fun {a a'} ha ha' hne => ?_)
    obtain ⟨hb, used, -, hused⟩ := hfilter a ha
    exact hne (hb.trans (hfilter a' ha').1.symm) (by rw [hused]; exact Option.some_ne_none used)
  have hsubset : (s.answers.filter p).map (·.used) ⊆ numbers.map some := by
    intro u hu
    obtain ⟨a, ha, rfl⟩ := List.mem_map.1 hu
    obtain ⟨-, used, hin, hused⟩ := hfilter a ha
    rw [hused]
    exact List.mem_map_of_mem hin
  have hle := (List.subperm_of_subset hnodup hsubset).length_le
  rwa [List.length_map, List.length_map] at hle

/-- An answer that was counted and let through was counted as one of the limit. -/
theorem used_of_passed {s : Limiter} (h : Sound s) {a : Answer} (ha : a ∈ s.answers)
    (hp : a.passed = true) : ∃ used ∈ List.range' 1 a.bucket.limit, a.used = some used := by
  obtain ⟨hcounted, hallowed⟩ := Bool.and_eq_true_iff.1 hp
  obtain ⟨used, hused⟩ := Option.isSome_iff_exists.1 hcounted
  have htold := h.told a ha
  have hverdict := htold.verdict
  have hpos := (htold.counted used hused).1
  rw [hused] at hverdict
  rw [hverdict] at hallowed
  have hle : used ≤ a.bucket.limit := of_decide_eq_true hallowed
  exact ⟨used, List.mem_range'_1.2 ⟨hpos, by omega⟩, hused⟩

/-- In a run whose commands are counted within their windows, no more calls of a bucket are
    counted and let through than the limit says, one at most is told that it is the first
    refused, and a call is refused only behind as many commands of its bucket. -/
theorem bucket_within_limit (h : Reach RateWorld.Init RateWorld.Step RateWorld.InTime w)
    (b : Bucket) :
    (answersOf w b).countP Answer.passed ≤ b.limit ∧
      (answersOf w b).countP (fun a => a.verdict.firstRefusal) ≤ 1 ∧
      ∀ a ∈ answersOf w b, a.verdict.allowed = false → b.limit < w.shared.counted b := by
  have hsound := sound h
  unfold answersOf
  rw [List.countP_filter, List.countP_filter]
  refine ⟨?_, ?_, fun a ha hrefused => ?_⟩
  · have hle := countP_le hsound b (List.range' 1 b.limit)
      (p := fun a => a.passed && decide (a.bucket = b)) fun a ha hp => ?_
    · rwa [List.length_range'] at hle
    · obtain ⟨hpassed, hb⟩ := Bool.and_eq_true_iff.1 hp
      have hb := of_decide_eq_true hb
      have hused := used_of_passed hsound ha hpassed
      rw [hb] at hused
      exact ⟨hb, hused⟩
  · refine countP_le hsound b [b.limit + 1] fun a ha hp => ?_
    obtain ⟨hfirst, hb⟩ := Bool.and_eq_true_iff.1 hp
    have hb := of_decide_eq_true hb
    have hverdict := (hsound.told a ha).verdict
    cases hused : a.used with
    | none =>
        rw [hused] at hverdict
        rw [hverdict] at hfirst
        cases hfirst
    | some used =>
        rw [hused] at hverdict
        rw [hverdict] at hfirst
        have heq : used = a.bucket.limit + 1 := of_decide_eq_true hfirst
        rw [hb] at heq
        exact ⟨hb, used, by rw [heq]; exact List.mem_singleton_self _, rfl⟩
  · obtain ⟨hmem, hb⟩ := List.mem_filter.1 ha
    have hb := of_decide_eq_true hb
    have htold := hsound.told a hmem
    have hverdict := htold.verdict
    cases hused : a.used with
    | none =>
        rw [hused] at hverdict
        rw [hverdict] at hrefused
        cases hrefused
    | some used =>
        rw [hused] at hverdict
        rw [hverdict] at hrefused
        have hlimit : ¬ used ≤ a.bucket.limit := of_decide_eq_false hrefused
        have hcounted := (htold.counted used hused).2
        rw [hb] at hlimit hcounted
        omega

/-- Six calls of one subject, one after another. -/
def sixCalls : List (RateMove Nat) :=
  (List.range 6).flatMap fun i => [.ask i .EVENT_CREATE ['u'], .count i, .answer i]

def nobodyCalling : RateWorld Nat := ⟨⟨fun _ => none, 0, [], [], fun _ => 0⟩, fun _ => none⟩

def isInTime (w : RateWorld ι) (m : RateMove ι) : Bool :=
  (w.counts m).all fun b => w.shared.clock < b.endsAt

theorem reach_sixCalls :
    ∃ w : RateWorld Nat, Reach RateWorld.Init RateWorld.Step RateWorld.InTime w ∧
      w.shared.answers.map (fun a => (a.verdict.allowed, a.verdict.firstRefusal)) =
        List.replicate 5 (true, false) ++ [(false, true)] := by
  have hplay : (runList RateWorld.exec nobodyCalling sixCalls).any (fun w =>
      decide (w.shared.answers.map (fun a => (a.verdict.allowed, a.verdict.firstRefusal)) =
        List.replicate 5 (true, false) ++ [(false, true)])) = true := by decide +kernel
  obtain ⟨w, hrun, hanswers⟩ := (Option.any_eq_true _ _).1 hplay
  refine ⟨w, reach_of_runList (g := isInTime) (fun _ _ _ h => h) (fun w m h b hb => ?_)
    (.start ⟨fun _ => rfl, rfl, rfl, fun _ => rfl, fun _ => rfl⟩) (by decide +kernel) hrun,
    of_decide_eq_true hanswers⟩
  unfold isInTime at h
  rw [hb] at h
  exact of_decide_eq_true h

theorem bucket_within_limit_six : ∃ w : RateWorld Nat,
    w.shared.answers.map (fun a => (a.verdict.allowed, a.verdict.firstRefusal)) =
      List.replicate 5 (true, false) ++ [(false, true)] ∧
    (answersOf w (bucketAt .EVENT_CREATE ['u'] 0)).countP Answer.passed ≤ 5 := by
  obtain ⟨w, hw, hanswers⟩ := reach_sixCalls
  exact ⟨w, hanswers, (bucket_within_limit hw (bucketAt .EVENT_CREATE ['u'] 0)).1⟩

/-- In any stretch as long as a window, which may reach into two, no more calls of a subject
    are counted and let through than twice the limit. -/
theorem stretch_within_twice (h : Reach RateWorld.Init RateWorld.Step RateWorld.InTime w)
    (endpointClass : RateLimitClass) (subject : List Char) (from_ : Nat) :
    w.shared.answers.countP (fun a => a.passed &&
      decide (a.bucket.endpointClass = endpointClass ∧ a.bucket.subject = subject ∧
        from_ ≤ a.askedAt ∧
        a.askedAt < from_ + (RATE_LIMITS endpointClass).windowSeconds * 1000)) ≤
      2 * (RATE_LIMITS endpointClass).limit := by
  have hsound := sound h
  have hpos := (limits_pos endpointClass).2
  let first := bucketAt endpointClass subject from_
  let second : Bucket := ⟨endpointClass, subject, first.window + 1⟩
  have hboth : ∀ b : Bucket, b.endpointClass = endpointClass →
      w.shared.answers.countP (fun a => a.passed && decide (a.bucket = b)) ≤
        (RATE_LIMITS endpointClass).limit := by
    intro b hb
    have hle := (bucket_within_limit h b).1
    unfold answersOf at hle
    rw [List.countP_filter] at hle
    rwa [← hb]
  have hfirst := hboth first rfl
  have hsecond := hboth second rfl
  have hsum : w.shared.answers.countP (fun a => a.passed &&
      decide (a.bucket.endpointClass = endpointClass ∧ a.bucket.subject = subject ∧
        from_ ≤ a.askedAt ∧
        a.askedAt < from_ + (RATE_LIMITS endpointClass).windowSeconds * 1000)) ≤
      w.shared.answers.countP (fun a => a.passed && decide (a.bucket = first)) +
        w.shared.answers.countP (fun a => a.passed && decide (a.bucket = second)) := by
    refine countP_le_add fun a ha hp => ?_
    obtain ⟨hpassed, hin⟩ := Bool.and_eq_true_iff.1 hp
    obtain ⟨hclass, hsubject, hlow, hhigh⟩ := of_decide_eq_true hin
    have hasked := (hsound.told a ha).asked
    rw [hclass, hsubject] at hasked
    have hwindow : a.bucket.window = first.window ∨ a.bucket.window = first.window + 1 := by
      have hat : a.bucket.window =
          a.askedAt / (1000 * (RATE_LIMITS endpointClass).windowSeconds) := by
        rw [hasked, ← Nat.div_div_eq_div_mul]
        rfl
      have hfrom : first.window =
          from_ / (1000 * (RATE_LIMITS endpointClass).windowSeconds) := by
        rw [← Nat.div_div_eq_div_mul]
        rfl
      have hle := Nat.div_le_div_right (c := 1000 * (RATE_LIMITS endpointClass).windowSeconds) hlow
      have hge : a.askedAt / (1000 * (RATE_LIMITS endpointClass).windowSeconds) ≤
          (from_ + 1000 * (RATE_LIMITS endpointClass).windowSeconds) /
            (1000 * (RATE_LIMITS endpointClass).windowSeconds) :=
        Nat.div_le_div_right (by rw [Nat.mul_comm 1000]; omega)
      rw [Nat.add_div_right _ (by omega)] at hge
      omega
    rcases hwindow with hsame | hnext
    · refine .inl (Bool.and_eq_true_iff.2 ⟨hpassed, decide_eq_true ?_⟩)
      rw [hasked] at hsame ⊢
      exact congrArg (Bucket.mk endpointClass subject) hsame
    · refine .inr (Bool.and_eq_true_iff.2 ⟨hpassed, decide_eq_true ?_⟩)
      rw [hasked] at hnext ⊢
      exact congrArg (Bucket.mk endpointClass subject) hnext
  omega

theorem stretch_within_twice_six : ∃ w : RateWorld Nat,
    w.shared.answers.length = 6 ∧
    w.shared.answers.countP (fun a => a.passed &&
      decide (a.bucket.endpointClass = .EVENT_CREATE ∧ a.bucket.subject = ['u'] ∧
        0 ≤ a.askedAt ∧ a.askedAt < 0 + 86400 * 1000)) ≤ 2 * 5 := by
  obtain ⟨w, hw, hanswers⟩ := reach_sixCalls
  have hlength := congrArg List.length hanswers
  rw [List.length_map] at hlength
  exact ⟨w, hlength, stretch_within_twice hw .EVENT_CREATE ['u'] 0⟩

end Told

/-! ## Nobody is stranded -/

section Stranded

variable {ι : Type} [DecidableEq ι] {w w' : RateWorld ι} {m : RateMove ι}

/-- A move leaves the counters alone, or counts a command of one bucket; time goes on. -/
theorem step_redis (hs : w.Step m w') :
    w.shared.clock ≤ w'.shared.clock ∧
      (w'.shared.redis = w.shared.redis ∨ ∃ b, w.counts m = some b ∧
        w'.shared.redis = w.shared.redis.incr w.shared.clock b.key b.windowSeconds) := by
  cases m with
  | tick now =>
      simp only [RateWorld.Step, RateWorld.exec] at hs
      split at hs
      · next hle =>
          obtain rfl := Option.some.inj hs
          exact ⟨hle, .inl rfl⟩
      · cases hs
  | ask i endpointClass subject =>
      simp only [RateWorld.Step, RateWorld.exec] at hs
      split at hs
      · obtain rfl := Option.some.inj hs
        exact ⟨Nat.le_refl _, .inl rfl⟩
      · cases hs
  | count i =>
      simp only [RateWorld.Step, RateWorld.exec] at hs
      split at hs
      · next b askedAt hl =>
          obtain rfl := Option.some.inj hs
          exact ⟨Nat.le_refl _, .inr ⟨b, by simp [RateWorld.counts, hl], rfl⟩⟩
      · cases hs
  | answer i =>
      simp only [RateWorld.Step, RateWorld.exec] at hs
      split at hs
      · obtain rfl := Option.some.inj hs
        exact ⟨Nat.le_refl _, .inl rfl⟩
      · cases hs
  | giveUp i =>
      simp only [RateWorld.Step, RateWorld.exec] at hs
      split at hs
      · obtain rfl := Option.some.inj hs
        exact ⟨Nat.le_refl _, .inl rfl⟩
      · obtain rfl := Option.some.inj hs
        exact ⟨Nat.le_refl _, .inl rfl⟩
      · cases hs
  | late k =>
      obtain ⟨b, hb, rfl⟩ := Option.map_eq_some_iff.1 hs
      exact ⟨Nat.le_refl _, .inr ⟨b, hb, rfl⟩⟩
  | lose k =>
      obtain rfl := Option.some.inj hs
      exact ⟨Nat.le_refl _, .inl rfl⟩

/-- A command of another bucket does not touch the counter. -/
theorem incr_other {redis : Redis} {b c : Bucket} (h : c ≠ b) (now seconds : Nat) :
    redis.incr now c.key seconds b.key = redis b.key :=
  Function.update_of_ne (fun heq => h (key_injective heq).symm) ..

/-- Every counter is gone a window from now. -/
def Expiring (w : RateWorld ι) : Prop :=
  ∀ (b : Bucket) (counter : Counter), w.shared.redis b.key = some counter →
    counter.expiresAt ≤ w.shared.clock + b.windowSeconds * 1000

theorem Expiring.step (h : Expiring w) (hs : w.Step m w') : Expiring w' := by
  intro b counter hkey
  obtain ⟨hclock, hsame | ⟨c, -, hincr⟩⟩ := step_redis hs
  · rw [hsame] at hkey
    have hexpires := h b counter hkey
    omega
  · rw [hincr] at hkey
    by_cases hc : c = b
    · rw [hc, Redis.incr, Function.update_self] at hkey
      obtain rfl := Option.some.inj hkey
      show w.shared.clock + b.windowSeconds * 1000 ≤ _
      omega
    · rw [incr_other hc] at hkey
      have hexpires := h b counter hkey
      omega

/-- From whatever state, once no command of a bucket was counted for as long as its window, the
    bucket is empty, and the next call counted is let through. -/
theorem never_stranded (h : Reachable RateWorld.Init RateWorld.Step w) (b : Bucket)
    (hrest : Reach (· = w) RateWorld.Step (RateWorld.Spares b) w')
    (hlong : w.shared.clock + b.windowSeconds * 1000 ≤ w'.shared.clock) :
    w'.shared.redis.live w'.shared.clock b.key = 0 ∧
      (countedVerdict b w'.shared.clock
        (w'.shared.redis.live w'.shared.clock b.key + 1)).allowed = true := by
  have hexpiring : Expiring w := by
    refine h.invariant (I := Expiring) (fun w hinit b counter hkey => ?_)
      fun _ _ _ hI _ hs => hI.step hs
    rw [hinit.1] at hkey
    cases hkey
  have hsame : w'.shared.redis b.key = w.shared.redis b.key := by
    refine hrest.invariant (I := fun v => v.shared.redis b.key = w.shared.redis b.key)
      (fun v hv => by rw [hv]) fun v m v' hI hg hs => ?_
    obtain ⟨-, hredis | ⟨c, hc, hincr⟩⟩ := step_redis hs
    · rw [hredis, hI]
    · have hne : c ≠ b := fun heq => hg (heq ▸ hc)
      rw [hincr, incr_other hne, hI]
  have hempty : w'.shared.redis.live w'.shared.clock b.key = 0 := by
    unfold Redis.live
    rw [hsame]
    cases hkey : w.shared.redis b.key with
    | none => rfl
    | some counter =>
        have hexpires := hexpiring b counter hkey
        exact if_neg (by omega)
  refine ⟨hempty, ?_⟩
  rw [hempty]
  exact decide_eq_true (limits_pos b.endpointClass).1

theorem never_stranded_next : ∃ w w' : RateWorld Nat,
    w.shared.answers.map (·.verdict.allowed) = [true, true, true, true, true, false] ∧
    w'.shared.redis.live w'.shared.clock (bucketAt .EVENT_CREATE ['u'] 0).key = 0 := by
  obtain ⟨w, hw, hanswers⟩ := reach_sixCalls
  have hallowed := congrArg (List.map Prod.fst) hanswers
  rw [List.map_map] at hallowed
  have hlater : w.shared.clock ≤ w.shared.clock + 86400 * 1000 := Nat.le_add_right _ _
  refine ⟨w, _, hallowed, (never_stranded hw.reachable (bucketAt .EVENT_CREATE ['u'] 0)
    (.next (i := .tick (w.shared.clock + 86400 * 1000)) (.start rfl)
      (by simp [RateWorld.Spares, RateWorld.counts]) (if_pos hlater)) (Nat.le_refl _)).1⟩

end Stranded

end RateLimit

end Paayatam
