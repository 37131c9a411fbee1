/-
  Paayatam.Identity.Session

  `SessionService`: refresh tokens in a store whose keys expire.

  A refresh reads the token's record, asks whether its family was revoked, marks
  the record used, and mints the replacement later: four commands, between which
  anything may happen.  The mark of a revoked family expires like any other key.
-/

import Paayatam.Lib.System
import Paayatam.Lib.Threads
import Paayatam.Types

namespace Paayatam

open Lib

namespace Session

abbrev Token := Nat
abbrev FamilyId := Nat

structure RefreshRecord where
  userPublicId : UserId
  familyId : FamilyId
  used : Bool

/-- The keys with the instants they expire at; and, beside them, the family each token was
    minted in, the tokens that were accepted, and the families that were revoked. -/
structure SessionStore where
  clock : Instant
  refresh : Token → Option (RefreshRecord × Instant)
  revokedFamily : FamilyId → Option Instant
  nextToken : Token
  nextFamily : FamilyId
  familyOf : Token → Option FamilyId
  accepted : List Token
  revoked : List FamilyId

namespace SessionStore

/-- `GET`: the record, while it has not expired. -/
def get (s : SessionStore) (t : Token) : Option RefreshRecord :=
  match s.refresh t with
  | some (record, expiry) => if s.clock < expiry then some record else none
  | none => none

/-- `EXISTS`. -/
def isFamilyRevoked (s : SessionStore) (familyId : FamilyId) : Bool :=
  (s.revokedFamily familyId).any fun expiry => decide (s.clock < expiry)

def revokeFamily (ttl : Nat) (s : SessionStore) (familyId : FamilyId) : SessionStore :=
  { s with
    revokedFamily := Function.update s.revokedFamily familyId (some (s.clock + ttl))
    revoked := familyId :: s.revoked }

/-- A new token of the family. -/
def mint (ttl : Nat) (s : SessionStore) (userPublicId : UserId) (familyId : FamilyId) :
    SessionStore :=
  { s with
    refresh := Function.update s.refresh s.nextToken
      (some (⟨userPublicId, familyId, false⟩, s.clock + ttl))
    familyOf := Function.update s.familyOf s.nextToken (some familyId)
    nextToken := s.nextToken + 1 }

/-- `issue` at login: a new family. -/
def issue (ttl : Nat) (s : SessionStore) (userPublicId : UserId) : SessionStore :=
  { s.mint ttl userPublicId s.nextFamily with nextFamily := s.nextFamily + 1 }

/-- The record is kept, marked used, for as long again. -/
def markUsed (ttl : Nat) (s : SessionStore) (t : Token) (record : RefreshRecord) : SessionStore :=
  { s with
    refresh := Function.update s.refresh t (some ({ record with used := true }, s.clock + ttl))
    accepted := t :: s.accepted }

end SessionStore

/-! ## Refreshes at work -/

/-- How far a refresh has come. -/
inductive RefreshWork where
  /-- The record was found. -/
  | read (t : Token) (record : RefreshRecord)
  /-- Its family was not revoked. -/
  | live (t : Token) (record : RefreshRecord)
  /-- The token is consumed; the replacement is still to be minted. -/
  | consumed (userPublicId : UserId) (familyId : FamilyId)

inductive SessionMove (ι : Type) where
  | tick (now : Instant)
  | login (userPublicId : UserId)
  | present (i : ι) (t : Token)
  | check (i : ι)
  | consume (i : ι)
  | mint (i : ι)
  | revokeFamily (familyId : FamilyId)
  /-- Gone, or the user may not have another. -/
  | abort (i : ι)

abbrev SessionWorld (ι : Type) := Threads ι SessionStore (Option RefreshWork)

namespace SessionWorld

variable {ι : Type} [DecidableEq ι]

def exec (ttl : Nat) (w : SessionWorld ι) : SessionMove ι → Option (SessionWorld ι)
  | .tick now =>
    if w.shared.clock ≤ now then some { w with shared := { w.shared with clock := now } } else none
  | .login userPublicId => some { w with shared := w.shared.issue ttl userPublicId }
  | .present i t =>
    match w.locals i, w.shared.get t with
    | none, some record => some (w.set i w.shared (some (.read t record)))
    | none, none => some (w.set i w.shared none)
    | some _, _ => none
  | .check i =>
    match w.locals i with
    | some (.read t record) =>
      if w.shared.isFamilyRevoked record.familyId = true then some (w.set i w.shared none)
      else some (w.set i w.shared (some (.live t record)))
    | _ => none
  | .consume i =>
    match w.locals i with
    | some (.live t record) =>
      if record.used = true then some (w.set i (w.shared.revokeFamily ttl record.familyId) none)
      else some (w.set i (w.shared.markUsed ttl t record)
        (some (.consumed record.userPublicId record.familyId)))
    | _ => none
  | .mint i =>
    match w.locals i with
    | some (.consumed userPublicId familyId) =>
      some (w.set i (w.shared.mint ttl userPublicId familyId) none)
    | _ => none
  | .revokeFamily familyId =>
    if familyId < w.shared.nextFamily then
      some { w with shared := w.shared.revokeFamily ttl familyId }
    else none
  | .abort i => some (w.set i w.shared none)

def Step (ttl : Nat) (w : SessionWorld ι) (m : SessionMove ι) (w' : SessionWorld ι) : Prop :=
  w.exec ttl m = some w'

def Init (w : SessionWorld ι) : Prop :=
  (∀ t, w.shared.refresh t = none) ∧ (∀ t, w.shared.familyOf t = none) ∧
    (∀ f, w.shared.revokedFamily f = none) ∧ w.shared.accepted = [] ∧ w.shared.revoked = [] ∧
    ∀ i, w.locals i = none

end SessionWorld

/-- The refresh has asked whether this family was revoked, and was told it was not. -/
def RefreshWork.trusts (familyId : FamilyId) : RefreshWork → Prop
  | .read _ _ => False
  | .live _ record => record.familyId = familyId
  | .consumed _ f => f = familyId

/-- The refresh is consuming this token. -/
def RefreshWork.holds (t : Token) : RefreshWork → Prop
  | .read t' _ => t' = t
  | .live t' _ => t' = t
  | .consumed _ _ => False

/-- Presentations of a token do not overlap, and come while its record is kept; and no
    family is revoked while a refresh relies on its not being. -/
def SessionWorld.Apart {ι : Type} (w : SessionWorld ι) : SessionMove ι → Prop
  | .present _ t => (∀ j work, w.locals j = some work → ¬ work.holds t) ∧
      (t ∈ w.shared.accepted → (w.shared.get t).isSome = true)
  | .check i => ∀ t record, w.locals i = some (.read t record) → (w.shared.get t).isSome = true
  | .consume i => ∀ t record, w.locals i = some (.live t record) → record.used = true →
      ∀ j work, j ≠ i → w.locals j = some work → ¬ work.trusts record.familyId
  | .revokeFamily f => ∀ j work, w.locals j = some work → ¬ work.trusts f
  | _ => True

/-! ## What is accepted and what is refused -/

section Runs

variable {ι : Type} [DecidableEq ι] {w w' : SessionWorld ι} {m : SessionMove ι} {i j : ι}
  {ttl : Nat} {s s' : SessionStore} {t : Token} {f : FamilyId} {record : RefreshRecord}

/-- The step accepts the token. -/
inductive Accepts (w : SessionWorld ι) : SessionMove ι → Token → Prop
  | consume {i : ι} {t : Token} {record : RefreshRecord}
      (hl : w.locals i = some (.live t record)) (hused : record.used = false) :
      Accepts w (.consume i) t

/-- The step refuses the token. -/
inductive Refuses (w : SessionWorld ι) : SessionMove ι → Token → Prop
  | present {i : ι} {t : Token} (hnone : w.shared.get t = none) : Refuses w (.present i t) t
  | check {i : ι} {t : Token} {record : RefreshRecord}
      (hl : w.locals i = some (.read t record))
      (hrevoked : w.shared.isFamilyRevoked record.familyId = true) : Refuses w (.check i) t
  | consume {i : ι} {t : Token} {record : RefreshRecord}
      (hl : w.locals i = some (.live t record)) (hused : record.used = true) :
      Refuses w (.consume i) t

/-- What is accepted was not before, and its family is not revoked; where a token that was
    accepted is refused, its family is. -/
def TokenStep (x : SessionWorld ι × SessionMove ι × SessionWorld ι) : Prop :=
  (∀ t, Accepts x.1 x.2.1 t → t ∉ x.1.shared.accepted ∧
    ∀ f, x.1.shared.familyOf t = some f → f ∉ x.1.shared.revoked) ∧
  ∀ t, Refuses x.1 x.2.1 t → t ∈ x.1.shared.accepted →
    ∃ f, x.1.shared.familyOf t = some f ∧ f ∈ x.2.2.shared.revoked

/-! ## What holds between moves -/

/-- What holds of the keys: records belong to their families and outlive no mark. -/
structure StoreSound (ttl : Nat) (s : SessionStore) : Prop where
  fresh : ∀ t, s.nextToken ≤ t → s.refresh t = none ∧ t ∉ s.accepted ∧ s.familyOf t = none
  family : ∀ t record expiry, s.refresh t = some (record, expiry) →
    s.familyOf t = some record.familyId ∧ record.familyId < s.nextFamily
  expiry : ∀ t record expiry, s.refresh t = some (record, expiry) → expiry ≤ s.clock + ttl
  unused : ∀ t record expiry, s.refresh t = some (record, expiry) → record.used = false →
    t ∉ s.accepted
  nodup : s.accepted.Nodup
  issued : ∀ f ∈ s.revoked, f < s.nextFamily
  marked : ∀ f expiry, s.revokedFamily f = some expiry → f ∈ s.revoked
  outlived : ∀ f ∈ s.revoked, ∃ mark, s.revokedFamily f = some mark ∧
    ∀ t record expiry, s.refresh t = some (record, expiry) → record.familyId = f → expiry ≤ mark

/-- What a refresh has found is still so. -/
def RefreshWork.Good (s : SessionStore) : RefreshWork → Prop
  | .read t record => s.familyOf t = some record.familyId ∧ record.familyId < s.nextFamily ∧
      (record.used = false → t ∉ s.accepted)
  | .live t record => s.familyOf t = some record.familyId ∧ record.familyId < s.nextFamily ∧
      (record.used = false → t ∉ s.accepted) ∧ record.familyId ∉ s.revoked
  | .consumed _ f => f < s.nextFamily ∧ f ∉ s.revoked

structure SessionSound (ttl : Nat) (w : SessionWorld ι) : Prop where
  store : StoreSound ttl w.shared
  good : ∀ i work, w.locals i = some work → work.Good w.shared
  alone : ∀ i j work work' t, w.locals i = some work → w.locals j = some work' →
    work.holds t → work'.holds t → i = j

/-- What a refresh relies on, a change of the store may keep. -/
structure Relied (work : RefreshWork) (s s' : SessionStore) : Prop where
  family : ∀ t f, s.familyOf t = some f → s'.familyOf t = some f
  issued : s.nextFamily ≤ s'.nextFamily
  accepted : ∀ t, work.holds t → t ∈ s'.accepted → t ∈ s.accepted
  revoked : ∀ f, work.trusts f → f ∈ s'.revoked → f ∈ s.revoked

theorem RefreshWork.Good.relied {work : RefreshWork} (h : work.Good s) (hr : Relied work s s') :
    work.Good s' := by
  cases work with
  | read t record =>
      obtain ⟨hfamily, hissued, hunused⟩ := h
      exact ⟨hr.family _ _ hfamily, Nat.lt_of_lt_of_le hissued hr.issued,
        fun hu hmem => hunused hu (hr.accepted t rfl hmem)⟩
  | live t record =>
      obtain ⟨hfamily, hissued, hunused, hrevoked⟩ := h
      exact ⟨hr.family _ _ hfamily, Nat.lt_of_lt_of_le hissued hr.issued,
        fun hu hmem => hunused hu (hr.accepted t rfl hmem),
        fun hmem => hrevoked (hr.revoked _ rfl hmem)⟩
  | consumed u f =>
      exact ⟨Nat.lt_of_lt_of_le h.1 hr.issued, fun hmem => h.2 (hr.revoked _ rfl hmem)⟩

/-- One refresh moves on, and leaves the others what they rely on. -/
theorem SessionSound.set (h : SessionSound ttl w) {l : Option RefreshWork}
    (hstore : StoreSound ttl s)
    (hothers : ∀ j work, j ≠ i → w.locals j = some work → Relied work w.shared s)
    (hgood : ∀ work, l = some work → work.Good s)
    (halone : ∀ work t, l = some work → work.holds t →
      ∀ j work', j ≠ i → w.locals j = some work' → ¬ work'.holds t) :
    SessionSound ttl (w.set i s l) where
  store := hstore
  good j work hj := by
    by_cases hji : j = i
    · subst hji
      rw [Threads.set_locals_self] at hj
      exact hgood work hj
    · rw [Threads.set_locals_ne hji] at hj
      exact (h.good j work hj).relied (hothers j work hji hj)
  alone j k work work' t hj hk hholds hholds' := by
    by_cases hji : j = i
    · by_cases hki : k = i
      · exact hji.trans hki.symm
      · subst hji
        rw [Threads.set_locals_self] at hj
        rw [Threads.set_locals_ne hki] at hk
        exact absurd hholds' (halone work t hj hholds k work' hki hk)
    · rw [Threads.set_locals_ne hji] at hj
      by_cases hki : k = i
      · subst hki
        rw [Threads.set_locals_self] at hk
        exact absurd hholds (halone work' t hk hholds' j work hji hj)
      · rw [Threads.set_locals_ne hki] at hk
        exact h.alone j k work work' t hj hk hholds hholds'

/-! ## The commands -/

theorem Relied.refl (work : RefreshWork) (s : SessionStore) : Relied work s s :=
  ⟨fun _ _ h => h, Nat.le_refl _, fun _ _ h => h, fun _ _ h => h⟩

theorem get_eq_some : s.get t = some record ↔
    ∃ expiry, s.refresh t = some (record, expiry) ∧ s.clock < expiry := by
  unfold SessionStore.get
  cases h : s.refresh t with
  | none => simp
  | some p =>
      obtain ⟨r, x⟩ := p
      simp only [Option.some.injEq, Prod.mk.injEq]
      split
      · next hlt =>
          constructor
          · rintro ⟨rfl⟩
            exact ⟨x, ⟨rfl, rfl⟩, hlt⟩
          · rintro ⟨_, ⟨rfl, -⟩, -⟩
            rfl
      · next hlt =>
          constructor
          · nofun
          · rintro ⟨_, ⟨-, rfl⟩, hlt'⟩
            exact absurd hlt' hlt

theorem StoreSound.mint (h : StoreSound ttl s) {u : UserId} (hissued : f < s.nextFamily)
    (hrevoked : f ∉ s.revoked) : StoreSound ttl (s.mint ttl u f) := by
  have hrow : ∀ t record expiry, (s.mint ttl u f).refresh t = some (record, expiry) →
      (t = s.nextToken ∧ record = ⟨u, f, false⟩ ∧ expiry = s.clock + ttl) ∨
        (t ≠ s.nextToken ∧ s.refresh t = some (record, expiry)) := by
    intro t record expiry ht
    by_cases hnew : t = s.nextToken
    · subst hnew
      simp only [SessionStore.mint, Function.update_self, Option.some.injEq, Prod.mk.injEq] at ht
      exact .inl ⟨rfl, ht.1.symm, ht.2.symm⟩
    · simp only [SessionStore.mint, Function.update_of_ne hnew] at ht
      exact .inr ⟨hnew, ht⟩
  refine ⟨fun t ht => ?_, fun t r x hr => ?_, fun t r x hr => ?_, fun t r x hr hu => ?_, h.nodup,
    h.issued, h.marked, fun f' hf' => ?_⟩
  · have hlt : s.nextToken < t := ht
    have hne : t ≠ s.nextToken := Nat.ne_of_gt hlt
    obtain ⟨hnone, hacc, hfam⟩ := h.fresh t (Nat.le_of_lt hlt)
    exact ⟨(Function.update_of_ne hne _ _).trans hnone, hacc,
      (Function.update_of_ne hne _ _).trans hfam⟩
  · show Function.update s.familyOf _ _ t = _ ∧ _
    rcases hrow t r x hr with ⟨rfl, rfl, -⟩ | ⟨hne, hold⟩
    · rw [Function.update_self]
      exact ⟨rfl, hissued⟩
    · rw [Function.update_of_ne hne]
      exact h.family t r x hold
  · rcases hrow t r x hr with ⟨-, -, rfl⟩ | ⟨-, hold⟩
    · exact Int.le_refl _
    · exact h.expiry t r x hold
  · rcases hrow t r x hr with ⟨rfl, -, -⟩ | ⟨-, hold⟩
    · exact (h.fresh _ (Nat.le_refl _)).2.1
    · exact h.unused t r x hold hu
  · obtain ⟨mark, hmark, hout⟩ := h.outlived f' hf'
    refine ⟨mark, hmark, fun t r x hr hfam => ?_⟩
    rcases hrow t r x hr with ⟨-, rfl, -⟩ | ⟨-, hold⟩
    · obtain rfl : f = f' := hfam
      exact absurd hf' hrevoked
    · exact hout t r x hold hfam

theorem StoreSound.issue (h : StoreSound ttl s) {u : UserId} : StoreSound ttl (s.issue ttl u) := by
  have hwider : StoreSound ttl { s with nextFamily := s.nextFamily + 1 } :=
    ⟨h.fresh, fun t r x hr => ⟨(h.family t r x hr).1, Nat.lt_succ_of_lt (h.family t r x hr).2⟩,
      h.expiry, h.unused, h.nodup, fun f hf => Nat.lt_succ_of_lt (h.issued f hf), h.marked,
      h.outlived⟩
  have hnew : s.nextFamily ∉ s.revoked := fun hmem => Nat.lt_irrefl _ (h.issued _ hmem)
  exact hwider.mint (u := u) (Nat.lt_succ_self s.nextFamily) hnew

theorem StoreSound.revokeFamily (h : StoreSound ttl s) (hissued : f < s.nextFamily) :
    StoreSound ttl (s.revokeFamily ttl f) := by
  refine ⟨h.fresh, h.family, h.expiry, h.unused, h.nodup, fun f' hf' => ?_, fun f' x hx => ?_,
    fun f' hf' => ?_⟩
  · rcases List.mem_cons.1 hf' with rfl | hf'
    · exact hissued
    · exact h.issued f' hf'
  · by_cases hff : f' = f
    · exact hff ▸ List.mem_cons_self
    · have hx' : Function.update s.revokedFamily f _ f' = some x := hx
      rw [Function.update_of_ne hff] at hx'
      exact List.mem_cons_of_mem _ (h.marked f' x hx')
  · show ∃ mark, Function.update s.revokedFamily f _ f' = some mark ∧ _
    by_cases hff : f' = f
    · subst hff
      rw [Function.update_self]
      exact ⟨_, rfl, fun t r x hr _ => h.expiry t r x hr⟩
    · rw [Function.update_of_ne hff]
      exact h.outlived f' ((List.mem_cons.1 hf').resolve_left hff)

theorem StoreSound.markUsed (h : StoreSound ttl s) (hfamily : s.familyOf t = some record.familyId)
    (hissued : record.familyId < s.nextFamily) (hnew : t ∉ s.accepted)
    (hrevoked : record.familyId ∉ s.revoked) : StoreSound ttl (s.markUsed ttl t record) := by
  have hrow : ∀ t' r x, (s.markUsed ttl t record).refresh t' = some (r, x) →
      (t' = t ∧ r = { record with used := true } ∧ x = s.clock + ttl) ∨
        (t' ≠ t ∧ s.refresh t' = some (r, x)) := by
    intro t' r x ht'
    by_cases heq : t' = t
    · subst heq
      simp only [SessionStore.markUsed, Function.update_self, Option.some.injEq,
        Prod.mk.injEq] at ht'
      exact .inl ⟨rfl, ht'.1.symm, ht'.2.symm⟩
    · simp only [SessionStore.markUsed, Function.update_of_ne heq] at ht'
      exact .inr ⟨heq, ht'⟩
  have hold : t < s.nextToken := by
    by_contra hge
    rw [(h.fresh t (Nat.le_of_not_lt hge)).2.2] at hfamily
    cases hfamily
  refine ⟨fun t' ht' => ?_, fun t' r x hr => ?_, fun t' r x hr => ?_, fun t' r x hr hu => ?_,
    List.nodup_cons.2 ⟨hnew, h.nodup⟩, h.issued, h.marked, fun f' hf' => ?_⟩
  · have hlt : s.nextToken ≤ t' := ht'
    have hne : t' ≠ t := Nat.ne_of_gt (Nat.lt_of_lt_of_le hold hlt)
    obtain ⟨hnone, hacc, hfam⟩ := h.fresh t' hlt
    exact ⟨(Function.update_of_ne hne _ _).trans hnone,
      fun hmem => (List.mem_cons.1 hmem).elim hne hacc, hfam⟩
  · rcases hrow t' r x hr with ⟨rfl, rfl, -⟩ | ⟨-, hr⟩
    · exact ⟨hfamily, hissued⟩
    · exact h.family t' r x hr
  · rcases hrow t' r x hr with ⟨-, -, rfl⟩ | ⟨-, hr⟩
    · exact Int.le_refl _
    · exact h.expiry t' r x hr
  · rcases hrow t' r x hr with ⟨-, rfl, -⟩ | ⟨hne, hr⟩
    · cases hu
    · exact fun hmem => (List.mem_cons.1 hmem).elim hne (h.unused t' r x hr hu)
  · obtain ⟨mark, hmark, hout⟩ := h.outlived f' hf'
    refine ⟨mark, hmark, fun t' r x hr hfam => ?_⟩
    rcases hrow t' r x hr with ⟨-, rfl, -⟩ | ⟨-, hr⟩
    · obtain rfl : record.familyId = f' := hfam
      exact absurd hf' hrevoked
    · exact hout t' r x hr hfam

/-- A family whose record is kept and whose mark is not there was not revoked. -/
theorem StoreSound.not_revoked (h : StoreSound ttl s) (hfamily : s.familyOf t = some f)
    (hkept : (s.get t).isSome = true) (hmark : s.isFamilyRevoked f ≠ true) : f ∉ s.revoked := by
  intro hmem
  obtain ⟨mark, hm, hout⟩ := h.outlived f hmem
  obtain ⟨record, hget⟩ := Option.isSome_iff_exists.1 hkept
  obtain ⟨expiry, hrow, hlt⟩ := get_eq_some.1 hget
  have hfam : record.familyId = f := Option.some.inj ((h.family t _ _ hrow).1.symm.trans hfamily)
  apply hmark
  unfold SessionStore.isFamilyRevoked
  rw [hm]
  exact decide_eq_true (Int.lt_of_lt_of_le hlt (hout t record expiry hrow hfam))

theorem Relied.mint {work : RefreshWork} {u : UserId} (h : StoreSound ttl s) :
    Relied work s (s.mint ttl u f) where
  family t f' hf' := by
    refine (Function.update_of_ne ?_ _ _).trans hf'
    rintro rfl
    rw [(h.fresh _ (Nat.le_refl _)).2.2] at hf'
    cases hf'
  issued := Nat.le_refl _
  accepted _ _ h := h
  revoked _ _ h := h

theorem Relied.issue {work : RefreshWork} {u : UserId} (h : StoreSound ttl s) :
    Relied work s (s.issue ttl u) where
  family := (show Relied work s (s.mint ttl u s.nextFamily) from Relied.mint h).family
  issued := Nat.le_succ _
  accepted _ _ h := h
  revoked _ _ h := h

theorem Relied.revokeFamily {work : RefreshWork} (h : ¬ work.trusts f) :
    Relied work s (s.revokeFamily ttl f) where
  family _ _ h := h
  issued := Nat.le_refl _
  accepted _ _ h := h
  revoked f' htrusts hmem := by
    rcases List.mem_cons.1 hmem with rfl | hmem
    · exact absurd htrusts h
    · exact hmem

theorem Relied.markUsed {work : RefreshWork} (h : ¬ work.holds t) :
    Relied work s (s.markUsed ttl t record) where
  family _ _ h := h
  issued := Nat.le_refl _
  accepted t' hholds hmem := by
    rcases List.mem_cons.1 hmem with rfl | hmem
    · exact absurd hholds h
    · exact hmem
  revoked _ _ h := h

/-! ## Every run -/

omit [DecidableEq ι] in
/-- The others do not hold what this one holds. -/
theorem SessionSound.others (h : SessionSound ttl w) {work : RefreshWork}
    (hl : w.locals i = some work) (hholds : work.holds t) :
    ∀ j work', j ≠ i → w.locals j = some work' → ¬ work'.holds t :=
  fun j work' hj hl' hholds' => hj (h.alone j i work' work t hl' hl hholds' hholds)

theorem SessionSound.step (h : SessionSound ttl w) (hg : w.Apart m) (hs : w.Step ttl m w') :
    SessionSound ttl w' := by
  cases m with
  | tick now =>
      simp only [SessionWorld.Step, SessionWorld.exec] at hs
      split at hs
      · next hle =>
          obtain rfl := Option.some.inj hs
          have hs := h.store
          refine ⟨⟨hs.fresh, hs.family, fun t r x hr => ?_, hs.unused, hs.nodup, hs.issued,
            hs.marked, hs.outlived⟩, fun i work hl => ?_, h.alone⟩
          · have hold := hs.expiry t r x hr
            show x ≤ now + ttl
            exact Int.le_trans hold (Int.add_le_add_right hle _)
          · exact (h.good i work hl).relied ⟨fun _ _ h => h, Nat.le_refl _, fun _ _ h => h,
              fun _ _ h => h⟩
      · cases hs
  | login u =>
      obtain rfl := Option.some.inj hs
      exact ⟨h.store.issue, fun i work hl => (h.good i work hl).relied (.issue h.store), h.alone⟩
  | present i t =>
      simp only [SessionWorld.Step, SessionWorld.exec] at hs
      split at hs
      · next record hl hget =>
          obtain rfl := Option.some.inj hs
          obtain ⟨expiry, hrow, -⟩ := get_eq_some.1 hget
          obtain ⟨hfamily, hissued⟩ := h.store.family t record expiry hrow
          refine h.set h.store (fun _ work _ _ => .refl work _) (fun work hwork => ?_)
            fun work t' hwork hholds j work' _ hl' hholds' => ?_
          · obtain rfl := Option.some.inj hwork
            exact ⟨hfamily, hissued, h.store.unused t record expiry hrow⟩
          · obtain rfl := Option.some.inj hwork
            obtain rfl : t = t' := hholds
            exact hg.1 j work' hl' hholds'
      · obtain rfl := Option.some.inj hs
        exact h.set h.store (fun _ work _ _ => .refl work _) nofun nofun
      · cases hs
  | check i =>
      simp only [SessionWorld.Step, SessionWorld.exec] at hs
      split at hs
      · next t record hl =>
          split at hs
          · obtain rfl := Option.some.inj hs
            exact h.set h.store (fun _ work _ _ => .refl work _) nofun nofun
          · next hmark =>
              obtain rfl := Option.some.inj hs
              obtain ⟨hfamily, hissued, hunused⟩ := h.good i _ hl
              refine h.set h.store (fun _ work _ _ => .refl work _) (fun work hwork => ?_)
                fun work t' hwork hholds => ?_
              · obtain rfl := Option.some.inj hwork
                exact ⟨hfamily, hissued, hunused,
                  h.store.not_revoked hfamily (hg t record hl) hmark⟩
              · obtain rfl := Option.some.inj hwork
                exact h.others hl hholds
      · cases hs
  | consume i =>
      simp only [SessionWorld.Step, SessionWorld.exec] at hs
      split at hs
      · next t record hl =>
          obtain ⟨hfamily, hissued, hunused, hrevoked⟩ := h.good i _ hl
          split at hs
          · next hused =>
              obtain rfl := Option.some.inj hs
              refine h.set (h.store.revokeFamily hissued) (fun j work hj hl' => ?_) nofun nofun
              exact .revokeFamily (hg t record hl hused j work hj hl')
          · next hused =>
              obtain rfl := Option.some.inj hs
              have hnew := hunused (Bool.of_not_eq_true hused)
              refine h.set (h.store.markUsed hfamily hissued hnew hrevoked)
                (fun j work hj hl' => .markUsed (h.others hl rfl j work hj hl'))
                (fun work hwork => ?_) fun work t' hwork hholds => ?_
              · obtain rfl := Option.some.inj hwork
                exact ⟨hissued, hrevoked⟩
              · obtain rfl := Option.some.inj hwork
                exact hholds.elim
      · cases hs
  | mint i =>
      simp only [SessionWorld.Step, SessionWorld.exec] at hs
      split at hs
      · next u f hl =>
          obtain rfl := Option.some.inj hs
          obtain ⟨hissued, hrevoked⟩ := h.good i _ hl
          exact h.set (h.store.mint hissued hrevoked) (fun _ _ _ _ => .mint h.store) nofun nofun
      · cases hs
  | revokeFamily f =>
      simp only [SessionWorld.Step, SessionWorld.exec] at hs
      split at hs
      · next hissued =>
          obtain rfl := Option.some.inj hs
          exact ⟨h.store.revokeFamily hissued, fun i work hl =>
            (h.good i work hl).relied (.revokeFamily (hg i work hl)), h.alone⟩
      · cases hs
  | abort i =>
      obtain rfl := Option.some.inj hs
      exact h.set h.store (fun _ work _ _ => .refl work _) nofun nofun

omit [DecidableEq ι] in
theorem sessionSound_init (h : w.Init) : SessionSound ttl w := by
  obtain ⟨hrefresh, hfamily, hmarks, haccepted, hrevoked, hidle⟩ := h
  have hrow : ∀ t r x, w.shared.refresh t ≠ some (r, x) := fun t r x ht => by
    rw [hrefresh t] at ht
    cases ht
  refine ⟨⟨fun t _ => ⟨hrefresh t, by simp [haccepted], hfamily t⟩, fun t r x ht => ?_,
    fun t r x ht => ?_, fun t r x ht => ?_, by simp [haccepted], by simp [hrevoked],
    fun f x hf => ?_, by simp [hrevoked]⟩, fun i work hl => ?_, fun i j work work' t hl => ?_⟩
  · exact absurd ht (hrow t r x)
  · exact absurd ht (hrow t r x)
  · exact absurd ht (hrow t r x)
  · rw [hmarks f] at hf
    cases hf
  · rw [hidle i] at hl
    cases hl
  · rw [hidle i] at hl
    cases hl

theorem SessionSound.tokenStep (h : SessionSound ttl w) (hg : w.Apart m) (hs : w.Step ttl m w') :
    TokenStep (w, m, w') := by
  constructor
  · rintro t ⟨hl, hused⟩
    obtain ⟨hfamily, -, hunused, hrevoked⟩ := h.good _ _ hl
    refine ⟨hunused hused, fun f hf => ?_⟩
    rw [Option.some.inj (hf.symm.trans hfamily)]
    exact hrevoked
  · intro t hrefuses hmem
    cases hrefuses with
    | present hnone =>
        have hkept := hg.2 hmem
        rw [hnone] at hkept
        cases hkept
    | @check i t record hl hrevoked =>
        change w.locals i = some (.read t record) at hl
        change w.shared.isFamilyRevoked record.familyId = true at hrevoked
        obtain ⟨hfamily, -⟩ := h.good i _ hl
        simp only [SessionWorld.Step, SessionWorld.exec, hl, if_pos hrevoked] at hs
        obtain rfl := Option.some.inj hs
        obtain ⟨mark, hmark, -⟩ := (Option.any_eq_true _ _).1 hrevoked
        exact ⟨record.familyId, hfamily, h.store.marked _ mark hmark⟩
    | @consume i t record hl hused =>
        change w.locals i = some (.live t record) at hl
        obtain ⟨hfamily, -⟩ := h.good i _ hl
        simp only [SessionWorld.Step, SessionWorld.exec, hl, if_pos hused] at hs
        obtain rfl := Option.some.inj hs
        exact ⟨record.familyId, hfamily, List.mem_cons_self⟩

/-- Where presentations of a token do not overlap and come while its record is kept, and no
    family is revoked under a refresh that relies on it: every token is accepted once, a
    second presentation revokes, and no token of a revoked family is accepted. -/
theorem refresh_single_use {tr : List (SessionWorld ι × SessionMove ι × SessionWorld ι)}
    {w : SessionWorld ι} (ttl : Nat)
    (h : Run SessionWorld.Init (SessionWorld.Step ttl) SessionWorld.Apart tr w) :
    w.shared.accepted.Nodup ∧ ∀ x ∈ tr, TokenStep x := by
  have hsound : ∀ {v : SessionWorld ι},
      Reach SessionWorld.Init (SessionWorld.Step ttl) SessionWorld.Apart v → SessionSound ttl v :=
    fun hv => hv.invariant (I := SessionSound ttl) (fun _ => sessionSound_init)
      fun _ _ _ hI hg hs => hI.step hg hs
  exact ⟨(hsound h.reach).store.nodup, h.steps (P := fun w m w' => TokenStep (w, m, w'))
    fun w m w' hw hg hs => (hsound hw).tokenStep hg hs⟩

end Runs

/-! ## A token presented twice -/

def noSessions : SessionWorld Bool where
  shared := ⟨0, fun _ => none, fun _ => none, 0, 0, fun _ => none, [], []⟩
  locals _ := none

theorem noSessions_init : noSessions.Init :=
  ⟨fun _ => rfl, fun _ => rfl, fun _ => rfl, rfl, rfl, fun _ => rfl⟩

/-- A token is refreshed, and presented again: its family is revoked. -/
theorem refresh_single_use_replayed : ∃ w : SessionWorld Bool,
    w.shared.accepted.Nodup ∧ w.shared.accepted = [0] ∧ w.shared.revoked = [0] := by
  have h0 : Run SessionWorld.Init (SessionWorld.Step 100) SessionWorld.Apart [] noSessions :=
    .start noSessions_init
  have h1 := h0.next (i := SessionMove.login 1) trivial rfl
  have h2 := h1.next (i := SessionMove.present false 0)
    ⟨(by rintro (_ | _) work h <;> cases h), nofun⟩ rfl
  have h3 := h2.next (i := SessionMove.check false)
    (fun t record h => by obtain ⟨rfl, rfl⟩ := RefreshWork.read.inj (Option.some.inj h); rfl) rfl
  have h4 := h3.next (i := SessionMove.consume false)
    (fun t record h hused => by
      obtain ⟨rfl, rfl⟩ := RefreshWork.live.inj (Option.some.inj h)
      cases hused) rfl
  have h5 := h4.next (i := SessionMove.mint false) trivial rfl
  have h6 := h5.next (i := SessionMove.present true 0)
    ⟨(by rintro (_ | _) work h <;> cases h), fun _ => rfl⟩ rfl
  have h7 := h6.next (i := SessionMove.check true)
    (fun t record h => by obtain ⟨rfl, rfl⟩ := RefreshWork.read.inj (Option.some.inj h); rfl) rfl
  have h8 := h7.next (i := SessionMove.consume true)
    (fun t record _ _ => by
      rintro (_ | _) work hne h
      · cases h
      · exact absurd rfl hne) rfl
  exact ⟨_, (refresh_single_use 100 h8).1, rfl, rfl⟩

/-- Two presentations of one token that overlap are both accepted. -/
theorem refresh_accepted_twice :
    ¬ ∀ w : SessionWorld Bool, Reachable SessionWorld.Init (SessionWorld.Step 100) w →
      w.shared.accepted.Nodup := by
  intro h
  have h0 : Reachable SessionWorld.Init (SessionWorld.Step 100) noSessions :=
    .start noSessions_init
  have h1 := h0.next (i := SessionMove.login 1) trivial rfl
  have h2 := h1.next (i := SessionMove.present false 0) trivial rfl
  have h3 := h2.next (i := SessionMove.present true 0) trivial rfl
  have h4 := h3.next (i := SessionMove.check false) trivial rfl
  have h5 := h4.next (i := SessionMove.check true) trivial rfl
  have h6 := h5.next (i := SessionMove.consume false) trivial rfl
  have h7 := h6.next (i := SessionMove.consume true) trivial rfl
  have hnodup := h _ h7
  exact absurd hnodup (by decide)

end Session

end Paayatam
