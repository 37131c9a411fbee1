/-
  Paayatam.Identity.ProfileEdits

  Where an edit leaves the city and the district.

  Both calls resolve the two as a pair and write them as a pair, and no statement
  moves a district to another city, so a stored district belongs to the stored
  city whatever runs at once.  But an edit that names the district alone takes
  the city from a row it read without a lock and writes it back: it leaves the
  city as it was only while what it read still stands (`write_keeps_iff`).
-/

import Paayatam.Booking.EventCreation
import Paayatam.Identity.Completion

namespace Paayatam

open Lib

namespace Completion

/-! ## Pairs that belong together -/

/-- A city, and no district or one of its own. -/
def Belongs (cityOf : DistrictId → CityId) (cityId : CityId) (districtId : Option DistrictId) :
    Prop :=
  ∀ d, districtId = some d → cityOf d = cityId

/-- The catalogue has every district in the city it was created for.  Cities and districts
    come, close and reopen; no district moves. -/
def Places (cityOf : DistrictId → CityId) (catalog : Catalog) : Prop :=
  ∀ d row, catalog.district d = some row → row.cityId = cityOf d

/-- The catalogue a call reads, whatever it holds at that time. -/
def ProfileMove.Places {ι : Type} (cityOf : DistrictId → CityId) : ProfileMove ι → Prop
  | .read _ env _ => Completion.Places cityOf env.catalog
  | .update _ env _ _ _ _ _ => Completion.Places cityOf env.catalog
  | _ => True

/-- Every stored district belongs to the stored city. -/
def PairsPlaced (cityOf : DistrictId → CityId) (s : ProfileDb) : Prop :=
  ∀ u row, s.profiles u = some row → Belongs cityOf row.cityId row.districtId

section Pairs

variable {cityOf : DistrictId → CityId} {env : Env} {active : InterestId → Bool}
  {existing : Option UserProfileRow} {input : UpdateProfileInput} {edit : ProfileEdit}
  {row : UserProfileRow}

theorem resolveLocation_belongs {c c' : CityId} {d d' : Option DistrictId}
    (hplaces : Places cityOf env.catalog)
    (h : resolveLocation env.catalog c d false = .ok (c', d')) : Belongs cityOf c' d' := by
  obtain ⟨rfl, rfl⟩ := resolveLocation_spec h
  intro x hx
  subst hx
  unfold resolveLocation at h
  obtain ⟨city, -, h⟩ := except_bind_eq_ok.1 h
  simp only [require_bind_eq_ok] at h
  obtain ⟨-, -, h⟩ := h
  obtain ⟨district, hfound, h⟩ := except_bind_eq_ok.1 h
  rw [require_bind_eq_ok] at h
  have hrow : env.catalog.district x = some district := by
    cases hd : env.catalog.district x with
    | none =>
        rw [hd] at hfound
        cases hfound
    | some y =>
        rw [hd] at hfound
        exact congrArg some (Except.ok.inj hfound)
  exact (hplaces x district hrow).symm.trans h.1.2

/-- What an edit carries: the pair when it names one of the two, and then one that belongs
    together. -/
structure ProfileEdit.Resolved (cityOf : DistrictId → CityId) (e : ProfileEdit) : Prop where
  named : e.location.isSome = true ↔
    e.input.cityId.isSome = true ∨ e.input.districtId.isSome = true
  belongs : ∀ l, e.location = some l → Belongs cityOf l.1 l.2

/-- After the pair, only the interests are left to resolve. -/
theorem planUpdate_rest {location : Option (CityId × Option DistrictId)}
    (h : (match input.interestIds with
      | some ids => do
          let interestIds ← (assertInterestsSelectable active ids).map some
          pure { input, location, interestIds }
      | none => do
          let interestIds ← pure none
          pure { input, location, interestIds } : Except ProfileError ProfileEdit) = .ok edit) :
    ∃ interestIds, edit = { input, location, interestIds } := by
  split at h
  · obtain ⟨interestIds, -, h⟩ := except_bind_eq_ok.1 h
    exact ⟨interestIds, (Except.ok.inj h).symm⟩
  · exact ⟨none, (Except.ok.inj h).symm⟩

/-- The city an edit carries is the one it names, or the one it read. -/
theorem planUpdate_resolves (hplaces : Places cityOf env.catalog)
    (h : planUpdate env active existing input = .ok edit) :
    edit.input = input ∧ edit.Resolved cityOf ∧
      ∃ row, existing = some row ∧
        ∀ l, edit.location = some l → l.1 = input.cityId.getD row.cityId := by
  cases existing with
  | none => cases h
  | some row =>
      unfold planUpdate at h
      dsimp only at h
      split at h
      · next hnamed =>
          split at h
          · next found hfound =>
              obtain ⟨interestIds, rfl⟩ := planUpdate_rest h
              refine ⟨rfl, ⟨by simp [hnamed], ?_⟩, row, rfl, ?_⟩
              · rintro l hl
                obtain rfl := Option.some.inj hl
                exact resolveLocation_belongs hplaces hfound
              · rintro l hl
                obtain rfl := Option.some.inj hl
                exact (resolveLocation_spec hfound).1
          · cases h
      · next hnamed =>
          obtain ⟨interestIds, rfl⟩ := planUpdate_rest h
          exact ⟨rfl, ⟨by simp [hnamed], fun l hl => by cases hl⟩, row, rfl,
            fun l hl => by cases hl⟩

/-- With no pair to write, the row keeps its own. -/
theorem ProfileEdit.apply_none (row : UserProfileRow) (h : edit.location = none) :
    (edit.apply row).cityId = row.cityId ∧ (edit.apply row).districtId = row.districtId := by
  show (edit.location.map Prod.fst).getD row.cityId = _ ∧
    (edit.location.map Prod.snd).getD row.districtId = _
  rw [h]
  exact ⟨rfl, rfl⟩

theorem ProfileEdit.apply_some (row : UserProfileRow) {l : CityId × Option DistrictId}
    (h : edit.location = some l) :
    (edit.apply row).cityId = l.1 ∧ (edit.apply row).districtId = l.2 := by
  show (edit.location.map Prod.fst).getD row.cityId = _ ∧
    (edit.location.map Prod.snd).getD row.districtId = _
  rw [h]
  exact ⟨rfl, rfl⟩

theorem ProfileEdit.apply_belongs (h : edit.Resolved cityOf)
    (hrow : Belongs cityOf row.cityId row.districtId) :
    Belongs cityOf (edit.apply row).cityId (edit.apply row).districtId := by
  cases hl : edit.location with
  | none =>
      obtain ⟨hcity, hdistrict⟩ := ProfileEdit.apply_none row hl
      rw [hcity, hdistrict]
      exact hrow
  | some l =>
      obtain ⟨hcity, hdistrict⟩ := ProfileEdit.apply_some row hl
      rw [hcity, hdistrict]
      exact h.belongs l hl

end Pairs

/-! ## What an edit leaves alone -/

section Runs

variable {ι : Type} [DecidableEq ι] {cityOf : DistrictId → CityId}
  {w₀ w w' : ProfileWorld ι} {m : ProfileMove ι} {i : ι} {work : ProfileWork}

/-- What a call carries into its writes belongs together. -/
def ProfileWork.Paired (cityOf : DistrictId → CityId) : ProfileWork → Prop
  | .read _ r => Belongs cityOf r.cityId r.districtId
  | .editing _ edit => edit.Resolved cityOf
  | _ => True

/-- The stored pairs belong together, and so do those at work. -/
structure PairSound (cityOf : DistrictId → CityId) (w : ProfileWorld ι) : Prop where
  stored : PairsPlaced cityOf w.store
  own : ∀ i work, w.locals i = some work → work.Paired cityOf

/-- The write of an edit leaves the city as committed unless the edit names it, and the
    district unless it names one of the two. -/
def KeepsUnnamed (w : ProfileWorld ι) (m : ProfileMove ι) (w' : ProfileWorld ι) : Prop :=
  ∀ i u edit, m = .write i → w.locals i = some (.editing u edit) →
    ∀ row, w.store.profiles u = some row → ∃ row', w'.store.profiles u = some row' ∧
      (edit.input.cityId = none → row'.cityId = row.cityId) ∧
      (edit.input.cityId = none → edit.input.districtId = none → row'.districtId = row.districtId)

/-- When an edit that names a district and no city writes, the committed city is the one it
    carries. -/
def ReadStands (w : ProfileWorld ι) (m : ProfileMove ι) : Prop :=
  ∀ i u edit, m = .write i → w.locals i = some (.editing u edit) → edit.input.cityId = none →
    ∀ l, edit.location = some l → ∀ row, w.store.profiles u = some row → row.cityId = l.1

/-- An edit carries the city it names, or the one that was committed when it read. -/
def CarriesCommitted (w : ProfileWorld ι) (m : ProfileMove ι) (w' : ProfileWorld ι) : Prop :=
  ∀ i env active settings editor u input, m = .update i env active settings editor u input →
    ∀ v edit, w'.locals i = some (.editing v edit) →
      v = u ∧ edit.input = input ∧ ∃ row, w.store.profiles u = some row ∧
        ∀ l, edit.location = some l → l.1 = input.cityId.getD row.cityId

theorem write_profile {u : UserId} {edit : ProfileEdit} {row : UserProfileRow}
    (hs : w.Step (.write i) w') (hl : w.locals i = some (.editing u edit))
    (hrow : w.store.profiles u = some row) : w'.store.profiles u = some (edit.apply row) := by
  simp only [ProfileWorld.Step, ProfileWorld.exec, hl] at hs
  obtain rfl := Option.some.inj hs
  show Function.update w.store.profiles u ((w.store.profiles u).map edit.apply) u = _
  rw [Function.update_self, hrow]
  rfl

/-- An edit keeps what it does not name exactly when what it read still stands. -/
theorem write_keeps_iff (h : PairSound cityOf w) (hs : w.Step m w') :
    KeepsUnnamed w m w' ↔ ReadStands w m := by
  constructor
  · rintro hkeeps i u edit rfl hl hcity l hloc row hrow
    obtain ⟨row', hrow', hkept, -⟩ := hkeeps i u edit rfl hl row hrow
    obtain rfl := Option.some.inj (hrow'.symm.trans (write_profile hs hl hrow))
    exact (hkept hcity).symm.trans (ProfileEdit.apply_some row hloc).1
  · rintro hstands i u edit rfl hl row hrow
    refine ⟨edit.apply row, write_profile hs hl hrow, fun hcity => ?_, fun hcity hdistrict => ?_⟩
    · cases hloc : edit.location with
      | none => exact (ProfileEdit.apply_none row hloc).1
      | some l =>
          have hread := hstands i u edit rfl hl hcity l hloc row hrow
          exact (ProfileEdit.apply_some row hloc).1.trans hread.symm
    · have hnone : edit.location = none := by
        have hnamed := (h.own i _ hl).named
        rw [hcity, hdistrict] at hnamed
        simpa using hnamed
      exact (ProfileEdit.apply_none row hnone).2

theorem update_carries (hp : m.Places cityOf) (hs : w.Step m w') : CarriesCommitted w m w' := by
  rintro i env active settings editor u input rfl v edit hl
  have hidle : w' = w → w.locals i = none → False := by
    rintro rfl hnone
    rw [hnone] at hl
    cases hl
  simp only [ProfileWorld.Step, ProfileWorld.exec] at hs
  split at hs
  · next hnone _ =>
      split at hs
      · next edit' hplan =>
          obtain rfl := Option.some.inj hs
          have hown : some (ProfileWork.editing u edit') = some (.editing v edit) := by
            rw [← hl]
            exact Threads.set_locals_self.symm
          obtain ⟨rfl, rfl⟩ := ProfileWork.editing.inj (Option.some.inj hown)
          obtain ⟨hinput, -, hread⟩ := planUpdate_resolves hp hplan
          exact ⟨rfl, hinput, hread⟩
      · exact (hidle (Option.some.inj hs).symm hnone).elim
  · next hnone _ => exact (hidle (Option.some.inj hs).symm hnone).elim
  · cases hs

/-- Call `i` goes on to `l`, over profiles whose pairs belong together. -/
theorem PairSound.set (h : PairSound cityOf w) {shared : ProfileShared ι} {l : Option ProfileWork}
    (hstored : PairsPlaced cityOf shared.store)
    (hown : ∀ work, l = some work → work.Paired cityOf) : PairSound cityOf (w.set i shared l) := by
  refine ⟨hstored, fun j work hj => ?_⟩
  by_cases hji : j = i
  · subst hji
    rw [Threads.set_locals_self] at hj
    exact hown work hj
  · rw [Threads.set_locals_ne hji] at hj
    exact h.own j work hj

/-- A call that reads on. -/
theorem PairSound.goes (h : PairSound cityOf w) (hown : work.Paired cityOf)
    (holder : UserId → Option ι) :
    PairSound cityOf (w.set i { w.shared with holder := holder } (some work)) :=
  h.set h.stored fun _ hw => Option.some.inj hw ▸ hown

theorem PairSound.rollback (h : PairSound cityOf w) : PairSound cityOf (w.rollback i) :=
  h.set h.stored fun _ hw => by cases hw

omit [DecidableEq ι] in
/-- A write that touches no profile. -/
theorem PairSound.aside (h : PairSound cityOf w) {s : ProfileDb}
    (hprofiles : s.profiles = w.store.profiles) :
    PairSound cityOf { w with shared := { w.shared with store := s } } := by
  refine ⟨?_, h.own⟩
  unfold PairsPlaced
  show ∀ u row, s.profiles u = some row → _
  rw [hprofiles]
  exact h.stored

/-- One profile is rewritten, into a pair that belongs together. -/
theorem PairsPlaced.update {s : ProfileDb} (h : PairsPlaced cityOf s) {u : UserId}
    {row : Option UserProfileRow}
    (hrow : ∀ r, row = some r → Belongs cityOf r.cityId r.districtId) {s' : ProfileDb}
    (hs : s'.profiles = Function.update s.profiles u row) : PairsPlaced cityOf s' := by
  intro v r hr
  rw [hs] at hr
  by_cases hv : v = u
  · subst hv
    rw [Function.update_self] at hr
    exact hrow r hr
  · rw [Function.update_of_ne hv] at hr
    exact h v r hr

theorem PairSound.step (h : PairSound cityOf w) (hp : m.Places cityOf) (hs : w.Step m w') :
    PairSound cityOf w' := by
  cases m with
  | complete i env settings u input =>
      simp only [ProfileWorld.Step, ProfileWorld.exec] at hs
      split at hs
      · obtain rfl := Option.some.inj hs
        refine h.goes ?_ w.shared.holder
        exact trivial
      · obtain rfl := Option.some.inj hs
        exact h
      · cases hs
  | lock i =>
      simp only [ProfileWorld.Step, ProfileWorld.exec] at hs
      split at hs
      · split at hs
        · obtain rfl := Option.some.inj hs
          exact h.rollback
        · obtain rfl := Option.some.inj hs
          exact h.rollback
        · obtain rfl := Option.some.inj hs
          refine h.goes ?_ _
          exact trivial
        · cases hs
      · cases hs
  | read i env active =>
      simp only [ProfileWorld.Step, ProfileWorld.exec] at hs
      split at hs
      · split at hs
        · next hlocation _ =>
            obtain rfl := Option.some.inj hs
            refine h.goes ?_ w.shared.holder
            exact resolveLocation_belongs hp hlocation
        · obtain rfl := Option.some.inj hs
          exact h.rollback
      · cases hs
  | finish i env settings =>
      simp only [ProfileWorld.Step, ProfileWorld.exec] at hs
      split at hs
      · next call found hl =>
          split at hs
          · next result store hrun =>
              obtain rfl := Option.some.inj hs
              refine h.set (h.stored.update (fun r hr => ?_) (finishCompletion_spec hrun).profiles)
                fun _ hw => by cases hw
              obtain rfl := Option.some.inj hr
              exact h.own i _ hl
          · obtain rfl := Option.some.inj hs
            exact h.rollback
      · cases hs
  | update i env active settings editor u input =>
      simp only [ProfileWorld.Step, ProfileWorld.exec] at hs
      split at hs
      · split at hs
        · next edit hplan =>
            obtain rfl := Option.some.inj hs
            refine h.goes ?_ w.shared.holder
            exact (planUpdate_resolves hp hplan).2.1
        · obtain rfl := Option.some.inj hs
          exact h
      · obtain rfl := Option.some.inj hs
        exact h
      · cases hs
  | write i =>
      simp only [ProfileWorld.Step, ProfileWorld.exec] at hs
      split at hs
      · next u edit hl =>
          obtain rfl := Option.some.inj hs
          refine h.set (h.stored.update (fun r hr => ?_) rfl) fun _ hw => by cases hw
          obtain ⟨row, hrow, rfl⟩ := Option.map_eq_some_iff.1 hr
          exact ProfileEdit.apply_belongs (h.own i _ hl) (h.stored u row hrow)
      · cases hs
  | acceptPolicies u =>
      simp only [ProfileWorld.Step, ProfileWorld.exec] at hs
      split at hs
      · obtain rfl := Option.some.inj hs
        exact h.aside rfl
      · obtain rfl := Option.some.inj hs
        exact h
      · cases hs
  | moveCoins env input =>
      obtain rfl := Option.some.inj hs
      exact h.aside (commit_inDb fun _ _ _ hf => (applyCoins_grows hf).1).2.2
  | moveTrust env input =>
      obtain rfl := Option.some.inj hs
      exact h.aside (commit_inDb fun _ _ _ hf => (applyTrust_grows hf).1).2.2
  | abort i =>
      obtain rfl := Option.some.inj hs
      exact h.rollback

/-- Whatever runs at once and however the catalogue changes, a stored district belongs to the
    stored city; and the write of an edit keeps the city and the district it does not name
    exactly when the city it read is still the committed one. -/
theorem edits_keep_unnamed_iff {tr : List (ProfileWorld ι × ProfileMove ι × ProfileWorld ι)}
    (h₀ : w₀.Init) (hplaced : PairsPlaced cityOf w₀.store)
    (h : Run (· = w₀) ProfileWorld.Step (fun _ m => m.Places cityOf) tr w) :
    PairsPlaced cityOf w.store ∧ ∀ x ∈ tr, CarriesCommitted x.1 x.2.1 x.2.2 ∧
      (KeepsUnnamed x.1 x.2.1 x.2.2 ↔ ReadStands x.1 x.2.1) := by
  have hsound : ∀ {v : ProfileWorld ι},
      Reach (· = w₀) ProfileWorld.Step (fun _ m => m.Places cityOf) v → PairSound cityOf v := by
    intro v hv
    refine hv.invariant (fun v hv => ?_) fun _ _ _ hI hp hs => hI.step hp hs
    rw [hv]
    refine ⟨hplaced, fun i work hwork => ?_⟩
    rw [h₀.2.2 i] at hwork
    cases hwork
  refine ⟨(hsound h.reach).stored, ?_⟩
  refine h.steps (P := fun v m v' => CarriesCommitted v m v' ∧
    (KeepsUnnamed v m v' ↔ ReadStands v m)) fun v m v' hv hp hs => ?_
  exact ⟨update_carries hp hs, write_keeps_iff (hsound hv) hs⟩

end Runs

/-! ## A move while a district is edited -/

/-- Every district is in the city of its number. -/
def districtEnv : Env :=
  { demoEnv 1 with catalog := { (demoEnv 1).catalog with district := fun d => some ⟨d, true⟩ } }

/-- A whole completion, by call `true`. -/
def completedIn (cityId : CityId) : List (ProfileMove Bool) :=
  [.complete true districtEnv {} 10 { demoInput with cityId := cityId }, .lock true,
    .read true districtEnv fun _ => true, .finish true districtEnv {}]

/-- An edit that names a district, by call `false`. -/
def editDistrict (d : DistrictId) : ProfileMove Bool :=
  .update false districtEnv (fun _ => true) {} .USER 10
    { displayName := none, gender := none, birthYear := none, cityId := none
      districtId := some (some d), bio := none, interestIds := none, inviteOptOut := none }

def storedPair (w : ProfileWorld Bool) : Option (CityId × Option DistrictId) :=
  (w.store.profiles 10).map fun row => (row.cityId, row.districtId)

/-- What the edit at work does not name. -/
def editsDistrict (w : ProfileWorld Bool) : Bool :=
  match w.locals false with
  | some (.editing u edit) => decide (u = 10) && edit.input.cityId.isNone
  | _ => false

theorem editsDistrict_iff {w : ProfileWorld Bool} (h : editsDistrict w = true) :
    ∃ edit, w.locals false = some (.editing 10 edit) ∧ edit.input.cityId = none := by
  unfold editsDistrict at h
  split at h
  · next u edit hl =>
      obtain ⟨hu, hcity⟩ := Bool.and_eq_true_iff.1 h
      obtain rfl := of_decide_eq_true hu
      exact ⟨edit, hl, Option.isNone_iff_eq_none.1 hcity⟩
  · cases h

theorem districtEnv_places : Places (fun d => d) districtEnv.catalog := by
  intro d row h
  obtain rfl := Option.some.inj h
  rfl

theorem completedIn_places (cityId : CityId) :
    ∀ m ∈ completedIn cityId, m.Places fun d => d := by
  intro m hm
  simp only [completedIn, List.mem_cons, List.not_mem_nil, or_false] at hm
  rcases hm with rfl | rfl | rfl | rfl
  · exact trivial
  · exact trivial
  · exact districtEnv_places
  · exact trivial

/-- A list of moves that all read such a catalogue is a run. -/
theorem run_of_moves {moves : List (ProfileMove Bool)} (hp : ∀ m ∈ moves, m.Places fun d => d)
    {w₀ w w' : ProfileWorld Bool}
    {tr : List (ProfileWorld Bool × ProfileMove Bool × ProfileWorld Bool)}
    (hr : Run (· = w₀) ProfileWorld.Step (fun _ m => m.Places fun d => d) tr w)
    (h : runList ProfileWorld.exec w moves = some w') :
    ∃ tr', Run (· = w₀) ProfileWorld.Step (fun _ m => m.Places fun d => d) tr' w' := by
  induction moves generalizing w tr with
  | nil =>
      obtain rfl := Option.some.inj h
      exact ⟨tr, hr⟩
  | cons m moves ih =>
      obtain ⟨w₁, hstep, hrest⟩ := Option.bind_eq_some_iff.1 h
      have hnext := Run.next hr (hp m (by simp)) hstep
      exact ih (fun m' hm' => hp m' (by simp [hm'])) hnext hrest

/-- The user completes in city 1, edits the district, and completes in city 2 before the edit
    writes. -/
def movedMoves : List (ProfileMove Bool) :=
  .acceptPolicies 10 :: completedIn 1 ++ editDistrict 1 :: completedIn 2

theorem movedMoves_places : ∀ m ∈ movedMoves, m.Places fun d => d := by
  intro m hm
  simp only [movedMoves, List.cons_append, List.mem_cons, List.mem_append] at hm
  rcases hm with rfl | hm | rfl | hm
  · exact trivial
  · exact completedIn_places 1 m hm
  · exact districtEnv_places
  · exact completedIn_places 2 m hm

/-- The edit that named only a district moves the user back to city 1. -/
theorem district_edit_moves_city :
    ¬ ∀ tr w, Run (· = newUser) ProfileWorld.Step (fun _ m => m.Places fun d => d) tr w →
      ∀ x ∈ tr, KeepsUnnamed x.1 x.2.1 x.2.2 := by
  intro hclaim
  have hplay : (runList ProfileWorld.exec newUser movedMoves).any (fun w =>
      editsDistrict w && decide (storedPair w = some (2, none)) &&
      (w.exec (.write false)).any fun w' => decide (storedPair w' = some (1, some 1))) = true := by
    decide
  obtain ⟨w, hw, hend⟩ := (Option.any_eq_true _ _).1 hplay
  simp only [Bool.and_eq_true, decide_eq_true_eq] at hend
  obtain ⟨⟨hedits, hbefore⟩, hafter⟩ := hend
  obtain ⟨w', hs, hafter⟩ := (Option.any_eq_true _ _).1 hafter
  obtain ⟨edit, hl, hcity⟩ := editsDistrict_iff hedits
  obtain ⟨tr, hrun⟩ := run_of_moves movedMoves_places (.start rfl) hw
  obtain ⟨row, hrow, hpair⟩ := Option.map_eq_some_iff.1 hbefore
  have hwrite : Run (· = newUser) ProfileWorld.Step (fun _ m => m.Places fun d => d)
      (tr ++ [(w, .write false, w')]) w' := .next hrun trivial hs
  obtain ⟨row', hrow', hkept, -⟩ :=
    hclaim _ w' hwrite (w, .write false, w') (by simp) false 10 edit rfl hl row hrow
  obtain ⟨row'', hrow'', hpair'⟩ := Option.map_eq_some_iff.1 (of_decide_eq_true hafter)
  obtain rfl := Option.some.inj (hrow'.symm.trans hrow'')
  have hsame := hkept hcity
  rw [(Prod.mk.inj hpair).1, (Prod.mk.inj hpair').1] at hsame
  exact absurd hsame (by decide)

/-- With nobody moving the user, the same edit sets the district and keeps the city. -/
theorem edits_keep_unnamed_alone :
    ∃ (tr : List (ProfileWorld Bool × ProfileMove Bool × ProfileWorld Bool)) (w : _),
    storedPair w = some (1, some 1) ∧ PairsPlaced (fun d => d) w.store ∧
      ∀ x ∈ tr, CarriesCommitted x.1 x.2.1 x.2.2 ∧
      (KeepsUnnamed x.1 x.2.1 x.2.2 ↔ ReadStands x.1 x.2.1) := by
  have hplay : (runList ProfileWorld.exec newUser
      (.acceptPolicies 10 :: completedIn 1 ++ [editDistrict 1, .write false])).any (fun w =>
        decide (storedPair w = some (1, some 1))) = true := by decide
  obtain ⟨w, hw, hpair⟩ := (Option.any_eq_true _ _).1 hplay
  have hp : ∀ m ∈ (.acceptPolicies 10 :: completedIn 1 ++ [editDistrict 1, .write false] :
      List (ProfileMove Bool)), m.Places fun d => d := by
    intro m hm
    simp only [List.cons_append, List.mem_cons, List.mem_append, List.not_mem_nil, or_false] at hm
    rcases hm with rfl | hm | rfl | rfl
    · exact trivial
    · exact completedIn_places 1 m hm
    · exact districtEnv_places
    · exact trivial
  obtain ⟨tr, hrun⟩ := run_of_moves hp (.start rfl) hw
  have hplaced : PairsPlaced (fun d => d) newUser.store := fun u row hrow => by cases hrow
  have hedits := edits_keep_unnamed_iff newUser_init hplaced hrun
  exact ⟨tr, w, of_decide_eq_true hpair, hedits⟩

end Completion

end Paayatam
