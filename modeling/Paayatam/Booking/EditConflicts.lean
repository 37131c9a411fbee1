/-
  Paayatam.Booking.EditConflicts

  What two edits of one event can do to each other.

  The version an edit expects, the other end of the schedule and the pairing
  of category, label and city are all checked against the row the edit read;
  its write is by id and asks nothing.  Each check therefore says something
  about the row that is written only as far as what it rested on still stands.
-/

import Paayatam.Booking.EventEdits

namespace Paayatam

open Lib

/-- What the cross-field rules ask of an event. -/
structure WellFormed (catalog : Catalog) (ev : EventRow) : Prop where
  schedule : ev.startsAt < ev.endsAt
  offered : Offered catalog ev.categoryId ev.customCategoryLabel ev.cityId

/-- `ev'` is `ev`, but for the fields the edit names, the place if it names any part of it,
    and what goes with the status. -/
structure NamedOnly (input : UpdateEventInput) (ev ev' : EventRow) : Prop where
  title : input.title = none → ev'.title = ev.title
  description : input.description = none → ev'.description = ev.description
  categoryId : input.categoryId = none → ev'.categoryId = ev.categoryId
  customCategoryLabel : input.customCategoryLabel = none →
    ev'.customCategoryLabel = ev.customCategoryLabel
  location : input.cityId = none → input.districtId = none → input.districtLabel = none →
    ev'.cityId = ev.cityId ∧ ev'.districtId = ev.districtId ∧ ev'.districtLabel = ev.districtLabel
  startsAt : input.startsAt = none → ev'.startsAt = ev.startsAt
  endsAt : input.endsAt = none → ev'.endsAt = ev.endsAt
  capacity : input.capacity = none → ev'.capacity = ev.capacity
  genderPreference : input.genderPreference = none → ev'.genderPreference = ev.genderPreference
  minAge : input.minAge = none → ev'.minAge = ev.minAge
  maxAge : input.maxAge = none → ev'.maxAge = ev.maxAge
  rest : ev'.id = ev.id ∧ ev'.hostUserId = ev.hostUserId ∧ ev'.hostAbsentAt = ev.hostAbsentAt ∧
    ev'.acceptedCount = ev.acceptedCount ∧ ev'.isSeeded = ev.isSeeded ∧
    ev'.requestCount = ev.requestCount ∧ ev'.createdAt = ev.createdAt ∧
    ev'.deletedAt = ev.deletedAt

/-! ## The condition -/

/-- What an edit's checks rested on, and the edit does not itself send, is found as read:
    the version if it names one, the other end of the schedule if it moves one, and of
    category, label and city those that go with what it moves. -/
structure AsChecked (v : Option Nat) (input : UpdateEventInput) (read found : EventRow) : Prop where
  version : v.isSome = true → found.version = read.version
  startsAt : input.startsAt.isNone = true → input.endsAt.isSome = true →
    found.startsAt = read.startsAt
  endsAt : input.endsAt.isNone = true → input.startsAt.isSome = true → found.endsAt = read.endsAt
  categoryId : categoryTouched input read = true → input.categoryId.isNone = true →
    found.categoryId = read.categoryId
  customCategoryLabel : categoryTouched input read = true →
    input.customCategoryLabel.isNone = true → found.customCategoryLabel = read.customCategoryLabel
  cityId : categoryTouched input read ≠ locationTouched input → found.cityId = read.cityId

theorem AsChecked.refl (v : Option Nat) (input : UpdateEventInput) (read : EventRow) :
    AsChecked v input read read :=
  ⟨fun _ => rfl, fun _ _ => rfl, fun _ _ => rfl, fun _ _ => rfl, fun _ _ => rfl, fun _ => rfl⟩

instance (v : Option Nat) (input : UpdateEventInput) (read found : EventRow) :
    Decidable (AsChecked v input read found) :=
  decidable_of_iff ((v.isSome = true → found.version = read.version) ∧
      (input.startsAt.isNone = true → input.endsAt.isSome = true →
        found.startsAt = read.startsAt) ∧
      (input.endsAt.isNone = true → input.startsAt.isSome = true → found.endsAt = read.endsAt) ∧
      (categoryTouched input read = true → input.categoryId.isNone = true →
        found.categoryId = read.categoryId) ∧
      (categoryTouched input read = true → input.customCategoryLabel.isNone = true →
        found.customCategoryLabel = read.customCategoryLabel) ∧
      (categoryTouched input read ≠ locationTouched input → found.cityId = read.cityId))
    ⟨fun ⟨h₁, h₂, h₃, h₄, h₅, h₆⟩ => ⟨h₁, h₂, h₃, h₄, h₅, h₆⟩,
      fun ⟨h₁, h₂, h₃, h₄, h₅, h₆⟩ => ⟨h₁, h₂, h₃, h₄, h₅, h₆⟩⟩

variable {Sees : Env → Prop}

/-- A write finds what its checks rested on as they found it. -/
def Undisturbed (w : EditWorld Sees) : EditMove Sees → Prop
  | .write i => ∀ f ∈ w.locals i, ∀ found ∈ w.events.rows, found.id = f.read.id →
      AsChecked f.expectedVersion f.input f.read found
  | _ => True

instance (w : EditWorld Sees) : (m : EditMove Sees) → Decidable (Undisturbed w m)
  | .write i => inferInstanceAs (Decidable (∀ f ∈ w.locals i, ∀ found ∈ w.events.rows, _))
  | .create .. => isTrue trivial
  | .edit .. => isTrue trivial
  | .read .. => isTrue trivial

/-- The move commits an edit of the event `e` that expects the version `v`. -/
def CommitsOn (e : EventId) (v : Nat) (x : EditWorld Sees × EditMove Sees × EditWorld Sees) :
    Bool :=
  (x.1.edits x.2.1).any fun f =>
    decide (f.read.id = e) && decide (f.expectedVersion = some v) && commits f.finish x.1.shared

/-! ## One edit -/

namespace EditWork

variable {f : EditWork Sees} {found : EventRow}

theorem leaves_startsAt (f : EditWork Sees) (found : EventRow) :
    (f.leaves found).startsAt = f.input.startsAt.getD found.startsAt := by
  rw [leaves, EventEdit.apply, f.decided.startsAt]

theorem leaves_endsAt (f : EditWork Sees) (found : EventRow) :
    (f.leaves found).endsAt = f.input.endsAt.getD found.endsAt := by
  rw [leaves, EventEdit.apply, f.decided.endsAt]

theorem leaves_categoryId (f : EditWork Sees) (found : EventRow) :
    (f.leaves found).categoryId = if categoryTouched f.input f.read then
      f.input.categoryId.getD f.read.categoryId else found.categoryId := by
  unfold leaves EventEdit.apply
  rcases f.decided.category_cases with ⟨htouched, hcat⟩ | ⟨htouched, l, hcat, -⟩
  · rw [if_neg (by simp [htouched]), hcat]
    rfl
  · rw [if_pos htouched, hcat]
    rfl

theorem leaves_cityId (f : EditWork Sees) (found : EventRow) :
    (f.leaves found).cityId = if locationTouched f.input then
      f.input.cityId.getD f.read.cityId else found.cityId := by
  unfold leaves EventEdit.apply
  rcases f.decided.location_cases with ⟨htouched, hloc⟩ | ⟨htouched, hloc⟩
  · rw [if_neg (by simp [htouched]), hloc]
    rfl
  · rw [if_pos htouched, hloc]
    rfl

/-- The schedule that was checked is the one that is left. -/
theorem leaves_schedule (hchecked : AsChecked f.expectedVersion f.input f.read found)
    (hfound : found.startsAt < found.endsAt) :
    (f.leaves found).startsAt < (f.leaves found).endsAt := by
  rw [f.leaves_startsAt, f.leaves_endsAt]
  have hsane := f.decided.schedule
  cases hs : f.input.startsAt with
  | none =>
      cases he : f.input.endsAt with
      | none => exact hfound
      | some e =>
          rw [hs, he] at hsane
          have hstart := hchecked.startsAt (by simp [hs]) (by simp [he])
          rw [Option.getD_none, hstart]
          exact hsane
  | some s =>
      cases he : f.input.endsAt with
      | none =>
          rw [hs, he] at hsane
          have hend := hchecked.endsAt (by simp [he]) (by simp [hs])
          rw [Option.getD_none, hend]
          exact hsane
      | some e =>
          rw [hs, he] at hsane
          exact hsane

/-- An edit that leaves category and label alone does not move the city. -/
theorem cityId_of_untouched (h : categoryTouched f.input f.read = false) :
    f.input.cityId.getD f.read.cityId = f.read.cityId := by
  simp only [categoryTouched, Bool.or_eq_false_iff] at h
  simpa using h.2

/-- The category, its label and the city are left as some check found them together. -/
theorem leaves_offered (hchecked : AsChecked f.expectedVersion f.input f.read found)
    (hfound : Offered f.env.catalog found.categoryId found.customCategoryLabel found.cityId) :
    Offered f.env.catalog (f.leaves found).categoryId (f.leaves found).customCategoryLabel
      (f.leaves found).cityId := by
  rw [f.leaves_categoryId, f.leaves_label, f.leaves_cityId]
  rcases f.decided.category_cases with ⟨htouched, -⟩ | ⟨htouched, l, -, hl, hoffered⟩
  · have hcity : (if locationTouched f.input then f.input.cityId.getD f.read.cityId
        else found.cityId) = found.cityId := by
      split
      · next hloc =>
          rw [cityId_of_untouched htouched]
          exact (hchecked.cityId (by simp [htouched, hloc])).symm
      · rfl
    rw [hcity, if_neg (by simp [htouched]), if_neg (by simp [htouched])]
    exact hfound
  · have hcity : (if locationTouched f.input then f.input.cityId.getD f.read.cityId
        else found.cityId) = f.input.cityId.getD f.read.cityId := by
      split
      · rfl
      · next hloc =>
          have hunsent : f.input.cityId = none := by
            simp only [locationTouched, Bool.or_eq_true, not_or] at hloc
            simpa using hloc.1.1
          rw [hunsent, Option.getD_none]
          exact hchecked.cityId (by simp [htouched, hloc])
    rw [hcity, if_pos htouched, if_pos htouched, ← hl]
    exact hoffered

/-- An edit changes what it names, and what it settles with it. -/
theorem leaves_namedOnly (hchecked : AsChecked f.expectedVersion f.input f.read found)
    (htidy : Tidy found.customCategoryLabel) : NamedOnly f.input found (f.leaves found) where
  title h := by rw [f.leaves_title, h, Option.getD_none]
  description h := by rw [f.leaves_description, h, Option.getD_none]
  categoryId h := by
    rw [f.leaves_categoryId]
    split
    · next htouched =>
        rw [h, Option.getD_none]
        exact (hchecked.categoryId htouched (by simp [h])).symm
    · rfl
  customCategoryLabel h := by
    rw [f.leaves_label]
    split
    · next htouched =>
        have hread := hchecked.customCategoryLabel htouched (by simp [h])
        have hsent : (f.input.customCategoryLabel <|> f.read.customCategoryLabel) =
            found.customCategoryLabel := by
          rw [h, hread]
          rfl
        rw [hsent, htidy.trimmed]
    · rfl
  location hcity hdistrict hlabel := by
    have huntouched : locationTouched f.input = false := by
      simp [locationTouched, hcity, hdistrict, hlabel]
    rcases f.decided.location_cases with ⟨-, hloc⟩ | ⟨htouched, -⟩
    · unfold leaves EventEdit.apply
      rw [hloc]
      exact ⟨rfl, rfl, rfl⟩
    · rw [huntouched] at htouched
      cases htouched
  startsAt h := by rw [f.leaves_startsAt, h, Option.getD_none]
  endsAt h := by rw [f.leaves_endsAt, h, Option.getD_none]
  capacity h := by rw [leaves, EventEdit.apply, f.decided.capacity, h, Option.getD_none]
  genderPreference h := by rw [leaves, EventEdit.apply, f.decided.genderPreference, h]; rfl
  minAge h := by rw [leaves, EventEdit.apply, f.decided.minAge, h]; rfl
  maxAge h := by rw [leaves, EventEdit.apply, f.decided.maxAge, h]; rfl
  rest := ⟨rfl, rfl, rfl, rfl, rfl, rfl, rfl, rfl⟩

end EditWork

/-! ## Runs -/

/-- Every call of the run sees the catalogue `catalog`. -/
abbrev OnCatalog (catalog : Catalog) : Env → Prop := fun env => env.catalog = catalog

section Runs

variable {catalog : Catalog} {tr : EditTrace (OnCatalog catalog)}
  {w w' : EditWorld (OnCatalog catalog)} {m : EditMove (OnCatalog catalog)}

theorem EditWork.leaves_wellFormed {f : EditWork (OnCatalog catalog)} {found : EventRow}
    (hchecked : AsChecked f.expectedVersion f.input f.read found)
    (hfound : WellFormed catalog found) : WellFormed catalog (f.leaves found) where
  schedule := f.leaves_schedule hchecked hfound.schedule
  offered := by
    have hsees : f.env.catalog = catalog := f.sees
    have hoffered : Offered f.env.catalog found.categoryId found.customCategoryLabel
        found.cityId := by
      rw [hsees]
      exact hfound.offered
    have hleft := f.leaves_offered hchecked hoffered
    rw [hsees] at hleft
    exact hleft

/-- Every row is tidy and well formed. -/
structure EditSound (catalog : Catalog) (w : EditWorld (OnCatalog catalog)) : Prop where
  tidyCustom : ∀ ev ∈ w.events.rows, Tidy ev.customCategoryLabel
  tidyDistrict : ∀ ev ∈ w.events.rows, Tidy ev.districtLabel
  wellFormed : ∀ ev ∈ w.events.rows, WellFormed catalog ev

/-- The row an edit is put on is as it was checked: it is the row that was read, under the
    lock, or the condition says so. -/
theorem asChecked_of_edits {f : EditWork Sees} {w : EditWorld Sees} {m : EditMove Sees}
    (hg : Undisturbed w m) (hm : w.edits m = some f) {found : EventRow}
    (hmem : found ∈ w.events.rows) (hid : found.id = f.read.id) :
    AsChecked f.expectedVersion f.input f.read found := by
  cases m with
  | write i => exact hg f hm found hmem hid
  | edit env sees host e input v =>
      simp only [EditWorld.edits, Option.bind_eq_some_iff] at hm
      obtain ⟨row, hrow, hstart⟩ := hm
      obtain ⟨-, -, -, -, hread⟩ := EditWork.start_eq_some hstart
      have hsame : f.read = found := by
        rw [hread] at hid ⊢
        exact Table.eq_of_key (Table.mem_of_find? hrow) hmem hid.symm
      rw [hsame]
      exact .refl _ _ _
  | create => cases hm
  | read => cases hm

theorem EditSound.step (h : EditSound catalog w) (hg : Undisturbed w m) (hs : w.Step m w') :
    EditSound catalog w' := by
  cases EditWorld.step_turn hs with
  | still hsame hfails =>
      constructor
      · rw [hsame]
        exact h.tidyCustom
      · rw [hsame]
        exact h.tidyDistrict
      · rw [hsame]
        exact h.wellFormed
  | @created env sees host input seeded e content ev hm hsane hev hrows =>
      have hcases : ∀ x ∈ w'.events.rows, x ∈ w.events.rows ∨ x = ev := by
        intro x hx
        rw [hrows] at hx
        simpa using hx
      have hnew : WellFormed catalog ev := by
        refine ⟨by rw [hev.startsAt, hev.endsAt]; exact hsane, ?_⟩
        have hoffered := hev.offered
        rw [show env.catalog = catalog from sees] at hoffered
        exact hoffered
      exact ⟨fun x hx => (hcases x hx).elim (h.tidyCustom x) (by rintro rfl; exact hev.tidyCustom),
        fun x hx => (hcases x hx).elim (h.tidyDistrict x) (by rintro rfl; exact hev.tidyDistrict),
        fun x hx => (hcases x hx).elim (h.wellFormed x) (by rintro rfl; exact hnew)⟩
  | @edited f found hm hid hfound hcommits hwrites =>
      have hchecked := asChecked_of_edits hg hm hwrites.mem hid
      have htidy := f.tidy_leaves (h.tidyCustom found hwrites.mem)
        (h.tidyDistrict found hwrites.mem)
      constructor
      · intro x hx
        rcases hwrites.cases hx with rfl | ⟨hx, -⟩
        · exact htidy.1
        · exact h.tidyCustom x hx
      · intro x hx
        rcases hwrites.cases hx with rfl | ⟨hx, -⟩
        · exact htidy.2
        · exact h.tidyDistrict x hx
      · intro x hx
        rcases hwrites.cases hx with rfl | ⟨hx, -⟩
        · exact EditWork.leaves_wellFormed hchecked (h.wellFormed found hwrites.mem)
        · exact h.wellFormed x hx

theorem EditSound.reach (h : Reach EditWorld.Init EditWorld.Step Undisturbed w) :
    EditSound catalog w := by
  refine Reach.invariant (I := EditSound catalog) (fun s hinit => ?_)
    (fun _ _ _ hI hg hs => hI.step hg hs) h
  have hempty := hinit.1
  exact ⟨by simp [EditWorld.events, hempty], by simp [EditWorld.events, hempty],
    by simp [EditWorld.events, hempty]⟩

/-- What one step does to the row of an event: nothing, or what one edit names. -/
theorem row_cases (h : EditSound catalog w) (hg : Undisturbed w m) (hs : w.Step m w')
    {ev ev' : EventRow} (hev : ev ∈ w.events.rows) (hev' : w'.events.find? ev.id = some ev') :
    ev' = ev ∨ ∃ f, w.edits m = some f ∧ f.read.id = ev.id ∧ ev' = f.leaves ev ∧
      NamedOnly f.input ev ev' := by
  have hself : w.events.find? ev.id = some ev := Table.find?_of_mem hev
  cases EditWorld.step_turn hs with
  | still hsame hfails =>
      rw [hsame, hself] at hev'
      exact .inl (Option.some.inj hev').symm
  | @created env sees host input seeded e content new hm hsane hnew hrows =>
      have hne : Row.key new ≠ ev.id := (Table.compatible_of_insert hrows hev).1.symm
      rw [Table.find?_of_insert hrows, if_neg hne, hself] at hev'
      exact .inl (Option.some.inj hev').symm
  | @edited f found hm hid hfound hcommits hwrites =>
      rw [hwrites.find? rfl] at hev'
      by_cases hkey : Row.key found = ev.id
      · have hsame : found = ev := Table.eq_of_key hwrites.mem hev hkey
        rw [if_pos hkey, hsame] at hev'
        have hleft := (Option.some.inj hev').symm
        rw [hsame] at hid
        have hchecked := asChecked_of_edits hg hm hev hid
        refine .inr ⟨f, hm, hid.symm, hleft, ?_⟩
        rw [hleft]
        exact f.leaves_namedOnly hchecked (h.tidyCustom ev hev)
      · rw [if_neg hkey, hself] at hev'
        exact .inl (Option.some.inj hev').symm

/-- Commits that expect the version `v` of an event: none yet, or one, and the event has
    moved past it. -/
theorem commitsOn_count (h : Lib.Run EditWorld.Init EditWorld.Step Undisturbed tr w) (e : EventId)
    (v : Nat) : tr.countP (CommitsOn e v) = 0 ∨
      (tr.countP (CommitsOn e v) = 1 ∧ ∃ ev, w.events.find? e = some ev ∧ v < ev.version) := by
  induction h with
  | start => exact .inl rfl
  | @next tr s s' i hrun hg hs ih =>
      rw [List.countP_append, List.countP_singleton]
      cases EditWorld.step_turn hs with
      | still hsame hfails =>
          have hno : CommitsOn e v (s, i, s') = false := by
            unfold CommitsOn
            cases hf : s.edits i with
            | none => rfl
            | some f => simp [hfails f hf]
          rw [hno, hsame, if_neg (by simp), Nat.add_zero]
          exact ih
      | @created env sees host input seeded e' content new hm hsane hnew hrows =>
          have hno : CommitsOn e v (s, i, s') = false := by simp [CommitsOn, hm, EditWorld.edits]
          rw [hno, if_neg (by simp), Nat.add_zero]
          refine ih.imp_right ?_
          rintro ⟨hone, ev, hev, hlt⟩
          refine ⟨hone, ev, ?_, hlt⟩
          have hkey : ev.id = e := Table.key_of_find? hev
          have hne : Row.key new ≠ e := by
            rw [← hkey]
            exact (Table.compatible_of_insert hrows (Table.mem_of_find? hev)).1.symm
          rw [Table.find?_of_insert hrows, if_neg hne]
          exact hev
      | @edited f found hm hid hfound hcommits hwrites =>
          have hchecked := asChecked_of_edits hg hm hwrites.mem hid
          by_cases hyes : CommitsOn e v (s, i, s') = true
          · -- the version it expects is the one it moves the event past
            simp only [CommitsOn, hm, Option.any_some, Bool.and_eq_true, decide_eq_true_eq] at hyes
            obtain ⟨⟨he, hexpected⟩, -⟩ := hyes
            have hread : v = f.read.version := f.decided.version v hexpected
            have hversion : found.version = v := by
              rw [hread]
              exact hchecked.version (by simp [hexpected])
            have hkey : Row.key found = e := hid.trans he
            have hzero : tr.countP (CommitsOn e v) = 0 := by
              rcases ih with hzero | ⟨-, ev, hev, hlt⟩
              · exact hzero
              · have hsame : ev = found := Table.eq_of_key (Table.mem_of_find? hev) hwrites.mem
                  ((Table.key_of_find? hev).trans hkey.symm)
                rw [hsame, hversion] at hlt
                exact absurd hlt (lt_irrefl v)
            right
            refine ⟨?_, f.leaves found, ?_, ?_⟩
            · have hcount : CommitsOn e v (s, i, s') = true := by
                simp [CommitsOn, hm, he, hexpected, hcommits]
              rw [hzero, if_pos hcount]
            · exact hwrites.find?_self rfl hkey
            · change v < found.version + 1
              omega
          · rw [if_neg hyes, Nat.add_zero]
            refine ih.imp_right ?_
            rintro ⟨hone, ev, hev, hlt⟩
            refine ⟨hone, ?_⟩
            rw [hwrites.find? rfl]
            by_cases hkey : Row.key found = e
            · have hsame : ev = found := Table.eq_of_key (Table.mem_of_find? hev) hwrites.mem
                ((Table.key_of_find? hev).trans hkey.symm)
              rw [if_pos hkey]
              refine ⟨_, rfl, ?_⟩
              change v < found.version + 1
              rw [← hsame]
              omega
            · rw [if_neg hkey]
              exact ⟨ev, hev, hlt⟩

end Runs

/-- Along a run that ends in `w`, no edit is lost, and every event is well formed. -/
structure EditsKept (catalog : Catalog) (tr : EditTrace (OnCatalog catalog))
    (w : EditWorld (OnCatalog catalog)) : Prop where
  /-- Of the edits that expect one version of an event, at most one commits. -/
  once : ∀ e v, tr.countP (CommitsOn e v) ≤ 1
  /-- A step leaves every event as it was, but for what an edit of that event names. -/
  named : ∀ x ∈ tr, ∀ ev ∈ x.1.events.rows, ∀ ev', x.2.2.events.find? ev.id = some ev' →
    ev' = ev ∨ ∃ f, x.1.edits x.2.1 = some f ∧ f.read.id = ev.id ∧ NamedOnly f.input ev ev'
  wellFormed : ∀ ev ∈ w.events.rows, WellFormed catalog ev
  /-- No edit attempts to write anything else: no constraint is what stops it. -/
  unforced : ∀ x ∈ tr, ∀ f, x.1.edits x.2.1 = some f → ∀ found ∈ x.1.events.rows,
    found.id = f.read.id → WellFormed catalog (f.leaves found)

/-- In every run of creations and edits under one catalogue in which every write finds what
    its checks rested on as they found it, edits are kept and events well formed. -/
theorem edits_not_lost {catalog : Catalog} {tr : EditTrace (OnCatalog catalog)}
    {w : EditWorld (OnCatalog catalog)}
    (h : Lib.Run EditWorld.Init EditWorld.Step Undisturbed tr w) : EditsKept catalog tr w where
  once e v := by
    rcases commitsOn_count h e v with hzero | ⟨hone, -⟩
    · omega
    · omega
  named := by
    refine h.steps (P := fun s m s' => ∀ ev ∈ s.events.rows, ∀ ev',
      s'.events.find? ev.id = some ev' → ev' = ev ∨ ∃ f, s.edits m = some f ∧ f.read.id = ev.id ∧
        NamedOnly f.input ev ev') ?_
    intro s m s' hreach hg hs ev hev ev' hev'
    rcases row_cases (EditSound.reach hreach) hg hs hev hev' with hsame | ⟨f, hf, hid, -, hnamed⟩
    · exact .inl hsame
    · exact .inr ⟨f, hf, hid, hnamed⟩
  wellFormed := (EditSound.reach h.reach).wellFormed
  unforced := by
    refine h.steps (P := fun s m s' => ∀ f, s.edits m = some f → ∀ found ∈ s.events.rows,
      found.id = f.read.id → WellFormed catalog (f.leaves found)) ?_
    intro s m s' hreach hg hs f hm found hmem hid
    exact EditWork.leaves_wellFormed (asChecked_of_edits hg hm hmem hid)
      ((EditSound.reach hreach).wellFormed found hmem)

/-- Three edits from three sessions, over one catalogue, all read before the first write. -/
def threeSessions (inputs : List (UpdateEventInput × Option Nat)) :
    List (EditMove (OnCatalog (demoEnv 0).catalog)) :=
  [.create (demoEnv 1) rfl 1 (demoEvent 100 2) false 7] ++
  (inputs.zipIdx.map fun x => .read x.2 (demoEnv 2) rfl 1 7 x.1.1 x.1.2) ++
  (inputs.zipIdx.map fun x => .write x.2)

/-- Edits of fields that have nothing to do with each other are all kept. -/
theorem edits_not_lost_apart : ∃ (tr : EditTrace (OnCatalog (demoEnv 0).catalog))
    (w : EditWorld (OnCatalog (demoEnv 0).catalog)), EditsKept (demoEnv 0).catalog tr w ∧
      w.events.rows.any (fun ev => ev.version = 3) = true := by
  have hplay : (runList EditWorld.exec EditWorld.initial (threeSessions
      [({ title := some "Cards tonight" }, some 0), ({ minAge := some 20 }, none),
       ({ startsAt := some (99 * msPerHour) }, none)])).any
        (fun w => w.events.rows.any fun ev => ev.version = 3) = true := by decide
  obtain ⟨w, hw, hversion⟩ := (Option.any_eq_true _ _).1 hplay
  have hrun := run_of_runList (G := Undisturbed) (g := fun w m => decide (Undisturbed w m))
    (fun _ _ _ h => h) (fun _ _ h => of_decide_eq_true h) (.start EditWorld.init_initial)
    (by decide) hw
  exact ⟨_, w, edits_not_lost hrun, hversion⟩

/-- Two edits that both expect version 0 commit, and a third, which was checked against the
    schedule it read, is stopped by the constraint on the schedule it would leave. -/
theorem edits_lost : ∃ (tr : EditTrace (OnCatalog (demoEnv 0).catalog))
    (w : EditWorld (OnCatalog (demoEnv 0).catalog)),
    Lib.Run EditWorld.Init EditWorld.Step (fun _ _ => True) tr w ∧ tr.countP (CommitsOn 7 0) = 2 ∧
    ∃ x ∈ tr, ∃ f ∈ x.1.edits x.2.1, ∃ found ∈ x.1.events.rows, found.id = f.read.id ∧
      ¬ (f.leaves found).startsAt < (f.leaves found).endsAt := by
  have hplay : (runList EditWorld.exec EditWorld.initial (threeSessions
      [({ title := some "Cards tonight" }, some 0), ({ endsAt := some (101 * msPerHour) }, some 0),
       ({ startsAt := some (101 * msPerHour) }, none)])).isSome = true := by decide
  obtain ⟨w, hw⟩ := Option.isSome_iff_exists.1 hplay
  have hrun := run_of_runList (G := fun _ _ => True) (g := fun _ _ => true)
    (fun _ _ _ h => h) (fun _ _ _ => trivial) (.start EditWorld.init_initial)
    (by decide) hw
  exact ⟨_, w, hrun, by decide, by decide +kernel⟩

end Paayatam
