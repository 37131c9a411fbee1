/-
  Paayatam.Booking.Screening

  What of a published event has been screened.

  An edit scans the text it was sent over the text it read, and writes only
  what it was sent.  Where another edit lands in between, what it scanned and
  what it leaves behind are different texts.
-/

import Paayatam.Booking.EventEdits

namespace Paayatam

open Lib

/-- Every text of the event was in the scanned content, but for white space around a label. -/
structure EventContent.Covers (c : EventContent) (ev : EventRow) : Prop where
  title : ev.title = c.title
  description : ev.description = c.description
  customCategoryLabel : ∀ l ∈ ev.customCategoryLabel, ∃ raw ∈ c.customCategoryLabel, l = trim raw
  districtLabel : ∀ l ∈ ev.districtLabel, ∃ raw ∈ c.districtLabel, l = trim raw

instance (c : EventContent) (ev : EventRow) : Decidable (c.Covers ev) :=
  decidable_of_iff (ev.title = c.title ∧ ev.description = c.description ∧
      (∀ l ∈ ev.customCategoryLabel, ∃ raw ∈ c.customCategoryLabel, l = trim raw) ∧
      (∀ l ∈ ev.districtLabel, ∃ raw ∈ c.districtLabel, l = trim raw))
    ⟨fun ⟨h₁, h₂, h₃, h₄⟩ => ⟨h₁, h₂, h₃, h₄⟩, fun ⟨h₁, h₂, h₃, h₄⟩ => ⟨h₁, h₂, h₃, h₄⟩⟩

/-- One moderation scan of an event's text. -/
structure Scan where
  event : EventId
  content : EventContent
  decision : ScanDecision

variable {Sees : Env → Prop}

/-- The scan run by the transaction that ends with the move. -/
def scanOf (x : EditWorld Sees × EditMove Sees × EditWorld Sees) : Option Scan :=
  match x.2.1 with
  | .create env _ _ input _ e =>
    (createContent env input).toOption.map fun c => ⟨e, c, env.scanEventContent c⟩
  | m => (x.1.edits m).bind fun f => f.plan.scanned.map fun d =>
    ⟨f.read.id, editContent f.input f.read f.plan.edit, d⟩

/-- The current text of the event, all of it, went through one scan that did not block it. -/
def Screened (tr : EditTrace Sees) (ev : EventRow) : Prop :=
  ∃ x ∈ tr, ∃ s ∈ scanOf x, s.event = ev.id ∧ s.decision ≠ .BLOCK ∧ s.content.Covers ev

instance (tr : EditTrace Sees) (ev : EventRow) :
    Decidable (Screened tr ev) :=
  inferInstanceAs (Decidable (∃ x ∈ tr, ∃ s ∈ scanOf x, _))

/-! ## The condition -/

/-- The words the edit leaves alone are those it read. -/
structure LeftAsRead (input : UpdateEventInput) (read found : EventRow) : Prop where
  title : input.title = none → found.title = read.title
  description : input.description = none → found.description = read.description
  customCategoryLabel : categoryTouched input read = false →
    found.customCategoryLabel = read.customCategoryLabel
  districtLabel : locationTouched input = false → found.districtLabel = read.districtLabel

/-- The words the edit writes back are those it read. -/
structure WrittenAsRead (input : UpdateEventInput) (read found : EventRow) : Prop where
  title : input.title.isSome = true → found.title = read.title
  description : input.description.isSome = true → found.description = read.description
  customCategoryLabel : categoryTouched input read = true →
    found.customCategoryLabel = read.customCategoryLabel
  districtLabel : locationTouched input = true → input.districtId = none →
    found.districtLabel = read.districtLabel

theorem LeftAsRead.refl (input : UpdateEventInput) (read : EventRow) : LeftAsRead input read read :=
  ⟨fun _ => rfl, fun _ => rfl, fun _ => rfl, fun _ => rfl⟩

theorem WrittenAsRead.refl (input : UpdateEventInput) (read : EventRow) :
    WrittenAsRead input read read :=
  ⟨fun _ => rfl, fun _ => rfl, fun _ => rfl, fun _ _ => rfl⟩

instance (input : UpdateEventInput) (read found : EventRow) :
    Decidable (LeftAsRead input read found) :=
  decidable_of_iff ((input.title.isNone = true → found.title = read.title) ∧
      (input.description.isNone = true → found.description = read.description) ∧
      (categoryTouched input read = false →
        found.customCategoryLabel = read.customCategoryLabel) ∧
      (locationTouched input = false → found.districtLabel = read.districtLabel))
    ⟨fun ⟨h₁, h₂, h₃, h₄⟩ => ⟨by simpa using h₁, by simpa using h₂, h₃, h₄⟩,
      fun ⟨h₁, h₂, h₃, h₄⟩ => ⟨by simpa using h₁, by simpa using h₂, h₃, h₄⟩⟩

instance (input : UpdateEventInput) (read found : EventRow) :
    Decidable (WrittenAsRead input read found) :=
  decidable_of_iff ((input.title.isSome = true → found.title = read.title) ∧
      (input.description.isSome = true → found.description = read.description) ∧
      (categoryTouched input read = true →
        found.customCategoryLabel = read.customCategoryLabel) ∧
      (locationTouched input = true → input.districtId = none →
        found.districtLabel = read.districtLabel))
    ⟨fun ⟨h₁, h₂, h₃, h₄⟩ => ⟨h₁, h₂, h₃, h₄⟩, fun ⟨h₁, h₂, h₃, h₄⟩ => ⟨h₁, h₂, h₃, h₄⟩⟩

/-- An edit that scanned leaves no other words than it read, unless it was blocked; one that
    did not scan writes no words over a published event's but those it read. -/
def Undistorted (w : EditWorld Sees) : EditMove Sees → Prop
  | .write i => ∀ f ∈ w.locals i, ∀ found ∈ w.events.rows, found.id = f.read.id →
      (contentChanged f.input f.read = true →
        f.plan.scanned = some .BLOCK ∨ LeftAsRead f.input f.read found) ∧
      (contentChanged f.input f.read = false → found.status = .PUBLISHED →
        WrittenAsRead f.input f.read found)
  | _ => True

instance (w : EditWorld Sees) : (m : EditMove Sees) → Decidable (Undistorted w m)
  | .write i => inferInstanceAs (Decidable (∀ f ∈ w.locals i, ∀ found ∈ w.events.rows, _))
  | .create .. => isTrue trivial
  | .edit .. => isTrue trivial
  | .read .. => isTrue trivial

/-! ## One edit -/

/-- What an edit scanned covers what it leaves, where it leaves the words it read. -/
theorem covers_of_scanned (f : EditWork Sees) {found : EventRow}
    (hleft : LeftAsRead f.input f.read found)
    (hlabel : Tidy found.customCategoryLabel) (hdistrict : Tidy found.districtLabel) :
    (editContent f.input f.read f.plan.edit).Covers (f.leaves found) where
  title := by
    rw [f.leaves_title]
    cases htitle : f.input.title with
    | none => simp [editContent, htitle, hleft.title htitle]
    | some t => simp [editContent, htitle]
  description := by
    rw [f.leaves_description]
    cases hdescription : f.input.description with
    | none => simp [editContent, hdescription, hleft.description hdescription]
    | some t => simp [editContent, hdescription]
  customCategoryLabel := by
    intro l hl
    rw [f.leaves_label] at hl
    split at hl
    · simp only [Option.mem_def, Option.filter_eq_some_iff, Option.map_eq_some_iff] at hl
      obtain ⟨⟨raw, hraw, rfl⟩, -⟩ := hl
      exact ⟨raw, hraw, rfl⟩
    · next htouched =>
        have huntouched : categoryTouched f.input f.read = false := by simpa using htouched
        have hunsent : f.input.customCategoryLabel = none := by
          simp only [categoryTouched, Bool.or_eq_false_iff] at huntouched
          simpa using huntouched.1.2
        have hcontent : (editContent f.input f.read f.plan.edit).customCategoryLabel =
            f.read.customCategoryLabel := by
          rw [editContent, hunsent]
          rfl
        refine ⟨l, ?_, (hlabel l hl).1.symm⟩
        rw [hcontent, ← hleft.customCategoryLabel huntouched]
        exact hl
  districtLabel := by
    intro l hl
    have htidy : Tidy (f.leaves found).districtLabel := (f.tidy_leaves hlabel hdistrict).2
    refine ⟨l, ?_, (htidy l hl).1.symm⟩
    rcases f.decided.location_cases with ⟨huntouched, hloc⟩ | ⟨htouched, hloc⟩
    · rw [f.leaves_districtLabel, if_neg (by simp [huntouched]),
        hleft.districtLabel huntouched] at hl
      rw [editContent, hloc]
      exact hl
    · rw [f.leaves_districtLabel, if_pos htouched] at hl
      rw [editContent, hloc]
      exact hl

/-- What covers the words an edit finds covers those it leaves, where it writes none but
    those it read. -/
theorem covers_of_unchanged (f : EditWork Sees) {found : EventRow} {c : EventContent}
    (hsame : contentChanged f.input f.read = false) (hwritten : WrittenAsRead f.input f.read found)
    (hlabel : Tidy found.customCategoryLabel) (hdistrict : Tidy found.districtLabel)
    (hc : c.Covers found) : c.Covers (f.leaves found) := by
  simp only [contentChanged, Bool.or_eq_false_iff] at hsame
  obtain ⟨⟨⟨htitle, hdescription⟩, hcustom⟩, htyped⟩ := hsame
  constructor
  · rw [f.leaves_title]
    cases ht : f.input.title with
    | none => exact hc.title
    | some t =>
        have hread : t = f.read.title := by simpa [ht] using htitle
        have hfound := hwritten.title (by simp [ht])
        rw [Option.getD_some, hread, ← hfound]
        exact hc.title
  · rw [f.leaves_description]
    cases hd : f.input.description with
    | none => exact hc.description
    | some t =>
        have hread : t = f.read.description := by simpa [hd] using hdescription
        have hfound := hwritten.description (by simp [hd])
        rw [Option.getD_some, hread, ← hfound]
        exact hc.description
  · rw [f.leaves_label]
    split
    · next htouched =>
        have hread : (f.input.customCategoryLabel <|> f.read.customCategoryLabel) =
            f.read.customCategoryLabel := by
          cases hl : f.input.customCategoryLabel with
          | none => rfl
          | some l =>
              have hsame : some l = f.read.customCategoryLabel := by simpa [hl] using hcustom
              rw [← hsame]
              rfl
        rw [hread, ← hwritten.customCategoryLabel htouched, hlabel.trimmed]
        exact hc.customCategoryLabel
    · exact hc.customCategoryLabel
  · rw [f.leaves_districtLabel]
    split
    · next htouched =>
        have hread : f.input.districtLabel.getD f.read.districtLabel = f.read.districtLabel := by
          cases hl : f.input.districtLabel with
          | none => rfl
          | some l => simpa [hl] using htyped
        rw [hread]
        unfold resolveNeighbourhood
        split
        · intro l hl
          cases hl
        · next hnone =>
            have hunsent : f.input.districtId = none := by simpa using hnone
            rw [← hwritten.districtLabel htouched hunsent, hdistrict.trimmed]
            exact hc.districtLabel
    · exact hc.districtLabel

/-! ## Runs -/

/-- Every row is tidy, and screened if it is published. -/
structure Screening (tr : EditTrace Sees)
    (w : EditWorld Sees) : Prop where
  tidyCustom : ∀ ev ∈ w.events.rows, Tidy ev.customCategoryLabel
  tidyDistrict : ∀ ev ∈ w.events.rows, Tidy ev.districtLabel
  screened : ∀ ev ∈ w.events.rows, ev.status = .PUBLISHED → Screened tr ev

theorem Screened.mono {tr tr' : EditTrace Sees}
    {ev : EventRow} (h : Screened tr ev) : Screened (tr ++ tr') ev := by
  obtain ⟨x, hx, s, hs⟩ := h
  exact ⟨x, List.mem_append_left _ hx, s, hs⟩

theorem ne_block_of_published {d : ScanDecision} (h : (outcomeFor d).status = .PUBLISHED) :
    d ≠ .BLOCK := by
  rintro rfl
  cases h

theorem Screening.step {tr : EditTrace Sees}
    {w w' : EditWorld Sees} {m : EditMove Sees} (h : Screening tr w) (hg : Undistorted w m)
    (hs : w.Step m w') : Screening (tr ++ [(w, m, w')]) w' := by
  cases EditWorld.step_turn hs with
  | still hsame =>
      constructor
      · rw [hsame]
        exact h.tidyCustom
      · rw [hsame]
        exact h.tidyDistrict
      · rw [hsame]
        exact fun ev hev hst => (h.screened ev hev hst).mono
  | @created env sees host input seeded e content ev hm hsane hev hrows =>
      have hcases : ∀ x ∈ w'.events.rows, x ∈ w.events.rows ∨ x = ev := by
        intro x hx
        rw [hrows] at hx
        simpa using hx
      constructor
      · intro x hx
        rcases hcases x hx with hx | rfl
        · exact h.tidyCustom x hx
        · exact hev.tidyCustom
      · intro x hx
        rcases hcases x hx with hx | rfl
        · exact h.tidyDistrict x hx
        · exact hev.tidyDistrict
      · intro x hx hst
        rcases hcases x hx with hx | rfl
        · exact (h.screened x hx hst).mono
        · have hscan : scanOf (w, m, w') = some ⟨e, content, env.scanEventContent content⟩ := by
            simp [scanOf, hm, hev.scanned, Except.toOption]
          rw [hev.status] at hst
          have hcovers : content.Covers x :=
            ⟨hev.title, hev.description,
              fun l hl => ⟨l, hev.customCategoryLabel ▸ hl, (hev.tidyCustom l hl).1.symm⟩,
              fun l hl => ⟨l, hev.districtLabel ▸ hl, (hev.tidyDistrict l hl).1.symm⟩⟩
          exact ⟨_, List.mem_append_right _ (List.mem_singleton.2 rfl), _, hscan, hev.id.symm,
            ne_block_of_published hst, hcovers⟩
  | @edited f found hm hid hfound hcommits hwrites =>
      have hlabel := h.tidyCustom found hwrites.mem
      have hdistrict := h.tidyDistrict found hwrites.mem
      constructor
      · intro x hx
        rcases hwrites.cases hx with rfl | ⟨hx, -⟩
        · exact (f.tidy_leaves hlabel hdistrict).1
        · exact h.tidyCustom x hx
      · intro x hx
        rcases hwrites.cases hx with rfl | ⟨hx, -⟩
        · exact (f.tidy_leaves hlabel hdistrict).2
        · exact h.tidyDistrict x hx
      · intro x hx hst
        rcases hwrites.cases hx with rfl | ⟨hx, -⟩
        · rw [f.leaves_status] at hst
          by_cases hchanged : contentChanged f.input f.read = true
          · have hverdict := f.decided.scanned
            rw [if_pos hchanged] at hverdict
            rw [hverdict] at hst
            have hne := ne_block_of_published hst
            have hleft : LeftAsRead f.input f.read found := by
              rcases hfound with rfl | ⟨i, rfl⟩
              · exact .refl _ _
              · refine ((hg f hm found hwrites.mem hid).1 hchanged).resolve_left fun hblock => ?_
                rw [hverdict] at hblock
                exact hne (Option.some.inj hblock)
            have hscan : scanOf (w, m, w') = some ⟨f.read.id, editContent f.input f.read f.plan.edit,
                f.env.scanEventContent (editContent f.input f.read f.plan.edit)⟩ := by
              unfold scanOf
              split
              · next hcreate =>
                  simp only at hcreate
                  subst hcreate
                  cases hm
              · simp [hm, hverdict]
            exact ⟨_, List.mem_append_right _ (List.mem_singleton.2 rfl), _, hscan, hid.symm, hne,
              covers_of_scanned f hleft hlabel hdistrict⟩
          · have hsame : contentChanged f.input f.read = false := by simpa using hchanged
            have hnone := f.decided.scanned
            rw [if_neg hchanged] at hnone
            rw [hnone] at hst
            have hwritten : WrittenAsRead f.input f.read found := by
              rcases hfound with rfl | ⟨i, rfl⟩
              · exact .refl _ _
              · exact (hg f hm found hwrites.mem hid).2 hsame hst
            obtain ⟨y, hy, s, hscan, hevent, hne, hcovers⟩ := h.screened found hwrites.mem hst
            exact ⟨y, List.mem_append_left _ hy, s, hscan, hevent, hne,
              covers_of_unchanged f hsame hwritten hlabel hdistrict hcovers⟩
        · exact (h.screened x hx hst).mono

theorem Screening.run {tr : EditTrace Sees}
    {w : EditWorld Sees} (h : Lib.Run EditWorld.Init EditWorld.Step Undistorted tr w) :
    Screening tr w := by
  induction h with
  | start hinit =>
      have hempty := hinit.1
      exact ⟨by simp [EditWorld.events, hempty], by simp [EditWorld.events, hempty],
        by simp [EditWorld.events, hempty]⟩
  | next _ hg hs ih => exact ih.step hg hs

/-- In every run of creations and edits in which no edit distorts the words of another, all
    the text of a published event went through one scan that did not block it. -/
theorem published_text_screened {tr : EditTrace Sees}
    {w : EditWorld Sees} (h : Lib.Run EditWorld.Init EditWorld.Step Undistorted tr w) :
    ∀ ev ∈ w.events.rows, ev.status = .PUBLISHED → Screened tr ev :=
  (Screening.run h).screened

/-- A title and a description that are clean apart, and blocked together. -/
def splitTermEnv (hours : Int) : Env :=
  { demoEnv hours with
    scanEventContent := fun c =>
      if c.title = "Cards tonight" ∧ c.description = "Bring cash, we play for it." then .BLOCK
      else .CLEAN }

/-- A host creates an evening and edits it from two sessions: the title from one, the
    description from the other. -/
def twoSessions (last : List (EditMove fun _ => True)) : List (EditMove fun _ => True) :=
  [.create (splitTermEnv 1) trivial 1 (demoEvent 100 2) false 7,
   .read 0 (splitTermEnv 2) trivial 1 7 { title := some "Cards tonight" } none] ++ last

/-- The second session reads after the first one wrote, and is blocked. -/
theorem published_text_screened_in_turn :
    ∃ (tr : EditTrace fun _ => True) (w : EditWorld fun _ => True), ∃ ev ∈ w.events.rows,
      ev.status = .PUBLISHED ∧ Screened tr ev := by
  have hplay : (runList EditWorld.exec EditWorld.initial (twoSessions
      [.write 0, .read 1 (splitTermEnv 3) trivial 1 7 { minAge := some 20 } (some 1),
       .write 1])).any (fun w => w.events.rows.any fun ev => decide (ev.status = .PUBLISHED)) = true := by
    decide
  obtain ⟨w, hw, hrow⟩ := (Option.any_eq_true _ _).1 hplay
  obtain ⟨ev, hev, hst⟩ := List.any_eq_true.1 hrow
  have hrun := run_of_runList (G := Undistorted) (g := fun w m => decide (Undistorted w m))
    (fun _ _ _ h => h) (fun _ _ h => of_decide_eq_true h) (.start EditWorld.init_initial)
    (by decide) hw
  exact ⟨_, w, ev, hev, of_decide_eq_true hst,
    published_text_screened hrun ev hev (of_decide_eq_true hst)⟩

/-- Both sessions read first: each edit is clean, and the event is published with a text no
    scan has seen, which a scan would block. -/
theorem published_text_unscreened : ∃ (tr : EditTrace fun _ => True)
    (w : EditWorld fun _ => True) (ev : EventRow),
    Lib.Run EditWorld.Init EditWorld.Step (fun _ _ => True) tr w ∧ ev ∈ w.events.rows ∧
    ev.status = .PUBLISHED ∧ ¬ Screened tr ev := by
  have hplay : (runList EditWorld.exec EditWorld.initial (twoSessions
      [.read 1 (splitTermEnv 2) trivial 1 7
        { description := some "Bring cash, we play for it." } none,
       .write 0, .write 1])).any (fun w => w.events.rows.any fun ev =>
        decide (ev.status = .PUBLISHED) && !decide (Screened (traceList EditWorld.exec
          EditWorld.initial (twoSessions
          [.read 1 (splitTermEnv 2) trivial 1 7
            { description := some "Bring cash, we play for it." } none,
           .write 0, .write 1])) ev)) = true := by decide
  obtain ⟨w, hw, hrow⟩ := (Option.any_eq_true _ _).1 hplay
  obtain ⟨ev, hev, hst⟩ := List.any_eq_true.1 hrow
  simp only [Bool.and_eq_true, decide_eq_true_eq, Bool.not_eq_true', decide_eq_false_iff_not] at hst
  have hrun := run_of_runList (G := fun _ _ => True) (g := fun _ _ => true)
    (fun _ _ _ h => h) (fun _ _ _ => trivial) (.start EditWorld.init_initial)
    (by decide) hw
  exact ⟨_, w, ev, hrun, hev, hst.1, hst.2⟩

end Paayatam
