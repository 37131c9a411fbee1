/-
  Paayatam.Policy.Versions

  `PolicyAdminService`: the versions of the legal documents, and how they are
  drafted, edited, published and archived.

  Creating a draft reads twice before it inserts; publishing and archiving read a
  version and then update it by id.  Only an edit of a draft conditions its write
  on what it read.  The table adds what it can: a number is used once for each
  type, one version of each type is current, and a current version is published.
-/

import Paayatam.Env
import Paayatam.Lib.System
import Paayatam.Lib.Threads

namespace Paayatam

open Lib

namespace Policy

inductive PolicyType where
  | TERMS | PRIVACY | COMMUNITY
  deriving DecidableEq

inductive PolicyStatus where
  | DRAFT | PUBLISHED | ARCHIVED
  deriving DecidableEq

abbrev PolicyId := Nat

/-- What a version says. -/
structure PolicyText where
  titleFa : Option String
  contentMd : String
  summaryFa : Option String
  changeSummaryFa : Option String
  deriving DecidableEq

/-- `policy_version`. -/
structure PolicyVersionRow where
  id : PolicyId
  type : PolicyType
  version : Nat
  status : PolicyStatus
  text : PolicyText
  isCurrent : Bool
  publishedAt : Instant
  archivedAt : Option Instant
  revision : Nat
  deriving DecidableEq

/-- The `CHECK` constraints of `policy_version`. -/
def PolicyVersionRow.constraints (r : PolicyVersionRow) : Bool :=
  -- policy_version_version_positive
  decide (0 < r.version) &&
  -- policy_version_current_is_published
  (!r.isCurrent || decide (r.status = .PUBLISHED)) &&
  -- policy_version_archived_has_timestamp
  decide (r.status = .ARCHIVED) == r.archivedAt.isSome

instance : Row PolicyVersionRow PolicyId where
  key r := r.id
  check := PolicyVersionRow.constraints
  -- UNIQUE (type, version), UNIQUE (type) WHERE is_current
  collide r q := decide (r.type = q.type) &&
    (decide (r.version = q.version) || (r.isCurrent && q.isCurrent))
  collide_comm r q := by
    simp [eq_comm, Bool.and_comm]

abbrev PolicyTable := Table PolicyVersionRow

inductive PolicyError where
  | NOT_FOUND | FORBIDDEN | VALIDATION_FAILED
  | POLICY_DRAFT_EXISTS | POLICY_NOT_EDITABLE | POLICY_CONFIRMATION_MISMATCH | POLICY_IS_CURRENT
  | INVALID_STATE_TRANSITION | CONFLICT_STALE_VERSION

/-! ## Reads and writes -/

def hasDraft (t : PolicyTable) (type : PolicyType) : Bool :=
  t.rows.any fun r => decide (r.type = type) && decide (r.status = .DRAFT)

/-- The number of the latest version of the type, 0 when there is none. -/
def latestVersion (t : PolicyTable) (type : PolicyType) : Nat :=
  ((t.rows.filter fun r => decide (r.type = type)).map (·.version)).foldr max 0

/-- The row `createDraft` inserts. -/
def draftRow (id : PolicyId) (type : PolicyType) (version : Nat) (text : PolicyText)
    (now : Instant) : PolicyVersionRow where
  id := id
  type := type
  version := version
  status := .DRAFT
  text := text
  isCurrent := false
  publishedAt := now
  archivedAt := none
  revision := 0

/-- What an edit sets; a field left out stays. -/
structure DraftEdit where
  titleFa : Option String
  contentMd : Option String
  summaryFa : Option (Option String)
  changeSummaryFa : Option (Option String)

def DraftEdit.apply (e : DraftEdit) (text : PolicyText) : PolicyText where
  titleFa := e.titleFa <|> text.titleFa
  contentMd := e.contentMd.getD text.contentMd
  summaryFa := e.summaryFa.getD text.summaryFa
  changeSummaryFa := e.changeSummaryFa.getD text.changeSummaryFa

def PolicyVersionRow.edited (e : DraftEdit) (r : PolicyVersionRow) : PolicyVersionRow :=
  { r with text := e.apply r.text, revision := r.revision + 1 }

/-- The condition of the edit's own update. -/
def editable (id : PolicyId) (expectedRevision : Nat) (r : PolicyVersionRow) : Bool :=
  decide (r.id = id) && decide (r.status = .DRAFT) && decide (r.revision = expectedRevision)

def PolicyVersionRow.superseded (r : PolicyVersionRow) : PolicyVersionRow :=
  { r with isCurrent := false }

def PolicyVersionRow.published (now : Instant) (r : PolicyVersionRow) : PolicyVersionRow :=
  { r with status := .PUBLISHED, isCurrent := true, publishedAt := now, revision := r.revision + 1 }

def PolicyVersionRow.archived (now : Instant) (r : PolicyVersionRow) : PolicyVersionRow :=
  { r with status := .ARCHIVED, archivedAt := some now, revision := r.revision + 1 }

/-- What `publish` asks of the draft it has read. -/
def mayPublish (draft : PolicyVersionRow) (confirmVersion : Nat) : Except PolicyError Unit := do
  if draft.status ≠ .DRAFT then throw .POLICY_NOT_EDITABLE
  if draft.version ≠ confirmVersion then throw .POLICY_CONFIRMATION_MISMATCH
  if trim draft.text.contentMd = "" then throw .VALIDATION_FAILED

/-- The transaction of `publish`, after its read: the incumbent steps down, and the version
    becomes current, unless the table refuses. -/
def publishRow (t : PolicyTable) (draft : PolicyVersionRow) (now : Instant) :
    Except DbError PolicyTable := do
  let cleared ← t.updateMany (fun r => decide (r.type = draft.type) && r.isCurrent)
    PolicyVersionRow.superseded
  cleared.update draft.id (PolicyVersionRow.published now)

/-- What `archive` asks of the version it has read. -/
def mayArchive (before : PolicyVersionRow) : Except PolicyError Unit := do
  if before.isCurrent = true then throw .POLICY_IS_CURRENT
  if before.status = .ARCHIVED then throw .INVALID_STATE_TRANSITION

/-- At most one draft of each type. -/
def OneDraft (t : PolicyTable) : Prop :=
  ∀ r ∈ t.rows, ∀ q ∈ t.rows, r.type = q.type → r.status = .DRAFT → q.status = .DRAFT → r = q

/-! ## Operators at work -/

/-- How far a call has come. -/
inductive PolicyWork where
  /-- `createDraft` has found no open draft. -/
  | drafting (type : PolicyType) (text : PolicyText)
  /-- It has its number. -/
  | numbered (type : PolicyType) (version : Nat) (text : PolicyText)
  | editing (id : PolicyId) (expectedRevision : Nat) (edit : DraftEdit)
  | publishing (draft : PolicyVersionRow)
  | archiving (id : PolicyId)

/-- The table, and beside it what each publication had read. -/
structure PolicyStore where
  table : PolicyTable
  published : List (PolicyId × PolicyText)

inductive PolicyMove (ι : Type) where
  | createDraft (i : ι) (type : PolicyType) (text : PolicyText)
  | number (i : ι)
  | insert (i : ι) (now : Instant)
  | updateDraft (i : ι) (id : PolicyId) (expectedRevision : Nat) (edit : DraftEdit)
  | write (i : ι)
  | publish (i : ι) (id : PolicyId) (confirmVersion : Nat) (reason : String)
  | commit (i : ι) (now : Instant)
  | archive (i : ι) (id : PolicyId) (reason : String)
  | retire (i : ι) (now : Instant)
  | abort (i : ι)

abbrev PolicyWorld (ι : Type) := Threads ι PolicyStore (Option PolicyWork)

namespace PolicyWorld

variable {ι : Type} [DecidableEq ι]

/-- Call `i` writes the table, or is refused by it. -/
def written (w : PolicyWorld ι) (i : ι) : Except DbError PolicyTable → PolicyWorld ι
  | .ok table => w.set i { w.shared with table := table } none
  | .error _ => w.set i w.shared none

def exec (w : PolicyWorld ι) : PolicyMove ι → Option (PolicyWorld ι)
  | .createDraft i type text =>
    match w.locals i with
    | none =>
      if hasDraft w.shared.table type = true then some w
      else some (w.set i w.shared (some (.drafting type text)))
    | some _ => none
  | .number i =>
    match w.locals i with
    | some (.drafting type text) =>
      some (w.set i w.shared
        (some (.numbered type (latestVersion w.shared.table type + 1) text)))
    | _ => none
  | .insert i now =>
    match w.locals i with
    | some (.numbered type version text) =>
      let id := freshId (w.shared.table.rows.map (·.id))
      some (w.written i (w.shared.table.insert (draftRow id type version text now)))
    | _ => none
  | .updateDraft i id expectedRevision edit =>
    match w.locals i, w.shared.table.find? id with
    | none, some before =>
      if before.status = .DRAFT then
        some (w.set i w.shared (some (.editing id expectedRevision edit)))
      else some w
    | none, none => some w
    | some _, _ => none
  | .write i =>
    match w.locals i with
    | some (.editing id expectedRevision edit) =>
      some (w.written i (w.shared.table.updateMany (editable id expectedRevision)
        (PolicyVersionRow.edited edit)))
    | _ => none
  | .publish i id confirmVersion reason =>
    match w.locals i, w.shared.table.find? id with
    | none, some draft =>
      if utf16Length (trim reason) < 3 then some w
      else match mayPublish draft confirmVersion with
        | .ok () => some (w.set i w.shared (some (.publishing draft)))
        | .error _ => some w
    | none, none => some w
    | some _, _ => none
  | .commit i now =>
    match w.locals i with
    | some (.publishing draft) =>
      match publishRow w.shared.table draft now with
      | .ok table => some (w.set i ⟨table, (draft.id, draft.text) :: w.shared.published⟩ none)
      | .error _ => some (w.set i w.shared none)
    | _ => none
  | .archive i id reason =>
    match w.locals i, w.shared.table.find? id with
    | none, some before =>
      if utf16Length (trim reason) < 3 then some w
      else match mayArchive before with
        | .ok () => some (w.set i w.shared (some (.archiving id)))
        | .error _ => some w
    | none, none => some w
    | some _, _ => none
  | .retire i now =>
    match w.locals i with
    | some (.archiving id) =>
      some (w.written i (w.shared.table.update id (PolicyVersionRow.archived now)))
    | _ => none
  | .abort i => some (w.set i w.shared none)

def Step (w : PolicyWorld ι) (m : PolicyMove ι) (w' : PolicyWorld ι) : Prop := w.exec m = some w'

def Init (w : PolicyWorld ι) : Prop :=
  OneDraft w.shared.table ∧ w.shared.published = [] ∧ ∀ i, w.locals i = none

/-- No draft is inserted between the two reads of a `createDraft`, and no edit is written while
    a publication of that version is under way. -/
def Undisturbed (w : PolicyWorld ι) : PolicyMove ι → Prop
  | .number i => ∀ type text, w.locals i = some (.drafting type text) →
      hasDraft w.shared.table type = false
  | .write i => ∀ id revision edit, w.locals i = some (.editing id revision edit) →
      (∃ r ∈ w.shared.table.rows, editable id revision r = true) →
      ∀ j draft, w.locals j = some (.publishing draft) → draft.id ≠ id
  | _ => True

end PolicyWorld

/-! ## What a write leaves -/

/-- `r'` is a later state of `r`: its number stays, it does not become a draft again, and once
    it is none its text stays. -/
structure PolicyVersionRow.Later (r r' : PolicyVersionRow) : Prop where
  id : r'.id = r.id
  type : r'.type = r.type
  version : r'.version = r.version
  status : r'.status = .DRAFT → r.status = .DRAFT
  text : r.status ≠ .DRAFT → r'.text = r.text

theorem PolicyVersionRow.Later.refl (r : PolicyVersionRow) : r.Later r :=
  ⟨rfl, rfl, rfl, fun h => h, fun _ => rfl⟩

theorem PolicyVersionRow.Later.trans {r r' r'' : PolicyVersionRow} (h : r.Later r')
    (h' : r'.Later r'') : r.Later r'' where
  id := h'.id.trans h.id
  type := h'.type.trans h.type
  version := h'.version.trans h.version
  status hs := h.status (h'.status hs)
  text hs := (h'.text fun hd => hs (h.status hd)).trans (h.text hs)

/-- The rows of `t` are those of `t'`, each in a later state, and a type with a current version
    keeps one. -/
structure Evolves (t t' : PolicyTable) : Prop where
  kept : ∀ r ∈ t.rows, ∃ r' ∈ t'.rows, r.Later r'
  source : ∀ r' ∈ t'.rows, ∃ r ∈ t.rows, r.Later r'
  current : ∀ r ∈ t.rows, r.isCurrent = true →
    ∃ r' ∈ t'.rows, r'.type = r.type ∧ r'.isCurrent = true

/-- The texts of the versions that satisfy `p` stay. -/
def KeepsText (p : PolicyVersionRow → Prop) (t t' : PolicyTable) : Prop :=
  ∀ r ∈ t.rows, p r → ∃ r' ∈ t'.rows, r'.id = r.id ∧ r'.text = r.text

section Writes

variable {t t' : PolicyTable} {g : PolicyVersionRow → PolicyVersionRow} {id : PolicyId}
  {now : Instant} {type : PolicyType} {v : Nat}

theorem Evolves.of_map (h : t'.rows = t.rows.map g) (hlater : ∀ r : PolicyVersionRow, r.Later (g r))
    (hcurrent : ∀ r ∈ t.rows, r.isCurrent = true →
      ∃ r' ∈ t'.rows, r'.type = r.type ∧ r'.isCurrent = true) : Evolves t t' where
  kept r hr := ⟨g r, by rw [h]; exact List.mem_map_of_mem hr, hlater r⟩
  source r' hr' := by
    rw [h] at hr'
    obtain ⟨r, hr, rfl⟩ := List.mem_map.1 hr'
    exact ⟨r, hr, hlater r⟩
  current := hcurrent

theorem keepsText_of_map {p : PolicyVersionRow → Prop} (h : t'.rows = t.rows.map g)
    (hlater : ∀ r : PolicyVersionRow, r.Later (g r)) (htext : ∀ r, p r → (g r).text = r.text) :
    KeepsText p t t' :=
  fun r hr hp => ⟨g r, by rw [h]; exact List.mem_map_of_mem hr, (hlater r).id, htext r hp⟩

theorem later_edited {e : DraftEdit} {n : Nat} (r : PolicyVersionRow) :
    r.Later (Table.updateIf (editable id n) (PolicyVersionRow.edited e) r) := by
  unfold Table.updateIf
  split
  · next hr =>
      simp only [editable, Bool.and_eq_true, decide_eq_true_eq] at hr
      exact ⟨rfl, rfl, rfl, fun h => h, fun h => absurd hr.1.2 h⟩
  · exact .refl r

theorem later_superseded {p : PolicyVersionRow → Bool} (r : PolicyVersionRow) :
    r.Later (Table.updateIf p PolicyVersionRow.superseded r) := by
  unfold Table.updateIf
  split
  · exact ⟨rfl, rfl, rfl, fun h => h, fun _ => rfl⟩
  · exact .refl r

theorem later_published (r : PolicyVersionRow) :
    r.Later (Table.updateAt id (PolicyVersionRow.published now) r) := by
  unfold Table.updateAt
  split
  · exact ⟨rfl, rfl, rfl, nofun, fun _ => rfl⟩
  · exact .refl r

theorem later_archived (r : PolicyVersionRow) :
    r.Later (Table.updateAt id (PolicyVersionRow.archived now) r) := by
  unfold Table.updateAt
  split
  · exact ⟨rfl, rfl, rfl, nofun, fun _ => rfl⟩
  · exact .refl r

/-- An edit changes the text of what it may edit. -/
theorem edit_evolves {e : DraftEdit} {n : Nat}
    (h : t.updateMany (editable id n) (PolicyVersionRow.edited e) = .ok t') :
    Evolves t t' ∧ KeepsText (fun r => editable id n r = false) t t' := by
  have hrows := Table.updateMany_eq_ok.1 h
  refine ⟨Evolves.of_map hrows later_edited fun r hr hc => ?_,
    keepsText_of_map hrows later_edited fun r hr => ?_⟩
  · refine ⟨_, by rw [hrows]; exact List.mem_map_of_mem hr, (later_edited r).type, ?_⟩
    unfold Table.updateIf
    split <;> exact hc
  · simp [Table.updateIf, hr]

theorem archive_evolves (h : t.update id (PolicyVersionRow.archived now) = .ok t') :
    Evolves t t' ∧ KeepsText (fun _ => True) t t' := by
  obtain ⟨r₀, hr₀, hw⟩ := Table.update_eq_ok.1 h
  have hrows := hw.rows
  refine ⟨Evolves.of_map hrows later_archived fun r hr hc => ?_,
    keepsText_of_map hrows later_archived fun r _ => ?_⟩
  · refine ⟨_, by rw [hrows]; exact List.mem_map_of_mem hr, (later_archived r).type, ?_⟩
    unfold Table.updateAt
    split <;> exact hc
  · unfold Table.updateAt
    split <;> rfl

/-- A publication makes the version it publishes the current one. -/
theorem publishRow_evolves {draft : PolicyVersionRow} (h : publishRow t draft now = .ok t')
    (hread : ∃ r ∈ t.rows, draft.Later r) :
    Evolves t t' ∧ KeepsText (fun _ => True) t t' ∧
      ∃ r' ∈ t'.rows, r'.id = draft.id ∧ r'.type = draft.type ∧ r'.isCurrent = true := by
  obtain ⟨row, hrow, hlaterRow⟩ := hread
  obtain ⟨t₁, hcleared, hupdate⟩ : ∃ t₁, t.updateMany
      (fun r => decide (r.type = draft.type) && r.isCurrent) PolicyVersionRow.superseded = .ok t₁ ∧
      t₁.update draft.id (PolicyVersionRow.published now) = .ok t' := by
    cases hcleared : t.updateMany (fun r => decide (r.type = draft.type) && r.isCurrent)
        PolicyVersionRow.superseded with
    | error e => simp [publishRow, hcleared, bind, Except.bind] at h
    | ok t₁ => exact ⟨t₁, rfl, by simpa [publishRow, hcleared, bind, Except.bind] using h⟩
  have hrows₁ := Table.updateMany_eq_ok.1 hcleared
  obtain ⟨r₀, hr₀, hw⟩ := Table.update_eq_ok.1 hupdate
  have hkey : r₀.id = draft.id := Table.key_of_find? hr₀
  have hrows : t'.rows = t.rows.map fun r =>
      Table.updateAt draft.id (PolicyVersionRow.published now)
        (Table.updateIf (fun r => decide (r.type = draft.type) && r.isCurrent)
          PolicyVersionRow.superseded r) := by
    have hall := hw.rows
    rw [show (Row.key r₀ : PolicyId) = draft.id from hkey, hrows₁, List.map_map] at hall
    exact hall
  have hlater : ∀ r : PolicyVersionRow, r.Later
      (Table.updateAt draft.id (PolicyVersionRow.published now)
        (Table.updateIf (fun r => decide (r.type = draft.type) && r.isCurrent)
          PolicyVersionRow.superseded r)) :=
    fun r => (later_superseded r).trans (later_published _)
  have hnew : ∃ r' ∈ t'.rows, r'.id = draft.id ∧ r'.type = draft.type ∧ r'.isCurrent = true := by
    refine ⟨_, by rw [hrows]; exact List.mem_map_of_mem hrow, (hlater row).id.trans hlaterRow.id,
      (hlater row).type.trans hlaterRow.type, ?_⟩
    rw [Table.updateAt_self]
    · rfl
    · exact (later_superseded row).id.trans hlaterRow.id
  refine ⟨Evolves.of_map hrows hlater fun r hr hc => ?_,
    keepsText_of_map hrows hlater fun r _ => ?_, hnew⟩
  · by_cases htype : r.type = draft.type
    · obtain ⟨r', hr', -, ht, hc'⟩ := hnew
      exact ⟨r', hr', ht.trans htype.symm, hc'⟩
    · refine ⟨_, by rw [hrows]; exact List.mem_map_of_mem hr, (hlater r).type, ?_⟩
      rw [Table.updateIf, if_neg (by simp [htype]), Table.updateAt]
      split
      · rfl
      · exact hc
  · unfold Table.updateAt Table.updateIf
    split <;> split <;> rfl

/-! ## Drafts and numbers -/

theorem hasDraft_eq_false : hasDraft t type = false ↔
    ∀ r ∈ t.rows, r.type = type → r.status ≠ .DRAFT := by
  simp [hasDraft]

theorem foldr_max_le {l : List Nat} {n : Nat} : l.foldr max 0 ≤ n ↔ ∀ x ∈ l, x ≤ n := by
  induction l with
  | nil => simp
  | cons x l ih => simp [ih]

theorem latestVersion_le {n : Nat} : latestVersion t type ≤ n ↔
    ∀ r ∈ t.rows, r.type = type → r.version ≤ n := by
  rw [latestVersion, foldr_max_le]
  simp only [List.mem_map, List.mem_filter, decide_eq_true_eq]
  exact ⟨fun h r hr ht => h _ ⟨r, ⟨hr, ht⟩, rfl⟩, fun h _ ⟨r, hr, hx⟩ => hx ▸ h r hr.1 hr.2⟩

theorem Evolves.hasDraft (h : Evolves t t') (hnone : hasDraft t type = false) :
    hasDraft t' type = false := by
  rw [hasDraft_eq_false] at hnone ⊢
  intro r' hr' htype hdraft
  obtain ⟨r, hr, hlater⟩ := h.source r' hr'
  exact hnone r hr (hlater.type.symm.trans htype) (hlater.status hdraft)

theorem Evolves.latestVersion (h : Evolves t t') :
    latestVersion t' type = latestVersion t type := by
  apply Nat.le_antisymm
  · rw [latestVersion_le]
    intro r' hr' htype
    obtain ⟨r, hr, hlater⟩ := h.source r' hr'
    rw [hlater.version]
    exact latestVersion_le.1 (Nat.le_refl _) r hr (hlater.type.symm.trans htype)
  · rw [latestVersion_le]
    intro r hr htype
    obtain ⟨r', hr', hlater⟩ := h.kept r hr
    rw [← hlater.version]
    exact latestVersion_le.1 (Nat.le_refl _) r' hr' (hlater.type.trans htype)

/-- What the holder of a number relies on: there is no draft and the number is the next one, or
    somebody has taken it. -/
def Numbered (t : PolicyTable) (type : PolicyType) (v : Nat) : Prop :=
  (hasDraft t type = false ∧ latestVersion t type + 1 = v) ∨
    ∃ r ∈ t.rows, r.type = type ∧ r.version = v

theorem Evolves.numbered (h : Evolves t t') (hn : Numbered t type v) : Numbered t' type v := by
  rcases hn with ⟨hnone, hnext⟩ | ⟨r, hr, htype, hv⟩
  · exact .inl ⟨h.hasDraft hnone, by rw [h.latestVersion]; exact hnext⟩
  · obtain ⟨r', hr', hlater⟩ := h.kept r hr
    exact .inr ⟨r', hr', hlater.type.trans htype, hlater.version.trans hv⟩

theorem Evolves.oneDraft (h : Evolves t t') (ho : OneDraft t) : OneDraft t' := by
  intro r' hr' q' hq' htype hr hq
  obtain ⟨r, hrmem, hrl⟩ := h.source r' hr'
  obtain ⟨q, hqmem, hql⟩ := h.source q' hq'
  have heq : r = q := ho r hrmem q hqmem (hrl.type.symm.trans (htype.trans hql.type))
    (hrl.status hr) (hql.status hq)
  apply Table.eq_of_key hr' hq'
  show r'.id = q'.id
  rw [hrl.id, hql.id, heq]

/-! ## A new draft -/

section Insert

variable {n : Nat} {text : PolicyText}

/-- A number is used once. -/
theorem untaken (h : t'.rows = t.rows ++ [draftRow id type v text now]) :
    ∀ r ∈ t.rows, ¬ (r.type = type ∧ r.version = v) := by
  rintro r hr ⟨htype, hv⟩
  have hc := (Table.compatible_of_insert h hr).2
  simp [Row.collide, draftRow, htype, hv] at hc

theorem insert_oneDraft (h : t'.rows = t.rows ++ [draftRow id type v text now])
    (hnone : hasDraft t type = false) (ho : OneDraft t) : OneDraft t' := by
  rw [hasDraft_eq_false] at hnone
  intro r hr q hq htype hrd hqd
  rw [h] at hr hq
  rcases List.mem_append.1 hr with hr | hr <;> rcases List.mem_append.1 hq with hq | hq
  · exact ho r hr q hq htype hrd hqd
  · obtain rfl := List.mem_singleton.1 hq
    exact absurd hrd (hnone r hr htype)
  · obtain rfl := List.mem_singleton.1 hr
    exact absurd hqd (hnone q hq htype.symm)
  · exact (List.mem_singleton.1 hr).trans (List.mem_singleton.1 hq).symm

/-- Another's number survives an insert: a draft of the same type was the next one for both. -/
theorem insert_numbered (h : t'.rows = t.rows ++ [draftRow id type v text now])
    (hnone : hasDraft t type = false) (hnext : latestVersion t type + 1 = v)
    {type' : PolicyType} (hn : Numbered t type' n) : Numbered t' type' n := by
  rcases hn with ⟨hnone', hnext'⟩ | ⟨r, hr, htype, hv⟩
  · by_cases htype : type' = type
    · subst htype
      exact .inr ⟨draftRow id type' v text now, by simp [h], rfl, hnext.symm.trans hnext'⟩
    · refine .inl ⟨?_, ?_⟩
      · rw [hasDraft_eq_false] at hnone' ⊢
        intro r hr hrt
        rw [h] at hr
        rcases List.mem_append.1 hr with hr | hr
        · exact hnone' r hr hrt
        · obtain rfl := List.mem_singleton.1 hr
          exact absurd hrt.symm htype
      · rw [← hnext']
        congr 1
        simp only [latestVersion, h, List.filter_append, draftRow]
        simp [Ne.symm htype]
  · exact .inr ⟨r, by rw [h]; exact List.mem_append_left _ hr, htype, hv⟩

end Insert

end Writes

/-! ## Every run -/

/-- What a call has read is still so, as far as its write relies on it. -/
def PolicyWork.Good (t : PolicyTable) : PolicyWork → Prop
  | .numbered type v _ => Numbered t type v
  | .publishing draft => ∃ r ∈ t.rows, draft.Later r ∧ r.text = draft.text
  | _ => True

/-- The table holds what each publication read, and something to accept in its place. -/
def Accounted (s : PolicyStore) : Prop :=
  ∀ p ∈ s.published, ∃ r ∈ s.table.rows, r.id = p.1 ∧ r.text = p.2 ∧ r.status ≠ .DRAFT ∧
    ∃ q ∈ s.table.rows, q.type = r.type ∧ q.isCurrent = true

/-- The versions of `t₀` are those of `t`, each in a later state, and a type that had a current
    version has one. -/
structure Descends (t₀ t : PolicyTable) : Prop where
  kept : ∀ r ∈ t₀.rows, ∃ r' ∈ t.rows, r.Later r'
  current : ∀ r ∈ t₀.rows, r.isCurrent = true →
    ∃ r' ∈ t.rows, r'.type = r.type ∧ r'.isCurrent = true

/-- What holds of the versions of each type. -/
structure VersionsKept (s : PolicyStore) : Prop where
  oneDraft : OneDraft s.table
  oneCurrent : ∀ r ∈ s.table.rows, ∀ q ∈ s.table.rows, r.type = q.type →
    r.isCurrent = true → q.isCurrent = true → r = q
  published : ∀ r ∈ s.table.rows, r.isCurrent = true → r.status = .PUBLISHED
  accounted : Accounted s

section Runs

variable {ι : Type} [DecidableEq ι] {w w' w₀ : PolicyWorld ι} {m : PolicyMove ι} {i : ι}
  {t₀ t t' : PolicyTable}

/-- The store, and what every call at work relies on. -/
abbrev PolicySound (t₀ : PolicyTable) (w : PolicyWorld ι) : Prop :=
  w.Holds (fun s => OneDraft s.table ∧ Accounted s ∧ Descends t₀ s.table)
    (fun s l => ∀ work, l = some work → work.Good s.table) fun _ _ => True

theorem Descends.evolves (h : Descends t₀ t) (he : Evolves t t') : Descends t₀ t' where
  kept r hr := by
    obtain ⟨r', hr', hlater⟩ := h.kept r hr
    obtain ⟨r'', hr'', hlater'⟩ := he.kept r' hr'
    exact ⟨r'', hr'', hlater.trans hlater'⟩
  current r hr hc := by
    obtain ⟨r', hr', htype, hc'⟩ := h.current r hr hc
    obtain ⟨r'', hr'', htype', hc''⟩ := he.current r' hr' hc'
    exact ⟨r'', hr'', htype'.trans htype, hc''⟩

theorem Descends.append {r : PolicyVersionRow} (h : Descends t₀ t)
    (hrows : t'.rows = t.rows ++ [r]) : Descends t₀ t' := by
  have hmem : ∀ x ∈ t.rows, x ∈ t'.rows := fun x hx => by simp [hrows, hx]
  refine ⟨fun r hr => ?_, fun r hr hc => ?_⟩
  · obtain ⟨r', hr', hlater⟩ := h.kept r hr
    exact ⟨r', hmem r' hr', hlater⟩
  · obtain ⟨r', hr', hc'⟩ := h.current r hr hc
    exact ⟨r', hmem r' hr', hc'⟩

theorem current_published {r : PolicyVersionRow} (hr : r ∈ t.rows) (hc : r.isCurrent = true) :
    r.status = .PUBLISHED := by
  have hcheck := t.valid r hr
  simp only [Row.check, PolicyVersionRow.constraints, hc, Bool.and_eq_true] at hcheck
  simpa using hcheck.1.2

theorem one_current {r q : PolicyVersionRow} (hr : r ∈ t.rows) (hq : q ∈ t.rows)
    (htype : r.type = q.type) (hrc : r.isCurrent = true) (hqc : q.isCurrent = true) : r = q := by
  apply Table.eq_of_collide hr hq
  simp [Row.collide, htype, hrc, hqc]

theorem Evolves.accounted {p : List (PolicyId × PolicyText)} (h : Evolves t t')
    (ha : Accounted ⟨t, p⟩) : Accounted ⟨t', p⟩ := by
  intro x hx
  obtain ⟨r, hr, hid, htext, hstatus, q, hq, hqt, hqc⟩ := ha x hx
  obtain ⟨r', hr', hlater⟩ := h.kept r hr
  obtain ⟨q', hq', hqt', hqc'⟩ := h.current q hq hqc
  exact ⟨r', hr', hlater.id.trans hid, (hlater.text hstatus).trans htext,
    fun hd => hstatus (hlater.status hd), q', hq', hqt'.trans (hqt.trans hlater.type.symm), hqc'⟩

theorem PolicyWork.Good.evolves {work : PolicyWork} {p : PolicyVersionRow → Prop}
    (h : work.Good t) (he : Evolves t t') (hk : KeepsText p t t')
    (hp : ∀ draft, work = .publishing draft → ∀ r ∈ t.rows, r.id = draft.id → p r) :
    work.Good t' := by
  cases work with
  | numbered type v text => exact he.numbered h
  | publishing draft =>
      obtain ⟨r, hr, hlater, htext⟩ := h
      obtain ⟨r', hr', hrl⟩ := he.kept r hr
      obtain ⟨r'', hr'', hid, htext'⟩ := hk r hr (hp draft rfl r hr hlater.id)
      have heq : r'' = r' := Table.eq_of_key hr'' hr' (hid.trans hrl.id.symm)
      exact ⟨r', hr', hlater.trans hrl, by rw [← heq, htext', htext]⟩
  | drafting | editing | archiving => trivial

theorem PolicyWork.good_none (t : PolicyTable) (work : PolicyWork)
    (h : (none : Option PolicyWork) = some work) : work.Good t :=
  absurd h.symm (Option.some_ne_none work)

/-- A call is over, and the store stays. -/
theorem PolicySound.leaves (h : PolicySound t₀ w) : PolicySound t₀ (w.set i w.shared none) :=
  h.set_own (PolicyWork.good_none w.shared.table)

/-- A write of call `i`, or its refusal. -/
theorem PolicySound.written (h : PolicySound t₀ w) {p : PolicyVersionRow → Prop}
    {result : Except DbError PolicyTable}
    (hwrite : ∀ t', result = .ok t' → Evolves w.shared.table t' ∧ KeepsText p w.shared.table t')
    (hp : ∀ j draft, w.locals j = some (.publishing draft) →
      ∀ r ∈ w.shared.table.rows, r.id = draft.id → p r) : PolicySound t₀ (w.written i result) := by
  unfold PolicyWorld.written
  split
  · next t' =>
      obtain ⟨he, hk⟩ := hwrite t' rfl
      refine h.set_alone ⟨he.oneDraft h.shared.1, he.accounted h.shared.2.1,
        h.shared.2.2.evolves he⟩ (PolicyWork.good_none t') fun j _ work hw => ?_
      exact (h.own j work hw).evolves he hk fun draft hd => hp j draft (hw.trans (congrArg some hd))
  · exact h.leaves

/-- A call moves on, and the store stays. -/
theorem PolicySound.goes (h : PolicySound t₀ w) {work : PolicyWork}
    (hgood : work.Good w.shared.table) : PolicySound t₀ (w.set i w.shared (some work)) := by
  apply h.set_own
  intro work' hw
  obtain rfl := Option.some.inj hw
  exact hgood

theorem PolicySound.insert (h : PolicySound t₀ w) {type : PolicyType} {v : Nat} {text : PolicyText}
    {id : PolicyId} {now : Instant} (hgood : Numbered w.shared.table type v) :
    PolicySound t₀ (w.written i (w.shared.table.insert (draftRow id type v text now))) := by
  unfold PolicyWorld.written
  split
  · next t' hinsert =>
      have hrows := Table.insert_eq_ok.1 hinsert
      rcases hgood with ⟨hnone, hnext⟩ | ⟨r, hr, htaken⟩
      · refine h.set_alone
          ⟨insert_oneDraft hrows hnone h.shared.1, fun x hx => ?_, h.shared.2.2.append hrows⟩
          (PolicyWork.good_none t') fun j _ work hw => ?_
        · obtain ⟨r, hr, hid, htext, hstatus, q, hq, hqc⟩ := h.shared.2.1 x hx
          refine ⟨r, ?_, hid, htext, hstatus, q, ?_, hqc⟩ <;> rw [hrows] <;>
            exact List.mem_append_left _ ‹_›
        · have hwork := h.own j work hw
          cases work with
          | numbered type' n text' => exact insert_numbered hrows hnone hnext hwork
          | publishing draft =>
              obtain ⟨r, hr, hrest⟩ := hwork
              exact ⟨r, by rw [hrows]; exact List.mem_append_left _ hr, hrest⟩
          | drafting | editing | archiving => trivial
      · exact absurd htaken (untaken hrows r hr)
  · exact h.leaves

/-- A publication puts on record what it read. -/
theorem PolicySound.commit (h : PolicySound t₀ w) {draft : PolicyVersionRow} {now : Instant}
    (hgood : (PolicyWork.publishing draft).Good w.shared.table)
    (hpublish : publishRow w.shared.table draft now = .ok t') :
    PolicySound t₀ (w.set i ⟨t', (draft.id, draft.text) :: w.shared.published⟩ none) := by
  obtain ⟨r, hr, hlater, htext⟩ := hgood
  obtain ⟨he, hk, r', hr', hid, htype, hcurrent⟩ := publishRow_evolves hpublish ⟨r, hr, hlater⟩
  refine h.set_alone
    ⟨he.oneDraft h.shared.1, fun x hx => ?_, h.shared.2.2.evolves he⟩ (PolicyWork.good_none t')
    fun j _ work hw => (h.own j work hw).evolves he hk fun _ _ _ _ _ => trivial
  rcases List.mem_cons.1 hx with rfl | hx
  · obtain ⟨r'', hr'', hid'', htext''⟩ := hk r hr trivial
    have heq : r'' = r' := Table.eq_of_key hr'' hr' (hid''.trans (hlater.id.trans hid.symm))
    refine ⟨r', hr', hid, by rw [← heq, htext'', htext], ?_, r', hr', rfl, hcurrent⟩
    rw [current_published hr' hcurrent]
    decide
  · exact he.accounted h.shared.2.1 x hx

theorem PolicySound.step (h : PolicySound t₀ w) (hg : w.Undisturbed m) (hs : w.Step m w') :
    PolicySound t₀ w' := by
  cases m with
  | createDraft i type text =>
      simp only [PolicyWorld.Step, PolicyWorld.exec] at hs
      split at hs
      · split at hs
        · obtain rfl := Option.some.inj hs
          exact h
        · obtain rfl := Option.some.inj hs
          exact h.goes trivial
      · cases hs
  | number i =>
      simp only [PolicyWorld.Step, PolicyWorld.exec] at hs
      split at hs
      · next type text hl =>
          obtain rfl := Option.some.inj hs
          exact h.goes (.inl ⟨hg type text hl, rfl⟩)
      · cases hs
  | insert i now =>
      simp only [PolicyWorld.Step, PolicyWorld.exec] at hs
      split at hs
      · next type v text hl =>
          obtain rfl := Option.some.inj hs
          exact h.insert (h.own i _ hl)
      · cases hs
  | updateDraft i id revision edit =>
      simp only [PolicyWorld.Step, PolicyWorld.exec] at hs
      split at hs
      · split at hs
        · obtain rfl := Option.some.inj hs
          exact h.goes trivial
        · obtain rfl := Option.some.inj hs
          exact h
      · obtain rfl := Option.some.inj hs
        exact h
      · cases hs
  | write i =>
      simp only [PolicyWorld.Step, PolicyWorld.exec] at hs
      split at hs
      · next id revision edit hl =>
          obtain rfl := Option.some.inj hs
          refine h.written (fun t' ht => edit_evolves ht) fun j draft hj r hr hid => ?_
          -- an edit that writes finds no publication of its version under way
          cases heditable : editable id revision r with
          | false => rfl
          | true =>
              have hne := hg id revision edit hl ⟨r, hr, heditable⟩ j draft hj
              simp only [editable, Bool.and_eq_true, decide_eq_true_eq] at heditable
              exact absurd (hid.symm.trans heditable.1.1) hne
      · cases hs
  | publish i id confirm reason =>
      simp only [PolicyWorld.Step, PolicyWorld.exec] at hs
      split at hs
      · next draft hl hfind =>
          split at hs
          · obtain rfl := Option.some.inj hs
            exact h
          · split at hs
            · obtain rfl := Option.some.inj hs
              exact h.goes ⟨draft, Table.mem_of_find? hfind, .refl draft, rfl⟩
            · obtain rfl := Option.some.inj hs
              exact h
      · obtain rfl := Option.some.inj hs
        exact h
      · cases hs
  | commit i now =>
      simp only [PolicyWorld.Step, PolicyWorld.exec] at hs
      split at hs
      · next draft hl =>
          split at hs
          · next t' hpublish =>
              obtain rfl := Option.some.inj hs
              exact h.commit (h.own i _ hl) hpublish
          · obtain rfl := Option.some.inj hs
            exact h.leaves
      · cases hs
  | archive i id reason =>
      simp only [PolicyWorld.Step, PolicyWorld.exec] at hs
      split at hs
      · split at hs
        · obtain rfl := Option.some.inj hs
          exact h
        · split at hs
          · obtain rfl := Option.some.inj hs
            exact h.goes trivial
          · obtain rfl := Option.some.inj hs
            exact h
      · obtain rfl := Option.some.inj hs
        exact h
      · cases hs
  | retire i now =>
      simp only [PolicyWorld.Step, PolicyWorld.exec] at hs
      split at hs
      · obtain rfl := Option.some.inj hs
        exact h.written (fun t' ht => archive_evolves ht) fun _ _ _ _ _ _ => trivial
      · cases hs
  | abort i =>
      obtain rfl := Option.some.inj hs
      exact h.leaves

omit [DecidableEq ι] in
theorem policySound_init (h : w.Init) : PolicySound w.shared.table w := by
  obtain ⟨hdraft, hpublished, hidle⟩ := h
  refine ⟨⟨hdraft, fun p hp => ?_, fun r hr => ⟨r, hr, .refl r⟩, fun r hr hc => ⟨r, hr, rfl, hc⟩⟩,
    fun i work hl => ?_, fun _ _ _ => trivial⟩
  · rw [hpublished] at hp
    cases hp
  · rw [hidle i] at hl
    cases hl

/-- Where no draft comes between the reads of another, and no edit into a publication. -/
theorem policy_versions_kept (h₀ : w₀.Init)
    (h : Reach (· = w₀) PolicyWorld.Step PolicyWorld.Undisturbed w) :
    VersionsKept w.shared ∧ Descends w₀.shared.table w.shared.table := by
  have hsound : PolicySound w₀.shared.table w := by
    refine h.invariant (fun v hv => ?_) fun _ _ _ hI hg hs => hI.step hg hs
    rw [hv]
    exact policySound_init h₀
  obtain ⟨hdraft, haccounted, hdescends⟩ := hsound.shared
  exact ⟨⟨hdraft, fun r hr q hq => one_current hr hq, fun r hr => current_published hr, haccounted⟩,
    hdescends⟩

end Runs

/-! ## Overlaps -/

def terms : PolicyText := ⟨some "شرایط", "متن", none, none⟩

def noVersions : PolicyWorld Bool where
  shared := ⟨.empty, []⟩
  locals _ := none

theorem noVersions_init : noVersions.Init :=
  ⟨fun _ hr => absurd hr List.not_mem_nil, rfl, fun _ => rfl⟩

/-- A draft is written, edited and published. -/
def edited : List (PolicyMove Bool) :=
  [.createDraft true .TERMS terms, .number true, .insert true 1,
    .updateDraft true 1 0 ⟨none, some "متن تازه", none, none⟩, .write true,
    .publish true 1 1 "نسخهٔ اول", .commit true 2]

/-- No call overlaps another in it. -/
def alone (w : PolicyWorld Bool) : PolicyMove Bool → Bool
  | .number i => match w.locals i with
    | some (.drafting type _) => !hasDraft w.shared.table type
    | _ => true
  | .write _ => (w.locals true).isNone || (w.locals false).isNone
  | _ => true

theorem undisturbed_of_alone {w : PolicyWorld Bool} {m : PolicyMove Bool}
    (h : alone w m = true) : w.Undisturbed m := by
  cases m with
  | number i =>
      intro type text hl
      simpa [alone, hl] using h
  | write i =>
      rintro id revision edit hi - j draft hj
      simp only [alone, Bool.or_eq_true, Option.isNone_iff_eq_none] at h
      cases i <;> cases j <;> simp_all
  | createDraft | insert | updateDraft | publish | commit | archive | retire | abort => trivial

theorem policy_versions_kept_edited : ∃ w : PolicyWorld Bool,
    VersionsKept w.shared ∧ w.shared.published.length = 1 := by
  have hrun : Reach (· = noVersions) PolicyWorld.Step PolicyWorld.Undisturbed _ :=
    reach_of_runList (fun _ _ _ h => h) (fun _ _ => undisturbed_of_alone) (.start rfl)
      (show guardList PolicyWorld.exec alone noVersions edited = true by decide)
      (show runList PolicyWorld.exec noVersions edited = some _ from rfl)
  exact ⟨_, (policy_versions_kept noVersions_init hrun).1, rfl⟩

/-- Two drafts of the terms: the second call looked for one before the first was there, and
    took its number after. -/
def twoDrafts : List (PolicyMove Bool) :=
  [.createDraft true .TERMS terms, .createDraft false .TERMS terms, .number true, .insert true 1,
    .number false, .insert false 2]

/-- A publication of what it did not read. -/
def editedMeanwhile : List (PolicyMove Bool) :=
  [.createDraft true .TERMS terms, .number true, .insert true 1, .publish true 1 1 "نسخهٔ اول",
    .updateDraft false 1 0 ⟨none, some "", none, none⟩, .write false, .commit true 2]

theorem versions_overlap :
    (∃ w : PolicyWorld Bool, Reachable (· = noVersions) PolicyWorld.Step w ∧
      ¬ OneDraft w.shared.table) ∧
    ∃ w : PolicyWorld Bool, Reachable (· = noVersions) PolicyWorld.Step w ∧
      ¬ Accounted w.shared := by
  refine ⟨⟨_, reachable_of_runList (fun _ _ _ h => h) (.start rfl)
    (show runList PolicyWorld.exec noVersions twoDrafts = some _ from rfl), ?_⟩,
    ⟨_, reachable_of_runList (fun _ _ _ h => h) (.start rfl)
    (show runList PolicyWorld.exec noVersions editedMeanwhile = some _ from rfl), ?_⟩⟩
  · unfold OneDraft
    decide
  · unfold Accounted
    decide

end Policy

end Paayatam
