/-
  Paayatam.Discovery.Pagination

  The order clause, the strictly-after predicate, the emitted sort key and the
  frozen epoch of each sort describe one linear order, so following cursors is
  keyset pagination over the rows in that order.  A cursor that a page issues is
  one the next request can bind; a cursor from elsewhere may not be.
-/

import Paayatam.Discovery.Search
import Paayatam.Lib.Keyset
import Mathlib

namespace Paayatam

open Lib

namespace Discovery

section Rank

variable {Num Col Raw : Type} [LinearOrder Num] [LinearOrder Col]

/-! ## One order for each sort -/

/-- The order of a sort: its value, then the tie-break. -/
abbrev RankOf (Num Col : Type) : DiscoverySort → Type
  | .RELEVANCE => Numᵒᵈ ×ₗ Colᵒᵈ
  | .SOONEST => Instant ×ₗ Col
  | .NEWEST => (WithTop Instant)ᵒᵈ ×ₗ Colᵒᵈ

noncomputable instance : ∀ sort, LinearOrder (RankOf Num Col sort)
  | .RELEVANCE => inferInstanceAs (LinearOrder (Numᵒᵈ ×ₗ Colᵒᵈ))
  | .SOONEST => inferInstanceAs (LinearOrder (Instant ×ₗ Col))
  | .NEWEST => inferInstanceAs (LinearOrder ((WithTop Instant)ᵒᵈ ×ₗ Colᵒᵈ))

/-- NULL sorts above every timestamp. -/
def nullsHigh : Option Instant → WithTop Instant
  | none => ⊤
  | some t => t

theorem nullsHigh_lt {p : Option Instant} {t : Instant} :
    nullsHigh p < t ↔ ∃ at' ∈ p, at' < t := by
  cases p with
  | none => exact ⟨fun h => absurd h not_top_lt, nofun⟩
  | some p => exact WithTop.coe_lt_coe.trans ⟨fun h => ⟨p, rfl, h⟩, fun ⟨_, rfl, h⟩ => h⟩

theorem nullsHigh_eq {p : Option Instant} {t : Instant} : nullsHigh p = t ↔ p = some t := by
  cases p with
  | none => exact ⟨fun h => absurd h WithTop.top_ne_coe, nofun⟩
  | some p => exact WithTop.coe_inj.trans ⟨congrArg some, Option.some.inj⟩

variable (js : Runtime Num Raw) (pg : Postgres Num Col js.isFinite js.isDate)

/-- Where a row stands in the order of a sort. -/
def rankOf (r : SearchRow Num) : ∀ sort, RankOf Num Col sort
  | .RELEVANCE => toLex (OrderDual.toDual r.score, OrderDual.toDual (pg.collate r.listed.publicId))
  | .SOONEST => toLex (r.listed.event.startsAt, pg.collate r.listed.publicId)
  | .NEWEST => toLex (OrderDual.toDual (nullsHigh r.listed.event.publishedAt),
      OrderDual.toDual (pg.collate r.listed.publicId))

variable {js pg} {sort : DiscoverySort} {r a b : SearchRow Num}

/-- `ORDER BY` is the order of the sort. -/
theorem orderSql_iff :
    orderSql js pg sort a b = true ↔ rankOf js pg a sort ≤ rankOf js pg b sort := by
  cases sort with
  | RELEVANCE =>
      refine decide_eq_true_iff.trans ((Prod.Lex.toLex_le_toLex).trans ?_).symm
      exact or_congr Iff.rfl (and_congr OrderDual.toDual_inj Iff.rfl)
  | SOONEST =>
      refine decide_eq_true_iff.trans ((Prod.Lex.toLex_le_toLex).trans ?_).symm
      exact Iff.rfl
  | NEWEST =>
      refine Iff.trans ?_ ((Prod.Lex.toLex_le_toLex).trans
        (or_congr Iff.rfl (and_congr OrderDual.toDual_inj Iff.rfl))).symm
      unfold orderSql
      cases ha : a.listed.event.publishedAt with
      | none =>
          cases hb : b.listed.event.publishedAt with
          | none =>
              refine decide_eq_true_iff.trans ⟨fun h => .inr ⟨rfl, h⟩, fun h => ?_⟩
              exact (h.resolve_left (lt_irrefl _)).2
          | some q => exact ⟨fun _ => .inl (WithTop.coe_lt_top q), fun _ => rfl⟩
      | some p =>
          cases hb : b.listed.event.publishedAt with
          | none =>
              refine ⟨nofun, fun h => ?_⟩
              rcases h with h | h
              · exact absurd (show (⊤ : WithTop Instant) < (p : WithTop Instant) from h) not_top_lt
              · exact absurd h.1 WithTop.coe_ne_top
          | some q =>
              exact decide_eq_true_iff.trans
                (or_congr WithTop.coe_lt_coe.symm (and_congr WithTop.coe_inj.symm Iff.rfl))

theorem rankOf_lt_relevance {score : Num} {id : String} :
    (toLex (OrderDual.toDual score, OrderDual.toDual (pg.collate id)) : RankOf Num Col .RELEVANCE) <
        rankOf js pg r .RELEVANCE ↔
      r.score < score ∨ r.score = score ∧ pg.collate r.listed.publicId < pg.collate id := by
  refine (Prod.Lex.toLex_lt_toLex).trans ?_
  exact or_congr Iff.rfl (and_congr (OrderDual.toDual_inj.trans eq_comm) Iff.rfl)

omit [LinearOrder Num] in
theorem rankOf_lt_soonest {startsAt : Instant} {id : String} :
    (toLex (startsAt, pg.collate id) : RankOf Num Col .SOONEST) < rankOf js pg r .SOONEST ↔
      startsAt < r.listed.event.startsAt ∨
        r.listed.event.startsAt = startsAt ∧ pg.collate id < pg.collate r.listed.publicId := by
  refine (Prod.Lex.toLex_lt_toLex).trans ?_
  exact or_congr Iff.rfl (and_congr eq_comm Iff.rfl)

omit [LinearOrder Num] in
theorem rankOf_lt_newest {publishedAt : Instant} {id : String} :
    (toLex (OrderDual.toDual (publishedAt : WithTop Instant), OrderDual.toDual (pg.collate id)) :
        RankOf Num Col .NEWEST) < rankOf js pg r .NEWEST ↔
      (r.listed.event.publishedAt.any fun at' => decide (at' < publishedAt ∨
        at' = publishedAt ∧ pg.collate r.listed.publicId < pg.collate id)) = true := by
  refine (Prod.Lex.toLex_lt_toLex).trans (Iff.trans (or_congr nullsHigh_lt
    (and_congr (OrderDual.toDual_inj.trans (eq_comm.trans nullsHigh_eq)) Iff.rfl)) ?_)
  rw [Option.any_eq_true]
  simp only [decide_eq_true_eq]
  constructor
  · rintro (⟨p, hp, hlt⟩ | ⟨hp, hlt⟩)
    · exact ⟨p, hp, .inl hlt⟩
    · exact ⟨publishedAt, hp, .inr ⟨rfl, hlt⟩⟩
  · rintro ⟨p, hp, hlt | ⟨rfl, hlt⟩⟩
    · exact .inl ⟨p, hp, hlt⟩
    · exact .inr ⟨hp, hlt⟩

omit [LinearOrder Num] [LinearOrder Col] in
/-- Rows of different public ids differ in rank. -/
theorem rankOf_ne (h : a.listed.publicId ≠ b.listed.publicId) :
    rankOf js pg a sort ≠ rankOf js pg b sort := by
  intro hrank
  apply h
  apply pg.collate_injective
  cases sort with
  | RELEVANCE => exact OrderDual.toDual_inj.1 (Prod.ext_iff.1 (toLex_inj.1 hrank)).2
  | SOONEST => exact (Prod.ext_iff.1 (toLex_inj.1 hrank)).2
  | NEWEST => exact OrderDual.toDual_inj.1 (Prod.ext_iff.1 (toLex_inj.1 hrank)).2

end Rank

/-! ## The table -/

section Pages

variable {Num Col Raw : Type} {js : Runtime Num Raw}

/-- The database holds only what it takes as a parameter, and a public id is not empty. -/
structure Stored (pg : Postgres Num Col js.isFinite js.isDate) (e : ListedEvent) : Prop where
  named : 0 < e.publicId.length
  text : pg.text e.publicId = true
  startsAt : pg.timestamptz e.event.startsAt = true
  publishedAt : ∀ t ∈ e.event.publishedAt, pg.timestamptz t = true

/-- The `event` table at one request, joined. -/
structure EventTable (pg : Postgres Num Col js.isFinite js.isDate) where
  rows : List ListedEvent
  distinct : rows.Pairwise fun a b => a.publicId ≠ b.publicId
  checked : ∀ e ∈ rows, e.event.constraints = true
  stored : ∀ e ∈ rows, Stored pg e

variable {pg : Postgres Num Col js.isFinite js.isDate} {sort : DiscoverySort}
  {f : DiscoveryFilters} {q : Ranking Num} {rows : List ListedEvent} {R : List (SearchRow Num)}
  {r : SearchRow Num} {request : SearchRequest Num} {epoch now : Instant}

/-- A published event has a `publishedAt`. -/
theorem publishedAt_of_whereSql {e : ListedEvent} (hcheck : e.event.constraints = true)
    (hwhere : whereSql js pg f epoch e = true) : ∃ t, e.event.publishedAt = some t := by
  have hstatus : e.event.status = .PUBLISHED := by
    simp only [whereSql, Bool.and_eq_true, decide_eq_true_eq] at hwhere
    tauto
  simp only [EventRow.constraints, hstatus, Bool.and_eq_true, bne_self_eq_false,
    Bool.false_or] at hcheck
  exact Option.isSome_iff_exists.1 hcheck.1.2

theorem forall₂_of_mapM {α β : Type} {g : α → Option β} {l : List α} {L : List β}
    (h : l.mapM g = some L) : List.Forall₂ (fun a b => g a = some b) l L := by
  induction l generalizing L with
  | nil =>
      rw [List.mapM_nil] at h
      cases h
      exact .nil
  | cons a l ih =>
      rw [List.mapM_cons] at h
      obtain ⟨b, hb, htail⟩ := Option.bind_eq_some_iff.1 h
      obtain ⟨L', hL', hcons⟩ := Option.bind_eq_some_iff.1 htail
      cases hcons
      exact .cons hb (ih hL')

theorem mapM_isSome {α β : Type} {g : α → Option β} {l : List α} :
    (l.mapM g).isSome = true ↔ ∀ a ∈ l, (g a).isSome = true := by
  induction l with
  | nil =>
      rw [List.mapM_nil]
      exact ⟨fun _ => nofun, fun _ => rfl⟩
  | cons a l ih =>
      rw [List.mapM_cons, List.forall_mem_cons, ← ih]
      cases g a with
      | none => exact ⟨nofun, fun h => nomatch h.1⟩
      | some b =>
          cases l.mapM g with
          | none => exact ⟨nofun, fun h => nomatch h.2⟩
          | some L => exact ⟨fun _ => ⟨rfl, rfl⟩, fun _ => rfl⟩

/-- The scored rows are the rows of the `WHERE` clause, each with its score. -/
theorem scored_spec (h : scored js pg f q rows = some R) :
    R.map SearchRow.listed = rows.filter (whereSql js pg f q.epoch) ∧
      ∀ r ∈ R, pg.score q r.listed = some r.score := by
  have hall := forall₂_of_mapM h
  clear h
  generalize rows.filter (whereSql js pg f q.epoch) = l at hall
  induction hall with
  | nil => exact ⟨rfl, fun _ h => absurd h List.not_mem_nil⟩
  | @cons e r l R hr hrest ih =>
      obtain ⟨x, hx, rfl⟩ := Option.map_eq_some_iff.1 hr
      refine ⟨congrArg (e :: ·) ih.1, fun r' hr' => ?_⟩
      rcases List.mem_cons.1 hr' with rfl | hr'
      · exact hx
      · exact ih.2 r' hr'

theorem mem_scored (h : scored js pg f q rows = some R) :
    r ∈ R ↔ (r.listed ∈ rows ∧ whereSql js pg f q.epoch r.listed = true) ∧
      pg.score q r.listed = some r.score := by
  obtain ⟨hmap, hscore⟩ := scored_spec h
  rw [← List.mem_filter, ← hmap]
  constructor
  · intro hr
    exact ⟨List.mem_map_of_mem hr, hscore r hr⟩
  · rintro ⟨hr, hx⟩
    obtain ⟨r', hr', hlisted⟩ := List.mem_map.1 hr
    have hx' := hscore r' hr'
    rw [hlisted, hx] at hx'
    have heq : r' = r := by
      rcases r with ⟨e, x⟩
      rcases r' with ⟨e', x'⟩
      exact congrArg₂ SearchRow.mk hlisted (Option.some.inj hx').symm
    exact heq ▸ hr'

theorem scored_ranked (h : scored js pg f q rows = some R)
    (hdistinct : rows.Pairwise fun a b => a.publicId ≠ b.publicId) :
    Ranked (fun r => rankOf js pg r sort) R := by
  have hkept := hdistinct.sublist (List.filter_sublist (p := whereSql js pg f q.epoch))
  rw [← (scored_spec h).1, List.pairwise_map] at hkept
  exact hkept.imp rankOf_ne

theorem scored_isSome : (scored js pg f q rows).isSome = true ↔
    ∀ e ∈ rows, whereSql js pg f q.epoch e = true → (pg.score q e).isSome = true := by
  unfold scored
  rw [mapM_isSome]
  simp only [List.mem_filter, and_imp, Option.isSome_map]

theorem bindDate_toISOString {t : Instant} (ht : pg.timestamptz t = true) :
    bindDate js pg (.str (js.toISOString t)) = some t := by
  unfold bindDate
  rw [js.newDate_toISOString t (pg.isDate_timestamptz t ht)]
  exact Option.filter_eq_some_iff.2 ⟨rfl, ht⟩

/-! ## One page -/

/-- The cursor that names a row. -/
def cursorAt (js : Runtime Num Raw) (sort : DiscoverySort) (epoch : Instant) (r : SearchRow Num) :
    DiscoveryCursor Num :=
  ⟨sort, js.getTime epoch, sortKeyFor js r sort, r.listed.publicId⟩

/-- A row a page can end at: the next request can bind what its cursor says. -/
structure Named (pg : Postgres Num Col js.isFinite js.isDate) (r : SearchRow Num) : Prop where
  stored : Stored pg r.listed
  published : ∃ t, r.listed.event.publishedAt = some t
  finite : js.isFinite r.score = true

theorem named_of_mem {t : EventTable pg} (h : scored js pg f q t.rows = some R) (hr : r ∈ R) :
    Named pg r := by
  obtain ⟨⟨hmem, hwhere⟩, hscore⟩ := (mem_scored h).1 hr
  exact ⟨t.stored _ hmem, publishedAt_of_whereSql (t.checked _ hmem) hwhere,
    pg.finite_score _ _ _ hscore⟩

variable [LinearOrder Num]

theorem decodeCursor_cursorAt (h : Named pg r) (hepoch : pg.timestamptz epoch = true) :
    decodeCursor js (encodeCursor js (cursorAt js sort epoch r)) sort =
      .ok (cursorAt js sort epoch r) := by
  refine decodeCursor_encodeCursor js (js.finite_getTime _ (pg.isDate_timestamptz _ hepoch)) ?_
    h.stored.named
  cases sort with
  | RELEVANCE => exact h.finite
  | SOONEST => rfl
  | NEWEST => rfl

variable [LinearOrder Col]

/-- The strictly-after predicate of a row's cursor is the order of the sort. -/
theorem keysetSql_named (h : Named pg r)
    (hafter : request.after = some (sortKeyFor js r request.sort, r.listed.publicId)) :
    ∃ keyset, keysetSql js pg request = some keyset ∧ ∀ x, keyset x = true ↔
      rankOf js pg r request.sort < rankOf js pg x request.sort := by
  unfold keysetSql
  rw [hafter]
  simp only [h.stored.text, if_true]
  cases hsort : request.sort with
  | RELEVANCE =>
      rw [show sortKeyFor js r .RELEVANCE = .num r.score from rfl, pg.float8_num _ h.finite]
      exact ⟨_, rfl, fun x => decide_eq_true_iff.trans rankOf_lt_relevance.symm⟩
  | SOONEST =>
      rw [show sortKeyFor js r .SOONEST = .str (js.toISOString r.listed.event.startsAt) from rfl,
        bindDate_toISOString h.stored.startsAt]
      exact ⟨_, rfl, fun x => decide_eq_true_iff.trans rankOf_lt_soonest.symm⟩
  | NEWEST =>
      obtain ⟨t, ht⟩ := h.published
      have hkey : sortKeyFor js r .NEWEST = .str (js.toISOString t) := by
        unfold sortKeyFor
        rw [ht]
        rfl
      rw [hkey, bindDate_toISOString (h.stored.publishedAt t ht)]
      refine ⟨_, rfl, fun x => Iff.trans rankOf_lt_newest.symm ?_⟩
      unfold rankOf
      rw [ht]
      rfl

theorem provider_search {events : List (DiscoveredEvent Num)}
    (h : PostgresSearchProvider.search js pg request rows = some events) :
    ∃ epoch keyset R, request.epoch = some epoch ∧ pg.timestamptz epoch = true ∧
      keysetSql js pg request = some keyset ∧
      scored js pg request.filters (request.ranking epoch) rows = some R ∧
      events = ((((R.filter keyset).insertionSort fun a b => orderSql js pg request.sort a b).drop
        (request.offset.getD 0)).take request.limit).map (toDiscoveredEvent js request.sort) := by
  obtain ⟨epoch, hepoch, h⟩ := Option.bind_eq_some_iff.1 h
  obtain ⟨keyset, hkeyset, h⟩ := Option.bind_eq_some_iff.1 h
  obtain ⟨hepoch, htaken⟩ := Option.filter_eq_some_iff.1 hepoch
  split at h
  · obtain ⟨R, hR, hevents⟩ := Option.bind_eq_some_iff.1 h
    exact ⟨epoch, keyset, R, hepoch, htaken, hkeyset, hR, (Option.some.inj hevents).symm⟩
  · cases h

/-! ## The page from a position -/

/-- The filters of a query for this viewer at an epoch. -/
def filtersAt (js : Runtime Num Raw) (viewer : Viewer Num) (query : DiscoveryQuery Raw)
    (epoch : Instant) : DiscoveryFilters :=
  toFilters js query (viewer.birthYear.map fun year => js.gregorianYearIn epoch - year)

/-- What the scores of a query depend on at an epoch. -/
def rankingAt (js : Runtime Num Raw) (viewer : Viewer Num) (query : DiscoveryQuery Raw)
    (epoch : Instant) : Ranking Num :=
  ⟨epoch, (filtersAt js viewer query epoch).query, viewer.categoryIds, viewer.weights⟩

def sortOf (query : DiscoveryQuery Raw) : DiscoverySort := query.sort.getD .RELEVANCE

/-- The first page has no cursor; a later one has the cursor of a row a page ended at. -/
inductive Position (pg : Postgres Num Col js.isFinite js.isDate) (sort : DiscoverySort)
    (epoch : Instant) : Option Raw → Option (RankOf Num Col sort) → Prop
  | first : Position pg sort epoch none none
  | after {r : SearchRow Num} (hnamed : Named pg r) (hepoch : pg.timestamptz epoch = true) :
      Position pg sort epoch (some (encodeCursor js (cursorAt js sort epoch r)))
        (some (rankOf js pg r sort))

variable {viewer : Viewer Num} {query : DiscoveryQuery Raw} {limit : Option Int}
  {cursor : Option Raw} {k : Option (RankOf Num Col (sortOf query))} {t : EventTable pg}
  {page : DiscoveryPage Num Raw}

theorem pageLimit_pos (limit : Option Int) : 0 < pageLimit limit := by
  unfold pageLimit MAX_LIMIT
  omega

omit [LinearOrder Num] [LinearOrder Col] in
theorem viewerAge_ok (birthYear : Option Int) : viewerAge js birthYear (some epoch) =
    .ok (birthYear.map fun year => js.gregorianYearIn epoch - year) := by
  cases birthYear with
  | none => rfl
  | some year => rfl

/-- What a page from a decoded cursor is made of. -/
theorem searchFrom_ok {c : Option (DiscoveryCursor Num)}
    (h : searchFrom js pg viewer query c rows now = .ok page) :
    ∃ epoch events, (searchRequest js viewer query c now none).epoch = some epoch ∧
      PostgresSearchProvider.search js pg (searchRequest js viewer query c now
        (viewer.birthYear.map fun year => js.gregorianYearIn epoch - year)) rows = some events ∧
      page = pageOf js (searchRequest js viewer query c now
        (viewer.birthYear.map fun year => js.gregorianYearIn epoch - year))
        (pageLimit query.limit) events := by
  unfold searchFrom at h
  dsimp only at h
  split at h
  · cases h
  · next age hage =>
      split at h
      · cases h
      · split at h
        · cases h
        · next events hevents =>
            obtain ⟨epoch, -, -, hepoch, -⟩ := provider_search hevents
            have hnone : (searchRequest js viewer query c now none).epoch = some epoch := hepoch
            rw [hnone, viewerAge_ok] at hage
            obtain rfl := Except.ok.inj hage
            exact ⟨epoch, events, hnone, hevents, (Except.ok.inj h).symm⟩

/-- The rows of a page and its next cursor, given what it continues from. -/
theorem pageOf_spec {sort : DiscoverySort} {k : Option (RankOf Num Col sort)}
    {keyset : SearchRow Num → Bool} {n : Nat} (hn : 0 < n) (hsort : request.sort = sort)
    (hepoch : request.epoch = some epoch)
    (hkeyset : ∀ r ∈ R, keyset r = true ↔ After (fun r => rankOf js pg r sort) k r) :
    let left := remaining (fun r => rankOf js pg r sort) k R
    let page : DiscoveryPage Num Raw := pageOf js request n
      ((((R.filter keyset).insertionSort fun a b => orderSql js pg request.sort a b).take
        (n + 1)).map (toDiscoveredEvent js request.sort))
    page.events = (left.take n).map (toDiscoveredEvent js sort) ∧
      ((page.nextCursor = none ∧ left.length ≤ n) ∨
        ∃ last, (left.take n).getLast? = some last ∧
          page.nextCursor = some (encodeCursor js (cursorAt js sort epoch last))) := by
  intro left page
  subst hsort
  have hleft : ((R.filter keyset).insertionSort fun a b => orderSql js pg request.sort a b) =
      left := remaining_eq hkeyset fun a b => orderSql_iff
  have hevents : page.events = (left.take n).map (toDiscoveredEvent js request.sort) := by
    show (List.map _ _).take n = _
    rw [hleft, ← List.map_take, List.take_take, min_eq_left (Nat.le_succ n)]
  refine ⟨hevents, ?_⟩
  have hnext : page.nextCursor = if n < left.length then
      ((left.take n).map (toDiscoveredEvent js request.sort)).getLast?.bind fun last =>
        request.epoch.map fun epoch => encodeCursor js
          ⟨request.sort, js.getTime epoch, last.sortKey, last.listed.publicId⟩ else none := by
    show (if n < (List.map _ _).length then ((List.map _ _).take n).getLast?.bind _ else none) = _
    rw [hleft, List.length_map, List.length_take, ← List.map_take, List.take_take,
      min_eq_left (Nat.le_succ n)]
    have hiff : n < min (n + 1) left.length ↔ n < left.length := by omega
    simp only [hiff]
  by_cases hmore : n < left.length
  · right
    have hne : left.take n ≠ [] := by
      intro hnil
      have hlen := congrArg List.length hnil
      rw [List.length_take, List.length_nil] at hlen
      omega
    refine ⟨(left.take n).getLast hne, List.getLast?_eq_some_getLast hne, ?_⟩
    rw [hnext, if_pos hmore, List.getLast?_map, List.getLast?_eq_some_getLast hne, hepoch]
    rfl
  · left
    exact ⟨by rw [hnext, if_neg hmore], by omega⟩

/-- The page of a request whose parameters say where it continues from. -/
theorem searchFrom_page {c : Option (DiscoveryCursor Num)}
    (hepoch : (searchRequest js viewer query c now none).epoch = some epoch)
    (hoffset : (searchRequest js viewer query c now none).offset.getD 0 = 0)
    (hkeyset : ∀ age keyset, keysetSql js pg (searchRequest js viewer query c now age) =
      some keyset → ∀ r, keyset r = true ↔ After (fun r => rankOf js pg r (sortOf query)) k r)
    (h : searchFrom js pg viewer query c t.rows now = .ok page) :
    pg.timestamptz epoch = true ∧
    ∃ R, scored js pg (filtersAt js viewer query epoch) (rankingAt js viewer query epoch) t.rows =
        some R ∧
      let left := remaining (fun r => rankOf js pg r (sortOf query)) k R
      page.events =
        (left.take (pageLimit query.limit)).map (toDiscoveredEvent js (sortOf query)) ∧
      ((page.nextCursor = none ∧ left.length ≤ pageLimit query.limit) ∨
        ∃ last, (left.take (pageLimit query.limit)).getLast? = some last ∧
          page.nextCursor = some (encodeCursor js (cursorAt js (sortOf query) epoch last))) := by
  obtain ⟨epoch', events, hepoch', hevents, rfl⟩ := searchFrom_ok h
  obtain rfl : epoch' = epoch := Option.some.inj (hepoch'.symm.trans hepoch)
  obtain ⟨at', keyset, R, hat, htaken, hk, hR, hlist⟩ := provider_search hevents
  obtain rfl : at' = epoch' := Option.some.inj (hat.symm.trans hepoch)
  have hlist' := hlist
  have hskip : (searchRequest js viewer query c now
      (viewer.birthYear.map fun year => js.gregorianYearIn at' - year)).offset.getD 0 = 0 := hoffset
  rw [hskip, List.drop_zero] at hlist'
  rw [hlist']
  exact ⟨htaken, R, hR, pageOf_spec (pageLimit_pos _) rfl hat fun r _ => hkeyset _ keyset hk r⟩

theorem search_first (hcursor : query.cursor = none) :
    search js pg viewer query rows now = searchFrom js pg viewer query none rows now := by
  unfold search
  rw [hcursor]

theorem search_decoded {raw : Raw} {c : DiscoveryCursor Num} (hcursor : query.cursor = some raw)
    (hc : decodeCursor js raw (sortOf query) = .ok c) :
    search js pg viewer query rows now = searchFrom js pg viewer query (some c) rows now := by
  unfold search
  rw [hcursor]
  unfold sortOf at hc
  dsimp only
  rw [hc]

/-- A page from a position: the rows of the order that follow it, in one table. -/
theorem search_page (query : DiscoveryQuery Raw) {k : Option (RankOf Num Col (sortOf query))}
    (hpos : Position pg (sortOf query) epoch cursor k) (hcursor : query.cursor = cursor)
    (hfirst : cursor = none → now = epoch) (hoffset : query.offset.getD 0 = 0)
    (h : search js pg viewer query t.rows now = .ok page) :
    ∃ R, scored js pg (filtersAt js viewer query epoch) (rankingAt js viewer query epoch) t.rows =
        some R ∧
      let left := remaining (fun r => rankOf js pg r (sortOf query)) k R
      page.events =
        (left.take (pageLimit query.limit)).map (toDiscoveredEvent js (sortOf query)) ∧
      ((page.nextCursor = none ∧ left.length ≤ pageLimit query.limit) ∨
        ∃ last, (left.take (pageLimit query.limit)).getLast? = some last ∧
          Position pg (sortOf query) epoch page.nextCursor
            (some (rankOf js pg last (sortOf query)))) := by
  suffices hpage : pg.timestamptz epoch = true ∧
      ∃ R, scored js pg (filtersAt js viewer query epoch) (rankingAt js viewer query epoch)
          t.rows = some R ∧
        let left := remaining (fun r => rankOf js pg r (sortOf query)) k R
        page.events =
          (left.take (pageLimit query.limit)).map (toDiscoveredEvent js (sortOf query)) ∧
        ((page.nextCursor = none ∧ left.length ≤ pageLimit query.limit) ∨
          ∃ last, (left.take (pageLimit query.limit)).getLast? = some last ∧
            page.nextCursor =
              some (encodeCursor js (cursorAt js (sortOf query) epoch last))) by
    obtain ⟨hepoch, R, hR, hevents, hnext⟩ := hpage
    refine ⟨R, hR, hevents, hnext.imp_right fun ⟨last, hlast, hcursor⟩ => ⟨last, hlast, ?_⟩⟩
    have hmem : last ∈ R :=
      (mem_remaining.1 (List.mem_of_mem_take (List.mem_of_getLast? hlast))).1
    rw [hcursor]
    exact .after (named_of_mem hR hmem) hepoch
  cases hpos with
  | first =>
      rw [search_first hcursor] at h
      obtain rfl := hfirst rfl
      refine searchFrom_page (c := none) rfl hoffset (fun age keyset hk r => ?_) h
      obtain rfl := Option.some.inj hk
      exact ⟨fun _ => after_none, fun _ => rfl⟩
  | @after r hnamed hepoch =>
      rw [search_decoded hcursor (decodeCursor_cursorAt hnamed hepoch)] at h
      have hdate := js.newDate_getTime _ (pg.isDate_timestamptz _ hepoch)
      refine searchFrom_page (c := some (cursorAt js (sortOf query) epoch r)) hdate rfl
        (fun age keyset hk x => ?_) h
      have hafter : (searchRequest js viewer query (some (cursorAt js (sortOf query) epoch r)) now
          age).after = some (sortKeyFor js r (sortOf query), r.listed.publicId) := rfl
      obtain ⟨keyset', hk', hiff⟩ := keysetSql_named hnamed hafter
      obtain rfl := Option.some.inj (hk'.symm.trans hk)
      exact (hiff x).trans after_some.symm

/-! ## Following the cursors -/

/-- One request: the table it reads, the page size it asks for, when it is made. -/
structure PageRequest (pg : Postgres Num Col js.isFinite js.isDate) where
  table : EventTable pg
  limit : Option Int
  now : Instant

/-- Following the cursors of a query from one page to the next: the events shown, and whether
the page without a next cursor was reached. -/
inductive Follows (pg : Postgres Num Col js.isFinite js.isDate) (viewer : Viewer Num)
    (query : DiscoveryQuery Raw) :
    Option Raw → List (PageRequest pg) → List (DiscoveredEvent Num) → Bool → Prop
  | stop {cursor : Option Raw} : Follows pg viewer query cursor [] [] false
  | last {cursor : Option Raw} {asked : PageRequest pg} {page : DiscoveryPage Num Raw}
      (hpage : search js pg viewer { query with cursor := cursor, limit := asked.limit }
        asked.table.rows asked.now = .ok page)
      (hend : page.nextCursor = none) :
      Follows pg viewer query cursor [asked] page.events true
  | next {cursor : Option Raw} {asked : PageRequest pg} {page : DiscoveryPage Num Raw}
      {next : Raw} {requests : List (PageRequest pg)} {shown : List (DiscoveredEvent Num)}
      {done : Bool}
      (hpage : search js pg viewer { query with cursor := cursor, limit := asked.limit }
        asked.table.rows asked.now = .ok page)
      (hnext : page.nextCursor = some next)
      (hrest : Follows pg viewer query (some next) requests shown done) :
      Follows pg viewer query cursor (asked :: requests) (page.events ++ shown) done

variable {requests : List (PageRequest pg)} {shown : List (DiscoveredEvent Num)} {done : Bool}

/-- Following the cursors is keyset pagination over the scored rows. -/
theorem Follows.followed (h : Follows pg viewer query cursor requests shown done)
    (hpos : Position pg (sortOf query) epoch cursor k)
    (hfirst : cursor = none → ∀ asked ∈ requests.head?, asked.now = epoch)
    (hoffset : query.offset.getD 0 = 0) :
    ∃ tables rows, List.Forall₂ (fun asked R => scored js pg (filtersAt js viewer query epoch)
        (rankingAt js viewer query epoch) asked.table.rows = some R) requests tables ∧
      Followed (fun r => rankOf js pg r (sortOf query)) k tables rows done ∧
      shown = rows.map (toDiscoveredEvent js (sortOf query)) := by
  induction h generalizing k with
  | stop => exact ⟨[], [], .nil, .stop, rfl⟩
  | @last cursor asked page hpage hend =>
      have hnow : cursor = none → asked.now = epoch := fun hc => hfirst hc asked rfl
      obtain ⟨R, hR, hevents, hnext⟩ := search_page
        { query with cursor := cursor, limit := asked.limit } hpos rfl hnow hoffset hpage
      rcases hnext with ⟨-, hlen⟩ | ⟨last, -, hafter⟩
      · rw [List.take_of_length_le hlen] at hevents
        exact ⟨[R], _, .cons hR .nil, .last, hevents⟩
      · rw [hend] at hafter
        cases hafter
  | @next cursor asked page next requests shown done hpage hnext hrest ih =>
      have hnow : cursor = none → asked.now = epoch := fun hc => hfirst hc asked rfl
      obtain ⟨R, hR, hevents, hcursor⟩ := search_page
        { query with cursor := cursor, limit := asked.limit } hpos rfl hnow hoffset hpage
      rcases hcursor with ⟨hnone, -⟩ | ⟨last, hlast, hafter⟩
      · rw [hnone] at hnext
        cases hnext
      · rw [hnext] at hafter
        obtain ⟨tables, rows, hall, hfollowed, rfl⟩ := ih hafter nofun
        refine ⟨R :: tables, _, .cons hR hall, .next hlast hfollowed, ?_⟩
        rw [List.map_append]
        exact congrArg (· ++ rows.map (toDiscoveredEvent js (sortOf query))) hevents

/-! ## A cursor from elsewhere -/

/-- What the cursor says can be bound as a parameter, at an epoch. -/
structure Taken (pg : Postgres Num Col js.isFinite js.isDate) (c : DiscoveryCursor Num)
    (epoch : Instant) : Prop where
  date : js.newDate (.num c.epoch) = some epoch
  epoch : pg.timestamptz epoch = true
  text : pg.text c.publicId = true
  key : match c.sort with
    | .RELEVANCE => pg.float8 c.key ≠ .refused
    | .SOONEST => (bindDate js pg c.key).isSome = true
    | .NEWEST => (bindDate js pg c.key).isSome = true

/-- When a request that continues from a cursor does not end in an internal error: it is
turned away before the query, or everything it binds is taken and every score evaluates. -/
def Usable (pg : Postgres Num Col js.isFinite js.isDate) (viewer : Viewer Num)
    (query : DiscoveryQuery Raw) (c : DiscoveryCursor Num) (rows : List ListedEvent) : Prop :=
  (query.ageFits = some true ∧ viewer.birthYear = none) ∨
    ∃ epoch, Taken pg c epoch ∧ (filtersAt js viewer query epoch).bound js pg = true ∧
      ∀ e ∈ rows, whereSql js pg (filtersAt js viewer query epoch) epoch e = true →
        (pg.score (rankingAt js viewer query epoch) e).isSome = true

omit [LinearOrder Num] [LinearOrder Col] in
/-- A page's own cursor says what can be bound. -/
theorem taken_cursorAt {sort : DiscoverySort} (h : Named pg r)
    (hepoch : pg.timestamptz epoch = true) : Taken pg (cursorAt js sort epoch r) epoch where
  date := js.newDate_getTime _ (pg.isDate_timestamptz _ hepoch)
  epoch := hepoch
  text := h.stored.text
  key := by
    cases sort with
    | RELEVANCE =>
        show pg.float8 (.num r.score) ≠ .refused
        rw [pg.float8_num _ h.finite]
        exact nofun
    | SOONEST =>
        show (bindDate js pg (.str (js.toISOString r.listed.event.startsAt))).isSome = true
        rw [bindDate_toISOString h.stored.startsAt]
        rfl
    | NEWEST =>
        obtain ⟨t, ht⟩ := h.published
        show (bindDate js pg (.str (js.toISOString
          (r.listed.event.publishedAt.getD r.listed.event.startsAt)))).isSome = true
        rw [ht, Option.getD_some, bindDate_toISOString (h.stored.publishedAt t ht)]
        rfl

theorem keysetSql_isSome {c : DiscoveryCursor Num} (hsort : request.sort = c.sort)
    (hafter : request.after = some (c.key, c.publicId)) :
    (keysetSql js pg request).isSome = true ↔ pg.text c.publicId = true ∧
      match c.sort with
      | .RELEVANCE => pg.float8 c.key ≠ .refused
      | .SOONEST => (bindDate js pg c.key).isSome = true
      | .NEWEST => (bindDate js pg c.key).isSome = true := by
  unfold keysetSql
  rw [hafter, hsort]
  dsimp only
  split
  · next htext =>
      simp only [htext, true_and]
      cases c.sort with
      | RELEVANCE =>
          dsimp only
          cases pg.float8 c.key with
          | refused => simp
          | null => simp
          | value x => simp
      | SOONEST => simp only [Option.isSome_map]
      | NEWEST => simp only [Option.isSome_map]
  · next htext =>
      simp only [htext]
      simp

theorem provider_isSome {epoch : Instant} (hepoch : request.epoch = some epoch) :
    (PostgresSearchProvider.search js pg request rows).isSome = true ↔
      pg.timestamptz epoch = true ∧ (keysetSql js pg request).isSome = true ∧
        request.filters.bound js pg = true ∧
        (scored js pg request.filters (request.ranking epoch) rows).isSome = true := by
  unfold PostgresSearchProvider.search
  rw [hepoch]
  by_cases htaken : pg.timestamptz epoch = true
  · rw [Option.filter_eq_some_iff.2 ⟨rfl, htaken⟩]
    cases keysetSql js pg request with
    | none => exact ⟨nofun, fun h => nomatch h.2.1⟩
    | some keyset =>
        by_cases hbound : request.filters.bound js pg = true
        · cases hR : scored js pg request.filters (request.ranking epoch) rows with
          | none => simp [hbound, hR]
          | some R => simp [hbound, hR, htaken]
        · simp [hbound]
  · rw [Option.filter_eq_none_iff.2 (fun t ht => by rw [← Option.some.inj ht]; exact htaken)]
    exact ⟨nofun, fun h => absurd h.1 htaken⟩

/-- With an epoch that is a date, only the query itself can fail. -/
theorem searchFrom_dated {c : Option (DiscoveryCursor Num)}
    (hepoch : (searchRequest js viewer query c now none).epoch = some epoch) :
    searchFrom js pg viewer query c rows now = .error .uncaught ↔
      ¬(query.ageFits = some true ∧ viewer.birthYear = none) ∧
        PostgresSearchProvider.search js pg (searchRequest js viewer query c now
          (viewer.birthYear.map fun year => js.gregorianYearIn epoch - year)) rows = none := by
  unfold searchFrom
  rw [hepoch]
  dsimp only
  rw [viewerAge_ok]
  dsimp only
  split
  · next hfits =>
      exact ⟨nofun, fun h => absurd (hfits.imp_right Option.map_eq_none_iff.1) h.1⟩
  · next hfits =>
      have hfits' := fun h => hfits (And.imp_right Option.map_eq_none_iff.2 h)
      split
      · next hnone => exact ⟨fun _ => ⟨hfits', hnone⟩, fun _ => rfl⟩
      · next events hevents => exact ⟨nofun, fun h => nomatch hevents.symm.trans h.2⟩

/-- With an epoch that is no date, the query fails if it is made at all. -/
theorem searchFrom_undated {c : Option (DiscoveryCursor Num)}
    (hepoch : (searchRequest js viewer query c now none).epoch = none) :
    searchFrom js pg viewer query c rows now = .error .uncaught ↔
      ¬(query.ageFits = some true ∧ viewer.birthYear = none) := by
  have hnone : ∀ age, PostgresSearchProvider.search js pg
      (searchRequest js viewer query c now age) rows = none := by
    intro age
    have hundated : (searchRequest js viewer query c now age).epoch = none := hepoch
    unfold PostgresSearchProvider.search
    rw [hundated]
    rfl
  unfold searchFrom
  rw [hepoch]
  dsimp only
  cases viewer.birthYear with
  | some year => exact ⟨fun _ h => (nomatch h.2), fun _ => rfl⟩
  | none =>
      show (if query.ageFits = some true ∧ (none : Option Int) = none then _ else _) = _ ↔ _
      split
      · next hfits => exact ⟨nofun, fun h => absurd hfits h⟩
      · next hfits =>
          rw [hnone none]
          exact ⟨fun _ => hfits, fun _ => rfl⟩

/-- A request that continues from a cursor ends in an internal error unless it is usable. -/
theorem searchFrom_caught {c : DiscoveryCursor Num} (hsort : c.sort = sortOf query) :
    searchFrom js pg viewer query (some c) rows now ≠ .error .uncaught ↔
      Usable pg viewer query c rows := by
  cases hdate : js.newDate (.num c.epoch) with
  | none =>
      rw [Ne, searchFrom_undated (c := some c) hdate, not_not]
      refine ⟨.inl, fun h => h.resolve_right ?_⟩
      rintro ⟨epoch, htaken, -⟩
      exact nomatch hdate.symm.trans htaken.date
  | some epoch =>
      rw [Ne, searchFrom_dated (c := some c) hdate]
      have hsome : (PostgresSearchProvider.search js pg (searchRequest js viewer query (some c) now
          (viewer.birthYear.map fun year => js.gregorianYearIn epoch - year)) rows).isSome = true ↔
            pg.timestamptz epoch = true ∧ (keysetSql js pg (searchRequest js viewer query (some c)
              now (viewer.birthYear.map fun year => js.gregorianYearIn epoch - year))).isSome =
                true ∧ (filtersAt js viewer query epoch).bound js pg = true ∧
              (scored js pg (filtersAt js viewer query epoch) (rankingAt js viewer query epoch)
                rows).isSome = true := provider_isSome hdate
      have hkeyset : (keysetSql js pg (searchRequest js viewer query (some c) now
          (viewer.birthYear.map fun year => js.gregorianYearIn epoch - year))).isSome = true ↔ _ :=
        keysetSql_isSome hsort.symm rfl
      constructor
      · intro h
        by_cases hfits : query.ageFits = some true ∧ viewer.birthYear = none
        · exact .inl hfits
        · right
          obtain ⟨htaken, hk, hbound, hscored⟩ :=
            hsome.1 (Option.isSome_iff_ne_none.2 fun hnone => h ⟨hfits, hnone⟩)
          obtain ⟨htext, hkey⟩ := hkeyset.1 hk
          exact ⟨epoch, ⟨hdate, htaken, htext, hkey⟩, hbound,
            (scored_isSome (q := rankingAt js viewer query epoch)).1 hscored⟩
      · rintro (hfits | ⟨date, htaken, hbound, hscores⟩) h
        · exact h.1 hfits
        · obtain rfl : date = epoch := Option.some.inj (htaken.date.symm.trans hdate)
          have hscored := (scored_isSome (q := rankingAt js viewer query date)).2 hscores
          have hfound := hsome.2
            ⟨htaken.epoch, hkeyset.2 ⟨htaken.text, htaken.key⟩, hbound, hscored⟩
          rw [h.2] at hfound
          cases hfound

/-! ## Exactness -/

/-- One row comes strictly before another in the sort's order. -/
def Before (pg : Postgres Num Col js.isFinite js.isDate) (sort : DiscoverySort)
    (a b : SearchRow Num) : Prop :=
  orderSql js pg sort a b = true ∧ orderSql js pg sort b a = false

theorem before_iff {sort : DiscoverySort} {a b : SearchRow Num} :
    Before pg sort a b ↔ rankOf js pg a sort < rankOf js pg b sort := by
  unfold Before
  rw [← Bool.not_eq_true, orderSql_iff, orderSql_iff, lt_iff_le_not_ge]

/-- Rows come and go between the requests; none is edited and no public id is used again. -/
def Unedited (requests : List (PageRequest pg)) : Prop :=
  ∀ a ∈ requests, ∀ b ∈ requests, ∀ e ∈ a.table.rows, ∀ e' ∈ b.table.rows,
    e.publicId = e'.publicId → e = e'

/-- What was shown is exact: in the sort's order, each of it a match of some table, nothing
twice, and everything that matches and is there throughout. -/
structure Exact (pg : Postgres Num Col js.isFinite js.isDate) (viewer : Viewer Num)
    (query : DiscoveryQuery Raw) (epoch : Instant) (requests : List (PageRequest pg))
    (rows : List (SearchRow Num)) (done : Bool) : Prop where
  ordered : rows.Pairwise (Before pg (sortOf query))
  matched : ∀ r ∈ rows, (∃ asked ∈ requests, r.listed ∈ asked.table.rows) ∧
    whereSql js pg (filtersAt js viewer query epoch) epoch r.listed = true ∧
    pg.score (rankingAt js viewer query epoch) r.listed = some r.score
  once : Unedited requests → (rows.map fun r => r.listed.publicId).Nodup
  complete : ∀ e, (∀ asked ∈ requests, e ∈ asked.table.rows) →
    whereSql js pg (filtersAt js viewer query epoch) epoch e = true →
    e ∈ rows.map SearchRow.listed ∨ done = false ∧ ∀ x,
      pg.score (rankingAt js viewer query epoch) e = some x →
        ∀ r ∈ rows, Before pg (sortOf query) r ⟨e, x⟩

theorem forall₂_mem {α β : Type} {P : α → β → Prop} {l : List α} {L : List β} {b : β}
    (h : List.Forall₂ P l L) (hb : b ∈ L) : ∃ a ∈ l, P a b := by
  induction h with
  | nil => cases hb
  | cons hP hrest ih =>
      rcases List.mem_cons.1 hb with rfl | hb
      · exact ⟨_, List.mem_cons_self, hP⟩
      · obtain ⟨a, ha, hab⟩ := ih hb
        exact ⟨a, List.mem_cons_of_mem _ ha, hab⟩

/-- Following the cursors from the first page shows exactly what it should. -/
theorem Follows.exact (h : Follows pg viewer query none requests shown done)
    (hfirst : ∀ asked ∈ requests.head?, asked.now = epoch) (hoffset : query.offset.getD 0 = 0) :
    ∃ rows, shown = rows.map (toDiscoveredEvent js (sortOf query)) ∧
      Exact pg viewer query epoch requests rows done := by
  obtain ⟨tables, rows, hall, hfollowed, hshown⟩ :=
    h.followed .first (fun _ => hfirst) hoffset
  have hranked : ∀ R ∈ tables, Ranked (fun r => rankOf js pg r (sortOf query)) R := by
    intro R hR
    obtain ⟨asked, -, hscored⟩ := forall₂_mem hall hR
    exact scored_ranked hscored asked.table.distinct
  have hmatched : ∀ r ∈ rows, (∃ asked ∈ requests, r.listed ∈ asked.table.rows) ∧
      whereSql js pg (filtersAt js viewer query epoch) epoch r.listed = true ∧
      pg.score (rankingAt js viewer query epoch) r.listed = some r.score := by
    intro r hr
    obtain ⟨⟨R, hR, hmem⟩, -⟩ := hfollowed.mem hranked hr
    obtain ⟨asked, hasked, hscored⟩ := forall₂_mem hall hR
    obtain ⟨⟨hrow, hwhere⟩, hscore⟩ := (mem_scored hscored).1 hmem
    exact ⟨⟨asked, hasked, hrow⟩, hwhere, hscore⟩
  have hordered := hfollowed.pairwise hranked
  refine ⟨rows, hshown, hordered.imp before_iff.2, hmatched, fun hunedited => ?_,
    fun e hthere hwhere => ?_⟩
  · rw [List.Nodup, List.pairwise_map]
    refine hordered.imp_of_mem fun {a b} ha hb hlt hid => ?_
    obtain ⟨⟨x, hx, hax⟩, -, hscorea⟩ := hmatched a ha
    obtain ⟨⟨y, hy, hby⟩, -, hscoreb⟩ := hmatched b hb
    have hlisted : a.listed = b.listed := hunedited x hx y hy _ hax _ hby hid
    rw [hlisted, hscoreb] at hscorea
    have heq : a = b := by
      rcases a with ⟨e, s⟩
      rcases b with ⟨e', s'⟩
      exact congrArg₂ SearchRow.mk hlisted (Option.some.inj hscorea).symm
    rw [heq] at hlt
    exact lt_irrefl _ hlt
  · have hscored : ∀ R ∈ tables, ∃ x, pg.score (rankingAt js viewer query epoch) e = some x ∧
        (⟨e, x⟩ : SearchRow Num) ∈ R := by
      intro R hR
      obtain ⟨asked, hasked, hscored⟩ := forall₂_mem hall hR
      obtain ⟨x, hx⟩ := Option.isSome_iff_exists.1
        (scored_isSome.1 (Option.isSome_iff_exists.2 ⟨R, hscored⟩) e (hthere asked hasked) hwhere)
      exact ⟨x, hx, (mem_scored hscored).2 ⟨⟨hthere asked hasked, hwhere⟩, hx⟩⟩
    cases hx : pg.score (rankingAt js viewer query epoch) e with
    | none =>
        have hempty : tables = [] := by
          refine List.eq_nil_iff_forall_not_mem.2 fun R hR => ?_
          obtain ⟨x, hx', -⟩ := hscored R hR
          exact nomatch hx.symm.trans hx'
        subst hempty
        cases hfollowed
        exact .inr ⟨rfl, fun x hx' => (nomatch hx')⟩
    | some x =>
        have hin : ∀ R ∈ tables, (⟨e, x⟩ : SearchRow Num) ∈ R := by
          intro R hR
          obtain ⟨x', hx', hmem⟩ := hscored R hR
          obtain rfl := Option.some.inj (hx.symm.trans hx')
          exact hmem
        refine (hfollowed.complete hranked hin after_none).imp (fun hmem => ?_) fun hlt => ?_
        · exact List.mem_map.2 ⟨_, hmem, rfl⟩
        · refine ⟨hlt.1, fun x' hx' r hr => before_iff.2 ?_⟩
          obtain rfl := Option.some.inj hx'
          exact hlt.2 r hr

/-- The cursors that following a query from its first page comes by, at the first page's epoch. -/
inductive Issued (pg : Postgres Num Col js.isFinite js.isDate) (viewer : Viewer Num)
    (query : DiscoveryQuery Raw) (epoch : Instant) : Raw → Prop
  | first {table : EventTable pg} {limit : Option Int} {page : DiscoveryPage Num Raw} {next : Raw}
      (hpage : search js pg viewer { query with cursor := none, limit := limit } table.rows epoch =
        .ok page)
      (hnext : page.nextCursor = some next) : Issued pg viewer query epoch next
  | later {table : EventTable pg} {limit : Option Int} {page : DiscoveryPage Num Raw}
      {next raw : Raw} {asked : Instant} (hraw : Issued pg viewer query epoch raw)
      (hpage : search js pg viewer { query with cursor := some raw, limit := limit } table.rows
        asked = .ok page)
      (hnext : page.nextCursor = some next) : Issued pg viewer query epoch next

theorem Issued.position {raw : Raw} (h : Issued pg viewer query epoch raw)
    (hoffset : query.offset.getD 0 = 0) :
    ∃ k, Position pg (sortOf query) epoch (some raw) k := by
  induction h with
  | @first table limit page next hpage hnext =>
      obtain ⟨R, -, -, hcase⟩ := search_page { query with cursor := none, limit := limit } .first
        rfl (fun _ => rfl) hoffset hpage
      rcases hcase with ⟨hnone, -⟩ | ⟨last, -, hafter⟩
      · exact nomatch hnone.symm.trans hnext
      · exact ⟨_, hnext ▸ hafter⟩
  | @later table limit page next raw asked hraw hpage hnext ih =>
      obtain ⟨k, hk⟩ := ih
      obtain ⟨R, -, -, hcase⟩ := search_page { query with cursor := some raw, limit := limit } hk
        rfl nofun hoffset hpage
      rcases hcase with ⟨hnone, -⟩ | ⟨last, -, hafter⟩
      · exact nomatch hnone.symm.trans hnext
      · exact ⟨_, hnext ▸ hafter⟩

omit [LinearOrder Col] in
theorem Position.taken {sort : DiscoverySort} {k : Option (RankOf Num Col sort)} {raw : Raw}
    (h : Position pg sort epoch cursor k) (hcursor : cursor = some raw) :
    ∃ c, decodeCursor js raw sort = .ok c ∧ Taken pg c epoch := by
  cases h with
  | first => cases hcursor
  | after hnamed hepoch =>
      rw [← Option.some.inj hcursor]
      exact ⟨_, decodeCursor_cursorAt hnamed hepoch, taken_cursorAt hnamed hepoch⟩

/-- Following the cursors of a query is exact, and a cursor that the decoder accepts ends in an
internal error exactly when something it says cannot be bound or a score does not evaluate; the
cursors the pages issue can be bound. -/
theorem pages_exact (viewer : Viewer Num) (query : DiscoveryQuery Raw)
    (hoffset : query.offset.getD 0 = 0) :
    (∀ epoch requests shown done, Follows pg viewer query none requests shown done →
      (∀ asked ∈ requests.head?, asked.now = epoch) →
      ∃ rows, shown = rows.map (toDiscoveredEvent js (sortOf query)) ∧
        Exact pg viewer query epoch requests rows done) ∧
    (∀ raw c (table : EventTable pg) limit now, decodeCursor js raw (sortOf query) = .ok c →
      (search js pg viewer { query with cursor := some raw, limit := limit } table.rows now ≠
          .error .uncaught ↔ Usable pg viewer query c table.rows)) ∧
    ∀ epoch raw, Issued pg viewer query epoch raw →
      ∃ c, decodeCursor js raw (sortOf query) = .ok c ∧ Taken pg c epoch := by
  refine ⟨fun epoch requests shown done h hfirst => h.exact hfirst hoffset,
    fun raw c table limit now hc => ?_, fun epoch raw h => ?_⟩
  · have hsort : c.sort = sortOf query := by
      unfold decodeCursor at hc
      split at hc
      · cases hc
      · split at hc
        · next hsort =>
            obtain rfl := Except.ok.inj hc
            exact hsort
        · cases hc
    have hdecoded : search js pg viewer { query with cursor := some raw, limit := limit }
        table.rows now = searchFrom js pg viewer { query with cursor := some raw, limit := limit }
          (some c) table.rows now := search_decoded rfl hc
    rw [hdecoded]
    exact searchFrom_caught hsort
  · obtain ⟨k, hk⟩ := h.position hoffset
    exact hk.taken rfl

end Pages

/-! ## An instance -/

def demoTexts : List String := (List.range 10).map fun n => s!"1970-01-01T00:00:00.00{n}Z"

/-- The first ten milliseconds, with whole numbers and a cursor's payload as its own text. -/
def demoJs : Runtime Int (Json Int) where
  one := 1
  isFinite _ := true
  stringify j := j
  parse := some
  newDate
    | .num t => if 0 ≤ t ∧ t < 10 then some t else none
    | .str s => (demoTexts.idxOf? s).map Int.ofNat
  getTime t := t
  toISOString t := demoTexts.getD t.toNat ""
  gregorianYearIn _ := 1970
  hourIn _ := 0
  isDate t := decide (0 ≤ t ∧ t < 10)
  normalize s := s
  parse_stringify _ _ _ := rfl
  finite_getTime _ _ := rfl
  newDate_getTime _ h := if_pos (of_decide_eq_true h)
  newDate_toISOString t h := by
    obtain ⟨hlo, hhi⟩ := of_decide_eq_true h
    obtain ⟨n, rfl⟩ := Int.eq_ofNat_of_zero_le hlo
    have hn : n < 10 := Int.ofNat_lt.1 hhi
    exact (show ∀ n < 10, (demoTexts.idxOf? (demoTexts.getD (Int.ofNat n).toNat "")).map
      Int.ofNat = some (Int.ofNat n) by decide) n hn

/-- With every weight zero, a score is zero. -/
def demoPg : Postgres Int String demoJs.isFinite demoJs.isDate where
  timestamptz := demoJs.isDate
  float8
    | .num x => .value x
    | .str _ => .null
  text s := s.toList.all fun c => decide (c.toNat ≠ 0)
  collate s := s
  matchesQuery q e := decide (e.title = q)
  score _ _ := some 0
  float8_num _ _ := rfl
  finite_score _ _ _ _ := rfl
  isDate_timestamptz _ h := h
  collate_injective _ _ h := h

def demoViewer : Viewer Int := ⟨none, [], ⟨0, 0, 0, 0, 0, 50⟩⟩

def demoQuery : DiscoveryQuery (Json Int) := { sort := some .SOONEST }

def demoEvent (id : EventId) (publicId : String) (startsAt : Instant) : ListedEvent where
  event := {
    id, hostUserId := 1, title := "chess", description := "an evening", categoryId := 1,
    customCategoryLabel := none, cityId := 1, districtId := none, districtLabel := none, startsAt,
    endsAt := 9, hostAbsentAt := none, capacity := 4, acceptedCount := 0, genderPreference := none,
    minAge := none, maxAge := none, status := .PUBLISHED, moderationStatus := .APPROVED,
    publishedAt := some 0, isSeeded := false, requestCount := 0, version := 0, createdAt := 0,
    deletedAt := none }
  publicId
  costType := .FREE
  costAmount := none
  hostTrustScore := none

theorem demoEvent_stored {id : EventId} {publicId : String} {startsAt : Instant}
    (hnamed : 0 < publicId.length) (htext : demoPg.text publicId = true)
    (hstart : demoJs.isDate startsAt = true) : Stored demoPg (demoEvent id publicId startsAt) :=
  ⟨hnamed, htext, hstart, fun t ht => by rw [← Option.some.inj ht]; rfl⟩

/-- Two events, then the first is gone and one between them is new. -/
def demoFirst : EventTable demoPg where
  rows := [demoEvent 2 "e2" 5, demoEvent 1 "e1" 3]
  distinct := by decide
  checked := by decide
  stored := by
    simp only [List.forall_mem_cons, List.not_mem_nil, false_imp_iff, implies_true, and_true]
    exact ⟨demoEvent_stored (by decide) (by decide) (by decide),
      demoEvent_stored (by decide) (by decide) (by decide)⟩

def demoSecond : EventTable demoPg where
  rows := [demoEvent 2 "e2" 5, demoEvent 3 "e3" 4]
  distinct := by decide
  checked := by decide
  stored := by
    simp only [List.forall_mem_cons, List.not_mem_nil, false_imp_iff, implies_true, and_true]
    exact ⟨demoEvent_stored (by decide) (by decide) (by decide),
      demoEvent_stored (by decide) (by decide) (by decide)⟩

theorem pages_exact_between : ∃ rows,
    [demoEvent 1 "e1" 3, demoEvent 3 "e3" 4, demoEvent 2 "e2" 5] = rows.map SearchRow.listed ∧
      Exact demoPg demoViewer demoQuery 0 [⟨demoFirst, some 1, 0⟩, ⟨demoSecond, some 5, 7⟩] rows
        true := by
  have hfollows : Follows demoPg demoViewer demoQuery none
      [⟨demoFirst, some 1, 0⟩, ⟨demoSecond, some 5, 7⟩] _ true :=
    .next (by rfl) (by rfl) (.last (by rfl) (by rfl))
  obtain ⟨rows, hrows, hexact⟩ := (pages_exact demoViewer demoQuery rfl).1 0 _ _ _ hfollows
    (fun asked h => by rw [← Option.some.inj h])
  refine ⟨rows, ?_, hexact⟩
  have hlisted := congrArg (List.map DiscoveredEvent.listed) hrows
  rw [List.map_map] at hlisted
  exact hlisted

/-- The decoder takes any text as the key of a date sort. -/
theorem garbage_key_uncaught :
    ∃ raw c, decodeCursor demoJs raw .SOONEST = .ok c ∧
      search demoJs demoPg demoViewer { demoQuery with cursor := some raw } demoFirst.rows 0 =
        .error .uncaught :=
  ⟨encodeCursor demoJs ⟨.SOONEST, 0, .str "garbage", "e1"⟩, _, rfl, rfl⟩

end Discovery

end Paayatam
