/-
  Paayatam.Discovery.Search

  Discovery: what a viewer may see, in what order, page by page.

  A page names the last row it showed in an opaque cursor (the sort's value, the
  public id that breaks ties, the epoch the first page was ranked at) and the
  next request asks for the rows strictly after it.  What the language runtime
  and the database do with a value is a parameter with its documented laws: the
  JSON text of a cursor, `Date`, binding a query parameter, the collation of a
  text column, the full-text match and the floating-point score expression.
-/

import Paayatam.Db
import Mathlib.Data.List.Sort
import Mathlib.Data.Prod.Lex
import Mathlib.Order.WithBot

namespace Paayatam

namespace Discovery

/-! ## Cursors -/

inductive DiscoverySort where
  | RELEVANCE | SOONEST | NEWEST
  deriving DecidableEq

/-- The spelling in a cursor. -/
def DiscoverySort.name : DiscoverySort → String
  | .RELEVANCE => "RELEVANCE" | .SOONEST => "SOONEST" | .NEWEST => "NEWEST"

/-- A score for `RELEVANCE`, an ISO timestamp for the date sorts. -/
inductive CursorKey (Num : Type) where
  | num (x : Num)
  | str (s : String)

inductive Json (Num : Type) where
  | null
  | bool (b : Bool)
  | num (x : Num)
  | str (s : String)
  | arr (elems : List (Json Num))
  | obj (fields : List (String × Json Num))

structure DiscoveryCursor (Num : Type) where
  sort : DiscoverySort
  epoch : Num
  key : CursorKey Num
  publicId : String

def CursorKey.toJson {Num : Type} : CursorKey Num → Json Num
  | .num x => .num x
  | .str s => .str s

/-- The payload of a cursor: `v`, `s`, `e`, `k` and `p`. -/
def DiscoveryCursor.payload {Num : Type} (one : Num) (c : DiscoveryCursor Num) : Json Num :=
  .obj [("v", .num one), ("s", .str c.sort.name), ("e", .num c.epoch), ("k", c.key.toJson),
    ("p", .str c.publicId)]

/-- `Number.isFinite` of the numbers a payload holds. -/
def CursorKey.all {Num : Type} (isFinite : Num → Bool) : CursorKey Num → Bool
  | .num x => isFinite x
  | .str _ => true

/-- What the language runtime does with text and dates. -/
structure Runtime (Num Raw : Type) where
  one : Num
  isFinite : Num → Bool
  /-- `Buffer.from(JSON.stringify(payload), 'utf8').toString('base64url')`. -/
  stringify : Json Num → Raw
  /-- `JSON.parse(Buffer.from(raw, 'base64url').toString('utf8'))`, `none` when it throws. -/
  parse : Raw → Option (Json Num)
  /-- `new Date(key)`, `none` for an Invalid Date. -/
  newDate : CursorKey Num → Option Instant
  getTime : Instant → Num
  toISOString : Instant → String
  /-- `gregorianYearIn` in the product's timezone. -/
  gregorianYearIn : Instant → Int
  /-- The hour of day in the product's timezone. -/
  hourIn : Instant → Nat
  /-- The range of a `Date`. -/
  isDate : Instant → Bool
  /-- The text normalization the indexed text went through. -/
  normalize : String → String
  parse_stringify : ∀ c : DiscoveryCursor Num, isFinite c.epoch = true →
    c.key.all isFinite = true → parse (stringify (c.payload one)) = some (c.payload one)
  finite_getTime : ∀ t, isDate t = true → isFinite (getTime t) = true
  newDate_getTime : ∀ t, isDate t = true → newDate (.num (getTime t)) = some t
  newDate_toISOString : ∀ t, isDate t = true → newDate (.str (toISOString t)) = some t

section Cursor

variable {Num Raw : Type} [DecidableEq Num] (js : Runtime Num Raw)

def encodeCursor (cursor : DiscoveryCursor Num) : Raw := js.stringify (cursor.payload js.one)

def invalidCursor (message : String) : AppError :=
  .raised .VALIDATION_FAILED (.field "cursor" message)

def Json.asNum : Json Num → Option Num
  | .num x => some x
  | _ => none

def Json.asStr : Json Num → Option String
  | .str s => some s
  | _ => none

def Json.asKey : Json Num → Option (CursorKey Num)
  | .num x => some (.num x)
  | .str s => some (.str s)
  | _ => none

def Json.asSort (j : Json Num) : Option DiscoverySort :=
  match j.asStr with
  | some "RELEVANCE" => some .RELEVANCE
  | some "SOONEST" => some .SOONEST
  | some "NEWEST" => some .NEWEST
  | _ => none

/-- A JSON value that is a cursor, read as one. -/
def isEncodedCursor : Json Num → Option (DiscoveryCursor Num)
  | .obj fields => do
      let v ← (fields.lookup "v").bind Json.asNum
      let s ← (fields.lookup "s").bind Json.asSort
      let e ← (fields.lookup "e").bind Json.asNum
      let k ← (fields.lookup "k").bind Json.asKey
      let p ← (fields.lookup "p").bind Json.asStr
      if v = js.one ∧ js.isFinite e = true ∧ 0 < p.length then some ⟨s, e, k, p⟩ else none
  | _ => none

def decodeCursor (raw : Raw) (expectedSort : DiscoverySort) :
    Except AppError (DiscoveryCursor Num) :=
  match (js.parse raw).bind (isEncodedCursor js) with
  | none => .error (invalidCursor "is not a readable cursor")
  | some parsed =>
      if parsed.sort = expectedSort then .ok parsed
      else .error (invalidCursor
        "was issued for a different sort order; start again from the first page")

theorem isEncodedCursor_payload {c : DiscoveryCursor Num} (he : js.isFinite c.epoch = true)
    (hp : 0 < c.publicId.length) : isEncodedCursor js (c.payload js.one) = some c := by
  rcases c with ⟨s, e, k, p⟩
  cases s <;> cases k <;> exact if_pos ⟨rfl, he, hp⟩

theorem decodeCursor_encodeCursor {c : DiscoveryCursor Num} (he : js.isFinite c.epoch = true)
    (hk : c.key.all js.isFinite = true) (hp : 0 < c.publicId.length) :
    decodeCursor js (encodeCursor js c) c.sort = .ok c := by
  unfold decodeCursor encodeCursor
  rw [js.parse_stringify c he hk, Option.bind_some, isEncodedCursor_payload js he hp]
  exact if_pos rfl

end Cursor

/-! ## Requests and rows -/

inductive TimeOfDay where
  | MORNING | AFTERNOON | EVENING | NIGHT

inductive CostType where
  | FREE | APPROX | FIXED | SPLIT
  deriving DecidableEq

structure DiscoveryFilters where
  query : Option String := none
  cityId : Option CityId := none
  districtId : Option DistrictId := none
  categoryId : Option CategoryId := none
  dateFrom : Option Instant := none
  dateTo : Option Instant := none
  timeOfDay : Option TimeOfDay := none
  hasCapacity : Option Bool := none
  costType : Option CostType := none
  costMax : Option Int := none
  genderPreference : Option GenderPreference := none
  ageFits : Option Int := none

structure RankingWeights (Num : Type) where
  timeProximity : Num
  popularity : Num
  recency : Num
  trust : Num
  interestMatch : Num
  neutralTrust : Num

/-- An `event` joined with what the search reads beside it. -/
structure ListedEvent where
  event : EventRow
  publicId : String
  costType : CostType
  costAmount : Option Int
  hostTrustScore : Option Int

/-- A row of `scored`. -/
structure SearchRow (Num : Type) where
  listed : ListedEvent
  score : Num

structure DiscoveredEvent (Num : Type) where
  listed : ListedEvent
  sortKey : CursorKey Num

structure SearchRequest (Num : Type) where
  filters : DiscoveryFilters
  sort : DiscoverySort
  limit : Nat
  offset : Option Nat
  /-- `none` is an Invalid Date. -/
  epoch : Option Instant
  after : Option (CursorKey Num × String)
  viewerCategoryIds : List CategoryId
  weights : RankingWeights Num

/-- What the score expression reads beside the row. -/
structure Ranking (Num : Type) where
  epoch : Instant
  query : Option String
  viewerCategoryIds : List CategoryId
  weights : RankingWeights Num

/-- What a bound parameter is to the database. -/
inductive Bound (α : Type) where
  | refused
  | null
  | value (x : α)

/-- What the driver and the database do with values. -/
structure Postgres (Num Col : Type) (isFinite : Num → Bool) (isDate : Instant → Bool) where
  /-- Whether a `Date` is taken as a `timestamptz`. -/
  timestamptz : Instant → Bool
  /-- `${Number(key)}::double precision`. -/
  float8 : CursorKey Num → Bound Num
  /-- Whether a string is taken as `text`. -/
  text : String → Bool
  /-- The sort key of a text under the collation of the column, which is deterministic. -/
  collate : String → Col
  /-- `search_vector @@ plainto_tsquery(query) OR title_normalized % query`. -/
  matchesQuery : String → EventRow → Bool
  /-- `scoreSql`, `none` when the expression is out of the range of `double precision`. -/
  score : Ranking Num → ListedEvent → Option Num
  float8_num : ∀ x, isFinite x = true → float8 (.num x) = .value x
  finite_score : ∀ q e x, score q e = some x → isFinite x = true
  isDate_timestamptz : ∀ t, timestamptz t = true → isDate t = true
  collate_injective : Function.Injective collate

/-! ## The query -/

section Query

variable {Num Col Raw : Type} [LinearOrder Num] [LinearOrder Col] (js : Runtime Num Raw)
  (pg : Postgres Num Col js.isFinite js.isDate)

def timeOfDaySql (timeOfDay : TimeOfDay) (startsAt : Instant) : Bool :=
  let hour := js.hourIn startsAt
  match timeOfDay with
  | .MORNING => decide (5 ≤ hour ∧ hour ≤ 11)
  | .AFTERNOON => decide (12 ≤ hour ∧ hour ≤ 16)
  | .EVENING => decide (17 ≤ hour ∧ hour ≤ 21)
  | .NIGHT => decide (22 ≤ hour ∨ hour ≤ 4)

def whereSql (f : DiscoveryFilters) (epoch : Instant) (row : ListedEvent) : Bool :=
  let e := row.event
  decide (e.status = .PUBLISHED) && e.deletedAt.isNone &&
  -- Discovery is a list of things you can still go to.
  decide (epoch < e.startsAt) &&
  f.query.all (fun q => pg.matchesQuery q e) &&
  f.cityId.all (fun c => decide (e.cityId = c)) &&
  f.districtId.all (fun d => decide (e.districtId = some d)) &&
  f.categoryId.all (fun c => decide (e.categoryId = c)) &&
  f.dateFrom.all (fun t => decide (t ≤ e.startsAt)) &&
  f.dateTo.all (fun t => decide (e.startsAt ≤ t)) &&
  f.timeOfDay.all (fun t => timeOfDaySql js t e.startsAt) &&
  (decide (f.hasCapacity ≠ some true) || decide (e.acceptedCount < e.capacity)) &&
  f.costType.all (fun c => decide (row.costType = c)) &&
  f.costMax.all (fun most => row.costAmount.all fun cost => decide (cost ≤ most)) &&
  f.genderPreference.all (fun g => decide (e.genderPreference = some g)) &&
  f.ageFits.all (fun age => e.minAge.all (fun least => decide (least ≤ age)) &&
    e.maxAge.all fun most => decide (age ≤ most))

/-- `new Date(key)` as a parameter, `none` when it is refused. -/
def bindDate (key : CursorKey Num) : Option Instant :=
  (js.newDate key).filter pg.timestamptz

/-- "Strictly after the last row of the previous page", `none` when a parameter is refused. -/
def keysetSql (request : SearchRequest Num) : Option (SearchRow Num → Bool) :=
  match request.after with
  | none => some fun _ => true
  | some (key, publicId) =>
      if pg.text publicId then
        match request.sort with
        | .RELEVANCE =>
            match pg.float8 key with
            | .refused => none
            | .null => some fun _ => false
            | .value score => some fun r => decide (r.score < score ∨
                r.score = score ∧ pg.collate r.listed.publicId < pg.collate publicId)
        | .SOONEST => (bindDate js pg key).map fun startsAt r =>
            decide (startsAt < r.listed.event.startsAt ∨ r.listed.event.startsAt = startsAt ∧
              pg.collate publicId < pg.collate r.listed.publicId)
        | .NEWEST => (bindDate js pg key).map fun publishedAt r =>
            -- A comparison with NULL is not true.
            r.listed.event.publishedAt.any fun at' => decide (at' < publishedAt ∨
              at' = publishedAt ∧ pg.collate r.listed.publicId < pg.collate publicId)
      else none

/-- Whether one row comes before or with another: `ORDER BY` with its tie-break, NULLs first
where the order is descending. -/
def orderSql (sort : DiscoverySort) (a b : SearchRow Num) : Bool :=
  let idA := pg.collate a.listed.publicId
  let idB := pg.collate b.listed.publicId
  match sort with
  | .RELEVANCE => decide (b.score < a.score ∨ a.score = b.score ∧ idB ≤ idA)
  | .SOONEST => decide (a.listed.event.startsAt < b.listed.event.startsAt ∨
      a.listed.event.startsAt = b.listed.event.startsAt ∧ idA ≤ idB)
  | .NEWEST =>
      match a.listed.event.publishedAt, b.listed.event.publishedAt with
      | none, none => decide (idB ≤ idA)
      | none, some _ => true
      | some _, none => false
      | some p, some q => decide (q < p ∨ p = q ∧ idB ≤ idA)

/-- The value the next cursor keys on. -/
def sortKeyFor (row : SearchRow Num) : DiscoverySort → CursorKey Num
  | .RELEVANCE => .num row.score
  | .SOONEST => .str (js.toISOString row.listed.event.startsAt)
  | .NEWEST => .str (js.toISOString (row.listed.event.publishedAt.getD row.listed.event.startsAt))

def toDiscoveredEvent (sort : DiscoverySort) (row : SearchRow Num) : DiscoveredEvent Num where
  listed := row.listed
  sortKey := sortKeyFor js row sort

/-- The rows the `WHERE` clause keeps, each with its score; `none` when one does not evaluate. -/
def scored (f : DiscoveryFilters) (q : Ranking Num) (rows : List ListedEvent) :
    Option (List (SearchRow Num)) :=
  (rows.filter (whereSql js pg f q.epoch)).mapM fun e => (pg.score q e).map (SearchRow.mk e)

/-- Every parameter of the filters is taken. -/
def DiscoveryFilters.bound (f : DiscoveryFilters) : Bool :=
  f.query.all pg.text && f.dateFrom.all pg.timestamptz && f.dateTo.all pg.timestamptz

def SearchRequest.ranking (request : SearchRequest Num) (epoch : Instant) : Ranking Num :=
  ⟨epoch, request.filters.query, request.viewerCategoryIds, request.weights⟩

/-- The search provider, `none` when the database refuses the query. -/
def PostgresSearchProvider.search (request : SearchRequest Num) (rows : List ListedEvent) :
    Option (List (DiscoveredEvent Num)) := do
  let epoch ← request.epoch.filter pg.timestamptz
  let keyset ← keysetSql js pg request
  if request.filters.bound js pg then
    let scored ← scored js pg request.filters (request.ranking epoch) rows
    let ordered := (scored.filter keyset).insertionSort
      fun a b => orderSql js pg request.sort a b
    some (((ordered.drop (request.offset.getD 0)).take request.limit).map
      (toDiscoveredEvent js request.sort))
  else none

end Query

/-! ## The service -/

structure DiscoveryQuery (Raw : Type) where
  /-- The filters, without the age: that one is the viewer's own. -/
  filters : DiscoveryFilters := {}
  ageFits : Option Bool := none
  sort : Option DiscoverySort := none
  limit : Option Int := none
  offset : Option Nat := none
  cursor : Option Raw := none

/-- What the server knows of the viewer, and the operator's weights. -/
structure Viewer (Num : Type) where
  birthYear : Option Int
  categoryIds : List CategoryId
  weights : RankingWeights Num

structure DiscoveryPage (Num Raw : Type) where
  events : List (DiscoveredEvent Num)
  nextCursor : Option Raw

/-- How a request ends without a page: an error the service raises, or one nothing catches. -/
inductive Failure where
  | raised (e : AppError)
  | uncaught

def MAX_LIMIT : Int := 50
def DEFAULT_LIMIT : Int := 20

def pageLimit (limit : Option Int) : Nat :=
  (min (max (limit.getD DEFAULT_LIMIT) 1) MAX_LIMIT).toNat

section Service

variable {Num Col Raw : Type} [LinearOrder Num] [LinearOrder Col] (js : Runtime Num Raw)
  (pg : Postgres Num Col js.isFinite js.isDate)

/-- The viewer's age at an epoch; formatting an Invalid Date throws. -/
def viewerAge (birthYear : Option Int) (at' : Option Instant) : Except Failure (Option Int) :=
  match birthYear with
  | none => .ok none
  | some year =>
      match at' with
      | none => .error .uncaught
      | some t => .ok (some (js.gregorianYearIn t - year))

def toFilters (query : DiscoveryQuery Raw) (viewerAge : Option Int) : DiscoveryFilters :=
  { query.filters with
    query := (query.filters.query.map js.normalize).filter fun q => decide (0 < q.length)
    ageFits := if query.ageFits = some true then viewerAge else none }

/-- The request of a page that continues from a cursor, or the first one. -/
def searchRequest (viewer : Viewer Num) (query : DiscoveryQuery Raw)
    (cursor : Option (DiscoveryCursor Num)) (now : Instant) (age : Option Int) :
    SearchRequest Num where
  filters := toFilters js query age
  sort := query.sort.getD .RELEVANCE
  -- One extra row, so "is there a next page?" is answered without a count.
  limit := pageLimit query.limit + 1
  offset := if cursor.isNone then query.offset else none
  epoch := match cursor with
    | some c => js.newDate (.num c.epoch)
    | none => some now
  after := cursor.map fun c => (c.key, c.publicId)
  viewerCategoryIds := viewer.categoryIds
  weights := viewer.weights

/-- The page of the rows found, one more than it shows. -/
def pageOf (request : SearchRequest Num) (limit : Nat) (events : List (DiscoveredEvent Num)) :
    DiscoveryPage Num Raw where
  events := events.take limit
  nextCursor :=
    if limit < events.length then
      (events.take limit).getLast?.bind fun last => request.epoch.map fun epoch =>
        encodeCursor js ⟨request.sort, js.getTime epoch, last.sortKey, last.listed.publicId⟩
    else none

/-- `DiscoveryService.search`, once the cursor is read. -/
def searchFrom (viewer : Viewer Num) (query : DiscoveryQuery Raw)
    (cursor : Option (DiscoveryCursor Num)) (rows : List ListedEvent) (now : Instant) :
    Except Failure (DiscoveryPage Num Raw) :=
  let epoch := (searchRequest js viewer query cursor now none).epoch
  match viewerAge js viewer.birthYear epoch with
  | .error e => .error e
  | .ok age =>
      -- Filtering by a fit that cannot be computed would silently return everything.
      if query.ageFits = some true ∧ age = none then .error (.raised (.of .PROFILE_INCOMPLETE))
      else
        let request := searchRequest js viewer query cursor now age
        match PostgresSearchProvider.search js pg request rows with
        | none => .error .uncaught
        | some events => .ok (pageOf js request (pageLimit query.limit) events)

def search (viewer : Viewer Num) (query : DiscoveryQuery Raw) (rows : List ListedEvent)
    (now : Instant) : Except Failure (DiscoveryPage Num Raw) :=
  match query.cursor with
  | none => searchFrom js pg viewer query none rows now
  | some raw =>
      match decodeCursor js raw (query.sort.getD .RELEVANCE) with
      | .error e => .error (.raised e)
      | .ok cursor => searchFrom js pg viewer query (some cursor) rows now

end Service

end Discovery

end Paayatam
