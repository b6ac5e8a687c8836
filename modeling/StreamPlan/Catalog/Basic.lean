import StreamPlan.Columns.ColumnMap
import StreamPlan.EventTime.Basic
import StreamPlan.EventTime.NowFilter
import StreamPlan.TopN

/-!
# Catalog of relations

The catalog holds *base tables*, whose rows may contain nested collections,
and *views*, each a flat picture of one level of a base table. The root view
shows the columns that are not nested; a child view shows the keys of its
ancestors followed by the columns of one collection that are not nested.

* `Catalog.addTable`, `Catalog.addChild`: registration. Names are unique.
* `Catalog.lookup`: the relation of a name.
* `Catalog.ancestry`: the views from the root down to a view.
-/

namespace StreamPlan

/-- Constraints that a published query left open; a scan takes them up again. -/
structure Pending where
  nowFilter : Option NowFilter
  topN : TopN
  sort : SortOrder
  deriving DecidableEq, Repr

namespace Pending

/-- Nothing is open. -/
def none : Pending := ⟨.none, TopN.none, []⟩

/-- Whether nothing is open. -/
def isEmpty (pending : Pending) : Bool :=
  pending.nowFilter.isNone && pending.topN.isEmpty && pending.sort.isEmpty

/-- The constraints over the columns that `f` gives. A constraint with a
column that has no new one is dropped. -/
def remap (pending : Pending) (f : Nat → Option Nat) : Pending :=
  let kept (columns : List Nat) : Bool := columns.all fun c => (f c).isSome
  let topN :=
    if kept pending.topN.columns then
      { pending.topN with
        partition := pending.topN.partition.map fun c => (f c).getD c
        order := SortOrder.moved pending.topN.order f }
    else TopN.none
  let sort := if kept (SortOrder.columns pending.sort) then SortOrder.moved pending.sort f else []
  ⟨pending.nowFilter.bind (·.remap f), topN, sort⟩

end Pending

/-- A base table. -/
structure BaseTable where
  name : String
  fields : Fields
  /-- The number of leading columns that are the primary key. -/
  keys : Nat
  kind : TableKind
  time : EventTime
  pending : Pending
  /-- The stage that writes or computes the table, if it is a planned query. -/
  stage : Option String

/-- Where a view stands in its entity. -/
inductive ViewPlace where
  /-- The top level of a base table. -/
  | root (base : Nat)
  /-- The collection in a column of the parent's level. -/
  | child (parent column : Nat)
  deriving DecidableEq, Repr

/-- A flat picture of one level of a base table. -/
structure View where
  name : String
  place : ViewPlace
  /-- The whole row of the level, nested collections included. -/
  levelFields : Fields
  /-- The number of leading columns of the level that are its own key. -/
  ownKeys : Nat
  /-- The columns of the level that are not nested. -/
  ownColumns : List Nat
  /-- The number of key columns of all ancestors. -/
  ancestorKeys : Nat
  /-- The keys of the ancestors, then the own columns. -/
  fields : Fields

namespace View

/-- The number of key columns of a view. -/
def keys (view : View) : Nat := view.ancestorKeys + view.ownKeys

/-- Whether the view is of a top level. -/
def isRoot (view : View) : Bool :=
  match view.place with
  | .root _ => true
  | .child .. => false

/-- The view of the level above. -/
def parent? (view : View) : Option Nat :=
  match view.place with
  | .root _ => none
  | .child parent _ => some parent

/-- The position of a level's column among the view's own columns. -/
def ownPosition? (view : View) (column : Nat) : Option Nat :=
  view.ownColumns.findIdx? (· == column)

end View

/-- Why the catalog refused. -/
inductive CatalogError where
  /-- No relation has the name; the registered names are listed. -/
  | unknownTable (name : String) (available : List String)
  | duplicateTable (name : String)
  /-- The column is no list of structs. -/
  | notNested (table column : String)
  /-- The level has no such column; its columns are listed. -/
  | unknownColumn (table column : String) (available : List String)
  /-- More key columns than columns. -/
  | invalidKey (table : String) (keys columns : Nat)
  deriving DecidableEq, Repr

/-- What a catalog error says. -/
def CatalogError.message : CatalogError → String
  | unknownTable name _ => s!"table '{name}' not found"
  | duplicateTable name => s!"table '{name}' already exists"
  | notNested table column => s!"column '{column}' of '{table}' is not a nested collection"
  | unknownColumn table column _ => s!"column '{column}' not found in '{table}'"
  | invalidKey table keys columns =>
    s!"table '{table}' declares {keys} primary keys but has {columns} columns"

/-- Registered relations by number, and their names. -/
structure Catalog where
  bases : List BaseTable
  views : List View
  /-- The latest binding of a name comes first. -/
  names : List (String × RelationId)

/-- The columns of a level that are not nested. -/
def flatColumns (fields : Fields) : List Nat :=
  (fields.zipIdx.filter fun (field, _) => !field.isNested).map Prod.snd

/-- The fields of a level that are not nested. -/
def flatFields (fields : Fields) : Fields := fields.filter fun field => !field.isNested

/-- Puts a name into an ascending list without repeats. -/
def insertName (name : String) : List String → List String
  | [] => [name]
  | other :: names =>
    if name < other then name :: other :: names
    else if name = other then other :: names
    else other :: insertName name names

/-- The distinct names of a list in ascending order. -/
def sortNames (names : List String) : List String := names.foldr insertName []

namespace Catalog

/-- The catalog without relations. -/
def empty : Catalog := ⟨[], [], []⟩

/-- The registered names, ascending. -/
def tableNames (catalog : Catalog) : List String := sortNames (catalog.names.map Prod.fst)

/-- The relation of a name. -/
def lookup (catalog : Catalog) (name : String) : Except CatalogError RelationId :=
  match catalog.names.lookup name with
  | some id => .ok id
  | none => .error (.unknownTable name catalog.tableNames)

/-- Whether a name can still be given. -/
def checkFree (catalog : Catalog) (name : String) : Except CatalogError Unit :=
  if (catalog.names.lookup name).isSome then .error (.duplicateTable name) else .ok ()

/-- A base table by number. -/
def base (catalog : Catalog) (id : Nat) : Except Fault BaseTable := itemAt catalog.bases id

/-- A view by number. -/
def view (catalog : Catalog) (id : Nat) : Except Fault View := itemAt catalog.views id

/-- Registers a base table and its root view under `viewName`. Gives the root
view. -/
def addTable (catalog : Catalog) (table : BaseTable) (viewName : String) :
    Except CatalogError (Catalog × Nat) := do
  if table.fields.length < table.keys then
    throw (.invalidKey table.name table.keys table.fields.length)
  catalog.checkFree table.name
  if viewName ≠ table.name then catalog.checkFree viewName
  let base := catalog.bases.length
  let id := catalog.views.length
  let view : View := {
    name := viewName
    place := .root base
    levelFields := table.fields
    ownKeys := table.keys
    ownColumns := flatColumns table.fields
    ancestorKeys := 0
    fields := flatFields table.fields }
  return (⟨catalog.bases ++ [table], catalog.views ++ [view],
    (viewName, .view id) :: (table.name, .base base) :: catalog.names⟩, id)

/-- Registers the collection in a column of a view's level as a child view
with `ownKeys` leading key columns. Gives the child view. -/
def addChild (catalog : Catalog) (parent : Nat) (column name : String) (ownKeys : Nat) :
    Checked CatalogError (Catalog × Nat) := do
  orRefuse (catalog.checkFree name)
  let above ← orFault (catalog.view parent)
  match above.levelFields.findIdx? (·.name == column) with
  | none => refuse (.unknownColumn above.name column (above.levelFields.map Field.name))
  | some position =>
    let field ← orFault (itemAt above.levelFields position)
    match field.nested? with
    | none => refuse (.notNested above.name column)
    | some level =>
      if level.length < ownKeys then refuse (.invalidKey name ownKeys level.length)
      else if above.fields.length < above.keys then Fault.raise .sliceOutOfRange
      else
        let id := catalog.views.length
        let view : View := {
          name := name
          place := .child parent position
          levelFields := level
          ownKeys := ownKeys
          ownColumns := flatColumns level
          ancestorKeys := above.keys
          fields := above.fields.take above.keys ++ flatFields level }
        return ({ catalog with
          views := catalog.views ++ [view]
          names := (name, .view id) :: catalog.names }, id)

/-- The views above `id`, the root first, in front of `below`. -/
def climb (catalog : Catalog) : Nat → Nat → List Nat → Except Fault (List Nat)
  | 0, _, below => return below
  | fuel + 1, id, below => do
    match (← catalog.view id).parent? with
    | none => return id :: below
    | some parent => catalog.climb fuel parent (id :: below)

/-- The views from the root down to a view. A parent is registered before its
children, so there are at most `id + 1` of them. -/
def ancestry (catalog : Catalog) (id : Nat) : Except Fault (List Nat) :=
  catalog.climb (id + 1) id []

/-- The root view above a view. -/
def rootOf (catalog : Catalog) (id : Nat) : Except Fault Nat := do
  itemAt (← catalog.ancestry id) 0

/-- The base table of the entity of a view. -/
def baseOf (catalog : Catalog) (id : Nat) : Except Fault Nat := do
  match (← catalog.view (← catalog.rootOf id)).place with
  | .root base => return base
  | .child .. => .error .indexOutOfBounds

/-- The root view of a base table. -/
def rootView (catalog : Catalog) (base : Nat) : Except Fault Nat :=
  match catalog.views.findIdx? (·.place = .root base) with
  | some id => .ok id
  | none => .error (.noRootView base)

/-- The child views of a view. -/
def children (catalog : Catalog) (id : Nat) : List Nat :=
  (catalog.views.zipIdx.filter fun (view, _) => view.parent? == some id).map Prod.snd

/-- The row type of a relation. -/
def fields (catalog : Catalog) : RelationId → Except Fault Fields
  | .base id => do return (← catalog.base id).fields
  | .view id => do return (← catalog.view id).fields

/-- A scan of a relation under a name. -/
def scan (catalog : Catalog) (relation : RelationId) (name : String) : Except Fault Rel := do
  return .scan relation name (← catalog.fields relation)

/-- A scan of the relation of a name. -/
def scanNamed (catalog : Catalog) (name : String) : Checked CatalogError Rel := do
  let relation ← orRefuse (catalog.lookup name)
  orFault (catalog.scan relation name)

end Catalog

end StreamPlan
