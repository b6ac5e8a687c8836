import StreamPlan.Proofs.Session.Calls

/-!
# Calls that edit a session in place

A registration gives the next session or none. Here it is a sequence of edits of one
session instead: a name is bound, then a table is put in, then its view. A failure on the
way leaves the edits before it.

* `Edit`: a computation that reads and edits a session and may fail at any point.
* `Edit.ofCall`: the calls with their checks and edits in order.
* `Edit.ofCall_settles`: **no call fails after its first edit**: an edited session is the
  next one, and after a failure it is what it was.
-/

namespace StreamPlan

/-- A computation that edits a session. Edits before a failure stay. -/
abbrev Edit (α : Type) := ExceptT (Failure SessionError) (StateM Compiler) α

namespace Edit

variable {α β : Type}

/-- The answer of an edit and the session that it leaves. -/
def on (edit : Edit α) (c : Compiler) : Answer α × Compiler := (ExceptT.run edit).run c

/-- What an edit reads off the session. -/
def reading (f : Compiler → Answer α) : Edit α := ExceptT.mk fun c => (f c, c)

/-- A change of the catalog of the session. -/
def changing (f : Catalog → Catalog) : Edit Unit := modify fun c => { c with catalog := f c.catalog }

/-- The edit whose answer comes with the next session or leaves the session alone. -/
def settled (c : Compiler) : Answer (Compiler × α) → Answer α × Compiler
  | .ok (next, a) => (.ok a, next)
  | .error e => (.error e, c)

/-- Binds a name. -/
def bindName (name : String) (relation : RelationId) : Edit Unit :=
  changing fun catalog => { catalog with names := (name, relation) :: catalog.names }

/-- Puts in a base table under its name. -/
def putTable (table : BaseTable) : Edit Unit := do
  let id ← reading fun c => .ok c.catalog.bases.length
  bindName table.name (.base id)
  changing fun catalog => { catalog with bases := catalog.bases ++ [table] }

/-- Puts in a view under its name. Gives the view. -/
def putView (view : View) : Edit Nat := do
  let id ← reading fun c => .ok c.catalog.views.length
  bindName view.name (.view id)
  changing fun catalog => { catalog with views := catalog.views ++ [view] }
  return id

/-- Fails unless a name is free. -/
def checkFree (name : String) : Edit Unit :=
  reading fun c => withError .catalog (orRefuse (c.catalog.checkFree name))

/-- Registers a base table and its root view. -/
def addTable (table : BaseTable) (viewName : String) : Edit Nat := do
  if table.fields.length < table.keys then
    reading fun _ => refuse (.catalog (.invalidKey table.name table.keys table.fields.length))
  checkFree table.name
  if viewName ≠ table.name then checkFree viewName
  let base ← reading fun c => .ok c.catalog.bases.length
  putTable table
  putView {
    name := viewName
    place := .root base
    levelFields := table.fields
    ownKeys := table.keys
    ownColumns := flatColumns table.fields
    ancestorKeys := 0
    fields := flatFields table.fields }

/-- Registers the collection in a column of a view's level. -/
def addChild (parent : Nat) (column name : String) (ownKeys : Nat) : Edit Nat := do
  checkFree name
  let above ← reading fun c => orFault (c.catalog.view parent)
  match above.levelFields.findIdx? (·.name == column) with
  | none =>
    reading fun _ =>
      refuse (.catalog (.unknownColumn above.name column (above.levelFields.map Field.name)))
  | some position =>
    let field ← reading fun _ => orFault (itemAt above.levelFields position)
    match field.nested? with
    | none => reading fun _ => refuse (.catalog (.notNested above.name column))
    | some level =>
      if level.length < ownKeys then
        reading fun _ => refuse (.catalog (.invalidKey name ownKeys level.length))
      else if above.fields.length < above.keys then reading fun _ => Fault.raise .sliceOutOfRange
      else
        putView {
          name := name
          place := .child parent position
          levelFields := level
          ownKeys := ownKeys
          ownColumns := flatColumns level
          ancestorKeys := above.keys
          fields := above.fields.take above.keys ++ flatFields level }

/-- Registers a base table under its own name. -/
def registerTable (table : BaseTable) : Edit Nat := addTable table table.name

/-- Registers the collection in a column of the view of a name. -/
def registerNested (parent column : String) (keys : Nat) : Edit Nat := do
  let id ← reading fun c => c.viewNamed parent
  addChild id column (parent ++ "." ++ column) keys

/-- Plans a query, registers its table and puts it with the compiled queries. -/
def compile (name : String) (query : Rel) : Edit CompiledQuery := do
  let known ← reading fun c => .ok (c.queries.lookup name)
  if known.isSome then reading fun _ => refuse (.queryExists name)
  else
    let selected ← reading fun c => c.plan query
    let published ← reading fun _ => orFault selected.plan.published
    let manifest ← reading fun _ => orFault (Manifest.ofPlan published)
    let table ← reading fun _ => orFault (published.toTable name selected.stage.name)
    let view ← registerTable table
    let compiled : CompiledQuery :=
      ⟨name, view, selected.stage, selected.cost, table, manifest, selected.rejected⟩
    modify fun c => { c with queries := c.queries ++ [(name, compiled)] }
    return compiled

/-- A call as an edit. -/
def ofCall : Compiler.Call → Edit Unit
  | .registerTable table => do let _ ← registerTable table
  | .registerNested parent column keys => do let _ ← registerNested parent column keys
  | .compile name query => do let _ ← compile name query

variable {c : Compiler} {x : Edit α} {f : α → Edit β}

@[simp]
theorem on_reading (f : Compiler → Answer α) (c : Compiler) : (reading f).on c = (f c, c) := rfl

/-- An edit goes on from the session that the first part leaves. -/
theorem on_bind (x : Edit α) (f : α → Edit β) (c : Compiler) :
    (x >>= f).on c = match x.on c with
      | (.ok a, next) => (f a).on next
      | (.error e, next) => (.error e, next) := by
  show (x >>= f) c = match x c with | (.ok a, next) => f a next | (.error e, next) => (.error e, next)
  simp only [bind, ExceptT.bind, ExceptT.mk, StateT.bind, ExceptT.bindCont]
  rcases x c with ⟨_ | _, next⟩ <;> rfl

theorem on_reading_bind (g : Compiler → Answer α) (f : α → Edit β) (c : Compiler) :
    (reading g >>= f).on c = match g c with
      | .ok a => (f a).on c
      | .error e => (.error e, c) := by
  rw [on_bind, on_reading]
  cases g c <;> rfl

/-- What registers a relation of the catalog, as an answer of the session. -/
def registering (c : Compiler) (x : Checked CatalogError (Catalog × Nat)) : Answer (Compiler × Nat) := do
  let (catalog, view) ← withError .catalog x
  return ({ c with catalog }, view)

theorem addTable_settles (table : BaseTable) (viewName : String) (c : Compiler) :
    (addTable table viewName).on c
      = settled c (registering c (orRefuse (c.catalog.addTable table viewName))) := by
  unfold addTable Catalog.addTable
  by_cases hk : table.fields.length < table.keys
  · rw [if_pos hk, if_pos hk]
    rfl
  · rw [if_neg hk, if_neg hk]
    simp only [checkFree, on_reading_bind]
    cases c.catalog.checkFree table.name with
    | error e => rfl
    | ok _ =>
      by_cases hname : viewName ≠ table.name
      · simp only [if_pos hname]
        cases hview : c.catalog.checkFree viewName with
        | error e =>
          change Edit.on (_ >>= _) c = _
          rw [on_reading_bind, hview]
          rfl
        | ok _ =>
          change Edit.on (_ >>= _) c = _
          rw [on_reading_bind, hview]
          rfl
      · simp only [if_neg hname]
        rfl

theorem addChild_settles (parent : Nat) (column name : String) (ownKeys : Nat) (c : Compiler) :
    (addChild parent column name ownKeys).on c
      = settled c (registering c (c.catalog.addChild parent column name ownKeys)) := by
  unfold addChild Catalog.addChild
  simp only [checkFree, on_reading_bind]
  -- both make the same checks in the same order, and neither has changed anything when one fails
  cases c.catalog.checkFree name with
  | error e => rfl
  | ok _ =>
    cases c.catalog.view parent with
    | error e => rfl
    | ok above =>
      simp only [orRefuse, orFault, withError, ok_bind]
      cases above.levelFields.findIdx? (·.name == column) with
      | none => rfl
      | some position =>
        simp only [on_reading_bind]
        cases itemAt above.levelFields position with
        | error e => rfl
        | ok field =>
          simp only [ok_bind]
          cases field.nested? with
          | none => rfl
          | some level =>
            simp only
            split
            · rfl
            · split
              · rfl
              · rfl

theorem registerTable_settles (table : BaseTable) (c : Compiler) :
    (registerTable table).on c = settled c (c.registerTable table) :=
  addTable_settles table table.name c

theorem registerNested_settles (parent column : String) (keys : Nat) (c : Compiler) :
    (registerNested parent column keys).on c = settled c (c.registerNested parent column keys) := by
  unfold registerNested Compiler.registerNested
  rw [on_reading_bind]
  cases c.viewNamed parent with
  | error e => rfl
  | ok id => exact addChild_settles id column _ keys c

theorem compile_settles (name : String) (query : Rel) (c : Compiler) :
    (compile name query).on c = settled c (c.compile name query) := by
  unfold compile Compiler.compile
  rw [on_reading_bind]
  simp only
  by_cases hknown : (c.queries.lookup name).isSome = true
  · rw [if_pos hknown, if_pos hknown]
    rfl
  · rw [if_neg hknown, if_neg hknown, on_reading_bind]
    cases c.plan query with
    | error e => rfl
    | ok selected =>
      simp only [on_reading_bind, ok_bind]
      cases selected.plan.published with
      | error e => rfl
      | ok published =>
        simp only [orFault_ok, ok_bind]
        cases Manifest.ofPlan published with
        | error e => rfl
        | ok manifest =>
          simp only [orFault_ok, ok_bind]
          cases published.toTable name selected.stage.name with
          | error e => rfl
          | ok table =>
            -- the table is the first edit, and nothing can fail behind it
            simp only [on_bind, orFault_ok, ok_bind, registerTable_settles]
            cases c.registerTable table with
            | error e => rfl
            | ok result => rfl

/-- **No call fails after its first edit.** Edited in place, a session is the one that the
call leads to; and if the call fails, it is what it was. -/
theorem ofCall_settles (call : Compiler.Call) (c : Compiler) :
    ((ofCall call).on c).2 = c.after call ∧
      ∀ e later, (ofCall call).on c = (.error e, later) → later = c := by
  have hdone : ∀ {α : Type} (x : Edit α) (answer : Answer (Compiler × α)),
      x.on c = settled c answer →
      ((x >>= fun _ => pure ()).on c).2 = c.settleOn answer ∧
        ∀ e later, (x >>= fun _ => pure ()).on c = (.error e, later) → later = c := by
    intro α x answer hx
    rw [on_bind, hx]
    rcases answer with e | ⟨next, a⟩
    · refine ⟨rfl, fun e later h => ?_⟩
      cases h
      rfl
    · refine ⟨rfl, fun e later h => ?_⟩
      cases h
  cases call with
  | registerTable table => exact hdone _ _ (registerTable_settles table c)
  | registerNested parent column keys => exact hdone _ _ (registerNested_settles parent column keys c)
  | compile name query => exact hdone _ _ (compile_settles name query c)

end Edit

end StreamPlan
