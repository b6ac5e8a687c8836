import StreamPlan.Proofs.Rows.Join
import StreamPlan.Proofs.Typing.Plan

/-!
# The rows of an unrolled entity

A lineage tells how its rows come about: the base table is scanned, and each
further level is unnested below the level above it.

* `Lineage.tree?`: the tree of a lineage.
* `Unrolling`: the trees that plans with a lineage have, where levels may have
  other column names and some rows may be dropped by now-filters.
* `Unrolling.evaluate`: **without a now-filter the rows are those of the tree.**
* `Unrolling.rows_eq_filter`: now-filters drop rows and nothing else happens.
-/

namespace StreamPlan

variable {catalog : Catalog} {fixture : Fixture} {now : Int} {rel out tree : Rel}
  {rows all above : List Row} {row : Row} {l : Lineage} {filters : List NowFilter}

/-- The elements of the collection in a column. -/
def Row.elementsAt (row : Row) (column : Nat) : List Row :=
  match row[column]? with
  | some (.list elements) => elements
  | _ => []

/-- A row once per element of the collection in a column. -/
def Row.unnested (column : Nat) (row : Row) : List Row := (row.elementsAt column).map (row ++ ·)

/-- There is a collection in a column, or null in its place. -/
def Row.HasElements (row : Row) (column : Nat) : Prop :=
  row[column]? = some .null ∨ ∃ elements, row[column]? = some (.list elements)

theorem unnestRow_eq_ok {column width : Nat} {parts : List Row} :
    unnestRow column false width row = .ok parts ↔
      row.HasElements column ∧ parts = row.unnested column := by
  rw [unnestRow, Row.HasElements, Row.unnested, Row.elementsAt]
  cases row[column]? with
  | none => simp [refuse]
  | some value =>
    cases value with
    | null | list => simp [elementsOf, pure_eq_ok, @eq_comm _ _ parts]
    | _ => simp [elementsOf, refuse]

/-- **Unnesting** takes the rows one after another. -/
theorem evaluate_unnest {column : Nat} {element : Fields} :
    evaluate fixture (.unnest rel column false element) = .ok above ↔
      ∃ rows, evaluate fixture rel = .ok rows ∧ (∀ row ∈ rows, row.HasElements column) ∧
        above = rows.flatMap (Row.unnested column) := by
  have hwalk : ∀ (rows : List Row) (parts : List (List Row)),
      rows.mapM (unnestRow column false element.length) = .ok parts ↔
        (∀ row ∈ rows, row.HasElements column) ∧ parts = rows.map (Row.unnested column) := by
    intro rows parts
    rw [mapM_eq_ok]
    constructor
    · intro h
      refine ⟨fun row hrow => ?_, eq_map_of_forall₂ h fun _ _ hr => (unnestRow_eq_ok.1 hr).2⟩
      obtain ⟨i, hi, rfl⟩ := List.getElem_of_mem hrow
      exact (unnestRow_eq_ok.1 ((List.forall₂_iff_get.1 h).2 i hi (h.length_eq ▸ hi))).1
    · rintro ⟨hall, rfl⟩
      rw [List.forall₂_map_right_iff]
      exact List.forall₂_same.2 fun row hrow => unnestRow_eq_ok.2 ⟨hall row hrow, rfl⟩
  rw [evaluate]
  simp only [bind_eq_ok, pure_eq_ok, hwalk, List.flatMap]
  constructor
  · rintro ⟨rows, hrows, _, ⟨hall, rfl⟩, rfl⟩
    exact ⟨rows, hrows, hall, rfl⟩
  · rintro ⟨rows, hrows, hall, rfl⟩
    exact ⟨rows, hrows, _, ⟨hall, rfl⟩, rfl⟩

/-- The scan of the base table of a root level. -/
def Level.scan? (catalog : Catalog) (level : Level) : Option Rel := do
  let view ← catalog.views[level.view]?
  match view.place with
  | .root b => do
    let table ← catalog.bases[b]?
    return .scan (.base b) table.name table.fields
  | .child .. => none

/-- A level unnested above the tree of the levels before it. -/
def Level.onto? (catalog : Catalog) (before : Lineage) (level : Level) (rel : Rel) : Option Rel := do
  let above ← before[← level.parent]?
  let view ← catalog.views[level.view]?
  match view.place with
  | .root _ => none
  | .child _ column => return .unnest rel (above.offset + column) false view.levelFields

/-- The tree of some levels, of which the last comes first. -/
def Lineage.treeOf? (catalog : Catalog) : List Level → Option Rel
  | [] => none
  | [root] => root.scan? catalog
  | level :: before :: rest => do
    level.onto? catalog (before :: rest).reverse (← treeOf? catalog (before :: rest))

/-- **The tree of a lineage**: the base table, with one level after another
unnested. -/
def Lineage.tree? (catalog : Catalog) (l : Lineage) : Option Rel := treeOf? catalog l.reverse

namespace Lineage

theorem tree?_root {id b offset width keys : Nat} {view : View} {table : BaseTable}
    (hv : catalog.views[id]? = some view) (hp : view.place = .root b)
    (ht : catalog.bases[b]? = some table) :
    (root id offset width keys).tree? catalog = some (.scan (.base b) table.name table.fields) := by
  rw [tree?, root, List.reverse_singleton, treeOf?, Level.scan?, hv]
  simp [hp, ht]

/-- One more level is unnested above the tree of the others. -/
theorem tree?_concat {level above : Level} {p column : Nat} {view : View} (hne : l ≠ [])
    (hparent : level.parent = some p) (ha : l[p]? = some above)
    (hv : catalog.views[level.view]? = some view) (hp : view.place = .child above.view column) :
    tree? catalog (l ++ [level])
      = (l.tree? catalog).map (.unnest · (above.offset + column) false view.levelFields) := by
  rw [tree?, List.reverse_append, List.reverse_singleton, List.singleton_append]
  cases hr : l.reverse with
  | nil => exact absurd (List.reverse_eq_nil_iff.1 hr) hne
  | cons before rest =>
    rw [treeOf?, tree?, hr, ← hr, List.reverse_reverse]
    cases treeOf? catalog l.reverse with
    | none => rfl
    | some tree => simp [Level.onto?, hparent, ha, hv, hp]

end Lineage

/-- Trees of an entity: the levels of a lineage one after another, with other
column names and with now-filters in between. -/
inductive Unrolling (catalog : Catalog) : List NowFilter → Lineage → Rel → Prop
  | scan {id b : Nat} {view : View} {table : BaseTable} :
      catalog.views[id]? = some view → view.place = .root b → catalog.bases[b]? = some table →
      Unrolling catalog [] (Lineage.root id 0 table.fields.length view.ownKeys)
        (.scan (.base b) table.name table.fields)
  | level {filters : List NowFilter} {l : Lineage} {rel : Rel} {id p column : Nat} {above : Level}
      {view : View} :
      Unrolling catalog filters l rel → l[p]? = some above → catalog.views[id]? = some view →
      view.place = .child above.view column →
      Unrolling catalog filters
        (l ++ [⟨id, some p, .inner, rel.width, view.levelFields.length, view.ownKeys⟩])
        (.unnest rel (above.offset + column) false view.levelFields)
  | renamed {filters : List NowFilter} {l : Lineage} {rel out : Rel} :
      Unrolling catalog filters l rel → Plan.Renames rel out → Unrolling catalog filters l out
  | filtered {filters : List NowFilter} {l : Lineage} {rel : Rel} {filter : NowFilter} :
      Unrolling catalog filters l rel → filter.timestamp < rel.width →
      Unrolling catalog (filter :: filters) l (filter.onto rel)

namespace Unrolling

theorem ne_nil (h : Unrolling catalog filters l rel) : l ≠ [] := by
  induction h with
  | scan => exact List.cons_ne_nil _ _
  | level => exact List.concat_ne_nil _ _
  | renamed _ _ ih | filtered _ _ ih => exact ih

/-- The timestamps of the now-filters are columns. -/
theorem timestamp_lt (h : Unrolling catalog filters l rel) :
    ∀ filter ∈ filters, filter.timestamp < rel.width := by
  induction h with
  | scan => simp
  | level _ _ _ _ ih =>
    intro filter hf
    rw [Rel.width]
    exact Nat.lt_of_lt_of_le (ih filter hf) (Nat.le_add_right _ _)
  | renamed _ hr ih => rw [hr.width]; exact ih
  | filtered _ hlt ih =>
    rw [NowFilter.onto, Rel.width]
    exact List.forall_mem_cons.2 ⟨hlt, ih⟩

/-- **A lineage has a tree**, of as many columns. -/
theorem exists_tree (h : Unrolling catalog filters l rel) :
    ∃ tree, l.tree? catalog = some tree ∧ Unrolling catalog [] l tree ∧ tree.width = rel.width := by
  induction h with
  | scan hv hp ht => exact ⟨_, Lineage.tree?_root hv hp ht, .scan hv hp ht, rfl⟩
  | level h ha hv hp ih =>
    obtain ⟨tree, htree, hpure, hwidth⟩ := ih
    rw [Lineage.tree?_concat h.ne_nil rfl ha hv hp, htree, ← hwidth]
    exact ⟨_, rfl, hpure.level ha hv hp, by rw [Rel.width, Rel.width, hwidth]⟩
  | renamed _ hr ih =>
    obtain ⟨tree, htree, hpure, hwidth⟩ := ih
    exact ⟨tree, htree, hpure, hwidth.trans hr.width.symm⟩
  | filtered _ _ ih =>
    obtain ⟨tree, htree, hpure, hwidth⟩ := ih
    exact ⟨tree, htree, hpure, by rw [hwidth, NowFilter.onto, Rel.width]⟩

end Unrolling

/-- Known rows of base tables that have a value per column, in collections too. -/
def Fixture.Conforms (fixture : Fixture) (catalog : Catalog) : Prop :=
  ∀ id table rows, catalog.bases[id]? = some table → fixture.rowsOf (.base id) = .ok rows →
    ∀ row ∈ rows, Row.Fits table.fields row

theorem Fixture.Fits.conforms (h : fixture.Fits catalog) : fixture.Conforms catalog :=
  fun id table rows ht hrows row hrow => (h.base id table rows ht hrows row hrow).1

/-- A now-filter does not look behind its timestamp. -/
theorem NowFilter.trueOn_append {filter : NowFilter} (h : filter.timestamp < row.length) (more : Row) :
    trueOn now filter.expr (row ++ more) = trueOn now filter.expr row := by
  have hcolumn : evalExpr now (row ++ more) (.column filter.timestamp)
      = evalExpr now row (.column filter.timestamp) := by
    rw [evalExpr, evalExpr, List.getElem?_append_left h, List.getElem?_eq_getElem h]
  rw [trueOn, trueOn, evalExpr_eq, evalExpr_eq, hcolumn]

namespace Unrolling

variable (hl : catalog.Linked) (hf : fixture.Conforms catalog)
include hl hf

/-- The rows of an unrolled entity have a value per column. -/
theorem unrolls (h : Unrolling catalog filters l rel) : Unrolls catalog fixture [] rel l := by
  induction h with
  | scan hv hp ht =>
    obtain ⟨table, ht', hr⟩ := (hl.view _ _ hv).root _ hp
    obtain rfl := Option.some.inj (ht'.symm.trans ht)
    refine .scan hv hr.level fun rows h row hrow => ⟨?_, by simp⟩
    rw [evaluate] at h
    exact hf _ _ rows ht h row hrow
  | level _ ha hv hp ih => exact ih.addLevel hl hv rfl rfl ha hp
  | renamed _ hr ih => exact ih.restrict (Rel.Restricted.same.renames hr) fun _ hi => hi
  | filtered _ _ ih => exact ih.restrict Rel.Restricted.same.filter fun _ hi => hi

omit hf in
/-- The levels of an unrolled entity are below each other. -/
theorem linked (h : Unrolling catalog filters l rel) : l.Linked catalog rel.width := by
  -- no rows are known here, and none are needed
  have hnone : Fixture.Conforms ⟨[], 0⟩ catalog := fun _ _ _ _ hrows => absurd hrows refuse_ne_ok
  exact (h.unrolls hl hnone).linked

theorem shaped (h : Unrolling catalog filters l rel) : rel.Shaped fixture :=
  (h.unrolls hl hf).shaped

/-- **Without a now-filter** the rows are those of the tree of the lineage. -/
theorem evaluate (h : Unrolling catalog [] l rel) (ht : l.tree? catalog = some tree) :
    StreamPlan.evaluate fixture rel = .ok rows ↔ StreamPlan.evaluate fixture tree = .ok rows := by
  generalize hnone : ([] : List NowFilter) = filters at h
  induction h generalizing tree rows with
  | scan hv hp hb =>
    rw [Lineage.tree?_root hv hp hb] at ht
    cases ht
    rfl
  | level h ha hv hp ih =>
    obtain ⟨below, hbelow, -⟩ := h.exists_tree
    rw [Lineage.tree?_concat h.ne_nil rfl ha hv hp, hbelow] at ht
    cases ht
    rw [evaluate_unnest, evaluate_unnest]
    simp only [ih hbelow hnone]
  | renamed h hr ih => exact (hr.evaluate (h.shaped hl hf)).trans (ih ht hnone)
  | filtered => cases hnone

/-- **Now-filters drop rows** of the tree of the lineage, and nothing else happens. -/
theorem rows_eq_filter (h : Unrolling catalog filters l rel) (ht : l.tree? catalog = some tree)
    (hrows : StreamPlan.evaluate fixture rel = .ok rows)
    (hall : StreamPlan.evaluate fixture tree = .ok all) :
    rows = all.filter fun row => filters.all fun filter => trueOn fixture.now filter.expr row := by
  induction h generalizing tree rows all with
  | scan hv hp hb =>
    rw [Lineage.tree?_root hv hp hb] at ht
    cases ht
    rw [hrows] at hall
    cases hall
    simp
  | @level filters l rel id p column above view h ha hv hp ih =>
    obtain ⟨below, hbelow, hpure, hwidth⟩ := h.exists_tree
    rw [Lineage.tree?_concat h.ne_nil rfl ha hv hp, hbelow] at ht
    cases ht
    obtain ⟨kept, hkept, -, rfl⟩ := evaluate_unnest.1 hrows
    obtain ⟨base, hbase, -, rfl⟩ := evaluate_unnest.1 hall
    rw [ih hbelow hkept hbase]
    refine (filter_flatMap_of_left fun row hrow unnested hmem => ?_).symm
    obtain ⟨element, -, rfl⟩ := List.mem_map.1 hmem
    -- the timestamps of the now-filters are in front of the new level
    have hlen : row.length = rel.width := hwidth ▸ hpure.shaped hl hf base hbase row hrow
    have hsame : ∀ filter ∈ filters, trueOn fixture.now filter.expr (row ++ element)
        = trueOn fixture.now filter.expr row := fun filter hmem =>
      NowFilter.trueOn_append (hlen ▸ h.timestamp_lt filter hmem) element
    rw [Bool.eq_iff_iff, List.all_eq_true, List.all_eq_true]
    exact forall₂_congr fun filter hmem => by rw [hsame filter hmem]
  | renamed h hr ih => exact ih ht ((hr.evaluate (h.shaped hl hf)).1 hrows) hall
  | @filtered filters l rel filter h hlt ih =>
    rw [NowFilter.onto, StreamPlan.evaluate] at hrows
    obtain ⟨kept, hkept, hrows⟩ := bind_eq_ok.1 hrows
    obtain ⟨-, rfl⟩ := filterRows_eq_ok.1 hrows
    rw [ih ht hkept hall, List.filter_filter]
    simp

end Unrolling

end StreamPlan
