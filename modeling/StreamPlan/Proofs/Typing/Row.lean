import StreamPlan.Proofs.Catalog.Linked
import StreamPlan.Proofs.EventTime.Meaning
import StreamPlan.Proofs.Rows.Restricted

/-!
# Rows of tables and of unrolled entities

* `Row.Fits`: a row of a row type, with rows of the element types in its
  collections.
* `Fixture.Fits`: known rows that the relations of a catalog can have, with
  times in their timestamp columns.
* `Unrolls`: what the rows of an unrolled entity hold; one more level keeps it
  (`Unrolls.addLevel`).
-/

namespace StreamPlan

/-- A row of a row type: a value per field, and rows of the element type in
every collection. -/
inductive Row.Fits : Fields → Row → Prop
  | intro {fields : Fields} {row : Row} (length : row.length = fields.length)
    (nested : ∀ (i : Nat) (field : Field) (element : Fields) (rows : List Row),
      fields[i]? = some field → field.nested? = some element → row[i]? = some (.list rows) →
      ∀ r ∈ rows, Row.Fits element r) : Row.Fits fields row

/-- A row without collections. -/
theorem Row.fits_of_flat {fields : Fields} {row : Row} (hl : row.length = fields.length)
    (hn : ∀ field ∈ fields, field.nested? = none) : Row.Fits fields row := by
  refine ⟨hl, fun i field element rows hf hnested => ?_⟩
  rw [hn field (List.mem_of_getElem? hf)] at hnested
  cases hnested

/-- Known rows that the relations of a catalog can have. The timestamp columns
of a base table, and those columns in its root view, hold times or null. -/
structure Fixture.Fits (fixture : Fixture) (catalog : Catalog) : Prop where
  base : ∀ id table rows, catalog.bases[id]? = some table →
    fixture.rowsOf (.base id) = .ok rows → ∀ row ∈ rows,
      Row.Fits table.fields row ∧ ∀ i ∈ table.time.columns, row.Timed i
  view : ∀ id view rows, catalog.views[id]? = some view →
    fixture.rowsOf (.view id) = .ok rows → ∀ row ∈ rows, row.length = view.fields.length ∧
      ∀ b table, view.place = .root b → catalog.bases[b]? = some table →
        ∀ i ∈ table.time.columns, ∀ p, view.ownPosition? i = some p → row.Timed p

variable {catalog : Catalog} {fixture : Fixture} {row : Row}

theorem Row.Timed.append_left {i : Nat} (h : row.Timed i) (more : Row) :
    Row.Timed (row ++ more) i := by
  obtain ⟨v, hv, ht⟩ := h
  exact ⟨v, Catalog.getElem?_append_some hv, ht⟩

theorem Row.Timed.append_right {i : Nat} (h : row.Timed i) (front : Row) :
    Row.Timed (front ++ row) (front.length + i) := by
  obtain ⟨v, hv, ht⟩ := h
  exact ⟨v, by rw [List.getElem?_append_right (Nat.le_add_right _ _), Nat.add_sub_cancel_left, hv],
    ht⟩

/-- The collections of a level hold rows of their element types. -/
def Level.FitsOn (catalog : Catalog) (row : Row) (level : Level) : Prop :=
  ∀ view, catalog.views[level.view]? = some view →
    ∀ (i : Nat) (field : Field) (element : Fields) (rows : List Row),
      view.levelFields[i]? = some field → field.nested? = some element →
      row[level.offset + i]? = some (.list rows) → ∀ r ∈ rows, Row.Fits element r

/-- The levels of an unrolled entity, each in the row and below the level of
the view above its own. -/
structure Lineage.Linked (catalog : Catalog) (width : Nat) (lineage : Lineage) : Prop where
  view : ∀ level ∈ lineage, ∃ view, catalog.views[level.view]? = some view ∧
    level.offset + view.levelFields.length ≤ width
  above : ∀ level ∈ lineage, ∀ p, level.parent = some p → ∃ above view column,
    lineage[p]? = some above ∧ catalog.views[level.view]? = some view ∧
      view.place = .child above.view column

/-- What the rows of an unrolled entity hold: times in the given columns, and
collections of the right rows in every level. -/
structure Unrolls (catalog : Catalog) (fixture : Fixture) (times : List Nat) (rel : Rel)
    (lineage : Lineage) : Prop where
  linked : lineage.Linked catalog rel.width
  shaped : rel.Shaped fixture
  timed : ∀ rows, evaluate fixture rel = .ok rows → ∀ row ∈ rows, ∀ i ∈ times, row.Timed i
  levels : ∀ rows, evaluate fixture rel = .ok rows → ∀ row ∈ rows,
    ∀ level ∈ lineage, level.FitsOn catalog row

/-- A level whose columns are those of a row that fits its view. -/
theorem Level.fitsOn_of_fits {front : Row} {view : View} {level : Level}
    (hv : catalog.views[level.view]? = some view) (ho : level.offset = front.length)
    (h : Row.Fits view.levelFields row) : level.FitsOn catalog (front ++ row) := by
  intro view' hv' i field element rows hf hn hi
  obtain rfl : view = view' := Option.some.inj (hv.symm.trans hv')
  rw [ho, List.getElem?_append_right (Nat.le_add_right _ _), Nat.add_sub_cancel_left] at hi
  obtain ⟨-, nested⟩ := h
  exact nested i field element rows hf hn hi

/-- More columns change nothing about a level in front of them. -/
theorem Level.FitsOn.append {level : Level} {view : View} (h : level.FitsOn catalog row)
    (hv : catalog.views[level.view]? = some view)
    (hw : level.offset + view.levelFields.length ≤ row.length) (more : Row) :
    level.FitsOn catalog (row ++ more) := by
  intro view' hv' i field element rows hf hn hi
  obtain rfl : view = view' := Option.some.inj (hv.symm.trans hv')
  have hlt := (List.getElem?_eq_some_iff.1 hf).1
  rw [List.getElem?_append_left (by omega)] at hi
  exact h view hv i field element rows hf hn hi

/-- One more level at the end of a lineage. -/
theorem Lineage.Linked.concat {width more : Nat} {lineage : Lineage} {level above : Level}
    {view : View} {p column : Nat} (h : lineage.Linked catalog width)
    (hv : catalog.views[level.view]? = some view)
    (hw : level.offset + view.levelFields.length ≤ width + more)
    (hp : level.parent = some p) (ha : lineage[p]? = some above)
    (hplace : view.place = .child above.view column) :
    Lineage.Linked catalog (width + more) (lineage ++ [level]) := by
  constructor
  · intro l hl
    rcases List.mem_append.1 hl with hl | hl
    · obtain ⟨v, hv, hle⟩ := h.view l hl
      exact ⟨v, hv, Nat.le_trans hle (Nat.le_add_right _ _)⟩
    · rw [List.mem_singleton.1 hl]
      exact ⟨view, hv, hw⟩
  · intro l hl q hq
    rcases List.mem_append.1 hl with hl | hl
    · obtain ⟨a, v, k, hat, hv, hk⟩ := h.above l hl q hq
      exact ⟨a, v, k, Catalog.getElem?_append_some hat, hv, hk⟩
    · rw [List.mem_singleton.1 hl] at hq ⊢
      obtain rfl := Option.some.inj (hp.symm.trans hq)
      exact ⟨above, view, column, Catalog.getElem?_append_some ha, hv, hplace⟩

/-- The rows of a base table are its root level. -/
theorem Unrolls.scan {times : List Nat} {id b : Nat} {view : View} {table : BaseTable}
    (hv : catalog.views[id]? = some view) (hw : view.levelFields = table.fields)
    (hrows : ∀ rows, evaluate fixture (.scan (.base b) table.name table.fields) = .ok rows →
      ∀ row ∈ rows, Row.Fits table.fields row ∧ ∀ i ∈ times, row.Timed i) :
    Unrolls catalog fixture times (.scan (.base b) table.name table.fields)
      (Lineage.root id 0 table.fields.length view.ownKeys) := by
  refine ⟨⟨?_, ?_⟩, ?_, ?_, ?_⟩
  · intro level hlevel
    rw [List.mem_singleton.1 hlevel]
    exact ⟨view, hv, by simp [hw, Rel.width]⟩
  · intro level hlevel p hp
    rw [List.mem_singleton.1 hlevel] at hp
    cases hp
  · intro rows h row hrow
    obtain ⟨⟨hlen, -⟩, -⟩ := hrows rows h row hrow
    exact hlen
  · exact fun rows h row hrow => (hrows rows h row hrow).2
  · intro rows h row hrow level hlevel
    rw [List.mem_singleton.1 hlevel, ← List.nil_append row]
    exact Level.fitsOn_of_fits hv rfl (hw.symm ▸ (hrows rows h row hrow).1)

/-- **One more level.** An element of a level's collection is a row of the view
below. -/
theorem Unrolls.addLevel {times : List Nat} {rel : Rel} {lineage : Lineage} {above level : Level}
    {view : View} {p column : Nat} (h : Unrolls catalog fixture times rel lineage)
    (hl : catalog.Linked) (hv : catalog.views[level.view]? = some view)
    (ho : level.offset = rel.width) (hp : level.parent = some p) (ha : lineage[p]? = some above)
    (hplace : view.place = .child above.view column) :
    Unrolls catalog fixture times (.unnest rel (above.offset + column) false view.levelFields)
      (lineage ++ [level]) := by
  have hsplit : ∀ out, evaluate fixture (.unnest rel (above.offset + column) false view.levelFields)
      = .ok out → ∀ row ∈ out, ∃ rows, evaluate fixture rel = .ok rows ∧ ∃ base ∈ rows,
        ∃ element, Row.Fits view.levelFields element ∧ row = base ++ element := by
    intro out hout row hr
    rw [evaluate] at hout
    obtain ⟨rows, hrows, hout⟩ := bind_eq_ok.1 hout
    obtain ⟨parts, hparts, hout⟩ := bind_eq_ok.1 hout
    cases hout
    obtain ⟨base, hbase, elements, element, hcell, hmem, rfl⟩ := mem_of_unnest hparts hr
    obtain ⟨-, above', ha', hchild⟩ := (hl.view _ _ hv).child above.view column hplace
    obtain ⟨field, hf, hn⟩ := hchild.level
    refine ⟨rows, hrows, base, hbase, element, ?_, rfl⟩
    exact h.levels rows hrows base hbase above (List.mem_of_getElem? ha) above' ha' column field
      view.levelFields elements hf hn hcell element hmem
  refine ⟨?_, ?_, ?_, ?_⟩
  · rw [Rel.width]
    exact h.linked.concat hv (Nat.le_of_eq (by rw [ho])) hp ha hplace
  · intro out hout row hr
    obtain ⟨rows, hrows, base, hbase, element, ⟨hlen, -⟩, rfl⟩ := hsplit out hout row hr
    rw [List.length_append, h.shaped rows hrows base hbase, hlen, Rel.width]
  · intro out hout row hr i hi
    obtain ⟨rows, hrows, base, hbase, element, -, rfl⟩ := hsplit out hout row hr
    exact (h.timed rows hrows base hbase i hi).append_left element
  · intro out hout row hr l hmem
    obtain ⟨rows, hrows, base, hbase, element, hfit, rfl⟩ := hsplit out hout row hr
    have hlen := h.shaped rows hrows base hbase
    rcases List.mem_append.1 hmem with hmem | hmem
    · obtain ⟨v, hlv, hle⟩ := h.linked.view l hmem
      exact (h.levels rows hrows base hbase l hmem).append hlv (hlen ▸ hle) element
    · rw [List.mem_singleton.1 hmem]
      exact Level.fitsOn_of_fits hv (ho.trans hlen.symm) hfit

end StreamPlan
