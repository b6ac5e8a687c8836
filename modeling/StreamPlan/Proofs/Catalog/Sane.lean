import StreamPlan.Proofs.Catalog.Linked
import StreamPlan.Proofs.Columns.Position

/-!
# Catalogs whose keys and times are plain columns

* `BaseTable.Sane`, `Catalog.Sane`: keys and timestamps are no collections, and
  what was pulled up is about columns of the table.
* `TopN.Stale`: a ranking without effect that lists sort columns.
* `Catalog.keys_le_fields`: a view shows its whole key.
* `flatColumns_eq`, `ownPosition?_of_plain`: where a plain column of a level
  stands in its view.
-/

namespace StreamPlan

/-- A row type whose first `k` columns are no collections. -/
def PlainKeys (fields : Fields) (k : Nat) : Prop :=
  ∀ i < k, ∀ field, fields[i]? = some field → field.isNested = false

/-- A key of one column that is no collection. -/
theorem plainKeys_one {field : Field} {fields : Fields} (h : field.isNested = false) :
    PlainKeys (field :: fields) 1 := by
  intro i hi other hother
  obtain rfl := Nat.lt_one_iff.1 hi
  cases hother
  exact h

/-- A base table whose key and timestamps are plain columns, with constraints
pulled up that are about its columns. -/
structure BaseTable.Sane (table : BaseTable) : Prop where
  keys : PlainKeys table.fields table.keys
  time : ∀ i ∈ table.time.columns, ∃ field, table.fields[i]? = some field ∧ field.isNested = false
  nowFilter : ∀ f, table.pending.nowFilter = some f → f.timestamp ∈ table.time.columns
  topN : ∀ i ∈ table.pending.topN.columns, i < table.fields.length
  sort : ∀ i ∈ SortOrder.columns table.pending.sort, i < table.fields.length

/-- A catalog of such tables, no view of which has a collection in its key. -/
structure Catalog.Sane (catalog : Catalog) : Prop where
  base : ∀ table ∈ catalog.bases, table.Sane
  view : ∀ view ∈ catalog.views, PlainKeys view.levelFields view.ownKeys

/-- A ranking that does nothing and still lists sort columns. Nothing moves these
columns when the rows change, because the ranking is never applied. -/
def TopN.Stale (topN : TopN) : Prop := topN.isEmpty = true ∧ topN.order ≠ []

/-- Whether such a ranking was pulled up to a table of the catalog. -/
def Catalog.HasStale (catalog : Catalog) : Prop :=
  ∃ table ∈ catalog.bases, table.pending.topN.Stale

/-- The plain columns among fields that stand from position `start` on. -/
theorem filter_zipIdx_plain (fields : Fields) (start : Nat) :
    ((fields.zipIdx start).filter fun (field, _) => !field.isNested).map Prod.fst
      = flatFields fields := by
  induction fields generalizing start with
  | nil => rfl
  | cons field fields ih =>
    rw [List.zipIdx_cons, List.filter_cons]
    by_cases hn : field.isNested = true
    · simp only [hn, Bool.not_true, flatFields, List.filter_cons]
      exact ih (start + 1)
    · simp only [Bool.eq_false_iff.2 hn, Bool.not_false, if_true, flatFields, List.filter_cons,
        List.map_cons]
      exact congrArg (field :: ·) (ih (start + 1))

theorem length_flatColumns (fields : Fields) :
    (flatColumns fields).length = (flatFields fields).length := by
  rw [← filter_zipIdx_plain fields 0, flatColumns, List.length_map, List.length_map]

/-- A level without nested columns is as flat as it is. -/
theorem flat_of_plain {fields : Fields} (h : ∀ field ∈ fields, field.isNested = false) :
    flatFields fields = fields ∧ flatColumns fields = List.range fields.length := by
  constructor
  · exact List.filter_eq_self.2 fun field hmem => by simp [h field hmem]
  · have hall : (fields.zipIdx.filter fun (field, _) => !field.isNested) = fields.zipIdx :=
      List.filter_eq_self.2 fun p hp => by simp [h p.1 (List.fst_mem_of_mem_zipIdx hp)]
    rw [flatColumns, hall, List.zipIdx_map_snd, List.range_eq_range']

theorem mem_flatColumns {fields : Fields} {i : Nat} :
    i ∈ flatColumns fields ↔ ∃ field, fields[i]? = some field ∧ field.isNested = false := by
  unfold flatColumns
  simp only [List.mem_map, List.mem_filter, Prod.exists, Bool.not_eq_true']
  constructor
  · rintro ⟨field, j, ⟨hmem, hn⟩, rfl⟩
    exact ⟨field, List.mem_zipIdx_iff_getElem?.1 hmem, hn⟩
  · rintro ⟨field, hf, hn⟩
    exact ⟨field, i, ⟨List.mem_zipIdx_iff_getElem?.2 hf, hn⟩, rfl⟩

theorem flatColumns_lt {fields : Fields} {i : Nat} (h : i ∈ flatColumns fields) :
    i < fields.length := by
  obtain ⟨field, hf, -⟩ := mem_flatColumns.1 h
  exact (List.getElem?_eq_some_iff.1 hf).1

/-- Leading plain columns stay where they are. -/
theorem flatFields_split {fields : Fields} {k : Nat} (h : PlainKeys fields k)
    (hk : k ≤ fields.length) : flatFields fields = fields.take k ++ flatFields (fields.drop k) := by
  have hfront : flatFields (fields.take k) = fields.take k := by
    unfold flatFields
    rw [List.filter_eq_self]
    intro field hmem
    obtain ⟨i, hi, rfl⟩ := List.getElem_of_mem hmem
    have hik : i < k := by rw [List.length_take] at hi; omega
    have := h i hik _ (List.getElem?_eq_getElem (by omega : i < fields.length))
    simpa [List.getElem_take] using this
  rw [← hfront, flatFields, flatFields, flatFields, ← List.filter_append, List.take_append_drop]

/-- The plain columns of a level start with those of its key. -/
theorem take_flatFields {fields : Fields} {k : Nat} (h : PlainKeys fields k)
    (hk : k ≤ fields.length) : (flatFields fields).take k = fields.take k := by
  have hlength : (fields.take k).length = k := List.length_take_of_le hk
  rw [flatFields_split h hk, List.take_append_of_le_length (Nat.le_of_eq hlength.symm),
    List.take_of_length_le (Nat.le_of_eq hlength)]

/-- There are as many plain columns as leading ones that are plain. -/
theorem le_length_flatFields {fields : Fields} {k : Nat} (h : PlainKeys fields k)
    (hk : k ≤ fields.length) : k ≤ (flatFields fields).length := by
  rw [flatFields_split h hk, List.length_append, List.length_take]
  omega

namespace Catalog

variable {catalog : Catalog}

/-- Where a column stands in a view is inside the view's own level. -/
theorem IsLinked.ownPosition?_lt {i column p : Nat} {view : View} (h : catalog.IsLinked i view)
    (hp : view.ownPosition? column = some p) : p < (flatFields view.levelFields).length := by
  have := position_lt hp
  rwa [h.ownColumns, length_flatColumns] at this

theorem IsChildOf.length_fields {view above : View} {column : Nat} (h : IsChildOf view above column) :
    view.fields.length = view.ancestorKeys + (flatFields view.levelFields).length := by
  have := h.keys_le
  rw [h.fields, h.ancestorKeys, List.length_append, List.length_take]
  omega

/-- A view shows the keys of its ancestors and the plain columns of its level. -/
theorem IsLinked.length_fields {i : Nat} {view : View} (h : catalog.IsLinked i view) :
    view.fields.length = view.ancestorKeys + (flatFields view.levelFields).length := by
  cases hp : view.place with
  | root b =>
    obtain ⟨table, -, hr⟩ := h.root b hp
    rw [hr.fields, hr.ancestorKeys, hr.level, Nat.zero_add]
  | child p column =>
    obtain ⟨-, above, -, hc⟩ := h.child p column hp
    exact hc.length_fields

/-- **A view shows its whole key.** -/
theorem keys_le_fields (h : catalog.Linked) (hs : catalog.Sane) {i : Nat} {view : View}
    (hv : catalog.views[i]? = some view) : view.keys ≤ view.fields.length := by
  have hl := h.view i view hv
  have hplain := le_length_flatFields (hs.view view (List.mem_of_getElem? hv)) hl.ownKeys_le
  rw [hl.length_fields, View.keys]
  omega

/-- The key of a view starts with the keys of all views above it. -/
theorem Descends.keys_le (h : catalog.Linked) {top last : Nat} {rest : List Nat}
    (hd : catalog.Descends top rest last) {above below : View} (ha : catalog.views[top]? = some above)
    (hb : catalog.views[last]? = some below) : above.keys ≤ below.keys := by
  induction hd generalizing above with
  | stop id =>
    rw [ha] at hb
    cases hb
    exact Nat.le_refl _
  | @down top next last column rest view hv hp _ ih =>
    obtain ⟨-, above', ha', hc⟩ := (h.view next view hv).child top column hp
    rw [ha] at ha'
    cases ha'
    have := hc.ancestorKeys
    have hnext := ih hv hb
    rw [View.keys] at hnext
    omega

end Catalog

end StreamPlan
