import StreamPlan.Proofs.Catalog.Linked

/-!
# Catalogs that grow

Registration adds relations behind the ones that are there, under new numbers.

* `Catalog.Grows`: a catalog with all relations of another one, under their numbers.
* `Catalog.Reaches`: the catalogs that registrations lead to. They grow
  (`Reaches.grows`), and from the empty one they are grounded
  (`Reaches.grounded`): a view stands below an earlier one.
* `free_of_addTable`, `names_of_addChild`: a name that is given was free.
* `Grows.ancestry_eq`, `Grows.rootOf_eq`, `Grows.baseOf_eq`: **what is read about a
  view of the smaller catalog**, or why it cannot be read, stays the same.
-/

namespace StreamPlan.Catalog

variable {catalog next later : Catalog}

/-- A catalog with all relations of another one, under their numbers. -/
structure Grows (catalog next : Catalog) : Prop where
  bases : catalog.bases <+: next.bases
  views : catalog.views <+: next.views

theorem Grows.refl (catalog : Catalog) : catalog.Grows catalog := ⟨List.prefix_rfl, List.prefix_rfl⟩

theorem Grows.trans (h : catalog.Grows next) (h' : next.Grows later) : catalog.Grows later :=
  ⟨h.bases.trans h'.bases, h.views.trans h'.views⟩

theorem Grows.base (h : catalog.Grows next) {b : Nat} {table : BaseTable}
    (hb : catalog.bases[b]? = some table) : next.bases[b]? = some table := by
  obtain ⟨more, hmore⟩ := h.bases
  exact hmore ▸ getElem?_append_some hb

theorem Grows.view (h : catalog.Grows next) {id : Nat} {view : View}
    (hv : catalog.views[id]? = some view) : next.views[id]? = some view := by
  obtain ⟨more, hmore⟩ := h.views
  exact hmore ▸ getElem?_append_some hv

theorem grows_addTable {table : BaseTable} {viewName : String} {id : Nat}
    (h : catalog.addTable table viewName = .ok (next, id)) : catalog.Grows next := by
  obtain ⟨-, hbases, hviews⟩ := addTable_eq_ok h
  exact ⟨hbases ▸ List.prefix_append _ _, hviews ▸ List.prefix_append _ _⟩

theorem grows_addChild {parent ownKeys id : Nat} {column name : String}
    (h : catalog.addChild parent column name ownKeys = .ok (next, id)) : catalog.Grows next := by
  obtain ⟨_, _, _, _, -, -, -, -, -, hbases, hviews⟩ := addChild_eq_ok h
  exact ⟨hbases ▸ List.prefix_rfl, hviews ▸ List.prefix_append _ _⟩

/-- The catalogs that registrations lead to. -/
inductive Reaches (catalog : Catalog) : Catalog → Prop
  | refl : Reaches catalog catalog
  | table {next later : Catalog} {table : BaseTable} {viewName : String} {id : Nat} :
      Reaches catalog next → next.addTable table viewName = .ok (later, id) → Reaches catalog later
  | child {next later : Catalog} {parent id ownKeys : Nat} {column name : String} :
      Reaches catalog next → next.addChild parent column name ownKeys = .ok (later, id) →
      Reaches catalog later

theorem Reaches.grows (h : catalog.Reaches next) : catalog.Grows next := by
  induction h with
  | refl => exact .refl _
  | table _ hadd ih => exact ih.trans (grows_addTable hadd)
  | child _ hadd ih => exact ih.trans (grows_addChild hadd)

/-- Every view shows the top level of a table of the catalog or stands below an earlier
view. -/
structure Grounded (catalog : Catalog) : Prop where
  root : ∀ (i : Nat) (view : View) (b : Nat), catalog.views[i]? = some view → view.place = .root b →
    b < catalog.bases.length
  child : ∀ (i : Nat) (view : View) (p column : Nat), catalog.views[i]? = some view →
    view.place = .child p column → p < i

theorem grounded_empty : Catalog.empty.Grounded :=
  ⟨fun _ _ _ h => (by cases h), fun _ _ _ _ h => (by cases h)⟩

/-- Registrations keep a catalog grounded. -/
theorem Reaches.grounded (hw : catalog.Grounded) (h : catalog.Reaches next) :
    next.Grounded := by
  induction h with
  | refl => exact hw
  -- a registration appends one view, which refers to what is there
  | table _ hadd ih =>
    obtain ⟨-, hbases, hviews⟩ := addTable_eq_ok hadd
    constructor
    · intro i view b hv hp
      rw [hbases, List.length_append, List.length_singleton]
      rcases getElem?_concat_cases (hviews ▸ hv) with hv | ⟨-, rfl⟩
      · exact Nat.lt_succ_of_lt (ih.root i view b hv hp)
      · cases hp
        exact Nat.lt_succ_self _
    · intro i view p column hv hp
      rcases getElem?_concat_cases (hviews ▸ hv) with hv | ⟨-, rfl⟩
      · exact ih.child i view p column hv hp
      · cases hp
  | child _ hadd ih =>
    obtain ⟨_, _, _, _, habove, -, -, -, -, hbases, hviews⟩ := addChild_eq_ok hadd
    constructor
    · intro i view b hv hp
      rw [hbases]
      rcases getElem?_concat_cases (hviews ▸ hv) with hv | ⟨-, rfl⟩
      · exact ih.root i view b hv hp
      · cases hp
    · intro i view p column hv hp
      rcases getElem?_concat_cases (hviews ▸ hv) with hv | ⟨rfl, rfl⟩
      · exact ih.child i view p column hv hp
      · cases hp
        exact (List.getElem?_eq_some_iff.1 habove).1

theorem lookup_eq_ok {name : String} {relation : RelationId} :
    catalog.lookup name = .ok relation ↔ catalog.names.lookup name = some relation := by
  unfold Catalog.lookup
  cases catalog.names.lookup name <;> simp

theorem checkFree_eq_ok {name : String} :
    catalog.checkFree name = .ok () ↔ catalog.names.lookup name = none := by
  unfold checkFree
  cases catalog.names.lookup name <;> simp

/-- The names of a table and its view were free. -/
theorem free_of_addTable {table : BaseTable} {viewName : String} {id : Nat}
    (h : catalog.addTable table viewName = .ok (next, id)) :
    catalog.names.lookup table.name = none ∧ catalog.names.lookup viewName = none := by
  unfold addTable at h
  by_cases hk : table.fields.length < table.keys
  · rw [if_pos hk] at h; cases h
  · rw [if_neg hk] at h
    obtain ⟨_, htable, h⟩ := bind_eq_ok.1 h
    have htable := checkFree_eq_ok.1 htable
    by_cases hname : viewName ≠ table.name
    · simp only [if_pos hname] at h
      obtain ⟨_, hview, h⟩ := bind_eq_ok.1 h
      exact ⟨htable, checkFree_eq_ok.1 hview⟩
    · rw [not_not.1 hname]
      exact ⟨htable, htable⟩

/-- A child view comes last under a name that was free. -/
theorem names_of_addChild {parent ownKeys id : Nat} {column name : String}
    (h : catalog.addChild parent column name ownKeys = .ok (next, id)) :
    catalog.names.lookup name = none ∧ id = catalog.views.length ∧
      next.names = (name, .view id) :: catalog.names := by
  unfold addChild at h
  obtain ⟨_, hfree, h⟩ := bind_eq_ok.1 h
  obtain ⟨above, -, h⟩ := bind_eq_ok.1 h
  refine ⟨checkFree_eq_ok.1 (orRefuse_eq_ok.1 hfree), ?_⟩
  split at h
  · exact absurd h refuse_ne_ok
  · obtain ⟨field, -, h⟩ := bind_eq_ok.1 h
    split at h
    · exact absurd h refuse_ne_ok
    · split at h
      · exact absurd h refuse_ne_ok
      · split at h
        · cases h
        · cases h
          exact ⟨rfl, rfl⟩

/-- A relation of the catalog. -/
def Has (catalog : Catalog) : RelationId → Prop
  | .base id => id < catalog.bases.length
  | .view id => id < catalog.views.length

theorem Grows.has {relation : RelationId} (h : catalog.Grows next) (hr : catalog.Has relation) :
    next.Has relation := by
  cases relation with
  | base id => exact Nat.lt_of_lt_of_le hr h.bases.length_le
  | view id => exact Nat.lt_of_lt_of_le hr h.views.length_le

theorem Grows.base_eq (h : catalog.Grows next) {b : Nat} (hb : b < catalog.bases.length) :
    next.base b = catalog.base b := by
  have hbase := List.getElem?_eq_getElem hb
  rw [Catalog.base, Catalog.base, itemAt_eq_ok.2 hbase, itemAt_eq_ok.2 (h.base hbase)]

theorem Grows.view_eq (h : catalog.Grows next) {id : Nat} (hid : id < catalog.views.length) :
    next.view id = catalog.view id := by
  have hview := List.getElem?_eq_getElem hid
  rw [Catalog.view, Catalog.view, itemAt_eq_ok.2 hview, itemAt_eq_ok.2 (h.view hview)]

/-- The views above a view stand before it. -/
theorem Grows.climb_eq (h : catalog.Grows next) (hw : catalog.Grounded) :
    ∀ {fuel id : Nat} {below : List Nat}, id < catalog.views.length →
      next.climb fuel id below = catalog.climb fuel id below := by
  intro fuel
  induction fuel with
  | zero => exact fun _ => rfl
  | succ fuel ih =>
    intro id below hid
    have hview := List.getElem?_eq_getElem hid
    rw [climb, climb, h.view_eq hid, show catalog.view id = .ok _ from itemAt_eq_ok.2 hview, ok_bind,
      ok_bind]
    cases hplace : (catalog.views[id]).place with
    | root b => simp only [View.parent?, hplace]
    | child parent column =>
      -- the view above is an earlier one, so it is in the smaller catalog too
      have hlt := hw.child id _ parent column hview hplace
      simp only [View.parent?, hplace]
      exact ih (Nat.lt_trans hlt hid)

theorem Grows.ancestry_eq (h : catalog.Grows next) (hw : catalog.Grounded) {id : Nat}
    (hid : id < catalog.views.length) : next.ancestry id = catalog.ancestry id :=
  h.climb_eq hw hid

theorem Grows.rootOf_eq (h : catalog.Grows next) (hw : catalog.Grounded) {id : Nat}
    (hid : id < catalog.views.length) : next.rootOf id = catalog.rootOf id := by
  rw [rootOf, rootOf, h.ancestry_eq hw hid]

/-- The way up passes views of the catalog only. -/
theorem mem_of_climb {path : List Nat} :
    ∀ {fuel id : Nat} {below : List Nat}, catalog.climb fuel id below = .ok path →
      ∀ v ∈ path, v ∈ below ∨ v < catalog.views.length := by
  intro fuel
  induction fuel with
  | zero =>
    intro id below h v hv
    cases h
    exact .inl hv
  | succ fuel ih =>
    intro id below h v hv
    rw [climb] at h
    obtain ⟨view, hview, h⟩ := bind_eq_ok.1 h
    have hid := (List.getElem?_eq_some_iff.1 (itemAt_eq_ok.1 hview)).1
    have hmem : v ∈ id :: below ∨ v < catalog.views.length := by
      split at h
      · cases h
        exact .inl hv
      · exact ih h v hv
    rcases hmem with hmem | hlt
    · rcases List.mem_cons.1 hmem with rfl | hmem
      · exact .inr hid
      · exact .inl hmem
    · exact .inr hlt

theorem lt_of_mem_ancestry {id : Nat} {path : List Nat} (h : catalog.ancestry id = .ok path) :
    ∀ v ∈ path, v < catalog.views.length := fun v hv =>
  (mem_of_climb h v hv).resolve_left List.not_mem_nil

theorem lt_of_rootOf {id rootId : Nat} (h : catalog.rootOf id = .ok rootId) :
    rootId < catalog.views.length := by
  obtain ⟨path, hpath, hroot⟩ := bind_eq_ok.1 h
  exact lt_of_mem_ancestry hpath rootId (List.mem_of_getElem? (itemAt_eq_ok.1 hroot))

theorem Grows.baseOf_eq (h : catalog.Grows next) (hw : catalog.Grounded) {id : Nat}
    (hid : id < catalog.views.length) : next.baseOf id = catalog.baseOf id := by
  rw [baseOf, baseOf, h.rootOf_eq hw hid]
  cases hroot : catalog.rootOf id with
  | error fault => rfl
  | ok rootId => rw [ok_bind, ok_bind, h.view_eq (lt_of_rootOf hroot)]

/-- The table of a view is one of the catalog. -/
theorem Grounded.baseOf_lt (hw : catalog.Grounded) {id b : Nat}
    (h : catalog.baseOf id = .ok b) : b < catalog.bases.length := by
  obtain ⟨rootId, -, h⟩ := bind_eq_ok.1 h
  obtain ⟨root, hroot, h⟩ := bind_eq_ok.1 h
  split at h
  · rename_i base hplace
    cases h
    exact hw.root rootId root _ (itemAt_eq_ok.1 hroot) hplace
  · cases h

end StreamPlan.Catalog
