import StreamPlan.Catalog.Basic
import StreamPlan.Proofs.EventTime.Candidates

/-!
# Catalogs built by registration

* `Catalog.Built`: a catalog reached from the empty one by registrations.
* `Catalog.Leveled`: every view is a level of its base table, and a parent stands
  before its children. A registration keeps this (`Leveled.addTable`, `addChild`).
* `Catalog.Linked`: so it is, and tables are as registration takes them (`Built.linked`).
* `Catalog.Leveled.ancestry`: the way from the root down to a view exists.
-/

namespace StreamPlan.Catalog

/-- A catalog to which relations were added one by one. A table's event time is
one that candidates and fixing lead to: a fixed one has one candidate. -/
inductive Built : Catalog → Prop
  | empty : Built Catalog.empty
  | table {catalog next : Catalog} {table : BaseTable} {viewName : String} {id : Nat} :
      Built catalog → table.time.Coherent → catalog.addTable table viewName = .ok (next, id) →
      Built next
  | child {catalog next : Catalog} {parent id ownKeys : Nat} {column name : String} :
      Built catalog → catalog.addChild parent column name ownKeys = .ok (next, id) → Built next

/-- A view that shows the top level of a base table. -/
structure IsRootOf (view : View) (table : BaseTable) : Prop where
  level : view.levelFields = table.fields
  ownKeys : view.ownKeys = table.keys
  ancestorKeys : view.ancestorKeys = 0
  fields : view.fields = flatFields table.fields

/-- A view that shows the collection in a column of the level above. -/
structure IsChildOf (view above : View) (column : Nat) : Prop where
  level : ∃ field, above.levelFields[column]? = some field ∧ field.nested? = some view.levelFields
  ancestorKeys : view.ancestorKeys = above.keys
  keys_le : above.keys ≤ above.fields.length
  fields : view.fields = above.fields.take above.keys ++ flatFields view.levelFields

/-- What a view is, given the relations registered before it. -/
structure IsLinked (catalog : Catalog) (i : Nat) (view : View) : Prop where
  ownColumns : view.ownColumns = flatColumns view.levelFields
  ownKeys_le : view.ownKeys ≤ view.levelFields.length
  root : ∀ b, view.place = .root b → ∃ table, catalog.bases[b]? = some table ∧ IsRootOf view table
  child : ∀ p column, view.place = .child p column →
    p < i ∧ ∃ above, catalog.views[p]? = some above ∧ IsChildOf view above column

/-- What registration looks for in a base table. -/
structure IsRegistered (table : BaseTable) : Prop where
  time : table.time.Coherent
  keys_le : table.keys ≤ table.fields.length

/-- Every view is a level of its base table. -/
structure Linked (catalog : Catalog) : Prop where
  view : ∀ i view, catalog.views[i]? = some view → catalog.IsLinked i view
  base : ∀ table ∈ catalog.bases, IsRegistered table

variable {catalog next : Catalog}

/-- More relations change nothing about the ones that are there. -/
theorem IsLinked.extend {i : Nat} {view : View} (h : catalog.IsLinked i view)
    (hb : ∀ (b : Nat) (table : BaseTable), catalog.bases[b]? = some table →
      next.bases[b]? = some table)
    (hv : ∀ (p : Nat) (above : View), catalog.views[p]? = some above →
      next.views[p]? = some above) :
    next.IsLinked i view := by
  refine ⟨h.ownColumns, h.ownKeys_le, ?_, ?_⟩
  · intro b hp
    obtain ⟨table, ht, hr⟩ := h.root b hp
    exact ⟨table, hb _ _ ht, hr⟩
  · intro p column hp
    obtain ⟨hlt, above, ha, hc⟩ := h.child p column hp
    exact ⟨hlt, above, hv _ _ ha, hc⟩

theorem getElem?_append_some {α : Type} {xs ys : List α} {i : Nat} {a : α} (h : xs[i]? = some a) :
    (xs ++ ys)[i]? = some a := by
  rw [List.getElem?_append_left (List.getElem?_eq_some_iff.1 h).1, h]

/-- What stands in a list with one more item is an old item or the last one. -/
theorem getElem?_concat_cases {α : Type} {xs : List α} {x a : α} {i : Nat}
    (h : (xs ++ [x])[i]? = some a) : xs[i]? = some a ∨ i = xs.length ∧ a = x := by
  rcases Nat.lt_or_ge i xs.length with hlt | hge
  · rw [List.getElem?_append_left hlt] at h
    exact .inl h
  · obtain ⟨hlt, -⟩ := List.getElem?_eq_some_iff.1 h
    rw [List.length_append, List.length_singleton] at hlt
    obtain rfl : i = xs.length := by omega
    rw [List.getElem?_concat_length] at h
    exact .inr ⟨rfl, (Option.some.inj h).symm⟩

/-- **A table that is added** comes last, and so does its root view; its names come first. -/
theorem addTable_eq {table : BaseTable} {viewName : String} {id : Nat}
    (h : catalog.addTable table viewName = .ok (next, id)) :
    table.keys ≤ table.fields.length ∧ id = catalog.views.length ∧
      next = ⟨catalog.bases ++ [table], catalog.views ++ [{
          name := viewName, place := .root catalog.bases.length, levelFields := table.fields
          ownKeys := table.keys, ownColumns := flatColumns table.fields, ancestorKeys := 0
          fields := flatFields table.fields }],
        (viewName, .view id) :: (table.name, .base catalog.bases.length) :: catalog.names⟩ := by
  unfold addTable at h
  by_cases hk : table.fields.length < table.keys
  · rw [if_pos hk] at h; cases h
  · rw [if_neg hk] at h
    obtain ⟨-, -, h⟩ := bind_eq_ok.1 h
    by_cases hn : viewName ≠ table.name
    · simp only [if_pos hn] at h
      obtain ⟨-, -, h⟩ := bind_eq_ok.1 h
      cases h
      exact ⟨by omega, rfl, rfl⟩
    · simp only [if_neg hn] at h
      cases h
      exact ⟨by omega, rfl, rfl⟩

theorem addTable_eq_ok {table : BaseTable} {viewName : String} {id : Nat}
    (h : catalog.addTable table viewName = .ok (next, id)) :
    table.keys ≤ table.fields.length ∧ next.bases = catalog.bases ++ [table] ∧
      next.views = catalog.views ++ [{
        name := viewName, place := .root catalog.bases.length, levelFields := table.fields
        ownKeys := table.keys, ownColumns := flatColumns table.fields, ancestorKeys := 0
        fields := flatFields table.fields }] := by
  obtain ⟨hk, -, rfl⟩ := addTable_eq h
  exact ⟨hk, rfl, rfl⟩

theorem addChild_eq_ok {parent ownKeys id : Nat} {column name : String}
    (h : catalog.addChild parent column name ownKeys = .ok (next, id)) :
    ∃ above position field level, catalog.views[parent]? = some above ∧
      above.levelFields[position]? = some field ∧ field.nested? = some level ∧
      ownKeys ≤ level.length ∧ above.keys ≤ above.fields.length ∧ next.bases = catalog.bases ∧
      next.views = catalog.views ++ [{
        name := name, place := .child parent position, levelFields := level
        ownKeys := ownKeys, ownColumns := flatColumns level, ancestorKeys := above.keys
        fields := above.fields.take above.keys ++ flatFields level }] := by
  unfold addChild at h
  obtain ⟨-, -, h⟩ := bind_eq_ok.1 h
  obtain ⟨above, hview, h⟩ := bind_eq_ok.1 h
  split at h
  · exact absurd h refuse_ne_ok
  · rename_i position _
    obtain ⟨field, hfield, h⟩ := bind_eq_ok.1 h
    split at h
    · exact absurd h refuse_ne_ok
    · rename_i level hn
      split at h
      · exact absurd h refuse_ne_ok
      · rename_i hk
        split at h
        · cases h
        · rename_i hf
          cases h
          exact ⟨above, position, field, level, itemAt_eq_ok.1 (orFault_eq_ok.1 hview),
            itemAt_eq_ok.1 (orFault_eq_ok.1 hfield), hn, by omega, by omega, rfl, rfl⟩

/-- Every view is a level of a base table or of a view before it. -/
def Leveled (catalog : Catalog) : Prop :=
  ∀ i view, catalog.views[i]? = some view → catalog.IsLinked i view

theorem leveled_empty : Catalog.empty.Leveled := fun i v hi => by simp [Catalog.empty] at hi

/-- Adding a view, given what the new view is. -/
theorem Leveled.push {view : View} (h : catalog.Leveled)
    (hb : ∀ (b : Nat) (table : BaseTable), catalog.bases[b]? = some table →
      next.bases[b]? = some table)
    (hv : next.views = catalog.views ++ [view]) (hn : next.IsLinked catalog.views.length view) :
    next.Leveled := by
  intro i v hi
  have hold : ∀ (p : Nat) (above : View), catalog.views[p]? = some above → next.views[p]? = some above :=
    fun p above hp => hv ▸ getElem?_append_some hp
  rw [hv] at hi
  rcases getElem?_concat_cases hi with hi | ⟨rfl, rfl⟩
  · exact (h i v hi).extend hb hold
  · exact hn

/-- A table that is added shows its top level. -/
theorem Leveled.addTable {table : BaseTable} {viewName : String} {id : Nat} (h : catalog.Leveled)
    (hadd : catalog.addTable table viewName = .ok (next, id)) : next.Leveled := by
  obtain ⟨hk, hbases, hviews⟩ := addTable_eq_ok hadd
  refine h.push (fun b t ht => hbases ▸ getElem?_append_some ht) hviews ⟨rfl, hk, ?_, ?_⟩
  · rintro b ⟨⟩
    exact ⟨table, by rw [hbases]; simp, ⟨rfl, rfl, rfl, rfl⟩⟩
  · rintro p column ⟨⟩

/-- A child that is added shows a collection of a view that was there. -/
theorem Leveled.addChild {parent ownKeys id : Nat} {column name : String} (h : catalog.Leveled)
    (hadd : catalog.addChild parent column name ownKeys = .ok (next, id)) : next.Leveled := by
  obtain ⟨above, position, field, level, hparent, hfield, hnested, hown, hkeys, hbases, hviews⟩ :=
    addChild_eq_ok hadd
  refine h.push (fun b t ht => hbases ▸ ht) hviews ⟨rfl, hown, ?_, ?_⟩
  · rintro b ⟨⟩
  · rintro p column ⟨⟩
    refine ⟨(List.getElem?_eq_some_iff.1 hparent).1, above, ?_, ?_⟩
    · rw [hviews]; exact getElem?_append_some hparent
    · exact ⟨⟨field, hfield, hnested⟩, rfl, hkeys, rfl⟩

/-- **Registration keeps a catalog linked.** -/
theorem Built.linked (h : catalog.Built) : catalog.Linked := by
  induction h with
  | empty => exact ⟨leveled_empty, by simp [Catalog.empty]⟩
  | @table catalog next table viewName id _ htime hadd ih =>
    obtain ⟨hk, hbases, -⟩ := addTable_eq_ok hadd
    refine ⟨Leveled.addTable ih.view hadd, fun t ht => ?_⟩
    rw [hbases] at ht
    rcases List.mem_append.1 ht with ht | ht
    · exact ih.base t ht
    · rw [List.mem_singleton.1 ht]; exact ⟨htime, hk⟩
  | @child catalog next parent id ownKeys column name _ hadd ih =>
    obtain ⟨_, _, _, _, -, -, -, -, -, hbases, -⟩ := addChild_eq_ok hadd
    exact ⟨Leveled.addChild ih.view hadd, hbases ▸ ih.base⟩

/-- The views below `top` on the way down to `last`, each a child of the one before. -/
inductive Descends (catalog : Catalog) : Nat → List Nat → Nat → Prop
  | stop (id : Nat) : Descends catalog id [] id
  | down {top next last column : Nat} {rest : List Nat} {view : View} :
      catalog.views[next]? = some view → view.place = .child top column →
      Descends catalog next rest last → Descends catalog top (next :: rest) last

/-- Nothing is above a view of a top level. -/
theorem Descends.eq_nil {top last b : Nat} {rest : List Nat} {view : View}
    (hd : catalog.Descends top rest last) (hv : catalog.views[last]? = some view)
    (hp : view.place = .root b) : rest = [] ∧ top = last := by
  induction hd with
  | stop id => exact ⟨rfl, rfl⟩
  | @down top next last column rest below hb hplace _ ih =>
    obtain ⟨-, rfl⟩ := ih hv
    rw [hb] at hv
    cases hv
    rw [hplace] at hp
    cases hp

/-- Nothing is above a root view. -/
theorem ancestry_of_root {id b : Nat} {view : View} (hv : catalog.views[id]? = some view)
    (hp : view.place = .root b) : catalog.ancestry id = .ok [id] := by
  rw [ancestry, climb, show catalog.view id = .ok view from itemAt_eq_ok.2 hv, ok_bind]
  simp only [View.parent?, hp]
  rfl

theorem rootOf_of_root {id b : Nat} {view : View} (hv : catalog.views[id]? = some view)
    (hp : view.place = .root b) : catalog.rootOf id = .ok id := by
  rw [rootOf, ancestry_of_root hv hp]
  rfl

theorem baseOf_of_root {id b : Nat} {view : View} (hv : catalog.views[id]? = some view)
    (hp : view.place = .root b) : catalog.baseOf id = .ok b := by
  rw [baseOf, rootOf_of_root hv hp, ok_bind, show catalog.view id = .ok view from itemAt_eq_ok.2 hv,
    ok_bind, hp]
  rfl

theorem climb_gives (h : catalog.Leveled) {last : Nat} :
    ∀ {fuel id : Nat} {below : List Nat}, id < fuel → id < catalog.views.length →
      catalog.Descends id below last →
      Gives (catalog.climb fuel id below) fun path =>
        ∃ rootId rest view b, path = rootId :: rest ∧ catalog.views[rootId]? = some view ∧
          view.place = .root b ∧ catalog.Descends rootId rest last := by
  intro fuel
  induction fuel with
  | zero =>
    intro id below hf
    exact absurd hf (Nat.not_lt_zero _)
  | succ fuel ih =>
    intro id below hf hid hd
    have hview : catalog.views[id]? = some catalog.views[id] := List.getElem?_eq_getElem hid
    have hlink := h id _ hview
    have hat : catalog.view id = .ok catalog.views[id] := itemAt_eq_ok.2 hview
    rw [climb, hat, ok_bind]
    cases hp : (catalog.views[id]).place with
    | root b =>
      simp only [View.parent?, hp]
      exact .ok ⟨id, below, _, b, rfl, hview, hp, hd⟩
    | child parent column =>
      obtain ⟨hlt, -⟩ := hlink.child parent column hp
      simp only [View.parent?, hp]
      exact ih (by omega) (by omega) (.down hview hp hd)

/-- **The way from the root down to a view exists.** -/
theorem Leveled.ancestry (h : catalog.Leveled) {id : Nat} (hid : id < catalog.views.length) :
    Gives (catalog.ancestry id) fun path =>
      ∃ rootId rest view b, path = rootId :: rest ∧ catalog.views[rootId]? = some view ∧
        view.place = .root b ∧ catalog.Descends rootId rest id :=
  climb_gives h (by omega) hid (.stop id)

theorem Linked.rootOf (h : catalog.Linked) {id : Nat} (hid : id < catalog.views.length) :
    Gives (catalog.rootOf id) fun rootId =>
      ∃ rest view b, catalog.ancestry id = .ok (rootId :: rest) ∧
        catalog.views[rootId]? = some view ∧ view.place = .root b ∧ catalog.Descends rootId rest id := by
  obtain ⟨path, hpath, rootId, rest, view, b, rfl, hv, hp, hd⟩ := Leveled.ancestry h.view hid
  refine ⟨rootId, ?_, rest, view, b, hpath, hv, hp, hd⟩
  rw [Catalog.rootOf, hpath]
  rfl

/-- The base table of a view is the one whose top level its root view shows. -/
theorem Linked.baseOf (h : catalog.Linked) {id : Nat} (hid : id < catalog.views.length) :
    Gives (catalog.baseOf id) fun b =>
      ∃ rootId rest view table, catalog.ancestry id = .ok (rootId :: rest) ∧
        catalog.views[rootId]? = some view ∧ view.place = .root b ∧
        catalog.bases[b]? = some table ∧ IsRootOf view table ∧
        catalog.Descends rootId rest id := by
  obtain ⟨rootId, hroot, rest, view, b, hpath, hv, hp, hd⟩ := h.rootOf hid
  obtain ⟨table, ht, hr⟩ := (h.view rootId view hv).root b hp
  refine ⟨b, ?_, rootId, rest, view, table, hpath, hv, hp, ht, hr, hd⟩
  have hat : catalog.view rootId = .ok view := itemAt_eq_ok.2 hv
  rw [Catalog.baseOf, hroot, ok_bind, hat, ok_bind, hp]
  rfl

end StreamPlan.Catalog
