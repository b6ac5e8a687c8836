import StreamPlan.Proofs.Answers.Basic
import StreamPlan.Proofs.Columns.ColumnMap
import StreamPlan.Proofs.Entities.Lineage
import StreamPlan.Proofs.Safety.Scan

/-!
# Scanned views are flattened entities

On a stage that unrolls nested collections, a view is scanned by unrolling its
base table level by level. The columns that such a scan shows are found by
offsets that add up on the way down; what the view is to show was settled when
it was registered. Both agree.

* `View.flatten`: what an element shows of the levels below it, by recursion on
  these levels, and `Fixture.Nests`: base rows with collections wherever a
  level is nested.
* `Placed`: an element behind what is above it in a row, with the keys of the
  elements above. Rows and row types are both read this way.
* `Unrolled.Stands`, `Unrolled.Holds`: the row type and the rows of an entity
  unrolled down to a view. One more level keeps them (`unrollLevel_stands`,
  `unrollLevel_holds`), and so do all levels down to a view (`unrollLevels_hold`).
* `Converter.scan_flattens`: **a scan gives the flattened base rows**, in order,
  with the keys of all levels as its key.
-/

namespace StreamPlan

variable {α : Type} {catalog : Catalog} {fixture : Fixture}

/-- The elements of a view in an element of the level above. -/
def View.elementsIn (view : View) (above : Row) : List Row :=
  match view.place with
  | .root _ => []
  | .child _ column => above.elementsAt column

/-- **What an element shows** of the levels below it: for every way down through
them, the local keys of all elements on the way and the columns of the last one
that are not nested. The keys of the elements above come first. -/
def View.flatten : View → List View → Row → Row → List AnsweredRow
  | view, [], keys, element =>
    [⟨keys ++ element.pick (flatColumns view.levelFields), keys ++ element.take view.ownKeys⟩]
  | view, next :: below, keys, element =>
    (next.elementsIn element).flatMap (flatten next below (keys ++ element.take view.ownKeys))

/-- A row of as many values as fields, with a collection of such rows, or null,
wherever a field is nested. -/
inductive Row.Nests : Fields → Row → Prop
  | intro {fields : Fields} {row : Row} (length : row.length = fields.length)
    (collections : ∀ (i : Nat) (field : Field) (element : Fields),
      fields[i]? = some field → field.nested? = some element → row.HasElements i)
    (below : ∀ (i : Nat) (field : Field) (element : Fields),
      fields[i]? = some field → field.nested? = some element →
      ∀ r ∈ row.elementsAt i, Row.Nests element r) : Row.Nests fields row

/-- Base rows with collections of rows of the level's width, or nulls, wherever a
level is nested. -/
def Fixture.Nests (fixture : Fixture) (catalog : Catalog) : Prop :=
  ∀ b table rows, catalog.bases[b]? = some table → fixture.rowsOf (.base b) = .ok rows →
    ∀ row ∈ rows, Row.Nests table.fields row

theorem Row.Nests.length {fields : Fields} {row : Row} (h : Row.Nests fields row) :
    row.length = fields.length := by
  obtain ⟨hlen, -, -⟩ := h
  exact hlen

/-- One more value in front, with a collection or null if its field is nested. -/
theorem Row.Nests.cons {field : Field} {fields : Fields} {value : Value} {row : Row}
    (hvalue : ∀ element, field.nested? = some element →
      value = .null ∨ ∃ elements, value = .list elements ∧ ∀ e ∈ elements, Row.Nests element e)
    (h : Row.Nests fields row) : Row.Nests (field :: fields) (value :: row) := by
  obtain ⟨hlen, hcollections, hbelow⟩ := h
  refine ⟨congrArg (· + 1) hlen, fun i other element hother hnested => ?_,
    fun i other element hother hnested => ?_⟩
  · cases i with
    | zero =>
      cases hother
      exact (hvalue element hnested).imp (congrArg some) fun ⟨es, he, _⟩ => ⟨es, congrArg some he⟩
    | succ i => exact hcollections i other element hother hnested
  · cases i with
    | zero =>
      cases hother
      obtain rfl | ⟨elements, rfl, he⟩ := hvalue element hnested
      · intro r hr
        cases hr
      · exact he
    | succ i => exact hbelow i other element hother hnested

theorem Row.nests_nil : Row.Nests [] [] := ⟨rfl, nofun, nofun⟩

variable {xs values : List α} {columns : List Nat}

theorem Row.picks_pick {row : Row} (h : ∀ c ∈ columns, c < row.length) :
    Picks row columns (row.pick columns) := at_eq_ok.1 (Row.at_of_inside h)

/-- The plain columns of a level hold its plain fields. -/
theorem picks_flatFields (fields : Fields) :
    Picks fields (flatColumns fields) (flatFields fields) := by
  rw [Picks, flatColumns, ← filter_zipIdx_plain fields 0, List.forall₂_map_left_iff,
    List.forall₂_map_right_iff]
  exact List.forall₂_same.2 fun p hp => List.mem_zipIdx_iff_getElem?.1 (List.mem_filter.1 hp).1

/-- The element of a level behind what is above it in a row, with the keys of the
elements above. -/
structure Placed (α : Type) where
  front : List α
  keys : List α
  element : List α

namespace Placed

/-- The whole row down to the element. -/
def row (p : Placed α) : List α := p.front ++ p.element

/-- An element one level further down. -/
def below (p : Placed α) (ownKeys : Nat) (element : List α) : Placed α :=
  ⟨p.row, p.keys ++ p.element.take ownKeys, element⟩

/-- An element that starts at an offset, with the keys above it in some columns. -/
structure Sits (p : Placed α) (offset : Nat) (columns : List Nat) : Prop where
  offset : p.front.length = offset
  keys : Picks p.front columns p.keys

variable {p : Placed α} {offset : Nat}

/-- What is picked from an element, behind the keys above it. -/
theorem Sits.picks {own : List Nat} (h : p.Sits offset columns) (hv : Picks p.element own values) :
    Picks p.row (columns ++ own.map (offset + ·)) (p.keys ++ values) :=
  (h.keys.left p.element).append (h.offset ▸ hv.right p.front)

/-- The keys down to an element. -/
theorem Sits.ownKeys {k : Nat} (h : p.Sits offset columns) (hk : k ≤ p.element.length) :
    Picks p.row (columns ++ List.range' offset k) (p.keys ++ p.element.take k) := by
  rw [List.range'_eq_map_range]
  exact h.picks (picks_take hk)

theorem Sits.below {k : Nat} (h : p.Sits offset columns) (hk : k ≤ p.element.length)
    (element : List α) :
    (p.below k element).Sits (offset + p.element.length) (columns ++ List.range' offset k) :=
  ⟨by rw [Placed.below, row, List.length_append, h.offset], h.ownKeys hk⟩

end Placed

namespace Converter

/-- The row type of an entity that is unrolled down to a view: the fields of the
view are the keys above its level and the plain fields of the level. -/
structure Unrolled.Stands (state : Unrolled) (view : View) (header : Placed Field) : Prop where
  nonempty : state.lineage ≠ []
  keys : state.lineage.keys = Lineage.keys state.lineage.dropLast ++ List.range' state.offset view.ownKeys
  fields : state.rel.fields = .ok header.row
  sits : header.Sits state.offset (Lineage.keys state.lineage.dropLast)
  element : header.element = view.levelFields
  shows : view.fields = header.keys ++ flatFields view.levelFields
  ancestorKeys : header.keys.length = view.ancestorKeys

/-- The rows of an entity that is unrolled down to a view. -/
structure Unrolled.Holds (state : Unrolled) (fixture : Fixture) (view : View)
    (placed : List (Placed Value)) : Prop where
  rows : evaluate fixture state.rel = .ok (placed.map Placed.row)
  sits : ∀ p ∈ placed, p.Sits state.offset (Lineage.keys state.lineage.dropLast)
  nests : ∀ p ∈ placed, Row.Nests view.levelFields p.element

namespace Unrolled

variable {state : Unrolled} {view above : View} {header : Placed Field}

theorem Stands.width (h : state.Stands view header) :
    state.rel.width = state.offset + header.element.length := by
  rw [← Rel.length_of_fields h.fields, Placed.row, List.length_append, h.sits.offset]

/-- A child view shows the keys of its parent and its own plain fields. -/
theorem Stands.child_fields {column : Nat} (h : state.Stands above header)
    (hk : PlainKeys above.levelFields above.ownKeys)
    (hle : above.ownKeys ≤ above.levelFields.length) (hc : Catalog.IsChildOf view above column) :
    view.fields = header.keys ++ header.element.take above.ownKeys ++ flatFields view.levelFields := by
  rw [hc.fields, h.shows, View.keys, ← h.ancestorKeys, List.take_length_add_append,
    take_flatFields hk hle, h.element]

end Unrolled

variable {c : Converter} {table : BaseTable} {state next : Unrolled} {view above : View}
  {header : Placed Field} {placed : List (Placed Value)} {id top column : Nat}

/-- The local keys of an element of a view are columns of it. -/
theorem ownKeys_le_element (hl : c.catalog.Linked) (hv : c.catalog.views[top]? = some above)
    {p : Placed Value} (h : Row.Nests above.levelFields p.element) :
    above.ownKeys ≤ p.element.length := by
  rw [h.length]
  exact (hl.view top above hv).ownKeys_le

/-- **One more level** puts its fields behind those of the levels above. -/
theorem unrollLevel_stands (hl : c.catalog.Linked) (h : state.Stands above header)
    (hk : PlainKeys above.levelFields above.ownKeys) (ha : c.catalog.views[top]? = some above)
    (hv : c.catalog.views[id]? = some view) (hp : view.place = .child top column) :
    Gives (c.unrollLevel state id) fun next =>
      next.rel = .unnest state.rel (state.offset + column) false view.levelFields ∧
        next.offset = state.offset + header.element.length ∧
        Lineage.keys next.lineage.dropLast
          = Lineage.keys state.lineage.dropLast ++ List.range' state.offset above.ownKeys ∧
        next.Stands view (header.below above.ownKeys view.levelFields) := by
  have hle := (hl.view top above ha).ownKeys_le
  obtain ⟨-, above', ha', hc⟩ := (hl.view id view hv).child top column hp
  obtain rfl : above = above' := Option.some.inj (ha.symm.trans ha')
  have hleaf : Lineage.leaf state.lineage < state.lineage.length := by
    have := List.length_pos_iff.2 h.nonempty
    rw [Lineage.leaf]
    omega
  unfold unrollLevel
  rw [show c.catalog.view id = .ok view from itemAt_eq_ok.2 hv, ok_bind]
  simp only [hp]
  rw [Lineage.addLevel, if_pos hleaf, ok_bind]
  have hkeys : ∀ level : Level, (state.lineage ++ [level]).dropLast = state.lineage :=
    fun level => List.dropLast_concat
  have hsits := h.sits.below (h.element ▸ hle) view.levelFields
  refine .ok ⟨rfl, h.width, by rw [hkeys, h.keys], List.concat_ne_nil _ _, ?_, ?_, ?_, rfl, ?_, ?_⟩
  · rw [hkeys, Lineage.keys, Lineage.keys, List.flatMap_append]
    simp [Level.ownKey]
  · rw [Rel.fields, h.fields]
    rfl
  · rw [hkeys, h.keys, h.width]
    exact hsits
  · rw [h.child_fields hk hle hc]
    rfl
  · rw [Placed.below, List.length_append, h.ancestorKeys, hc.ancestorKeys, View.keys,
      List.length_take, h.element, Nat.min_eq_left hle]

/-- **One more level** puts the elements of its collections behind the rows. -/
theorem unrollLevel_holds (hl : c.catalog.Linked) (h : state.Stands above header)
    (hk : PlainKeys above.levelFields above.ownKeys) (hh : state.Holds fixture above placed)
    (ha : c.catalog.views[top]? = some above) (hv : c.catalog.views[id]? = some view)
    (hp : view.place = .child top column) (hnext : c.unrollLevel state id = .ok next) :
    next.Holds fixture view
      (placed.flatMap fun p => (view.elementsIn p.element).map (p.below above.ownKeys)) := by
  obtain ⟨_, hok, hrel, hoffset, hkeys, -⟩ := unrollLevel_stands hl h hk ha hv hp
  obtain rfl := Except.ok.inj (hnext.symm.trans hok)
  obtain ⟨-, above', ha', hc⟩ := (hl.view id view hv).child top column hp
  obtain rfl : above = above' := Option.some.inj (ha.symm.trans ha')
  obtain ⟨field, hfield, hnested⟩ := hc.level
  have hin : ∀ p : Placed Value, view.elementsIn p.element = Row.elementsAt p.element column := by
    intro p
    rw [View.elementsIn, hp]
  -- the collection stands where the offset of the level above says
  have hcell : ∀ p ∈ placed, p.row[state.offset + column]? = p.element[column]? := by
    intro p hmem
    rw [Placed.row, ← (hh.sits p hmem).offset, List.getElem?_append_right (Nat.le_add_right _ _),
      Nat.add_sub_cancel_left]
  refine ⟨?_, fun q hq => ?_, fun q hq => ?_⟩
  · rw [hrel, evaluate_unnest]
    refine ⟨_, hh.rows, List.forall_mem_map.2 fun p hmem => ?_, ?_⟩
    · obtain ⟨-, hcollections, -⟩ := hh.nests p hmem
      have hhas := hcollections column field view.levelFields hfield hnested
      rw [Row.HasElements] at hhas ⊢
      rwa [hcell p hmem]
    · rw [List.map_flatMap, List.flatMap_map]
      refine List.flatMap_congr fun p hmem => ?_
      rw [Row.unnested, Row.elementsAt, hcell p hmem, hin, Row.elementsAt, List.map_map]
      rfl
  · obtain ⟨p, hmem, hq⟩ := List.mem_flatMap.1 hq
    obtain ⟨element, -, rfl⟩ := List.mem_map.1 hq
    have hlen : p.element.length = header.element.length := by
      rw [(hh.nests p hmem).length, h.element]
    rw [hoffset, hkeys, ← hlen]
    exact (hh.sits p hmem).below (ownKeys_le_element hl ha (hh.nests p hmem)) element
  · obtain ⟨p, hmem, hq⟩ := List.mem_flatMap.1 hq
    obtain ⟨element, helement, rfl⟩ := List.mem_map.1 hq
    obtain ⟨-, -, hbelow⟩ := hh.nests p hmem
    exact hbelow column field view.levelFields hfield hnested element (hin p ▸ helement)

/-- What an element of a view shows once its entity is unrolled down to it. -/
def shownAt (view : View) (p : Placed Value) : AnsweredRow :=
  ⟨p.keys ++ Row.pick p.element (flatColumns view.levelFields), p.keys ++ p.element.take view.ownKeys⟩

variable (fixture) in
/-- **All levels down to a view** are unrolled, and what the elements above show of
them is what the elements of the view show. -/
theorem unrollLevels_hold (hl : c.catalog.Linked)
    (hk : ∀ view ∈ c.catalog.views, PlainKeys view.levelFields view.ownKeys) {last : Nat}
    {rest : List Nat} (hd : c.catalog.Descends top rest last) {below : View}
    (ha : c.catalog.views[top]? = some above) (hb : c.catalog.views[last]? = some below)
    (h : state.Stands above header) :
    ∃ final way bottom, rest.foldlM (fun state next => liftM (c.unrollLevel state next)) state
        = (.ok final : Planning Unrolled) ∧
      rest.mapM c.catalog.view = .ok way ∧ final.Stands below bottom ∧
      ∀ placed, state.Holds fixture above placed → ∃ elements, final.Holds fixture below elements ∧
        (placed.flatMap fun p => above.flatten way p.keys p.element)
          = elements.map (shownAt below) := by
  -- along the path: flattening an element starts with the elements one level below it
  induction hd generalizing state above header with
  | stop id =>
    obtain rfl : above = below := Option.some.inj (ha.symm.trans hb)
    refine ⟨state, [], header, rfl, rfl, h, fun placed hh => ⟨placed, hh, ?_⟩⟩
    rw [List.map_eq_flatMap]
    rfl
  | @down top next last column rest view hv hp _ ih =>
    have hplain := hk above (List.mem_of_getElem? ha)
    obtain ⟨mid, hmid, -, -, -, hstands⟩ := unrollLevel_stands hl h hplain ha hv hp
    obtain ⟨final, way, bottom, hfold, hway, hbottom, hrows⟩ := ih hv hb hstands
    refine ⟨final, view :: way, bottom, ?_, ?_, hbottom, fun placed hh => ?_⟩
    · rw [List.foldlM_cons, hmid, lift_ok, ok_bind, hfold]
    · rw [List.mapM_cons, show c.catalog.view next = .ok view from itemAt_eq_ok.2 hv, ok_bind, hway]
      rfl
    · obtain ⟨elements, helements, hshown⟩ :=
        hrows _ (unrollLevel_holds hl h hplain hh ha hv hp hmid)
      refine ⟨elements, helements, Eq.trans ?_ hshown⟩
      rw [List.flatMap_assoc]
      refine List.flatMap_congr fun p _ => ?_
      rw [View.flatten, List.flatMap_map]
      rfl

variable {out : Plan}

/-- Without a ranking to apply, the levels start from the bare scan. -/
theorem belowLevels_of_idle {start : Plan} {path : List Nat} (ht : start.topN.isEmpty = true) :
    belowLevels start path = .ok out ↔ path.length ≤ 1 ∧ out = start ∨
      1 < path.length ∧ ∃ needs, start.needs.require .denormalize = .ok needs ∧
        out = { start with needs, sort := [] } := by
  have hidle : ∀ needs, Plan.withoutTopN { start with needs } = .ok { start with needs } := by
    intro needs
    unfold Plan.withoutTopN Plan.inlineTopN
    rw [if_pos ht]
    rfl
  unfold belowLevels
  by_cases hshort : path.length ≤ 1
  · rw [if_pos hshort, pure_eq_ok]
    exact ⟨fun h => .inl ⟨hshort, h.symm⟩, fun h => h.elim (·.2.symm) fun h => absurd h.1 (by omega)⟩
  · rw [if_neg hshort]
    simp only [bind_eq_ok, needing_eq_ok, hidle, pure_eq_ok, Except.ok.injEq]
    constructor
    · rintro ⟨needs, hneeds, _, rfl, rfl⟩
      exact .inr ⟨by omega, needs, hneeds, rfl⟩
    · rintro (⟨hle, -⟩ | ⟨-, needs, hneeds, rfl⟩)
      · exact absurd hle hshort
      · exact ⟨needs, hneeds, _, rfl, rfl⟩

theorem belowLevels_of_supports {start : Plan} (path : List Nat) (ht : start.topN.isEmpty = true)
    (hs : start.needs.supports .denormalize = true) :
    ∃ out, belowLevels start path = .ok out ∧ out.rel = start.rel ∧
      out.needs.stage = start.needs.stage := by
  rcases Nat.lt_or_ge 1 path.length with hlong | hshort
  · exact ⟨_, (belowLevels_of_idle ht).2 (.inr ⟨hlong, _, if_pos hs, rfl⟩), rfl, rfl⟩
  · exact ⟨start, (belowLevels_of_idle ht).2 (.inl ⟨hshort, rfl⟩), rfl, rfl⟩

/-- **The plan of an unrolled view**, step by step. -/
theorem unrolledPlan_eq_ok_iff {baseId rootId : Nat} {rest : List Nat} {root : View}
    (hpath : c.catalog.ancestry id = .ok (rootId :: rest))
    (hroot : c.catalog.views[rootId]? = some root) (hview : c.catalog.views[id]? = some view) :
    c.unrolledPlan id baseId table = .ok out ↔
      ∃ needs empty start unrolled key select, c.scanNeeds table = .ok needs ∧
        ColumnMap.of [] table.fields.length = .ok empty ∧
        belowLevels (withPending (.bare (.scan (.base baseId) table.name table.fields) table.kind
          empty needs) (c.openConstraints table)) (rootId :: rest) = .ok start ∧
        rest.foldlM (fun state next => liftM (c.unrollLevel state next))
          ⟨start.rel, Lineage.root rootId 0 table.fields.length root.ownKeys, 0⟩
            = (.ok unrolled : Planning Unrolled) ∧
        ColumnMap.of unrolled.lineage.keys unrolled.rel.width = .ok key ∧
        ColumnMap.of (Lineage.keys unrolled.lineage.dropLast
          ++ view.ownColumns.map (unrolled.offset + ·)) unrolled.rel.width = .ok select ∧
        out = { Plan.bare unrolled.rel table.kind key start.needs with
          select, time := timeOf table, nowFilter := start.nowFilter, topN := start.topN
          sort := start.sort, rootKeys := some root.ownKeys
          lineage := some unrolled.lineage } := by
  have hwidth : (Rel.scan (.base baseId) table.name table.fields).width = table.fields.length := by
    rw [Rel.width]
  unfold unrolledPlan
  simp only [hpath, lift_ok, ok_bind, show itemAt (rootId :: rest) 0 = .ok rootId from rfl,
    show c.catalog.view rootId = .ok root from itemAt_eq_ok.2 hroot,
    show c.catalog.view id = .ok view from itemAt_eq_ok.2 hview, bind_eq_ok, lift_eq_ok,
    Plan.ofRel_eq_ok, pure_eq_ok, hwidth, List.tail_cons]
  constructor
  · rintro ⟨needs, hneeds, _, ⟨empty, hempty, rfl⟩, start, hstart, unrolled, hfold, _,
      ⟨key, hkey, rfl⟩, select, hselect, rfl⟩
    exact ⟨needs, empty, start, unrolled, key, select, hneeds, hempty, hstart, hfold, hkey, hselect,
      rfl⟩
  · rintro ⟨needs, empty, start, unrolled, key, select, hneeds, hempty, hstart, hfold, hkey, hselect,
      rfl⟩
    exact ⟨needs, hneeds, _, ⟨empty, hempty, rfl⟩, start, hstart, unrolled, hfold, _,
      ⟨key, hkey, rfl⟩, select, hselect, rfl⟩

/-- A scan starts on the stage of the query unless plans may change their stage. -/
theorem stage_of_scanNeeds {needs : Requirements} (h : c.scanNeeds table = .ok needs) :
    needs.stage = c.stage ∨ c.settings.allowStageChange = true := by
  unfold scanNeeds at h
  split at h
  · cases h
    exact .inl rfl
  · split at h
    · cases h
      exact .inl rfl
    · split at h
      · rename_i hchange
        exact .inr hchange
      · exact absurd h refuse_ne_ok

theorem stands_root (rootId b : Nat) {root : View} (hr : Catalog.IsRootOf root table) :
    Unrolled.Stands ⟨.scan (.base b) table.name table.fields,
      Lineage.root rootId 0 table.fields.length root.ownKeys, 0⟩ root ⟨[], [], table.fields⟩ where
  nonempty := List.cons_ne_nil _ _
  keys := by simp [Lineage.root, Lineage.keys, Level.ownKey]
  fields := by rw [Rel.fields, Placed.row, List.nil_append]
  sits := ⟨rfl, .nil⟩
  element := hr.level.symm
  shows := by rw [hr.fields, hr.level, List.nil_append]
  ancestorKeys := hr.ancestorKeys.symm

theorem holds_root {rootId b : Nat} {root : View} {rows : List Row} (hr : Catalog.IsRootOf root table)
    (hf : fixture.Nests c.catalog) (ht : c.catalog.bases[b]? = some table)
    (hrows : fixture.rowsOf (.base b) = .ok rows) :
    Unrolled.Holds ⟨.scan (.base b) table.name table.fields,
      Lineage.root rootId 0 table.fields.length root.ownKeys, 0⟩ fixture root
      (rows.map fun row => ⟨[], [], row⟩) where
  rows := by
    rw [evaluate_scan, hrows, List.map_map]
    exact congrArg _ (List.map_id rows).symm
  sits := List.forall_mem_map.2 fun _ _ => ⟨rfl, .nil⟩
  nests := List.forall_mem_map.2 fun row hrow => hr.level ▸ hf b table rows ht hrows row hrow

/-- **The plan of an unrolled view**, to which nothing was pulled up, shows the
fields of the view and the flattened base rows. -/
theorem unrolledPlan_flattens {b rootId : Nat} {rest : List Nat} {root : View}
    (he : c.OfEntity id view table rootId root rest) (hl : c.catalog.Linked)
    (hk : ∀ view ∈ c.catalog.views, PlainKeys view.levelFields view.ownKeys)
    (hnone : table.pending.isEmpty = true) (hf : fixture.Nests c.catalog)
    (ht : c.catalog.bases[b]? = some table) :
    ∃ way, rest.mapM c.catalog.view = .ok way ∧
      (∀ needs, c.scanNeeds table = .ok needs → needs.supports .denormalize = true →
        ∃ out, c.unrolledPlan id b table = .ok out ∧ out.needs.stage = needs.stage) ∧
      ∀ out, c.unrolledPlan id b table = .ok out → out.nowFilter = none ∧
        out.topN.isEmpty = true ∧ out.visibleFields = .ok view.fields ∧
        ∀ rows, fixture.rowsOf (.base b) = .ok rows →
          out.answer fixture = .ok (rows.flatMap (root.flatten way [])) := by
  obtain ⟨hnow, hidle⟩ := @openConstraints_of_pullsNothing c table hnone
  obtain ⟨final, way, header, hfold, hway, hstands, hholds⟩ := unrollLevels_hold fixture hl hk
    he.descends he.rootAt he.viewAt (stands_root rootId b he.isRoot)
  have hown : view.ownColumns = flatColumns view.levelFields := (hl.view id view he.viewAt).ownColumns
  have hfields : Picks header.element view.ownColumns (flatFields view.levelFields) := by
    rw [hown, hstands.element]
    exact picks_flatFields view.levelFields
  have hheader := hstands.sits.picks hfields
  have hkeyed := hstands.sits.ownKeys (hstands.element ▸ (hl.view id view he.viewAt).ownKeys_le)
  have hlength : header.row.length = final.rel.width := Rel.length_of_fields hstands.fields
  -- with nothing pulled up there is nothing to apply below the levels
  refine ⟨way, hway, fun needs hneeds hsupports => ?_, fun out hout => ?_⟩
  · have hbare : (withPending (.bare (.scan (.base b) table.name table.fields) table.kind
        (.empty table.fields.length) needs) (c.openConstraints table)).topN.isEmpty = true := hidle
    obtain ⟨start, hstart, hrel, hstage⟩ := belowLevels_of_supports (rootId :: rest) hbare hsupports
    refine ⟨_, (unrolledPlan_eq_ok_iff he.ancestry he.rootAt he.viewAt).2 ⟨needs, .empty _, start, final,
      ⟨_, _, ?_⟩, ⟨_, _, ?_⟩, hneeds, rfl, hstart, by rw [hrel]; exact hfold, ColumnMap.of_eq_ok _,
      ColumnMap.of_eq_ok _, rfl⟩, hstage⟩
    · rw [hstands.keys, ← hlength]
      exact hkeyed.lt
    · rw [← hlength]
      exact hheader.lt
  · obtain ⟨needs, empty, start, unrolled, key, select, -, -, hstart, hunrolled, hkey, hselect, rfl⟩ :=
      (unrolledPlan_eq_ok_iff he.ancestry he.rootAt he.viewAt).1 hout
    obtain ⟨hrel, hnowStart, htopStart⟩ : start.rel = .scan (.base b) table.name table.fields ∧
        start.nowFilter = none ∧ start.topN.isEmpty = true := by
      rcases (belowLevels_of_idle hidle).1 hstart with ⟨-, rfl⟩ | ⟨-, needs', -, rfl⟩
      all_goals exact ⟨rfl, hnow, hidle⟩
    rw [hrel, hfold] at hunrolled
    cases hunrolled
    obtain ⟨hkeys, -⟩ := ColumnMap.of_targets hkey
    obtain ⟨hvisible, -⟩ := ColumnMap.of_targets hselect
    refine ⟨hnowStart, htopStart, ?_, fun rows hrows => ?_⟩
    · refine bind_eq_ok.2 ⟨_, hstands.fields, mapM_eq_ok.2 ?_⟩
      rw [hvisible, hstands.shows]
      exact hheader.imp fun _ _ hc => itemAt_eq_ok.2 hc
    · obtain ⟨elements, helements, hshown⟩ := hholds _ (holds_root he.isRoot hf ht hrows)
      rw [List.flatMap_map] at hshown
      refine bind_eq_ok.2 ⟨_, helements.rows, ?_⟩
      rw [hshown, mapM_eq_ok, List.forall₂_map_left_iff, List.forall₂_map_right_iff]
      refine List.forall₂_same.2 fun p hp => orFault_eq_ok.2 ?_
      have hsits := helements.sits p hp
      have hnests := helements.nests p hp
      refine bind_eq_ok.2 ⟨_, at_eq_ok.2 ?_, bind_eq_ok.2 ⟨_, at_eq_ok.2 ?_, rfl⟩⟩
      · change Picks p.row select.targets _
        rw [hvisible, hown]
        exact hsits.picks (Row.picks_pick fun column hcolumn => hnests.length ▸ flatColumns_lt hcolumn)
      · change Picks p.row key.targets _
        rw [hkeys, hstands.keys]
        exact hsits.ownKeys (ownKeys_le_element hl he.viewAt hnests)

/-- **A scan gives the flattened base rows.** On a stage that unrolls collections, and
over tables to which nothing was pulled up, the plan of a view shows the fields that
the view was registered with. Its rows are the base rows, flattened in order along the
way down to the view, and its key holds the local keys of all levels. There is such a
plan unless the stage on which the table is computed cannot be changed to, or lacks
the capability. -/
theorem scan_flattens (hb : c.catalog.Built) (hp : c.catalog.PullsNothing)
    (hk : ∀ view ∈ c.catalog.views, PlainKeys view.levelFields view.ownKeys)
    (hd : c.stage.supports .denormalize = true) (hf : fixture.Nests c.catalog)
    (hv : c.catalog.views[id]? = some view) (name : String) (fields : Fields) :
    ∃ b table rootId root rest way, c.catalog.ancestry id = .ok (rootId :: rest) ∧
      c.catalog.views[rootId]? = some root ∧ root.place = .root b ∧
      c.catalog.bases[b]? = some table ∧ rest.mapM c.catalog.view = .ok way ∧
      (c.catalog.Sane → ∀ needs, c.scanNeeds table = .ok needs →
        needs.supports .denormalize = true →
        ∃ plan, c.convert (.scan (.view id) name fields) = .ok plan) ∧
      ∀ plan, c.convert (.scan (.view id) name fields) = .ok plan →
        plan.hasPending = false ∧ plan.visibleFields = .ok view.fields ∧
        ∀ rows, fixture.rowsOf (.base b) = .ok rows →
          plan.answer fixture = .ok (rows.flatMap (root.flatten way [])) := by
  have hl := hb.linked
  obtain ⟨b, hbase, rootId, rest, root, table, hpath, hroot, hplace, ht, hr, hdown⟩ :=
    hl.baseOf (List.getElem?_eq_some_iff.1 hv).1
  have hmem := List.mem_of_getElem? ht
  have he : c.OfEntity id view table rootId root rest := ⟨hv, hmem, hpath, hroot, hr, hdown⟩
  obtain ⟨way, hway, hexists, hshows⟩ := unrolledPlan_flattens he hl hk (hp table hmem) hf ht
  have hscan : c.scanPlan (.view id) = c.unrolledPlan id b table := by
    rw [scanPlan, show c.catalog.view id = .ok view from itemAt_eq_ok.2 hv, lift_ok, ok_bind, hbase,
      lift_ok, ok_bind, show c.catalog.base b = .ok table from itemAt_eq_ok.2 ht, lift_ok, ok_bind,
      if_pos hd]
  refine ⟨b, table, rootId, root, rest, way, hpath, hroot, hplace, ht, hway, ?_, fun plan hplan => ?_⟩
  · intro hs needs hneeds hsupports
    obtain ⟨out, hout, hstage⟩ := hexists needs hneeds hsupports
    obtain ⟨hnow, htop, -⟩ := hshows out hout
    have hsafe : Safe (fun _ => False) (c.scanPlan (.view id)) _ := scanPlan_safe hl hs
      (show c.catalog.fields (.view id) = .ok view.fields from
        bind_eq_ok.2 ⟨view, itemAt_eq_ok.2 hv, rfl⟩)
    obtain ⟨hwell, -⟩ := hsafe.2 out (hscan.trans hout)
    refine ⟨out, ?_⟩
    rw [convert, hscan, hout, ok_bind]
    refine finish_eq_ok.2 ⟨?_, ?_, hwell.toSound⟩
    · rw [hstage]
      rintro ⟨hother, hfixed⟩
      rcases stage_of_scanNeeds hneeds with hsame | hchange
      · exact hother (by rw [hsame])
      · rw [hfixed] at hchange
        cases hchange
    · rw [Plan.withoutPending_of_idle hnow htop]
      split
      · rfl
      · rfl
  · rw [convert] at hplan
    obtain ⟨out, hout, hplan⟩ := bind_eq_ok.1 hplan
    obtain ⟨hnow, htop, hfields, hrows⟩ := hshows out (hscan.symm.trans hout)
    -- nothing is pending, so the last step leaves the plan as it is
    obtain rfl : plan = out := by
      obtain ⟨-, hfinal, -⟩ := finish_eq_ok.1 hplan
      rw [Plan.withoutPending_of_idle hnow htop] at hfinal
      split at hfinal
      · exact (Except.ok.inj hfinal).symm
      · exact hfinal
    exact ⟨by rw [Plan.hasPending, hnow, htop]; rfl, hfields, hrows⟩

/-- The columns of a stop. -/
def stopFields : Fields := [⟨"stop", .int64, false⟩, ⟨"place", .utf8, true⟩]

/-- The columns of a leg, with its stops in front of a note. -/
def legFields : Fields :=
  [⟨"leg", .int64, false⟩, ⟨"stops", .nestedOf stopFields, true⟩, ⟨"note", .utf8, true⟩]

/-- A table of trips by number, with their legs in front of a name. -/
def tripsTable : BaseTable where
  name := "trips"
  fields := [⟨"trip", .int64, false⟩, ⟨"legs", .nestedOf legFields, true⟩, ⟨"name", .utf8, true⟩]
  keys := 1
  kind := .state
  time := .none
  pending := .none
  stage := none

/-- The columns under which stops are seen. -/
def seenStops : Fields := numberField "trip" ++ numberField "leg" ++ stopFields

/-- The catalog of that table with views of its legs and of their stops, on the
stream stage. -/
def overTrips : Converter where
  catalog := ⟨[tripsTable],
    [⟨"trips", .root 0, tripsTable.fields, 1, [0, 2], 0, [⟨"trip", .int64, false⟩, ⟨"name", .utf8, true⟩]⟩,
      ⟨"legs", .child 0 1, legFields, 1, [0, 2], 1,
        numberField "trip" ++ [⟨"leg", .int64, false⟩, ⟨"note", .utf8, true⟩]⟩,
      ⟨"stops", .child 1 1, stopFields, 1, [0, 1], 2, seenStops⟩],
    [("stops", .view 2), ("legs", .view 1), ("trips", .view 0), ("trips", .base 0)]⟩
  pipeline := .streamAndDatabase
  stage := .stream "stream"
  settings := .default

theorem overTrips_built : overTrips.catalog.Built := by
  have htable := @Catalog.Built.table .empty _ tripsTable "trips" 0 .empty
    (show tripsTable.time.Coherent from EventTime.coherent_none) rfl
  have hlegs := @Catalog.Built.child _ _ 0 1 1 "legs" "legs" htable rfl
  exact @Catalog.Built.child _ overTrips.catalog 1 2 1 "stops" "stops" hlegs rfl

theorem overTrips_pullsNothing : overTrips.catalog.PullsNothing := by
  intro table ht
  obtain rfl := List.mem_singleton.1 ht
  rfl

theorem overTrips_plainKeys :
    ∀ view ∈ overTrips.catalog.views, PlainKeys view.levelFields view.ownKeys := by
  intro view hv
  simp only [overTrips, List.mem_cons, List.not_mem_nil, or_false] at hv
  rcases hv with rfl | rfl | rfl
  all_goals exact plainKeys_one rfl

/-- A stop at a place. -/
def stopAt (stop : Int) (place : String) : Row := [.int stop, .text place]

/-- A trip without legs, one with an empty collection of legs, and one with two legs,
the first of which has no stops. -/
def someTrips : Fixture where
  tables := [(.base 0, [
    [.int 1, .null, .text "short"],
    [.int 2, .list [], .text "none"],
    [.int 3, .list [[.int 10, .null, .text "walk"],
      [.int 11, .list [stopAt 100 "quay", stopAt 101 "hill"], .text "bus"]], .text "long"]])]
  now := 0

theorem someTrips_nests : someTrips.Nests overTrips.catalog := by
  have hstop : ∀ stop place, Row.Nests stopFields (stopAt stop place) := fun _ _ =>
    .cons nofun (.cons nofun Row.nests_nil)
  have hnull : ∀ {level : Fields}, ∀ element, some level = some element →
      Value.null = .null ∨ ∃ elements, Value.null = .list elements ∧
        ∀ e ∈ elements, Row.Nests element e := fun _ _ => .inl rfl
  have hlist : ∀ {level : Fields} {elements : List Row}, (∀ e ∈ elements, Row.Nests level e) →
      ∀ element, some level = some element → Value.list elements = .null ∨
        ∃ es, Value.list elements = .list es ∧ ∀ e ∈ es, Row.Nests element e := by
    rintro level elements h _ ⟨⟩
    exact .inr ⟨elements, rfl, h⟩
  intro b table rows ht hrows
  obtain rfl : b = 0 := Nat.lt_one_iff.1 (List.getElem?_eq_some_iff.1 ht).1
  cases ht
  cases hrows
  simp only [List.forall_mem_cons, List.not_mem_nil, false_imp_iff, implies_true, and_true]
  refine ⟨.cons nofun (.cons hnull (.cons nofun Row.nests_nil)),
    .cons nofun (.cons (hlist (by simp)) (.cons nofun Row.nests_nil)),
    .cons nofun (.cons (hlist ?_) (.cons nofun Row.nests_nil))⟩
  simp only [List.forall_mem_cons, List.not_mem_nil, false_imp_iff, implies_true, and_true]
  refine ⟨.cons nofun (.cons hnull (.cons nofun Row.nests_nil)),
    .cons nofun (.cons (hlist ?_) (.cons nofun Row.nests_nil))⟩
  simp only [List.forall_mem_cons, List.not_mem_nil, false_imp_iff, implies_true, and_true]
  exact ⟨hstop _ _, hstop _ _⟩

/-- Stops are seen below the numbers of their trips and legs. -/
theorem stops_are_flattened : ∃ plan,
    overTrips.convert (.scan (.view 2) "stops" seenStops) = .ok plan ∧
      plan.visibleFields = .ok seenStops ∧ plan.answer someTrips = .ok [
        ⟨[.int 3, .int 11, .int 100, .text "quay"], [.int 3, .int 11, .int 100]⟩,
        ⟨[.int 3, .int 11, .int 101, .text "hill"], [.int 3, .int 11, .int 101]⟩] := by
  obtain ⟨b, table, rootId, root, rest, way, hpath, hroot, hplace, -, hway, -, hshows⟩ :=
    scan_flattens overTrips_built overTrips_pullsNothing overTrips_plainKeys (by decide)
      someTrips_nests (show overTrips.catalog.views[2]? = some _ from rfl) "stops" seenStops
  cases (show overTrips.catalog.ancestry 2 = .ok [0, 1, 2] from rfl).symm.trans hpath
  cases hroot
  cases hplace
  cases hway
  obtain ⟨plan, hplan⟩ : ∃ plan, overTrips.convert (.scan (.view 2) "stops" seenStops) = .ok plan :=
    ⟨_, rfl⟩
  obtain ⟨-, hfields, hrows⟩ := hshows plan hplan
  exact ⟨plan, hplan, hfields, hrows _ rfl⟩

end Converter

end StreamPlan
