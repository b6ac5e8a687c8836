import StreamPlan.Plan.Scan
import StreamPlan.Proofs.Catalog.Linked
import StreamPlan.Proofs.Plan.Sound

/-!
# What scans are made of

* `Converter.mem_timeOf`: the timestamps of a scan are those of its table.
* `Converter.unrollLevels_each`, `unrollLevels_keep`: going down to a view level by level.
* `Converter.basePlan_eq_ok`, `viewPlan_eq_ok`, `unrolledPlan_eq_ok`: the plans
  of scans.
* `Converter.ScansAs`, `scanPlan_cases`: the plan of a scan with all its parts.
* `Catalog.tableOf`: the base table that a scan of a relation is over.
-/

namespace StreamPlan

/-- The base table that a relation is a picture of. -/
def Catalog.tableOf (catalog : Catalog) : RelationId → Except Fault BaseTable
  | .base id => catalog.base id
  | .view id => do catalog.base (← catalog.baseOf id)

theorem Catalog.mem_of_tableOf {catalog : Catalog} {relation : RelationId} {table : BaseTable}
    (h : catalog.tableOf relation = .ok table) : table ∈ catalog.bases := by
  have hbase : ∀ id, catalog.base id = .ok table → table ∈ catalog.bases := fun _ hid =>
    List.mem_of_getElem? (itemAt_eq_ok.1 hid)
  cases relation with
  | base id => exact hbase id h
  | view id =>
    obtain ⟨b, -, h⟩ := bind_eq_ok.1 h
    exact hbase b h

namespace Converter

variable {c : Converter} {table : BaseTable} {out : Plan}

theorem mem_timeOf {i : Nat} (hi : i ∈ (timeOf table).columns) :
    table.kind ≠ .state ∧ i ∈ table.time.columns := by
  unfold timeOf at hi
  split at hi
  · cases hi
  · rename_i hk; exact ⟨hk, hi⟩

theorem coherent_timeOf (h : table.time.Coherent) : (timeOf table).Coherent := by
  unfold timeOf
  split
  · exact EventTime.coherent_none
  · exact h

/-- **The plan of a base table** scans it. -/
theorem basePlan_eq_ok {id : Nat} (h : c.basePlan id = .ok out) :
    ∃ table needs key, c.catalog.bases[id]? = some table ∧
      out = { withPending (.bare (.scan (.base id) table.name table.fields) table.kind key needs)
          (c.openConstraints table) with
        time := timeOf table, rootKeys := some table.keys } := by
  unfold basePlan at h
  obtain ⟨table, ht, h⟩ := bind_eq_ok.1 h
  obtain ⟨needs, -, h⟩ := bind_eq_ok.1 h
  obtain ⟨plan, hplan, h⟩ := bind_eq_ok.1 h
  cases h
  obtain ⟨key, -, rfl⟩ := Plan.ofRel_eq_ok.1 (lift_eq_ok.1 hplan)
  exact ⟨table, needs, key, itemAt_eq_ok.1 (lift_eq_ok.1 ht), rfl⟩

/-- **The plan of a view** that is scanned as such scans it. One below the root
has nothing pending. -/
theorem viewPlan_eq_ok {id : Nat} {view : View} (h : c.viewPlan id view table = .ok out) :
    out.rel = .scan (.view id) view.name view.fields ∧ out.lineage = none ∧
      (view.isRoot = true ∧ out.time = (timeOf table).remap view.ownPosition? ∧
          (∃ pending, pending = (c.openConstraints table).remap view.ownPosition? ∧
            out.nowFilter = pending.nowFilter ∧ out.topN = pending.topN) ∨
        out.time = .none ∧ out.nowFilter = none) := by
  unfold viewPlan at h
  obtain ⟨needs, -, h⟩ := bind_eq_ok.1 h
  obtain ⟨plan, hplan, h⟩ := bind_eq_ok.1 h
  obtain ⟨rootId, -, h⟩ := bind_eq_ok.1 h
  obtain ⟨root, -, h⟩ := bind_eq_ok.1 h
  obtain ⟨key, -, rfl⟩ := Plan.ofRel_eq_ok.1 (lift_eq_ok.1 hplan)
  simp only at h
  split at h
  · rename_i hr
    cases h
    exact ⟨rfl, rfl, .inl ⟨hr, rfl, _, rfl, rfl, rfl⟩⟩
  · split at h
    · cases h
    · cases h
      exact ⟨rfl, rfl, .inr ⟨rfl, rfl⟩⟩

/-- A view that is scanned as such shows all its columns. -/
theorem select_of_viewPlan {id : Nat} {view : View} (h : c.viewPlan id view table = .ok out) :
    out.select = .identity view.fields.length := by
  have hwidth : (Rel.scan (.view id) view.name view.fields).width = view.fields.length := by
    rw [Rel.width]
  unfold viewPlan at h
  obtain ⟨needs, -, h⟩ := bind_eq_ok.1 h
  obtain ⟨plan, hplan, h⟩ := bind_eq_ok.1 h
  obtain ⟨rootId, -, h⟩ := bind_eq_ok.1 h
  obtain ⟨root, -, h⟩ := bind_eq_ok.1 h
  obtain ⟨key, -, rfl⟩ := Plan.ofRel_eq_ok.1 (lift_eq_ok.1 hplan)
  simp only [Plan.bare, hwidth] at h
  split at h
  · cases h
    rfl
  · split at h
    · cases h
    · cases h
      rfl

/-- One more level of an unrolled entity. -/
theorem unrollLevel_eq_ok {state next : Unrolled} {id : Nat} (h : c.unrollLevel state id = .ok next) :
    ∃ view parent column, c.catalog.views[id]? = some view ∧ view.place = .child parent column ∧
      Lineage.leaf state.lineage < state.lineage.length ∧
      next = ⟨.unnest state.rel (state.offset + column) false view.levelFields,
        state.lineage ++ [⟨id, some (Lineage.leaf state.lineage), .inner, state.rel.width,
          view.levelFields.length, view.ownKeys⟩], state.rel.width⟩ := by
  unfold unrollLevel at h
  obtain ⟨view, hv, h⟩ := bind_eq_ok.1 h
  split at h
  · cases h
  · rename_i parent column hp
    simp only at h
    obtain ⟨lineage, hl, h⟩ := bind_eq_ok.1 h
    cases h
    unfold Lineage.addLevel at hl
    split at hl
    · rename_i hlt
      cases hl
      exact ⟨view, parent, column, itemAt_eq_ok.1 hv, hp, hlt, rfl⟩
    · cases hl

/-- The level added last is the leaf. -/
theorem getElem?_leaf_concat (lineage : Lineage) (level : Level) :
    (lineage ++ [level])[Lineage.leaf (lineage ++ [level])]? = some level := by
  simp [Lineage.leaf]

/-- What every level keeps that is unrolled, all of them keep. -/
theorem unrollLevels_each {I : Unrolled → Prop} {path : List Nat} {state final : Unrolled}
    (h : I state)
    (hstep : ∀ (state : Unrolled) (id parent column : Nat) (view : View), id ∈ path → I state →
      c.catalog.views[id]? = some view → view.place = .child parent column →
      I ⟨.unnest state.rel (state.offset + column) false view.levelFields,
        state.lineage ++ [⟨id, some (Lineage.leaf state.lineage), .inner, state.rel.width,
          view.levelFields.length, view.ownKeys⟩], state.rel.width⟩)
    (hfold : path.foldlM (fun state next => liftM (c.unrollLevel state next)) state
      = (.ok final : Planning Unrolled)) : I final := by
  refine foldlM_keeps h (fun state id hid next hstate hnext => ?_) hfold
  obtain ⟨view, parent, column, hview, hplace, -, rfl⟩ := unrollLevel_eq_ok (lift_eq_ok.1 hnext)
  exact hstep state id parent column view hid hstate hview hplace

/-- What one more level keeps, all levels on the way down to a view keep. -/
theorem unrollLevels_keep {I : Rel → Lineage → Prop}
    (hstep : ∀ {rel : Rel} {l : Lineage} {p id column : Nat} {above : Level} {view : View}, I rel l →
      l[p]? = some above → c.catalog.views[id]? = some view → view.place = .child above.view column →
      I (.unnest rel (above.offset + column) false view.levelFields)
        (l ++ [⟨id, some p, .inner, rel.width, view.levelFields.length, view.ownKeys⟩]))
    {top last : Nat} {rest : List Nat} (hd : c.catalog.Descends top rest last)
    {state final : Unrolled}
    (hleaf : ∃ level, state.lineage[Lineage.leaf state.lineage]? = some level ∧ level.view = top ∧
      level.offset = state.offset)
    (h : I state.rel state.lineage)
    (hfold : rest.foldlM (fun state next => liftM (c.unrollLevel state next)) state
      = (.ok final : Planning Unrolled)) : I final.rel final.lineage := by
  induction hd generalizing state with
  | stop id =>
    cases hfold
    exact h
  | @down top next last column rest view hv hp _ ih =>
    rw [List.foldlM_cons] at hfold
    obtain ⟨mid, hmid, hfold⟩ := bind_eq_ok.1 hfold
    obtain ⟨view', parent, column', hv', hp', hlt, rfl⟩ := unrollLevel_eq_ok (lift_eq_ok.1 hmid)
    obtain rfl : view = view' := Option.some.inj (hv.symm.trans hv')
    obtain ⟨rfl, rfl⟩ : top = parent ∧ column = column' := by
      rw [hp] at hp'
      cases hp'
      exact ⟨rfl, rfl⟩
    -- the next view is nested in the last level so far
    obtain ⟨level, hlevel, rfl, hoffset⟩ := hleaf
    refine ih ⟨_, getElem?_leaf_concat _ _, rfl, rfl⟩ ?_ hfold
    rw [← hoffset]
    exact hstep h hlevel hv hp

/-- The plan below the levels that are unrolled is the scan, with its ranking
applied if there are any. -/
theorem belowLevels_eq_ok {start : Plan} {path : List Nat} (h : belowLevels start path = .ok out) :
    out = start ∨ ∃ needs base, Plan.withoutTopN { start with needs } = .ok base ∧
      out = { base with sort := [] } := by
  unfold belowLevels at h
  split at h
  · cases h
    exact .inl rfl
  · obtain ⟨needs, -, h⟩ := bind_eq_ok.1 h
    obtain ⟨base, hbase, h⟩ := bind_eq_ok.1 h
    cases h
    exact .inr ⟨needs, base, hbase, rfl⟩

/-- **The plan of an unrolled view** unrolls the levels on the way down to it. -/
theorem unrolledPlan_eq_ok {id baseId rootId : Nat} {rest : List Nat} {root : View}
    (hpath : c.catalog.ancestry id = .ok (rootId :: rest))
    (hroot : c.catalog.views[rootId]? = some root)
    (h : c.unrolledPlan id baseId table = .ok out) :
    ∃ key needs start unrolled,
      belowLevels (withPending (.bare (.scan (.base baseId) table.name table.fields) table.kind key
        needs) (c.openConstraints table)) (rootId :: rest) = .ok start ∧
      rest.foldlM (fun state next => liftM (c.unrollLevel state next))
        ⟨start.rel, Lineage.root rootId 0 table.fields.length root.ownKeys, 0⟩
          = (.ok unrolled : Planning Unrolled) ∧
      out.rel = unrolled.rel ∧ out.lineage = some unrolled.lineage ∧ out.time = timeOf table ∧
      out.nowFilter = start.nowFilter ∧ out.topN = start.topN := by
  unfold unrolledPlan at h
  obtain ⟨needs, -, h⟩ := bind_eq_ok.1 h
  rw [hpath, lift_ok, ok_bind, show itemAt (rootId :: rest) 0 = .ok rootId from rfl, lift_ok, ok_bind,
    show c.catalog.view rootId = .ok root from itemAt_eq_ok.2 hroot, lift_ok, ok_bind] at h
  obtain ⟨scan, hscan, h⟩ := bind_eq_ok.1 h
  obtain ⟨key, -, rfl⟩ := Plan.ofRel_eq_ok.1 (lift_eq_ok.1 hscan)
  obtain ⟨start, hstart, h⟩ := bind_eq_ok.1 h
  obtain ⟨unrolled, hunrolled, h⟩ := bind_eq_ok.1 h
  obtain ⟨view, -, h⟩ := bind_eq_ok.1 h
  obtain ⟨plan, hplan, h⟩ := bind_eq_ok.1 h
  obtain ⟨select, -, h⟩ := bind_eq_ok.1 h
  cases h
  obtain ⟨m, -, rfl⟩ := Plan.ofRel_eq_ok.1 (lift_eq_ok.1 hplan)
  exact ⟨key, needs, start, unrolled, hstart, hunrolled, rfl, rfl, rfl, rfl, rfl⟩

/-- The plan of a scan over a table. -/
inductive ScansAs (c : Converter) : RelationId → BaseTable → Plan → Prop
  /-- A base table is scanned as it is. -/
  | base {id : Nat} {table : BaseTable} {needs : Requirements} {key : ColumnMap} :
      c.catalog.bases[id]? = some table → c.scanNeeds table = .ok needs →
      ColumnMap.of (List.range table.keys) table.fields.length = .ok key →
      c.ScansAs (.base id) table
        { withPending (.bare (.scan (.base id) table.name table.fields) table.kind key needs)
            (c.openConstraints table) with
          time := timeOf table, rootKeys := some table.keys }
  /-- A root view that is scanned as such shows the columns that are not nested. -/
  | root {id baseId : Nat} {view : View} {table : BaseTable} {needs : Requirements} {key : ColumnMap}
      {rootKeys : Nat} :
      c.stage.supports .denormalize = false → c.catalog.views[id]? = some view →
      c.catalog.baseOf id = .ok baseId → c.catalog.bases[baseId]? = some table →
      view.isRoot = true → c.scanNeeds table = .ok needs →
      ColumnMap.of (List.range view.keys) view.fields.length = .ok key →
      c.ScansAs (.view id) table
        { withPending (.bare (.scan (.view id) view.name view.fields) table.kind key needs)
            ((c.openConstraints table).remap view.ownPosition?) with
          time := (timeOf table).remap view.ownPosition?, rootKeys := some rootKeys }
  /-- A nested view that is scanned as such is one of a table without open constraints. -/
  | nested {id baseId : Nat} {view : View} {table : BaseTable} {needs : Requirements}
      {key : ColumnMap} {rootKeys : Nat} :
      c.stage.supports .denormalize = false → c.catalog.views[id]? = some view →
      c.catalog.baseOf id = .ok baseId → c.catalog.bases[baseId]? = some table →
      view.isRoot = false → (c.openConstraints table).nowFilter = none →
      (c.openConstraints table).topN.isEmpty = true → c.scanNeeds table = .ok needs →
      ColumnMap.of (List.range view.keys) view.fields.length = .ok key →
      c.ScansAs (.view id) table
        { Plan.bare (.scan (.view id) view.name view.fields) table.kind key needs with
          rootKeys := some rootKeys }
  /-- Any other view is unrolled from its base table. -/
  | unrolled {id baseId rootId : Nat} {path : List Nat} {view root : View} {table : BaseTable}
      {needs : Requirements} {empty key select : ColumnMap} {start : Plan} {unrolled : Unrolled} :
      c.stage.supports .denormalize = true → c.catalog.views[id]? = some view →
      c.catalog.baseOf id = .ok baseId → c.catalog.bases[baseId]? = some table →
      c.catalog.ancestry id = .ok path → path[0]? = some rootId →
      c.catalog.views[rootId]? = some root → c.scanNeeds table = .ok needs →
      belowLevels (withPending (.bare (.scan (.base baseId) table.name table.fields) table.kind empty
        needs) (c.openConstraints table)) path = .ok start →
      path.tail.foldlM (fun state next => liftM (c.unrollLevel state next))
        ⟨start.rel, Lineage.root rootId 0 table.fields.length root.ownKeys, 0⟩
          = (.ok unrolled : Planning Unrolled) →
      ColumnMap.of unrolled.lineage.keys unrolled.rel.width = .ok key →
      ColumnMap.of (Lineage.keys unrolled.lineage.dropLast
        ++ view.ownColumns.map (unrolled.offset + ·)) unrolled.rel.width = .ok select →
      c.ScansAs (.view id) table { Plan.bare unrolled.rel table.kind key start.needs with
        select, time := timeOf table, nowFilter := start.nowFilter, topN := start.topN
        sort := start.sort, rootKeys := some root.ownKeys, lineage := some unrolled.lineage }

/-- **The plan of a scan** has these parts. -/
theorem scanPlan_cases {relation : RelationId} (h : c.scanPlan relation = .ok out) :
    ∃ table, c.ScansAs relation table out := by
  have hwidth : ∀ relation name fields, (Rel.scan relation name fields).width = fields.length :=
    fun _ _ _ => by rw [Rel.width]
  cases relation with
  | base id =>
    change c.basePlan id = .ok out at h
    unfold basePlan at h
    obtain ⟨table, ht, h⟩ := bind_eq_ok.1 h
    obtain ⟨needs, hneeds, h⟩ := bind_eq_ok.1 h
    obtain ⟨plan, hplan, h⟩ := bind_eq_ok.1 h
    cases h
    obtain ⟨key, hkey, rfl⟩ := Plan.ofRel_eq_ok.1 (lift_eq_ok.1 hplan)
    rw [hwidth] at hkey
    exact ⟨table, .base (itemAt_eq_ok.1 (lift_eq_ok.1 ht)) hneeds hkey⟩
  | view id =>
    obtain ⟨view, hview, h⟩ := bind_eq_ok.1 h
    obtain ⟨baseId, hbase, h⟩ := bind_eq_ok.1 h
    obtain ⟨table, ht, h⟩ := bind_eq_ok.1 h
    have hview := itemAt_eq_ok.1 (lift_eq_ok.1 hview)
    have hbase := lift_eq_ok.1 hbase
    have ht := itemAt_eq_ok.1 (lift_eq_ok.1 ht)
    refine ⟨table, ?_⟩
    -- a stage that can unroll does, any other scans the view as such
    split at h
    · rename_i hdenormalize
      unfold unrolledPlan at h
      obtain ⟨needs, hneeds, h⟩ := bind_eq_ok.1 h
      obtain ⟨path, hpath, h⟩ := bind_eq_ok.1 h
      obtain ⟨rootId, hrootId, h⟩ := bind_eq_ok.1 h
      obtain ⟨root, hroot, h⟩ := bind_eq_ok.1 h
      obtain ⟨scan, hscan, h⟩ := bind_eq_ok.1 h
      obtain ⟨empty, -, rfl⟩ := Plan.ofRel_eq_ok.1 (lift_eq_ok.1 hscan)
      obtain ⟨start, hstart, h⟩ := bind_eq_ok.1 h
      obtain ⟨unrolled, hunrolled, h⟩ := bind_eq_ok.1 h
      obtain ⟨view', hview', h⟩ := bind_eq_ok.1 h
      obtain rfl : view = view' :=
        Option.some.inj (hview.symm.trans (itemAt_eq_ok.1 (lift_eq_ok.1 hview')))
      obtain ⟨plan, hplan, h⟩ := bind_eq_ok.1 h
      obtain ⟨key, hkey, rfl⟩ := Plan.ofRel_eq_ok.1 (lift_eq_ok.1 hplan)
      obtain ⟨select, hselect, h⟩ := bind_eq_ok.1 h
      cases h
      exact .unrolled hdenormalize hview hbase ht (lift_eq_ok.1 hpath)
        (itemAt_eq_ok.1 (lift_eq_ok.1 hrootId)) (itemAt_eq_ok.1 (lift_eq_ok.1 hroot)) hneeds hstart
        hunrolled hkey (lift_eq_ok.1 hselect)
    · rename_i hdenormalize
      rw [Bool.not_eq_true] at hdenormalize
      unfold viewPlan at h
      obtain ⟨needs, hneeds, h⟩ := bind_eq_ok.1 h
      obtain ⟨plan, hplan, h⟩ := bind_eq_ok.1 h
      obtain ⟨rootId, -, h⟩ := bind_eq_ok.1 h
      obtain ⟨root, -, h⟩ := bind_eq_ok.1 h
      obtain ⟨key, hkey, rfl⟩ := Plan.ofRel_eq_ok.1 (lift_eq_ok.1 hplan)
      rw [hwidth] at hkey
      simp only at h
      split at h
      · rename_i hr
        cases h
        exact .root hdenormalize hview hbase ht hr hneeds hkey
      · rename_i hr
        split at h
        · cases h
        · rename_i hpending
          cases h
          rw [Bool.not_eq_true, Bool.or_eq_false_iff, Bool.not_eq_false', Option.isSome_eq_false_iff,
            Option.isNone_iff_eq_none] at hpending
          exact .nested hdenormalize hview hbase ht (Bool.not_eq_true _ ▸ hr) hpending.1 hpending.2
            hneeds hkey

/-- The base table of a relation is the one that its scan is over. -/
theorem ScansAs.tableOf {relation : RelationId} (h : c.ScansAs relation table out) :
    c.catalog.tableOf relation = .ok table := by
  cases h with
  | base ht => exact itemAt_eq_ok.2 ht
  | root _ _ hbase ht | nested _ _ hbase ht | unrolled _ _ hbase ht =>
    rw [Catalog.tableOf, hbase]
    exact itemAt_eq_ok.2 ht

end Converter

end StreamPlan
