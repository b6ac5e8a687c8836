import StreamPlan.Proofs.Catalog.Sane
import StreamPlan.Proofs.Plan.Scan
import StreamPlan.Proofs.Safety.WellFormed

/-!
# Scans do not fault

Over a linked catalog whose keys and times are plain columns, the plan of a
scan is well formed and shows the columns of the relation
(`Converter.scanPlan_safe`).

* `Pending.InRange`: open constraints that are about columns of a row.
* `Unrolled.Reaches`: what holds of an entity unrolled down to a view.
-/

namespace StreamPlan

/-- Open constraints that are about columns of a row of some width. -/
structure Pending.InRange (pending : Pending) (width : Nat) : Prop where
  topN : ∀ i ∈ pending.topN.columns, i < width
  sort : ∀ i ∈ SortOrder.columns pending.sort, i < width

/-- Constraints that follow their columns are stale only if they were. -/
theorem Pending.stale_of_remap {pending : Pending} {f : Nat → Option Nat}
    (h : (pending.remap f).topN.Stale) : pending.topN.Stale := by
  unfold Pending.remap at h
  simp only at h
  split at h
  · obtain ⟨he, ho⟩ := h
    refine ⟨?_, fun hn => ho ?_⟩
    · simpa [TopN.isEmpty] using he
    · simp [hn, SortOrder.moved]
  · exact absurd rfl h.2

/-- Constraints that follow their columns stay about columns of the row. -/
theorem Pending.remap_inRange (pending : Pending) {f : Nat → Option Nat} {width : Nat}
    (hf : ∀ i j, f i = some j → j < width) : (pending.remap f).InRange width := by
  have hmoved : ∀ columns : List Nat, (columns.all fun c => (f c).isSome) = true →
      ∀ i ∈ columns.map fun c => (f c).getD c, i < width := by
    intro columns hall i hi
    obtain ⟨c, hc, rfl⟩ := List.mem_map.1 hi
    obtain ⟨j, hj⟩ := Option.isSome_iff_exists.1 (List.all_eq_true.1 hall c hc)
    rw [hj]
    exact hf c j hj
  constructor
  · unfold Pending.remap
    simp only
    split
    · rename_i hall
      intro i hi
      refine hmoved _ hall i ?_
      rw [TopN.columns, List.map_append]
      rwa [TopN.columns, SortOrder.columns_moved] at hi
    · intro i hi; cases hi
  · unfold Pending.remap
    simp only
    split
    · rename_i hall
      rw [SortOrder.columns_moved]
      exact hmoved _ hall
    · intro i hi; cases hi

namespace Converter

variable {c : Converter} {allowed : Fault → Prop} {n : Nat} {table : BaseTable}

theorem scanNeeds_safe (c : Converter) (table : BaseTable) :
    Safe allowed (c.scanNeeds table) fun _ => True := by
  unfold scanNeeds
  split
  · exact .ok trivial
  · split
    · exact .ok trivial
    · split
      · exact .ok trivial
      · exact .refuse

theorem openConstraints_inRange (c : Converter) (h : table.Sane) :
    (c.openConstraints table).InRange table.fields.length := by
  constructor
  · unfold openConstraints
    simp only
    split
    · intro i hi; cases hi
    · exact h.topN
  · exact h.sort

/-- A stale ranking that is taken up was pulled up to the table. -/
theorem openConstraints_stale (hm : table ∈ c.catalog.bases)
    (h : (c.openConstraints table).topN.Stale) : c.catalog.HasStale := by
  unfold openConstraints at h
  simp only at h
  split at h
  · exact absurd rfl h.2
  · exact ⟨table, hm, h⟩

/-- A now-filter that is taken up is on a timestamp of the table. -/
theorem openConstraints_nowFilter (c : Converter) (h : table.Sane) {f : NowFilter}
    (hf : (c.openConstraints table).nowFilter = some f) :
    table.kind ≠ .state ∧ f.timestamp ∈ (timeOf table).columns ∧
      f.interval.natAbs ≤ table.pendingSpan := by
  unfold openConstraints at hf
  simp only at hf
  split at hf
  · cases hf
  · rename_i hk
    refine ⟨hk, ?_, ?_⟩
    · rw [timeOf, if_neg hk]; exact h.nowFilter f hf
    · simp [BaseTable.pendingSpan, hf]

/-- A now-filter that is taken up over columns that moved is on a timestamp that moved. -/
theorem openConstraints_moved_nowFilter (c : Converter) (h : table.Sane)
    {position : Nat → Option Nat} {f : NowFilter}
    (hf : ((c.openConstraints table).remap position).nowFilter = some f) :
    f.timestamp ∈ ((timeOf table).remap position).columns ∧
      f.interval.natAbs ≤ table.pendingSpan := by
  obtain ⟨g, hg, hf⟩ := Option.bind_eq_some_iff.1 hf
  obtain ⟨p, hp, rfl⟩ := Option.map_eq_some_iff.1 hf
  obtain ⟨-, hts, hi⟩ := openConstraints_nowFilter c h hg
  refine ⟨?_, hi⟩
  rw [EventTime.columns_remap, List.mem_filterMap]
  exact ⟨g.timestamp, hts, hp⟩

theorem timeOf_lt (h : table.Sane) {i : Nat} (hi : i ∈ (timeOf table).columns) :
    i < table.fields.length := by
  obtain ⟨field, hf, -⟩ := h.time i (mem_timeOf hi).2
  exact (List.getElem?_eq_some_iff.1 hf).1

/-- **The plan of a base table** shows all its columns. -/
theorem basePlan_safe {id : Nat} (hl : c.catalog.Linked) (hs : c.catalog.Sane)
    (hb : c.catalog.bases[id]? = some table) :
    Safe allowed (c.basePlan id) fun out =>
      out.WellFormed c.catalog table.pendingSpan ∧ out.select.sources = table.fields.length := by
  have hmem := List.mem_of_getElem? hb
  have hsane := hs.base table hmem
  have hkeys := (hl.base table hmem).keys_le
  unfold basePlan
  rw [show c.catalog.base id = .ok table from itemAt_eq_ok.2 hb, lift_ok]
  refine (scanNeeds_safe c table).bind fun needs _ => ?_
  have hkey : ∀ i ∈ List.range table.keys,
      i < (Rel.scan (.base id) table.name table.fields).width := by
    intro i hi
    rw [Rel.width]
    exact Nat.lt_of_lt_of_le (List.mem_range.1 hi) hkeys
  refine (Safe.lift (Plan.ofRel_gives hkey).bounded).bind fun plan ⟨m, hts, hw, hplan⟩ => ?_
  subst hplan
  have hwidth : (Rel.scan (.base id) table.name table.fields).width = table.fields.length := by
    rw [Rel.width]
  refine .ok ⟨⟨⟨hw, rfl, ?_, ?_, ?_, ?_, ?_, ?_⟩, ⟨_, by rw [withPending, Plan.bare, Rel.fields]⟩, ?_,
    ?_, ?_, openConstraints_stale hmem⟩, ?_⟩
  · intro hk
    exact List.eq_nil_iff_forall_not_mem.2 fun i hi => (mem_timeOf hi).1 hk
  · intro hk
    exact if_pos hk
  · intro i hi
    exact Nat.lt_of_lt_of_eq (timeOf_lt hsane hi) hwidth.symm
  · intro f hf
    exact (openConstraints_nowFilter c hsane hf).2.1
  · intro i hi
    exact Nat.lt_of_lt_of_eq ((openConstraints_inRange c hsane).sort i hi) hwidth.symm
  · intro i hi
    exact Nat.lt_of_lt_of_eq ((openConstraints_inRange c hsane).topN i hi) hwidth.symm
  · rintro - k ⟨⟩
    simp [withPending, Plan.bare, ColumnMap.sources, hts]
  · rintro l ⟨⟩
  · intro f hf
    exact (openConstraints_nowFilter c hsane hf).2.2
  · simp [withPending, Plan.bare, ColumnMap.sources, ColumnMap.identity, hwidth]

/-- What a view of an entity shows, and the base table below it. -/
structure OfEntity (c : Converter) (id : Nat) (view : View) (table : BaseTable) (rootId : Nat)
    (root : View) (rest : List Nat) : Prop where
  viewAt : c.catalog.views[id]? = some view
  tableMem : table ∈ c.catalog.bases
  ancestry : c.catalog.ancestry id = .ok (rootId :: rest)
  rootAt : c.catalog.views[rootId]? = some root
  isRoot : Catalog.IsRootOf root table
  descends : c.catalog.Descends rootId rest id

/-- A root view is the root of its entity. -/
theorem OfEntity.eq_root {id rootId : Nat} {view root : View} {rest : List Nat}
    (h : c.OfEntity id view table rootId root rest) (hr : view.isRoot = true) :
    rootId = id ∧ root = view ∧ rest = [] := by
  unfold View.isRoot at hr
  split at hr
  · rename_i b hp
    obtain ⟨rfl, rfl⟩ := h.descends.eq_nil h.viewAt hp
    exact ⟨rfl, Option.some.inj (h.rootAt.symm.trans h.viewAt), rfl⟩
  · cases hr

/-- The key of a view starts with the key of its root. -/
theorem OfEntity.rootKeys_le {id rootId : Nat} {view root : View} {rest : List Nat}
    (h : c.OfEntity id view table rootId root rest) (hl : c.catalog.Linked) :
    root.ownKeys ≤ view.keys := by
  have := h.descends.keys_le hl h.rootAt h.viewAt
  rw [View.keys, h.isRoot.ancestorKeys] at this
  omega

/-- The scan of a root view, with the constraints of the table moved to its columns. -/
theorem rootView_wellFormed {id : Nat} {view : View} {needs : Requirements} {key : ColumnMap}
    (hl : c.catalog.IsLinked id view) (hs : table.Sane) (hm : table ∈ c.catalog.bases)
    (hts : key.targets = List.range view.keys)
    (hw : key.width = (Rel.scan (.view id) view.name view.fields).width) :
    Plan.WellFormed c.catalog table.pendingSpan
      { withPending (Plan.bare (.scan (.view id) view.name view.fields) table.kind key needs)
          ((c.openConstraints table).remap view.ownPosition?) with
        time := (timeOf table).remap view.ownPosition?
        rootKeys := some view.ownKeys } := by
  have hwidth : (Rel.scan (.view id) view.name view.fields).width = view.fields.length := by
    rw [Rel.width]
  have hpos : ∀ i p, view.ownPosition? i = some p → p < view.fields.length := by
    intro i p hp
    rw [hl.length_fields]
    exact Nat.lt_of_lt_of_le (hl.ownPosition?_lt hp) (Nat.le_add_left _ _)
  have hrange := (c.openConstraints table).remap_inRange hpos
  refine ⟨⟨hw, rfl, ?_, ?_, ?_, ?_, ?_, ?_⟩, ⟨_, by rw [withPending, Plan.bare, Rel.fields]⟩,
    ?_, ?_, ?_, fun hst => openConstraints_stale hm (Pending.stale_of_remap hst)⟩
  · intro hk
    change ((timeOf table).remap _).columns = []
    rw [timeOf, if_pos (show table.kind = .state from hk)]
    rfl
  · intro hk
    change ((c.openConstraints table).nowFilter.bind _) = none
    rw [show (c.openConstraints table).nowFilter = none from if_pos (show table.kind = .state from hk)]
    rfl
  · intro i hi
    change i ∈ ((timeOf table).remap _).columns at hi
    rw [EventTime.columns_remap, List.mem_filterMap] at hi
    obtain ⟨j, -, hj⟩ := hi
    exact Nat.lt_of_lt_of_eq (hpos j i hj) hwidth.symm
  · exact fun f hf => (openConstraints_moved_nowFilter c hs hf).1
  · intro i hi
    exact Nat.lt_of_lt_of_eq (hrange.sort i hi) hwidth.symm
  · intro i hi
    exact Nat.lt_of_lt_of_eq (hrange.topN i hi) hwidth.symm
  · rintro - k ⟨⟩
    change _ ≤ key.sources
    rw [ColumnMap.sources, hts, List.length_range, View.keys]
    exact Nat.le_add_left _ _
  · rintro l ⟨⟩
  · exact fun f hf => (openConstraints_moved_nowFilter c hs hf).2

/-- The scan of a nested view takes up no constraints. -/
theorem nestedView_wellFormed {id : Nat} {view : View} {needs : Requirements} {key : ColumnMap}
    {rootKeys : Nat} (hts : key.targets = List.range view.keys)
    (hw : key.width = (Rel.scan (.view id) view.name view.fields).width) (hr : rootKeys ≤ view.keys) :
    Plan.WellFormed c.catalog n
      { Plan.bare (.scan (.view id) view.name view.fields) table.kind key needs with
        rootKeys := some rootKeys } := by
  refine ⟨⟨hw, rfl, fun _ => rfl, fun _ => rfl, ?_, ?_, ?_, ?_⟩,
    ⟨_, by rw [Plan.bare, Rel.fields]⟩, ?_, ?_, ?_, fun hst => absurd rfl hst.2⟩
  · intro i hi; cases hi
  · rintro f ⟨⟩
  · intro i hi; cases hi
  · intro i hi; cases hi
  · rintro - k ⟨⟩
    change _ ≤ key.sources
    rwa [ColumnMap.sources, hts, List.length_range]
  · rintro l ⟨⟩
  · rintro f ⟨⟩

/-- **The plan of a view** that is scanned as such shows all its columns. -/
theorem viewPlan_safe {id rootId : Nat} {view root : View} {rest : List Nat}
    (h : c.OfEntity id view table rootId root rest) (hl : c.catalog.Linked)
    (hs : c.catalog.Sane) :
    Safe allowed (c.viewPlan id view table) fun out =>
      out.WellFormed c.catalog table.pendingSpan ∧ out.select.sources = view.fields.length := by
  have hlink := hl.view id view h.viewAt
  have hkeys := Catalog.keys_le_fields hl hs h.viewAt
  have hwidth : (Rel.scan (.view id) view.name view.fields).width = view.fields.length := by
    rw [Rel.width]
  unfold viewPlan
  refine (scanNeeds_safe c table).bind fun needs _ => ?_
  have hkey : ∀ i ∈ List.range view.keys, i < (Rel.scan (.view id) view.name view.fields).width := by
    intro i hi
    rw [hwidth]
    exact Nat.lt_of_lt_of_le (List.mem_range.1 hi) hkeys
  refine (Safe.lift (Plan.ofRel_gives hkey).bounded).bind fun plan ⟨m, hts, hw, hplan⟩ => ?_
  subst hplan
  have hrootOf : c.catalog.rootOf id = .ok rootId := by
    rw [Catalog.rootOf, h.ancestry]; rfl
  rw [hrootOf, lift_ok, ok_bind,
    show c.catalog.view rootId = .ok root from itemAt_eq_ok.2 h.rootAt, lift_ok, ok_bind]
  change Safe allowed (if view.isRoot = true then _ else _) _
  have hsel : (ColumnMap.identity (Rel.scan (.view id) view.name view.fields).width).sources
      = view.fields.length := by
    simp [ColumnMap.sources, ColumnMap.identity, hwidth]
  split
  · rename_i hr
    obtain ⟨-, rfl, -⟩ := h.eq_root hr
    exact .ok ⟨rootView_wellFormed hlink (hs.base table h.tableMem) h.tableMem hts hw, hsel⟩
  · split
    · exact .refuse
    · exact .ok ⟨nestedView_wellFormed hts hw (h.rootKeys_le hl), hsel⟩

/-- What holds of an entity that is unrolled down to the level of a view. -/
structure Unrolled.Reaches (state : Unrolled) (catalog : Catalog) (table : BaseTable)
    (view : View) : Prop where
  fields : ∃ fs, state.rel.fields = .ok fs
  levels : ∀ level ∈ state.lineage, level.FitsIn catalog state.rel.width
  nonempty : state.lineage ≠ []
  stop : state.offset + view.levelFields.length = state.rel.width
  base_le : table.fields.length ≤ state.rel.width
  keys : (Lineage.keys state.lineage).length = view.keys
  above : (Lineage.keys state.lineage.dropLast).length = view.ancestorKeys

/-- The columns of the keys are in the row. -/
theorem Unrolled.Reaches.keys_lt {state : Unrolled} {view : View}
    (h : state.Reaches c.catalog table view) :
    ∀ i ∈ Lineage.keys state.lineage, i < state.rel.width := by
  intro i hi
  obtain ⟨level, hmem, hi⟩ := List.mem_flatMap.1 hi
  have hfit := h.levels level hmem
  have hstop := hfit.stop_le
  have hle := hfit.keys_le
  have := (List.mem_range'_1.1 hi).2
  rw [Level.stop] at hstop
  omega

/-- The columns that the last view shows are in the row: the keys of the levels above
it, then its own. -/
theorem Unrolled.Reaches.visible_lt {state : Unrolled} {view : View} {id : Nat}
    (h : state.Reaches c.catalog table view) (hl : c.catalog.IsLinked id view) :
    ∀ i ∈ Lineage.keys state.lineage.dropLast ++ view.ownColumns.map (state.offset + ·),
      i < state.rel.width := by
  intro i hi
  rcases List.mem_append.1 hi with hi | hi
  · obtain ⟨level, hmem, hi⟩ := List.mem_flatMap.1 hi
    exact h.keys_lt i (List.mem_flatMap.2 ⟨level, List.dropLast_subset _ hmem, hi⟩)
  · obtain ⟨j, hj, rfl⟩ := List.mem_map.1 hi
    rw [hl.ownColumns] at hj
    have := flatColumns_lt hj
    have := h.stop
    omega

/-- The scan of the table alone reaches the root of its entity. -/
theorem reaches_root {id rootId : Nat} {view root : View} {rest : List Nat} {rel : Rel}
    (h : c.OfEntity id view table rootId root rest) (hl : c.catalog.Linked)
    (hf : rel.fields = .ok table.fields) (hw : rel.width = table.fields.length) :
    (⟨rel, Lineage.root rootId 0 table.fields.length root.ownKeys, 0⟩ : Unrolled).Reaches
      c.catalog table root := by
  refine ⟨⟨_, hf⟩, ?_, by simp [Lineage.root], ?_, ?_, ?_, ?_⟩
  · intro level hmem
    rw [List.mem_singleton.1 hmem]
    refine ⟨⟨root, h.rootAt, by rw [h.isRoot.level], rfl⟩, ?_, ?_⟩
    · have := (hl.view rootId root h.rootAt).ownKeys_le
      rwa [h.isRoot.level] at this
    · simp [Level.stop, hw]
  · simp [hw, h.isRoot.level]
  · simp [hw]
  · simp [Lineage.root, Lineage.keys, Level.ownKey, View.keys, h.isRoot.ancestorKeys]
  · simp [Lineage.root, Lineage.keys, h.isRoot.ancestorKeys]

theorem unrollLevel_gives {state : Unrolled} {above view : View} {id top column : Nat}
    (h : state.Reaches c.catalog table above) (hl : c.catalog.Linked)
    (ha : c.catalog.views[top]? = some above) (hv : c.catalog.views[id]? = some view)
    (hp : view.place = .child top column) :
    Gives (c.unrollLevel state id) fun out => out.Reaches c.catalog table view := by
  have hlink := hl.view id view hv
  obtain ⟨-, above', ha', hc⟩ := hlink.child top column hp
  obtain rfl : above = above' := Option.some.inj (ha.symm.trans ha')
  obtain ⟨fs, hfs⟩ := h.fields
  unfold unrollLevel
  rw [show c.catalog.view id = .ok view from itemAt_eq_ok.2 hv]
  simp only [bind, Except.bind, hp]
  have hleaf : Lineage.leaf state.lineage < state.lineage.length := by
    have := List.length_pos_iff.2 h.nonempty
    rw [Lineage.leaf]
    omega
  rw [Lineage.addLevel, if_pos hleaf]
  refine .ok ⟨⟨_, by rw [Rel.fields, hfs]; rfl⟩, ?_, by simp, ?_, ?_, ?_, ?_⟩
  · intro level hmem
    rcases List.mem_append.1 hmem with hmem | hmem
    · refine (h.levels level hmem).mono ?_
      rw [Rel.width]
      exact Nat.le_add_right _ _
    · rw [List.mem_singleton.1 hmem]
      refine ⟨⟨view, hv, rfl, rfl⟩, hlink.ownKeys_le, ?_⟩
      exact Nat.le_of_eq (by rw [Level.stop, Rel.width])
  · rw [Rel.width]
  · rw [Rel.width]
    exact Nat.le_trans h.base_le (Nat.le_add_right _ _)
  · have hk := h.keys
    rw [Lineage.keys] at hk ⊢
    rw [List.flatMap_append, List.length_append, hk, View.keys, View.keys, hc.ancestorKeys, View.keys]
    simp [Level.ownKey]
  · simp only [List.dropLast_concat]
    rw [h.keys, hc.ancestorKeys]

/-- Unrolling level after level reaches the last view. -/
theorem unrollLevels_safe (hl : c.catalog.Linked) {top last : Nat} {rest : List Nat}
    (hd : c.catalog.Descends top rest last) {state : Unrolled} {above below : View}
    (ha : c.catalog.views[top]? = some above) (hb : c.catalog.views[last]? = some below)
    (h : state.Reaches c.catalog table above) :
    Safe allowed (rest.foldlM (fun state id => liftM (c.unrollLevel state id)) state : Planning Unrolled)
      fun out => out.Reaches c.catalog table below := by
  induction hd generalizing state above with
  | stop id =>
    obtain rfl : above = below := Option.some.inj (ha.symm.trans hb)
    exact .ok h
  | @down top next last column rest view hv hp _ ih =>
    rw [List.foldlM_cons]
    exact (Safe.lift (unrollLevel_gives h hl ha hv hp).bounded).bind fun mid hmid => ih hv hb hmid

/-- The plan below the levels that are unrolled has the constraints that stay
open, and is otherwise the scan. -/
theorem belowLevels_safe (start : Plan) (path : List Nat) :
    Safe allowed (belowLevels start path) fun out =>
      out.nowFilter = start.nowFilter ∧ out.rel.fields = start.rel.fields ∧
        out.rel.width = start.rel.width ∧ (out.topN = .none ∨ out.topN = start.topN) ∧
        ∀ i ∈ SortOrder.columns out.sort, i ∈ SortOrder.columns start.sort := by
  unfold belowLevels
  split
  · exact .ok ⟨rfl, rfl, rfl, .inr rfl, fun _ hi => hi⟩
  · refine (Plan.require_safe start.needs .denormalize).bind fun needs _ => ?_
    refine (Plan.withoutTopN_safe _).bind fun out ⟨hs, _, hn⟩ => ?_
    exact .ok ⟨hn, hs.fields, hs.width, hs.topN, fun i hi => by cases hi⟩

/-- **The plan of an unrolled view** shows the columns of the view. -/
theorem unrolledPlan_safe {id baseId rootId : Nat} {view root : View} {rest : List Nat}
    (h : c.OfEntity id view table rootId root rest) (hl : c.catalog.Linked)
    (hs : c.catalog.Sane) :
    Safe allowed (c.unrolledPlan id baseId table) fun out =>
      out.WellFormed c.catalog table.pendingSpan ∧ out.select.sources = view.fields.length := by
  have hsane := hs.base table h.tableMem
  have hlink := hl.view id view h.viewAt
  have hscan : (Rel.scan (.base baseId) table.name table.fields).width = table.fields.length := by
    rw [Rel.width]
  have hscanFields : (Rel.scan (.base baseId) table.name table.fields).fields = .ok table.fields := by
    rw [Rel.fields]
  unfold unrolledPlan
  refine (scanNeeds_safe c table).bind fun needs _ => ?_
  rw [h.ancestry, lift_ok, ok_bind, show itemAt (rootId :: rest) 0 = .ok rootId from rfl, lift_ok,
    ok_bind, show c.catalog.view rootId = .ok root from itemAt_eq_ok.2 h.rootAt, lift_ok, ok_bind]
  refine (Safe.lift (Plan.ofRel_gives (by simp)).bounded).bind fun scan hplan => ?_
  obtain ⟨m, -, -, rfl⟩ := hplan
  refine (belowLevels_safe _ _).bind fun start hbelow => ?_
  obtain ⟨hnow, hfields, hwidth, htopN, hsort⟩ := hbelow
  have hstart := reaches_root h hl (hfields.trans hscanFields) (hwidth.trans hscan)
  refine (unrollLevels_safe hl h.descends h.rootAt h.viewAt hstart).bind fun unrolled hu => ?_
  rw [show c.catalog.view id = .ok view from itemAt_eq_ok.2 h.viewAt, lift_ok, ok_bind]
  refine (Safe.lift (Plan.ofRel_gives hu.keys_lt).bounded).bind fun plan hplan => ?_
  obtain ⟨k, hkts, hkw, rfl⟩ := hplan
  refine (Safe.lift (ColumnMap.of_gives (hu.visible_lt hlink)).bounded).bind fun select hselect => ?_
  obtain ⟨hts, hsw⟩ := hselect
  have hin : ∀ i < table.fields.length, i < unrolled.rel.width :=
    fun i hi => Nat.lt_of_lt_of_le hi hu.base_le
  refine .ok ⟨⟨⟨hkw, hsw, ?_, ?_, ?_, ?_, ?_, ?_⟩, hu.fields, ?_, ?_, ?_, ?_⟩, ?_⟩
  · intro hk
    exact List.eq_nil_iff_forall_not_mem.2 fun i hi => (mem_timeOf hi).1 hk
  · intro hk
    exact hnow.trans (if_pos hk)
  · intro i hi
    exact hin i (timeOf_lt hsane hi)
  · intro f hf
    exact (openConstraints_nowFilter c hsane (hnow.symm.trans hf)).2.1
  · intro i hi
    exact hin i ((openConstraints_inRange c hsane).sort i (hsort i hi))
  · intro i hi
    change i ∈ start.topN.columns at hi
    rcases htopN with ht | ht
    · rw [ht] at hi; cases hi
    · rw [ht] at hi
      exact hin i ((openConstraints_inRange c hsane).topN i hi)
  · rintro - r ⟨⟩
    change _ ≤ k.sources
    rw [ColumnMap.sources, hkts, hu.keys]
    exact h.rootKeys_le hl
  · rintro l ⟨⟩
    exact hu.levels
  · intro f hf
    exact (openConstraints_nowFilter c hsane (hnow.symm.trans hf)).2.2
  · intro hst
    change start.topN.Stale at hst
    rcases htopN with ht | ht
    · rw [ht] at hst; exact absurd rfl hst.2
    · rw [ht] at hst
      exact openConstraints_stale h.tableMem hst
  · change select.sources = _
    rw [ColumnMap.sources, hts, List.length_append, List.length_map, hu.above, hlink.ownColumns,
      length_flatColumns, hlink.length_fields]

/-- **The plan of a scan** shows the columns of the relation. -/
theorem scanPlan_safe {relation : RelationId} {fields : Fields} (hl : c.catalog.Linked)
    (hs : c.catalog.Sane) (hf : c.catalog.fields relation = .ok fields) :
    Safe allowed (c.scanPlan relation) fun out =>
      out.WellFormed c.catalog (c.catalog.pendingSpan relation) ∧
        out.select.sources = fields.length := by
  cases relation with
  | base id =>
    obtain ⟨table, ht, rfl⟩ := map_eq_ok.1 hf
    have hb := itemAt_eq_ok.1 ht
    refine (basePlan_safe hl hs hb).mono fun out ho => ?_
    rwa [Catalog.pendingSpan, hb]
  | view id =>
    obtain ⟨view, hv, rfl⟩ := map_eq_ok.1 hf
    have hview := itemAt_eq_ok.1 hv
    obtain ⟨b, hbase, rootId, rest, root, table, hpath, hroot, -, ht, hr, hd⟩ :=
      hl.baseOf (List.getElem?_eq_some_iff.1 hview).1
    have he : c.OfEntity id view table rootId root rest :=
      ⟨hview, List.mem_of_getElem? ht, hpath, hroot, hr, hd⟩
    have hspan : c.catalog.pendingSpan (.view id) = table.pendingSpan := by
      rw [Catalog.pendingSpan, hbase]
      simp [ht]
    rw [hspan]
    simp only [scanPlan]
    rw [hv, lift_ok, ok_bind, hbase, lift_ok, ok_bind,
      show c.catalog.base b = .ok table from itemAt_eq_ok.2 ht, lift_ok, ok_bind]
    split
    · exact unrolledPlan_safe he hl hs
    · exact viewPlan_safe he hl hs

end Converter

end StreamPlan
