import StreamPlan.Proofs.Entities.Flatten
import StreamPlan.Proofs.Plan.Scan
import StreamPlan.Proofs.Schema.Join

/-!
# The row type that a plan shows

A plan shows the row type of its query. Columns are renamed, hidden, appended and
reordered on the way, and the right columns of a join of an entity with itself are
shown by left ones.

* `Converter.presents_scan`: a scan shows the fields that its relation was registered
  with, and its levels look like their views.
* `Converter.follows_presents`: every operator passes that on.
* `Converter.visible_fields_of_query`: **the visible fields of a plan** have the types of
  the query's fields, and their names unless an entity is joined with itself under
  other names.
-/

namespace StreamPlan.Converter

variable {c : Converter} {q : Rel} {plan out : Plan} {table : BaseTable}

/-- A plan that scans a relation as it is shows all its fields. -/
theorem presents_of_scan {relation : RelationId} {name scanned : String} {fs : Fields}
    (hrel : out.rel = .scan relation scanned fs) (hselect : out.select = .identity fs.length)
    (hlineage : out.lineage = none) : c.Presents (.scan relation name fs) fs fs out where
  query := by rw [Rel.fields]
  tree := by rw [hrel, Rel.fields]
  visible := by
    rw [hselect]
    exact Fields.show_of_picks _ (picks_all fs)
  levels l hl := by
    rw [hlineage] at hl
    cases hl

/-- The tree below the levels has the row type of the table. -/
theorem fields_of_belowLevels {start : Plan} {path : List Nat} (h : belowLevels start path = .ok out) :
    out.rel.fields = start.rel.fields := by
  rcases belowLevels_eq_ok h with rfl | ⟨needs, base, hbase, rfl⟩
  · rfl
  · exact (Plan.withoutTopN_settled hbase).1.fields

/-- **An unrolled view** shows the fields that it was registered with, whatever was pulled
up to its table, and its levels look like their views. -/
theorem presents_unrolled {id b rootId : Nat} {view root : View} {rest : List Nat} {name : String}
    (hl : c.catalog.Linked) (hk : ∀ view ∈ c.catalog.views, PlainKeys view.levelFields view.ownKeys)
    (he : c.OfEntity id view table rootId root rest) (ho : c.unrolledPlan id b table = .ok out) :
    ∃ gs, c.Presents (.scan (.view id) name view.fields) view.fields gs out := by
  obtain ⟨needs, empty, start, unrolled, key, select, -, -, hstart, hfold, -, hselect, rfl⟩ :=
    (unrolledPlan_eq_ok_iff he.ancestry he.rootAt he.viewAt).1 ho
  have hfields : start.rel.fields = .ok table.fields := (fields_of_belowLevels hstart).trans (by
    change (Rel.scan _ _ table.fields).fields = _
    rw [Rel.fields])
  -- a ranking that is applied first does not change the row type of the table
  have hfirst : Unrolled.Stands
      ⟨start.rel, Lineage.root rootId 0 table.fields.length root.ownKeys, 0⟩ root
      ⟨[], [], table.fields⟩ := by
    have hroot := stands_root rootId b he.isRoot
    exact ⟨hroot.nonempty, hroot.keys, hfields, hroot.sits, hroot.element, hroot.shows,
      hroot.ancestorKeys⟩
  obtain ⟨final, -, header, hfinal, -, hstands, -⟩ :=
    unrollLevels_hold ⟨[], 0⟩ hl hk he.descends he.rootAt he.viewAt hfirst
  obtain rfl : unrolled = final := Except.ok.inj (hfold.symm.trans hfinal)
  have hown := (hl.view id view he.viewAt).ownColumns
  refine ⟨header.row, by rw [Rel.fields], hstands.fields, ?_, ?_⟩
  · refine Fields.show_of_picks _ ?_
    rw [(ColumnMap.of_targets hselect).1, hstands.shows, hown]
    exact hstands.sits.picks (hstands.element ▸ picks_flatFields view.levelFields)
  · rintro _ ⟨⟩
    have hlevels := unrollLevels_keep (I := fun rel l => ∃ gs, rel.fields = .ok gs ∧
      l.ShowsViews c.catalog (Rel.scan (.view id) name view.fields).RenamesNothing gs) ?_ he.descends
      ⟨_, rfl, rfl, rfl⟩ ⟨table.fields, hfields, ?_⟩ hfold
    · obtain ⟨gs, hgs, hviews⟩ := hlevels
      rwa [Except.ok.inj (hgs.symm.trans hstands.fields)] at hviews
    · rintro rel l p next column above below ⟨gs, hgs, hviews⟩ - hbelow -
      refine ⟨gs ++ below.levelFields, ?_, hviews.addLevel hbelow (Rel.length_of_fields hgs).symm rfl⟩
      rw [Rel.fields, hgs]
      rfl
    · intro level hmem
      obtain rfl := List.mem_singleton.1 hmem
      refine ⟨root, he.rootAt, Fields.show_of_picks _ ?_⟩
      rw [he.isRoot.level]
      exact List.range_eq_range' ▸ picks_all table.fields

/-- **A scan** shows the fields that its relation was registered with. -/
theorem presents_scan (hl : c.catalog.Linked)
    (hk : c.stage.supports .denormalize = true →
      ∀ view ∈ c.catalog.views, PlainKeys view.levelFields view.ownKeys)
    {relation : RelationId} {name : String} {fs : Fields} (hf : c.catalog.fields relation = .ok fs)
    (ho : c.scanPlan relation = .ok out) : ∃ gs, c.Presents (.scan relation name fs) fs gs out := by
  cases relation with
  | base id =>
    obtain ⟨table, needs, key, ht, rfl⟩ := basePlan_eq_ok ho
    obtain ⟨found, hfound, hf⟩ := bind_eq_ok.1 hf
    cases hf
    obtain rfl : found = table := Option.some.inj ((itemAt_eq_ok.1 hfound).symm.trans ht)
    refine ⟨_, presents_of_scan rfl ?_ rfl⟩
    change ColumnMap.identity (Rel.width (.scan _ _ found.fields)) = _
    rw [Rel.width]
  | view id =>
    obtain ⟨view, hview, ho⟩ := bind_eq_ok.1 ho
    obtain ⟨baseId, hbase, ho⟩ := bind_eq_ok.1 ho
    obtain ⟨table, ht, ho⟩ := bind_eq_ok.1 ho
    obtain ⟨found, hfound, hf⟩ := bind_eq_ok.1 hf
    cases hf
    have hview := itemAt_eq_ok.1 (lift_eq_ok.1 hview)
    have ht := itemAt_eq_ok.1 (lift_eq_ok.1 ht)
    obtain rfl : found = view := Option.some.inj ((itemAt_eq_ok.1 hfound).symm.trans hview)
    obtain ⟨b, hb, rootId, rest, root, table', hpath, hroot, -, ht', hr, hd⟩ :=
      hl.baseOf (List.getElem?_eq_some_iff.1 hview).1
    obtain rfl : b = baseId := Except.ok.inj (hb.symm.trans (lift_eq_ok.1 hbase))
    obtain rfl : table' = table := Option.some.inj (ht'.symm.trans ht)
    split at ho
    · rename_i hd'
      exact presents_unrolled hl (hk hd') ⟨hview, List.mem_of_getElem? ht, hpath, hroot, hr, hd⟩ ho
    · obtain ⟨hrel, hlineage, -⟩ := viewPlan_eq_ok ho
      exact ⟨_, presents_of_scan hrel (select_of_viewPlan ho) hlineage⟩

/-- **Every operator** shows the row type of its query if its inputs do. -/
theorem follows_presents (hl : c.catalog.Linked)
    (hk : c.stage.supports .denormalize = true →
      ∀ view ∈ c.catalog.views, PlainKeys view.levelFields view.ownKeys) :
    c.Follows fun q plan => q.Declared c.catalog → ∃ fs gs, c.Presents q fs gs plan where
  scan := by
    intro relation name fields plan ho hq
    obtain ⟨gs, h⟩ := presents_scan hl hk (hq.scans _ _ _ (Rel.self_mem_preorder _)) ho
    exact ⟨fields, gs, h⟩
  filter := by
    intro input plan out predicate hin ho hq
    obtain ⟨fs, gs, h⟩ := hin.holds (hq.input List.mem_cons_self)
    exact ⟨fs, gs, h.filtered ho⟩
  project := by
    intro input plan out bare outputs hin hbare ho hq
    obtain ⟨fs, gs, h⟩ := hin.holds (hq.input List.mem_cons_self)
    exact ⟨_, h.projected hq hbare ho⟩
  rank := by
    intro q input plan out columns outputs hint order limit hranks hin hcolumns ho hq
    have hinput : input.Declared c.catalog := by
      cases hranks with
      | sorted => exact (hq.input List.mem_cons_self).input List.mem_cons_self
      | bare => exact hq.input List.mem_cons_self
    obtain ⟨fs, gs, h⟩ := hin.holds hinput
    exact ⟨_, h.ranked hranks hq hcolumns ho⟩
  join := by
    intro left right l r out kind condition hint j hleft hright hj ho hq
    obtain ⟨fl, gl, hl⟩ := hleft.holds (hq.input List.mem_cons_self)
    obtain ⟨fr, gr, hr⟩ := hright.holds (hq.input (List.mem_cons_of_mem _ List.mem_cons_self))
    exact ⟨_, hl.joined hr hleft.convert hright.convert hj ho⟩
  aggregate := by
    intro input plan out keys groupingSets calls hint hin ho hq
    obtain ⟨fs, gs, h⟩ := hin.holds (hq.input List.mem_cons_self)
    exact h.aggregated hin.sound ho
  single := by
    intro input plan all hin hq
    obtain ⟨fs, gs, h⟩ := hin (hq.input List.mem_cons_self)
    exact ⟨fs, gs, h.passes (passesOn_union c input [] all) rfl rfl (.inl rfl)⟩
  union := by
    rintro input inputs first rest out all ⟨plan, position, hs, hin, hfirst⟩ - ho hq
    obtain ⟨fs, gs, h⟩ := hin (hq.input List.mem_cons_self)
    exact ⟨fs, h.united hs hfirst ho⟩
  sort := by
    intro input plan out order limit offset hin ho hq
    obtain ⟨fs, gs, h⟩ := hin.holds (hq.input List.mem_cons_self)
    exact ⟨fs, gs, h.sorted ho⟩
  settle := by
    intro q plan out hin ho hq
    obtain ⟨fs, gs, h⟩ := hin hq
    exact ⟨fs, gs, h.settled (Plan.withoutPending_settled ho).1⟩

/-- **The visible fields of a plan** are those of its query, in order. They have the same
types, on every stage and with all settings, if no view that is unrolled has a collection
in its key. They have the same names unless an entity is joined with itself after one of
its columns was renamed: both sides then share the columns, and their names. -/
theorem visible_fields_of_query (hb : c.catalog.Built)
    (hk : c.stage.supports .denormalize = true →
      ∀ view ∈ c.catalog.views, PlainKeys view.levelFields view.ownKeys)
    (hq : q.Declared c.catalog) (h : c.convert q = .ok plan) :
    ∃ fs shown, q.fields = .ok fs ∧ plan.visibleFields = .ok shown ∧
      shown.map Field.dataType = fs.map Field.dataType ∧
      (c.KeepsNames q → shown.map Field.name = fs.map Field.name) := by
  obtain ⟨-, hpresents⟩ := (follows_presents hb.linked hk).convert h
  obtain ⟨fs, gs, hquery, htree, ⟨shown, hpicks, hlike⟩, -⟩ := hpresents hq
  refine ⟨fs, shown, hquery, ?_, Field.like_iff.1 hlike⟩
  refine bind_eq_ok.2 ⟨gs, htree, mapM_eq_ok.2 ?_⟩
  exact hpicks.imp fun _ _ ht => itemAt_eq_ok.2 ht

/-- The numbers of orders. -/
def scannedOrders : Rel := .scan (.view 0) "orders" (numberField "id")

/-- The numbers of orders under another name. -/
def numberedOrders : Rel := .project scannedOrders [⟨.column 0, ⟨"number", .int64, false⟩⟩] none

theorem overOrders_plainKeys :
    ∀ view ∈ overOrders.catalog.views, PlainKeys view.levelFields view.ownKeys := by
  intro view hv
  simp only [overOrders, List.mem_cons, List.not_mem_nil, or_false] at hv
  rcases hv with rfl | rfl | rfl
  all_goals exact plainKeys_one rfl

/-- A scan of a view under the fields of the catalog is declared. -/
theorem declared_scan {catalog : Catalog} {relation : RelationId} {name : String} {fs : Fields}
    (h : catalog.fields relation = .ok fs) : (Rel.scan relation name fs).Declared catalog :=
  Rel.declared_of_root (by rintro _ _ _ ⟨⟩; exact h) nofun nofun

/-- A join of declared queries is declared. -/
theorem declared_join {catalog : Catalog} {left right : Rel} {kind : JoinKind} {condition : Expr}
    {hint : Option JoinHint} (hl : left.Declared catalog) (hr : right.Declared catalog) :
    (Rel.join left right kind condition hint).Declared catalog :=
  Rel.declared_of_root nofun nofun
    (List.forall_mem_cons.2 ⟨hl, List.forall_mem_cons.2 ⟨hr, List.forall_mem_nil _⟩⟩)

/-- A scan renames nothing. -/
theorem renamesNothing_scan (relation : RelationId) (name : String) (fs : Fields) :
    (Rel.scan relation name fs).RenamesNothing :=
  Rel.everyOutput_of_root nofun nofun

/-- Lines and notes of an order are planned as one entity and show the names of both. -/
theorem lines_with_notes_keep_names : ∃ plan shown,
    overOrders.convert linesWithNotes = .ok plan ∧ plan.select.targets = [0, 3, 0, 4] ∧
      plan.visibleFields = .ok shown ∧ shown.map Field.dataType = [.int64, .int64, .int64, .int64] ∧
      shown.map Field.name = ["id", "line", "id", "note"] := by
  obtain ⟨plan, hplan, hselect⟩ : ∃ plan, overOrders.convert linesWithNotes = .ok plan ∧
      plan.select.targets = [0, 3, 0, 4] := ⟨_, rfl, rfl⟩
  have hdeclared : linesWithNotes.Declared overOrders.catalog :=
    declared_join (declared_scan rfl) (declared_scan rfl)
  obtain ⟨fs, shown, hfs, hshown, htypes, hnames⟩ :=
    visible_fields_of_query overOrders_built (fun _ => overOrders_plainKeys) hdeclared hplan
  obtain rfl : fs = numberField "id" ++ numberField "line" ++ (numberField "id" ++ numberField "note") := by
    rw [linesWithNotes, scannedLines, scannedNotes, Rel.fields, Rel.fields, Rel.fields] at hfs
    exact (Except.ok.inj hfs).symm
  refine ⟨plan, shown, hplan, hselect, hshown, htypes, hnames ?_⟩
  rw [linesWithNotes, KeepsNames, scannedLines, scannedNotes, KeepsNames, KeepsNames]
  exact ⟨trivial, trivial, fun _ => ⟨renamesNothing_scan _ _ _, renamesNothing_scan _ _ _⟩⟩

/-- The orders under both names. -/
def numberedWithOrders : Rel := .join numberedOrders scannedOrders .inner (.equate 0 1) none

/-- A table of parcels whose key is the stops they make and a number, with numbered
items. -/
def parcelsTable : BaseTable where
  name := "parcels"
  fields := ⟨"stops", .nestedOf stopFields, true⟩ :: numberField "parcel" ++
    [⟨"note", .utf8, true⟩, ⟨"items", .nestedOf (numberField "item"), true⟩]
  keys := 2
  kind := .state
  time := .none
  pending := .none
  stage := none

/-- The columns under which items are seen. The stops are left out of the key above
them, so that it is a number and a note. -/
def seenItems : Fields := numberField "parcel" ++ [⟨"note", .utf8, true⟩] ++ numberField "item"

/-- The catalog of that table with a view of its items, on the stream stage. -/
def overParcels : Converter where
  catalog := ⟨[parcelsTable],
    [⟨"parcels", .root 0, parcelsTable.fields, 2, [1, 2], 0,
        numberField "parcel" ++ [⟨"note", .utf8, true⟩]⟩,
      ⟨"items", .child 0 3, numberField "item", 1, [0], 2, seenItems⟩],
    [("items", .view 1), ("parcels", .view 0), ("parcels", .base 0)]⟩
  pipeline := .streamAndDatabase
  stage := .stream "stream"
  settings := .default

theorem overParcels_built : overParcels.catalog.Built := by
  have htable := @Catalog.Built.table .empty _ parcelsTable "parcels" 0 .empty
    (show parcelsTable.time.Coherent from EventTime.coherent_none) rfl
  exact @Catalog.Built.child _ overParcels.catalog 0 1 1 "items" "items" htable rfl

/-- The items of parcels. -/
def scannedItems : Rel := .scan (.view 1) "items" seenItems

/-- Orders that are joined with themselves under another name show that name on both
sides, also where the query has the first one. Items that are unrolled below a key with a
collection show that collection, which is not among their columns. -/
theorem renamed_orders_share_a_name :
    (overOrders.catalog.Built ∧ numberedWithOrders.Declared overOrders.catalog ∧
      numberedWithOrders.fields = .ok (numberField "number" ++ numberField "id") ∧
      ∃ plan, overOrders.convert numberedWithOrders = .ok plan ∧
        plan.visibleFields = .ok (numberField "number" ++ numberField "number")) ∧
    overParcels.catalog.Built ∧ scannedItems.Declared overParcels.catalog ∧
      scannedItems.fields =
        .ok (numberField "parcel" ++ [⟨"note", .utf8, true⟩] ++ numberField "item") ∧
      ∃ plan, overParcels.convert scannedItems = .ok plan ∧
        plan.visibleFields = .ok (⟨"stops", .nestedOf stopFields, true⟩ ::
          numberField "parcel" ++ numberField "item") := by
  have hnumbered : numberedOrders.Declared overOrders.catalog := by
    refine Rel.declared_of_root nofun ?_ (List.forall_mem_singleton.2 (declared_scan rfl))
    rintro input outputs hint fs ⟨⟩ hfields
    rw [scannedOrders, Rel.fields] at hfields
    obtain rfl : numberField "id" = fs := Except.ok.inj hfields
    exact List.forall_mem_singleton.2
      (.renamed (show Output.renamed 0 "number" (numberField "id") = .ok _ from rfl))
  refine ⟨⟨overOrders_built, declared_join hnumbered (declared_scan rfl), ?_, _, rfl, rfl⟩,
    overParcels_built, declared_scan rfl, ?_, _, rfl, rfl⟩
  · rw [numberedWithOrders, numberedOrders, scannedOrders, Rel.fields, Rel.fields, Rel.fields]
    rfl
  · rw [scannedItems, Rel.fields, seenItems]

end StreamPlan.Converter
