import StreamPlan.Proofs.Entities.Flatten
import StreamPlan.Proofs.Rows.Moved
import StreamPlan.Proofs.Session.Calls

/-!
# Publishing is transparent

Publishing a plan lists its key first and hidden columns last, and leaves its
pending constraints to whoever scans the table. Nothing is lost on the way: a
scan of the table on the stage that writes it takes the constraints up where
the published plan left them, and applying them there keeps the rows that the
plan itself would have kept.

* `Plan.TakesUp`: a plan carries what a published one left open.
* `Converter.Offers`: a catalog with the table of a published plan, and the stage
  that writes it.
* `Compiler.compile_then_scan`: **a compiled query and a scan of its table have
  the same visible rows**, in order.
-/

namespace StreamPlan

/-- The same event time. One that is fixed without a candidate may also be none. -/
def EventTime.SameAs (time other : EventTime) : Prop :=
  time.candidates = other.candidates ∧ (other ≠ ⟨[], true⟩ → time = other)

theorem EventTime.sameAs_withCandidates (time : EventTime) :
    (time.withCandidates time.candidates).SameAs time := by
  refine ⟨rfl, fun hne => ?_⟩
  obtain ⟨_ | ⟨k, ks⟩, _ | _⟩ := time
  · rfl
  · exact absurd rfl hne
  · rfl
  · rfl

theorem EventTime.none_sameAs {time : EventTime} (h : time.candidates = []) :
    EventTime.none.SameAs time := by
  obtain ⟨candidates, _ | _⟩ := time
  all_goals obtain rfl : candidates = [] := h
  · exact ⟨rfl, fun _ => rfl⟩
  · exact ⟨rfl, fun hne => absurd rfl hne⟩

/-- Candidates on columns that stay where they are. -/
theorem EventTime.SameAs.remap {time other : EventTime} {f : Nat → Option Nat}
    (h : time.SameAs other) (hf : ∀ c ∈ time.columns, f c = some c) : (time.remap f).SameAs other := by
  have hsame : time.remap f = time.withCandidates time.candidates :=
    congrArg time.withCandidates (moved_of_fixed_columns hf).candidates.symm
  rw [hsame]
  refine ⟨h.1, fun hne => ?_⟩
  rw [h.2 hne]
  exact (sameAs_withCandidates other).2 hne

theorem SortOrder.moved_of_fixed {order : SortOrder} {f : Nat → Option Nat}
    (h : ∀ c ∈ columns order, f c = some c) : order.moved f = order := by
  refine (List.map_congr_left fun key hkey => ?_).trans (List.map_id' order)
  rw [h key.column (List.mem_map_of_mem hkey), Option.getD_some]

/-- Constraints over columns that stay where they are. -/
theorem Pending.remap_of_fixed {pending : Pending} {f : Nat → Option Nat}
    (hnow : ∀ filter, pending.nowFilter = some filter → f filter.timestamp = some filter.timestamp)
    (htop : ∀ c ∈ pending.topN.columns, f c = some c)
    (hsort : ∀ c ∈ SortOrder.columns pending.sort, f c = some c) : pending.remap f = pending := by
  have hpartition : (pending.topN.partition.map fun c => (f c).getD c) = pending.topN.partition :=
    (List.map_congr_left fun c hc => by
      rw [htop c (List.mem_append_left _ hc), Option.getD_some]).trans (List.map_id' _)
  have horder : pending.topN.order.moved f = pending.topN.order :=
    SortOrder.moved_of_fixed fun c hc => htop c (List.mem_append_right _ hc)
  have hfilter : pending.nowFilter.bind (·.remap f) = pending.nowFilter := by
    cases hn : pending.nowFilter with
    | none => rfl
    | some filter =>
      rw [Option.bind_some, NowFilter.remap, hnow filter hn]
      rfl
  rw [remap_of_isSome (fun c hc => by rw [htop c hc]; rfl) fun c hc => by rw [hsort c hc]; rfl,
    hpartition, horder, hfilter, SortOrder.moved_of_fixed hsort]

/-- A plan carries what a published one left open. -/
structure Plan.TakesUp (scan published : Plan) : Prop where
  kind : scan.kind = published.kind
  time : scan.time.SameAs published.time
  nowFilter : scan.nowFilter = published.nowFilter
  topN : scan.topN = published.topN
  sort : scan.sort = published.sort

/-- A plan that scans all columns of a relation, and sees all of them. -/
structure Plan.Scans (scan : Plan) (relation : RelationId) (name : String) (fields : Fields) :
    Prop where
  rel : scan.rel = .scan relation name fields
  select : scan.select.targets = List.range fields.length
  maps : scan.key.width = fields.length ∧ scan.select.width = fields.length

namespace Plan

variable {scan published out : Plan} {relation : RelationId} {name : String} {fields : Fields}

theorem Scans.width (h : scan.Scans relation name fields) : scan.width = fields.length := by
  rw [Plan.width, h.rel, Rel.width]

/-- A scan that takes up what a sound plan left open is sound. -/
theorem TakesUp.sound (h : scan.TakesUp published) (hscan : scan.Scans relation name fields)
    (hs : published.Sound) (hw : published.width = fields.length) : scan.Sound := by
  have hcolumns : scan.time.columns = published.time.columns :=
    congrArg (List.map TimeCandidate.column) h.time.1
  have hwidth : scan.width = published.width := hscan.width.trans hw.symm
  exact {
    key := hscan.maps.1.trans hscan.width.symm
    select := hscan.maps.2.trans hscan.width.symm
    stateTime := by rw [h.kind, hcolumns]; exact hs.stateTime
    stateNowFilter := by rw [h.kind, h.nowFilter]; exact hs.stateNowFilter
    time := by rw [hcolumns, hwidth]; exact hs.time
    nowFilter := by rw [h.nowFilter, hcolumns]; exact hs.nowFilter
    sort := by rw [h.sort, hwidth]; exact hs.sort
    topN := by rw [h.topN, hwidth]; exact hs.topN }

/-- A scan shows all its columns in line, so aligning it moves none. -/
theorem Scans.rel_of_align (h : scan.Scans relation name fields) (hs : scan.Sound)
    (ho : scan.align = .ok out) : out.rel = scan.settledRel := by
  have hrange : scan.alignedColumns = List.range scan.width := by
    rw [alignedColumns, h.select, ← h.width]
    exact Selection.append_of_mem fun c hc => List.mem_range.2 <|
      hs.alignedColumns_lt c (Selection.mem_append.2 (.inr hc))
  rw [align_of_range hrange] at ho
  exact rel_of_withoutPending ho

end Plan

/-- The root view that is registered with a table, under its name. -/
def BaseTable.rootView (table : BaseTable) (b : Nat) : View where
  name := table.name
  place := .root b
  levelFields := table.fields
  ownKeys := table.keys
  ownColumns := flatColumns table.fields
  ancestorKeys := 0
  fields := flatFields table.fields

/-- A catalog with the table of a published plan and its root view, and the stage
that writes the table. No column is nested. -/
structure Converter.Offers (c : Converter) (published : Plan) (table : BaseTable) (b id : Nat) : Prop where
  base : c.catalog.bases[b]? = some table
  view : c.catalog.views[id]? = some (table.rootView b)
  plain : ∀ field ∈ table.fields, field.isNested = false
  keys_le : table.keys ≤ table.fields.length
  sound : published.Sound
  width : published.width = table.fields.length
  kind : table.kind = published.kind
  time : table.time = published.time
  pending : table.pending = published.pending
  stage : table.stage = some c.stage.name
  found : c.pipeline.find? c.stage.name = some c.stage
  writes : c.stage.isRead = false

namespace Converter.Offers

variable {c : Converter} {published : Plan} {table : BaseTable} {b id : Nat}
  (h : c.Offers published table b id)
include h

theorem scanNeeds : c.scanNeeds table = .ok c.start := by
  rw [Converter.scanNeeds, h.stage, Option.bind_some, h.found]
  simp only [true_or, if_true]
  rfl

/-- Nothing that was left open is dropped: no other stage writes the table. -/
theorem openConstraints : c.openConstraints table = published.pending := by
  have hwritten : c.writtenElsewhere table = false := by
    simp [writtenElsewhere, h.stage]
  have hnow : (if table.kind = .state then none else table.pending.nowFilter)
      = table.pending.nowFilter := by
    split
    · rename_i hstate
      rw [h.pending]
      exact (h.sound.stateNowFilter (h.kind ▸ hstate)).symm
    · rfl
  rw [Converter.openConstraints, hwritten, hnow, ← h.pending]
  rfl

theorem timeOf : (timeOf table).SameAs published.time := by
  unfold Converter.timeOf
  split
  · rename_i hstate
    exact EventTime.none_sameAs (List.map_eq_nil_iff.1 (h.sound.stateTime (h.kind ▸ hstate)))
  · rw [h.time]
    exact ⟨rfl, fun _ => rfl⟩

theorem viewAt : c.catalog.view id = .ok (table.rootView b) := itemAt_eq_ok.2 h.view

theorem ancestry : c.catalog.ancestry id = .ok [id] := Catalog.ancestry_of_root h.view rfl

theorem rootOf : c.catalog.rootOf id = .ok id := Catalog.rootOf_of_root h.view rfl

theorem baseOf : c.catalog.baseOf id = .ok b := Catalog.baseOf_of_root h.view rfl

/-- The root view has every column where the table has it. -/
theorem position {c : Nat} (hc : c < published.width) :
    (table.rootView b).ownPosition? c = some c := by
  rw [View.ownPosition?, BaseTable.rootView, (flat_of_plain h.plain).2]
  exact position_range (h.width ▸ hc)

/-- The root view has the fields of the table. -/
theorem fields : (table.rootView b).fields = table.fields := (flat_of_plain h.plain).1

/-- The plan of the view, scanned as such. -/
theorem viewPlan : ∃ scan, c.viewPlan id (table.rootView b) table = .ok scan ∧
    scan.TakesUp published ∧ scan.Scans (.view id) table.name table.fields ∧
      scan.needs.stage = c.stage := by
  have hpending : published.pending.remap (table.rootView b).ownPosition? = published.pending :=
    Pending.remap_of_fixed (fun filter hf => h.position (h.sound.time _ (h.sound.nowFilter filter hf)))
      (fun c hc => h.position (h.sound.topN c hc)) fun c hc => h.position (h.sound.sort c hc)
  have htime : ((Converter.timeOf table).remap (table.rootView b).ownPosition?).SameAs published.time :=
    h.timeOf.remap fun c hc => h.position (h.sound.time c
      (by rwa [EventTime.columns, h.timeOf.1] at hc))
  have hwidth : (Rel.scan (.view id) table.name table.fields).width = table.fields.length := by
    rw [Rel.width]
  have hkey : ∀ i ∈ List.range (table.rootView b).keys,
      i < (Rel.scan (.view id) table.name table.fields).width := fun i hi =>
    hwidth ▸ Nat.lt_of_lt_of_le (by simpa [View.keys, BaseTable.rootView] using hi) h.keys_le
  have hplan : Plan.ofRel (.scan (.view id) (table.rootView b).name table.fields) table.kind
      (List.range (table.rootView b).keys) c.start
        = .ok (.bare (.scan (.view id) table.name table.fields) table.kind ⟨_, _, hkey⟩ c.start) :=
    Plan.ofRel_eq_ok.2 ⟨_, ColumnMap.of_eq_ok hkey, rfl⟩
  unfold Converter.viewPlan
  rw [h.scanNeeds, ok_bind, h.fields]
  simp only [hplan, h.rootOf, h.viewAt, h.openConstraints, hpending, lift_ok, ok_bind]
  exact ⟨_, rfl, ⟨h.kind, htime, rfl, rfl, rfl⟩,
    ⟨rfl, congrArg List.range hwidth, hwidth, hwidth⟩, rfl⟩

/-- The plan of the view on a stage that could unroll it further. -/
theorem unrolledPlan : ∃ scan, c.unrolledPlan id b table = .ok scan ∧
    scan.TakesUp published ∧ scan.Scans (.base b) table.name table.fields ∧
      scan.needs.stage = c.stage := by
  have hwidth : (Rel.scan (.base b) table.name table.fields).width = table.fields.length := by
    rw [Rel.width]
  have hkeys : (Lineage.root id 0 table.fields.length table.keys).keys = List.range table.keys := by
    simp [Lineage.root, Lineage.keys, Level.ownKey, List.range_eq_range']
  -- the view is the root of its entity: no level is unrolled, and its columns are those of the
  -- table
  have hvisible : Lineage.keys (Lineage.root id 0 table.fields.length table.keys).dropLast
      ++ (table.rootView b).ownColumns.map (0 + ·) = List.range table.fields.length := by
    simp [Lineage.root, Lineage.keys, BaseTable.rootView, (flat_of_plain h.plain).2]
  have hselect : ColumnMap.of (Lineage.keys (Lineage.root id 0 table.fields.length table.keys).dropLast
      ++ (table.rootView b).ownColumns.map (0 + ·)) (Rel.scan (.base b) table.name table.fields).width
        = .ok (.identity table.fields.length) := by
    rw [hvisible, hwidth]
    exact ColumnMap.of_eq_ok fun _ => List.mem_range.1
  have hkey : ∀ i ∈ List.range table.keys, i < (Rel.scan (.base b) table.name table.fields).width :=
    fun i hi => hwidth ▸ Nat.lt_of_lt_of_le (List.mem_range.1 hi) h.keys_le
  have hkeyed : ColumnMap.of (Lineage.root id 0 table.fields.length table.keys).keys
      (Rel.scan (.base b) table.name table.fields).width = .ok ⟨_, _, hkey⟩ := by
    rw [hkeys]
    exact ColumnMap.of_eq_ok hkey
  refine ⟨_, (unrolledPlan_eq_ok_iff h.ancestry h.view h.view).2 ⟨c.start, .empty _,
    withPending (.bare (.scan (.base b) table.name table.fields) table.kind (.empty _) c.start)
      published.pending,
    ⟨.scan (.base b) table.name table.fields, Lineage.root id 0 table.fields.length table.keys, 0⟩,
    ⟨_, _, hkey⟩, .identity table.fields.length, h.scanNeeds, rfl, by rw [h.openConstraints]; rfl, rfl,
    hkeyed, hselect, rfl⟩,
    ⟨h.kind, h.timeOf, rfl, rfl, rfl⟩, ⟨rfl, rfl, hwidth, rfl⟩, rfl⟩

/-- **A scan of the view** takes up what the published plan left open. -/
theorem convert (name : String) (fields : Fields) :
    ∃ scan relation, c.convert (.scan (.view id) name fields) = .ok scan ∧
      scan.TakesUp published ∧ scan.Scans relation table.name table.fields ∧ scan.Sound ∧
      (relation = .base b ∨ relation = .view id) := by
  have hscan : ∃ scan relation, c.scanPlan (.view id) = .ok scan ∧ scan.TakesUp published ∧
      scan.Scans relation table.name table.fields ∧ scan.needs.stage = c.stage ∧
      (relation = .base b ∨ relation = .view id) := by
    rw [scanPlan, h.viewAt, lift_ok, ok_bind, h.baseOf, lift_ok, ok_bind,
      show c.catalog.base b = .ok table from itemAt_eq_ok.2 h.base, lift_ok, ok_bind]
    split
    · obtain ⟨scan, hplan, htakes, hscans, hstage⟩ := h.unrolledPlan
      exact ⟨scan, _, hplan, htakes, hscans, hstage, .inl rfl⟩
    · obtain ⟨scan, hplan, htakes, hscans, hstage⟩ := h.viewPlan
      exact ⟨scan, _, hplan, htakes, hscans, hstage, .inr rfl⟩
  obtain ⟨scan, relation, hplan, htakes, hscans, hstage, hrelation⟩ := hscan
  have hsound := htakes.sound hscans h.sound h.width
  refine ⟨scan, relation, ?_, htakes, hscans, hsound, hrelation⟩
  rw [Converter.convert, hplan, ok_bind]
  refine finish_eq_ok.2 ⟨fun hother => hother.1 (by rw [hstage]), ?_, hsound⟩
  rw [hstage, h.writes]
  rfl

end Converter.Offers

/-- The rows of a published plan, stored as those of its table and of the root view. -/
structure Fixture.Stores (after before : Fixture) (published : Plan) (b id : Nat) : Prop where
  now : after.now = before.now
  rows : ∃ rows, evaluate before published.rel = .ok rows ∧
    after.rowsOf (.base b) = .ok rows ∧ after.rowsOf (.view id) = .ok rows

/-- **Both ways to a final result** keep the same rows, and show the same of them: the
plan's own, and the one over a scan of what it was published as. -/
theorem Plan.PublishedAs.keeps_rows {plan published scan final scanned : Plan} {before after : Fixture}
    {relation : RelationId} {name : String} {fields : Fields} {b id : Nat} {shown : List Row}
    (h : plan.PublishedAs published) (hs : plan.Sound) (htakes : scan.TakesUp published)
    (hscans : scan.Scans relation name fields) (hsound : scan.Sound)
    (hrelation : relation = .base b ∨ relation = .view id) (hstores : after.Stores before published b id)
    (hfinal : plan.align = .ok final) (hscanned : scan.align = .ok scanned)
    (hshown : evaluate before final.rel = .ok shown) :
    ∃ kept, evaluate after scanned.rel = .ok kept ∧
      kept.mapM (Row.at · published.select.targets) = shown.mapM (Row.at · final.select.targets) := by
  obtain ⟨stored, hstored, hbase, hview⟩ := hstores.rows
  have hscan : evaluate after scan.rel = .ok stored := by
    rw [hscans.rel, evaluate_scan]
    rcases hrelation with rfl | rfl
    · exact hbase
    · exact hview
  have hrel : plan.rel.Rereads before scan.rel after plan.publishedColumns := by
    obtain ⟨rows, hrows, hkeep⟩ := h.keepAll hstored
    intro others hothers
    obtain rfl : rows = others := Except.ok.inj (hrows.symm.trans hothers)
    exact ⟨stored, hscan, hkeep⟩
  obtain ⟨settled, hsettled, hfront⟩ := (arrangedAs_of_align hs hfinal).rows before shown hshown
  obtain ⟨kept, hkept, hmoved⟩ :=
    h.rereads_settled hstores.now htakes.nowFilter htakes.topN hrel settled hsettled
  refine ⟨kept, by rw [hscans.rel_of_align hsound hscanned]; exact hkept, mapM_congr ?_⟩
  refine forall₂_of_left hmoved hfront fun row _ above front habove hrow => ?_
  rw [visible_of_align hs hfinal hrow]
  exact at_of_moved habove h.select

namespace Compiler

variable {c next : Compiler} {name : String} {query : Rel} {compiled : CompiledQuery}

/-- **What compiling leaves behind**: the table of the published plan, found by name, on
the stage that writes it. -/
theorem offers_of_compile (h : c.compile name query = .ok (next, compiled))
    (hwrite : compiled.stage.isWrite = true)
    (hplain : ∀ field ∈ compiled.table.fields, field.isNested = false) :
    ∃ selected published, c.plan query = .ok selected ∧ selected.plan.published = .ok published ∧
      selected.plan.Sound ∧ selected.plan.PublishedAs published ∧
      next.scan name = .ok (.scan (.view compiled.view) name compiled.table.fields) ∧
      Converter.Offers ⟨next.catalog, next.pipeline, compiled.stage, next.config.settings⟩ published
        compiled.table c.catalog.bases.length compiled.view := by
  obtain ⟨selected, published, mid, hselected, hpublished, htable, hmid, rfl, hstage, -⟩ := compile_eq_ok h
  obtain ⟨hmem, hplan⟩ := plan_eq_ok hselected
  have hs := Converter.sound_of_convert hplan
  have has := Plan.published_as hs hpublished
  obtain ⟨catalog, hadd, rfl⟩ := registerTable_eq_ok.1 hmid
  obtain ⟨hkeys, hview, hcatalog⟩ := Catalog.addTable_eq hadd
  obtain ⟨fields, hfields, htable⟩ := toTable_eq_ok htable
  have hname : compiled.table.name = name := by rw [htable]
  have hoffers : Converter.Offers ⟨catalog, c.pipeline, compiled.stage, c.config.settings⟩ published
      compiled.table c.catalog.bases.length compiled.view :=
    { base := by rw [hcatalog]; exact List.getElem?_concat_length
      view := by rw [hcatalog, hview]; exact List.getElem?_concat_length
      plain := hplain
      keys_le := hkeys
      sound := has.sound hs
      width := by rw [htable]; exact (Rel.length_of_fields hfields).symm
      kind := by rw [htable]
      time := by rw [htable]
      pending := by rw [htable]
      stage := by rw [htable, hstage]
      found := hstage ▸ Pipeline.find?_of_mem hmem
      writes := by
        rw [Stage.isWrite, decide_eq_true_iff] at hwrite
        rw [Stage.isRead, hwrite]
        rfl }
  refine ⟨selected, published, hselected, hpublished, hs, has, ?_, hoffers⟩
  refine withError_eq_ok.2 (bind_eq_ok.2 ⟨.view compiled.view, ?_, orFault_eq_ok.2 ?_⟩)
  · rw [orRefuse_eq_ok, Catalog.lookup, hcatalog, hname, List.lookup_cons_self]
  · rw [Catalog.scan, Catalog.fields, hoffers.viewAt, ok_bind, hoffers.fields]
    rfl

/-- **Publishing is transparent** on a stage that writes its results, if no published
column is nested. A scan of the published table converts there and takes up the kind,
the event time and the pending constraints of the published plan. Where the table
stores the rows of that plan, the final result of the scan keeps, in order, the rows
that the final result of the compiled plan shows, and has what is shown of them in the
columns that the published plan selects. -/
theorem compile_then_scan (h : c.compile name query = .ok (next, compiled))
    (hwrite : compiled.stage.isWrite = true)
    (hplain : ∀ field ∈ compiled.table.fields, field.isNested = false) :
    ∃ selected published scan, c.plan query = .ok selected ∧
      selected.plan.published = .ok published ∧
      next.scan name = .ok (.scan (.view compiled.view) name compiled.table.fields) ∧
      next.convertOn compiled.stage.name (.scan (.view compiled.view) name compiled.table.fields)
        = .ok scan ∧
      scan.TakesUp published ∧
      ∀ before after : Fixture, after.Stores before published c.catalog.bases.length compiled.view →
        ∀ final manifest scanned manifest' shown,
          selected.plan.materialize = .ok (final, manifest) →
          scan.materialize = .ok (scanned, manifest') →
          evaluate before final.rel = .ok shown →
          ∃ kept, evaluate after scanned.rel = .ok kept ∧
            kept.mapM (Row.at · published.select.targets)
              = shown.mapM (Row.at · final.select.targets) := by
  obtain ⟨selected, published, hselected, hpublished, hs, has, hscan, hoffers⟩ :=
    offers_of_compile h hwrite hplain
  obtain ⟨scan, relation, hconvert, htakes, hscans, hsound, hrelation⟩ :=
    hoffers.convert name compiled.table.fields
  refine ⟨selected, published, scan, hselected, hpublished, hscan, ?_, htakes, ?_⟩
  · rw [convertOn, hoffers.found]
    exact withError_eq_ok.2 hconvert
  · intro before after hstores final manifest scanned manifest' shown hfinal hscanned hshown
    exact has.keeps_rows hs htakes hscans hsound hrelation hstores
      (Plan.materialize_eq_ok.1 hfinal).1 (Plan.materialize_eq_ok.1 hscanned).1 hshown

/-- A table of events with a time and a payload. -/
def payloadTable : BaseTable where
  name := "events"
  fields := [⟨"id", .int64, false⟩, ⟨"at", .timestamp, true⟩, ⟨"payload", .utf8, true⟩]
  keys := 1
  kind := .stream
  time := .single 1 .source
  pending := .none
  stage := none

/-- The payloads of the two latest events. -/
def latestPayloads : Rel :=
  .project (.sort (.scan (.view 0) "events" payloadTable.fields) [⟨1, .descending⟩] (some 2) none)
    [⟨.column 2, "payload", .utf8, true⟩] none

/-- Three events, and what is published of them: the number, the payload and the time. -/
def fewEvents : Fixture where
  tables :=
    let published := [[.int 1, .text "a", .timestamp 10], [.int 2, .text "b", .timestamp 30],
      [.int 3, .text "c", .timestamp 20]]
    [(.base 0, [[.int 1, .timestamp 10, .text "a"], [.int 2, .timestamp 30, .text "b"],
      [.int 3, .timestamp 20, .text "c"]]), (.base 1, published), (.view 1, published)]
  now := 0

/-- A session with the table of events. -/
def overPayloads : Compiler :=
  Compiler.run ⟨.empty, .streamAndDatabase, .default, .simple, []⟩ [.registerTable payloadTable]

/-- The ranking of a compiled query is applied by a scan of its table, over columns
that moved, and keeps the payloads that the query asks for. -/
theorem latest_payloads_are_kept :
    let session := overPayloads.run [.compile "latest" latestPayloads]
    ∃ compiled scan scanned manifest kept,
      overPayloads.compile "latest" latestPayloads = .ok (session, compiled) ∧
      session.convertOn "stream" (.scan (.view 1) "latest" compiled.table.fields) = .ok scan ∧
      scan.topN.order = [⟨2, .descending⟩] ∧ scan.materialize = .ok (scanned, manifest) ∧
      evaluate fewEvents scanned.rel = .ok kept ∧
      kept.mapM (Row.at · [1]) = .ok [[.text "b"], [.text "c"]] := by
  intro session
  obtain ⟨selected, published, scan, hselected, hpublished, -, hconvert, -, hrows⟩ :=
    compile_then_scan (show overPayloads.compile "latest" latestPayloads = .ok (session, _) from rfl)
      rfl (by decide)
  -- planning, publishing and scanning again are evaluated
  obtain rfl := Except.ok.inj
    ((show overPayloads.plan latestPayloads = .ok _ from rfl).symm.trans hselected)
  obtain rfl := Except.ok.inj ((show Plan.published _ = .ok _ from rfl).symm.trans hpublished)
  obtain rfl := Except.ok.inj ((show convertOn session _ _ = .ok _ from rfl).symm.trans hconvert)
  obtain ⟨kept, hkept, hseen⟩ :=
    hrows fewEvents fewEvents ⟨rfl, _, rfl, rfl, rfl⟩ _ _ _ _ _ rfl rfl rfl
  exact ⟨_, _, _, _, kept, rfl, rfl, rfl, rfl, hkept, hseen⟩

end Compiler

end StreamPlan
