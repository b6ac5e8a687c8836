import StreamPlan.Proofs.Plan.Latest
import StreamPlan.Proofs.Session.Publishing
import StreamPlan.Proofs.Session.Stages

/-!
# Rankings of published tables

A published table leaves its ranking to whoever scans it. Another stage than the one
that writes the table takes it that writing by key keeps one row per key, whatever the
order was.

* `Plan.Honours`: a plan has a ranking applied or pending.
* `Converter.honours_of_scan`: a scan does, unless it relies on keyed writes.
* `Compiler.keepsLatest_of_compile`: the table of a query that ranks the latest row
  first keeps the latest row of a key.
* `Compiler.keyed_writes_replace_latest`: **what keyed writes replace** is then the
  latest row per key.
-/

namespace StreamPlan

/-- The same ranking over the columns that `f` gives. -/
def TopN.moved (topN : TopN) (f : Nat → Option Nat) : TopN :=
  { topN with partition := topN.partition.map fun c => (f c).getD c, order := topN.order.moved f }

/-- A plan has a ranking pending, or applied below. One that does nothing is not missed. -/
def Plan.Honours (plan : Plan) (topN : TopN) : Prop :=
  topN.isEmpty = true ∨ plan.topN = topN ∨ ∃ input, topN.onto input ∈ plan.rel.preorder

/-- Where a scan has a column of its table. A root view that is not unrolled has no
nested columns. -/
def Converter.placeIn (c : Converter) : RelationId → Nat → Option Nat
  | .base _, column => some column
  | .view id, column =>
    if c.stage.supports .denormalize then some column
    else (c.catalog.views[id]?).bind fun view =>
      if view.isRoot then view.ownPosition? column else some column

namespace Plan

variable {plan out : Plan} {topN : TopN}

/-- A ranking is not lost when pending constraints apply. -/
theorem Honours.withoutPending (h : plan.Honours topN) (ho : plan.withoutPending = .ok out) :
    out.Honours topN := by
  rcases h with hempty | htopN | ⟨input, happlied⟩
  · exact .inl hempty
  · obtain ⟨mid, hmid, hout⟩ := withoutPending_eq_ok.1 ho
    have hsame : mid.topN = topN := (withoutNowFilter_settled hmid).2.2.trans htopN
    rcases withoutTopN_eq_ok hout with ⟨hempty, -⟩ | ⟨_, -, -, rfl⟩
    · exact .inl (hsame ▸ hempty)
    · exact .inr (.inr ⟨mid.rel, hsame ▸ Rel.self_mem_preorder _⟩)
  · exact .inr (.inr ⟨input, within_withoutPending ho _ happlied⟩)

theorem honours_of_withoutTopN (h : plan.withoutTopN = .ok out) : out.Honours plan.topN := by
  rcases withoutTopN_eq_ok h with ⟨hempty, -⟩ | ⟨_, -, -, rfl⟩
  · exact .inl hempty
  · exact .inr (.inr ⟨plan.rel, Rel.self_mem_preorder _⟩)

/-- A scan alone has no ranking applied. -/
theorem not_honours_of_scan {relation : RelationId} {shown : String} {fields : Fields}
    (hne : topN.isEmpty = false) (htopN : plan.topN = TopN.none)
    (hrel : plan.rel = .scan relation shown fields) : ¬plan.Honours topN := by
  rintro (hempty | hpending | ⟨input, happlied⟩)
  · rw [hne] at hempty
    cases hempty
  · rw [← hpending, htopN] at hne
    cases hne
  · rw [hrel, Rel.preorder, List.mem_singleton, TopN.onto, if_neg (by rw [hne]; decide)] at happlied
    cases happlied

end Plan

theorem TopN.moved_of_fixed {topN : TopN} {f : Nat → Option Nat}
    (h : ∀ c ∈ topN.columns, f c = some c) : topN.moved f = topN := by
  have hpartition : (topN.partition.map fun c => (f c).getD c) = topN.partition :=
    (List.map_congr_left fun c hc => by
      rw [h c (List.mem_append_left _ hc), Option.getD_some]).trans (List.map_id' _)
  have horder : topN.order.moved f = topN.order :=
    SortOrder.moved_of_fixed fun c hc => h c (List.mem_append_right _ hc)
  rw [moved, hpartition, horder]

namespace Converter

variable {c : Converter} {table : BaseTable} {plan out : Plan} {relation : RelationId}

/-- Unrolling goes on above the tree that it starts from. -/
theorem within_unrollLevels {path : List Nat} {state final : Unrolled}
    (h : path.foldlM (fun state next => liftM (c.unrollLevel state next)) state
      = (.ok final : Planning Unrolled)) : state.rel.Within final.rel :=
  unrollLevels_each (I := fun next => state.rel.Within next.rel) (.refl _)
    (fun _ _ _ _ _ _ hwithin _ _ => hwithin.trans (.below List.mem_cons_self)) h

/-- **A scan** has the ranking of its table pending or applied, where it shows the
columns of it, or it relies on the keyed writes of another stage. -/
theorem ScansAs.honours (h : c.ScansAs relation table plan)
    (hshown : ∀ column ∈ table.pending.topN.columns, (c.placeIn relation column).isSome = true) :
    plan.Honours (table.pending.topN.moved (c.placeIn relation)) ∨
      c.writtenElsewhere table = true ∧ table.pending.topN.isKeyDedup table.keys = true := by
  by_cases hdropped : c.writtenElsewhere table = true ∧
      table.pending.topN.isKeyDedup table.keys = true
  · exact .inr hdropped
  · left
    have hopen : (c.openConstraints table).topN = table.pending.topN := by
      unfold openConstraints
      simp only [Bool.and_eq_true, hdropped, if_false]
    have hsame : (∀ column, c.placeIn relation column = some column) →
        table.pending.topN.moved (c.placeIn relation) = (c.openConstraints table).topN := fun h =>
      hopen ▸ TopN.moved_of_fixed fun column _ => h column
    cases h with
    | base =>
      rw [hsame fun _ => rfl]
      exact .inr (.inl rfl)
    | @root id _ view _ _ _ _ hdenormalize hview _ _ hroot =>
      -- the view numbers its columns anew, and the ranking moves with them
      have hplace : c.placeIn (.view id) = view.ownPosition? := by
        funext column
        rw [placeIn, hdenormalize, hview, Option.bind_some, if_pos hroot]
        rfl
      rw [hplace] at hshown ⊢
      rw [← hopen] at hshown ⊢
      refine .inr (.inl ?_)
      change ((c.openConstraints table).remap view.ownPosition?).topN = _
      rw [Pending.remap]
      simp only [List.all_eq_true.2 hshown, if_true]
      rfl
    | nested hdenormalize hview _ _ hchild _ hempty =>
      -- the scan of a collection refuses what it cannot take up, so there is no ranking
      rw [hsame fun column => by rw [placeIn, hdenormalize, hview, Option.bind_some, hchild]; rfl]
      exact .inl hempty
    | @unrolled _ _ _ _ _ _ _ _ _ _ _ _ unrolled hdenormalize _ _ _ _ _ _ _ hstart hunrolled =>
      rw [hsame fun column => by rw [placeIn, hdenormalize]; rfl]
      rcases belowLevels_eq_ok hstart with rfl | ⟨_, base, hbase, rfl⟩
      · exact .inr (.inl rfl)
      -- the ranking is of root rows, and so applied before the first level
      · rcases Plan.honours_of_withoutTopN hbase with hempty | htopN | ⟨input, happlied⟩
        · exact .inl hempty
        · exact .inr (.inl htopN)
        · exact .inr (.inr ⟨input, within_unrollLevels hunrolled _ happlied⟩)

theorem honours_of_finish {topN : TopN} (h : plan.Honours topN) (hf : c.finish plan = .ok out) :
    out.Honours topN := by
  obtain ⟨-, hout, -⟩ := finish_eq_ok.1 hf
  split at hout
  · exact h.withoutPending hout
  · exact hout ▸ h

end Converter

/-- A published ranking keeps the latest row of a key if the ranking of the plan does. -/
theorem Plan.PublishedAs.keepsLatest {plan out : Plan} (h : plan.PublishedAs out)
    (hk : plan.KeepsLatest) : out.KeepsLatest := by
  rintro ⟨hone, hlength⟩
  have hkey : out.key.sources = plan.key.sources := h.key.length_eq.symm
  obtain ⟨t, ht, horder⟩ := hk ⟨h.topN.2.1 ▸ hone, by rw [h.partition.length_eq, hlength, hkey]⟩
  have hmoved := h.order
  rw [horder] at hmoved
  obtain ⟨d, hd, rfl⟩ := List.mem_map.1 ht
  generalize hout : out.topN.order = order at hmoved
  cases hmoved with
  | @cons _ moved _ _ hmoved hrest =>
    cases hrest
    obtain ⟨t', direction⟩ := moved
    obtain ⟨hcolumn, rfl⟩ := hmoved
    exact ⟨t', List.mem_map.2 ⟨_, h.time.mem_candidates.2 ⟨d, hd, t', hcolumn, rfl⟩, rfl⟩, hout⟩

namespace Compiler

variable {c next : Compiler} {name : String} {query : Rel} {compiled : CompiledQuery}

/-- **The table of a query** that ranks the latest row first keeps the latest row of a
key, if the tables below do. -/
theorem keepsLatest_of_compile (hc : c.catalog.Built)
    (htables : ∀ table ∈ c.catalog.bases, table.KeepsLatest)
    (hquery : Converter.RanksLatest ⟨c.catalog, c.pipeline, compiled.stage, c.config.settings⟩ query)
    (h : c.compile name query = .ok (next, compiled)) : compiled.table.KeepsLatest := by
  obtain ⟨selected, published, _, hselected, hpublished, htable, -, -, hstage, -⟩ := compile_eq_ok h
  obtain ⟨-, hplan⟩ := plan_eq_ok hselected
  rw [hstage] at hquery
  obtain ⟨hs, hkeeps⟩ := (Converter.follows_keepsLatest hc.linked htables).convert hplan
  have has := Plan.published_as hs hpublished
  obtain ⟨_, -, htable⟩ := toTable_eq_ok htable
  rw [htable]
  intro hone
  obtain ⟨t, ht, horder⟩ := has.keepsLatest (hkeeps hquery) hone
  refine ⟨t, ?_, horder⟩
  have hkind : published.kind ≠ .state := fun hstate => by
    rw [(has.sound hs).stateTime hstate] at ht
    cases ht
  rwa [Converter.timeOf, if_neg hkind]

/-- **Keyed writes replace** nothing but the latest row per key. A scan of the table of a
compiled query, on any stage and after any calls, has the ranking of the table pending or
applied, where it shows the columns of it. Otherwise another stage writes the table, and
the ranking keeps one row per key: the latest one by a timestamp of the table, if the
query ranks the latest row first wherever it keeps the first one, and the tables of the
query do so too. -/
theorem keyed_writes_replace_latest (h : c.compile name query = .ok (next, compiled))
    {later : Converter} {relation : RelationId} {shown : String} {fields : Fields} {scan : Plan}
    (htable : later.catalog.tableOf relation = .ok compiled.table)
    (hscan : later.convert (.scan relation shown fields) = .ok scan)
    (hshown : ∀ column ∈ compiled.table.pending.topN.columns,
      (later.placeIn relation column).isSome = true) :
    scan.Honours (compiled.table.pending.topN.moved (later.placeIn relation)) ∨
      later.writtenElsewhere compiled.table = true ∧
      compiled.table.pending.topN.limit = some 1 ∧
      compiled.table.pending.topN.partition = List.range compiled.table.keys ∧
      (c.catalog.Built → (∀ table ∈ c.catalog.bases, table.KeepsLatest) →
        Converter.RanksLatest ⟨c.catalog, c.pipeline, compiled.stage, c.config.settings⟩ query →
        compiled.table.pending.topN.ByLatest compiled.table.time) := by
  rw [Converter.convert] at hscan
  obtain ⟨plan, hplan, hfinish⟩ := bind_eq_ok.1 hscan
  obtain ⟨table, hscans⟩ := Converter.scanPlan_cases hplan
  obtain rfl : table = compiled.table := Except.ok.inj (hscans.tableOf.symm.trans htable)
  rcases hscans.honours hshown with hhonours | ⟨hwritten, hdedup⟩
  · exact .inl (Converter.honours_of_finish hhonours hfinish)
  · simp only [TopN.isKeyDedup, Bool.and_eq_true, beq_iff_eq] at hdedup
    refine .inr ⟨hwritten, hdedup.1, hdedup.2, fun hc htables hquery => ?_⟩
    obtain ⟨t, ht, horder⟩ := keepsLatest_of_compile hc htables hquery h
      ⟨hdedup.1, by rw [hdedup.2, List.length_range]⟩
    exact ⟨t, (Converter.mem_timeOf ht).2, horder⟩

/-- One event per payload: the first one in an order. -/
def firstPerPayload (order : SortOrder) : Rel :=
  .project (.sort (.scan (.view 0) "events" payloadTable.fields) order (some 1) none)
    [⟨.column 0, "id", .int64, false⟩, ⟨.column 1, "at", .timestamp, true⟩,
      ⟨.column 2, "payload", .utf8, true⟩] (some ⟨.topN, [2]⟩)

/-- The latest event per payload is sorted by time. -/
theorem latestPerPayload_ranksLatest :
    Converter.RanksLatest ⟨overPayloads.catalog, .streamAndDatabase, .stream "stream", .default⟩
      (firstPerPayload [⟨1, .descending⟩]) := by
  rintro op hop input partition order hfirst plan moved hplan hmoved
  refine .inr ?_
  have hinput : input = .scan (.view 0) "events" payloadTable.fields ∧ order = [⟨1, .descending⟩] := by
    rw [firstPerPayload, Rel.preorder, Rel.preorder, Rel.preorder] at hop
    simp only [List.mem_cons, List.not_mem_nil, or_false] at hop
    rcases hop with rfl | rfl | rfl <;> cases hfirst <;> exact ⟨rfl, rfl⟩
  obtain ⟨rfl, rfl⟩ := hinput
  obtain ⟨scan, hscan, hselect, htime⟩ : ∃ scan, Converter.convert
      ⟨overPayloads.catalog, .streamAndDatabase, .stream "stream", .default⟩
      (.scan (.view 0) "events" payloadTable.fields) = .ok scan ∧ scan.select.targets = [0, 1, 2] ∧
      scan.time = payloadTable.time := ⟨_, rfl, rfl, rfl⟩
  obtain rfl := Except.ok.inj (hscan.symm.trans hplan)
  simp only [SortOrder.remap, List.mapM_cons, ColumnMap.apply, hselect] at hmoved
  rw [← Except.ok.inj hmoved, htime]
  rfl

/-- The table of the latest event per payload. -/
def latestTable : BaseTable where
  name := "latest"
  fields := [⟨"payload", .utf8, true⟩, ⟨"id", .int64, false⟩, ⟨"at", .timestamp, true⟩]
  keys := 1
  kind := .versioned
  time := .single 2 .source
  pending := ⟨none, ⟨[0], true, [⟨2, .descending⟩], some 1, .stream⟩, []⟩
  stage := some "stream"

/-- The latest event per payload is compiled for the stream stage. A scan of the table on
the database has nothing of the ranking, so it leaves it to the keyed writes. -/
theorem latest_per_payload_is_replaced :
    let session := overPayloads.run [.compile "latest" (firstPerPayload [⟨1, .descending⟩])]
    ∃ compiled scan, overPayloads.compile "latest" (firstPerPayload [⟨1, .descending⟩])
        = .ok (session, compiled) ∧ compiled.table = latestTable ∧
      session.convertOn "database" (.scan (.view 1) "latest" latestTable.fields) = .ok scan ∧
      scan.topN = TopN.none ∧ latestTable.pending.topN.ByLatest latestTable.time := by
  intro session
  obtain ⟨compiled, hcompile, htable, hstage⟩ : ∃ compiled,
      overPayloads.compile "latest" (firstPerPayload [⟨1, .descending⟩])
        = .ok (session, compiled) ∧ compiled.table = latestTable ∧
        compiled.stage = .stream "stream" := ⟨_, rfl, rfl, rfl⟩
  let onDatabase : Converter :=
    ⟨session.catalog, .streamAndDatabase, .database "database", .default⟩
  obtain ⟨scan, hscan, hon, htopN, hrel⟩ : ∃ scan,
      onDatabase.convert (.scan (.view 1) "latest" latestTable.fields) = .ok scan ∧
      session.convertOn "database" (.scan (.view 1) "latest" latestTable.fields) = .ok scan ∧
      scan.topN = TopN.none ∧ scan.rel = .scan (.view 1) "latest" latestTable.fields :=
    ⟨_, rfl, rfl, rfl, rfl⟩
  have hof : onDatabase.catalog.tableOf (.view 1) = .ok latestTable := rfl
  refine ⟨compiled, scan, hcompile, htable, hon, htopN, ?_⟩
  have hshown : ∀ column ∈ latestTable.pending.topN.columns,
      (onDatabase.placeIn (.view 1) column).isSome = true := by decide
  have hscanned := keyed_writes_replace_latest hcompile (htable ▸ hof) hscan (htable ▸ hshown)
  rw [htable, hstage] at hscanned
  obtain ⟨-, -, -, hlatest⟩ := hscanned.resolve_left (Plan.not_honours_of_scan rfl htopN hrel)
  have hadd : Catalog.empty.addTable payloadTable "events" = .ok (overPayloads.catalog, 0) := rfl
  have hbuilt : overPayloads.catalog.Built :=
    .table .empty (EventTime.coherent_single 1 .source) hadd
  refine hlatest hbuilt (fun table ht => ?_) latestPerPayload_ranksLatest
  obtain rfl : table = payloadTable := List.mem_singleton.1 ht
  exact fun hone => by cases hone.1

/-- Parcels with the stops on their way. -/
def parcelTable : BaseTable where
  name := "parcels"
  fields := [⟨"id", .int64, false⟩, ⟨"stops", .list ⟨"item", .struct [⟨"stop", .int64, false⟩], true⟩, true⟩,
    ⟨"weight", .int64, true⟩]
  keys := 1
  kind := .stream
  time := .none
  pending := .none
  stage := none

/-- A session with the parcels. -/
def overParcels : Compiler :=
  Compiler.run ⟨.empty, .streamAndDatabase, .default, .simple, []⟩ [.registerTable parcelTable]

/-- Two parcels per weight: the first ones by their stops. -/
def twoPerWeight : Rel :=
  .project (.sort (.scan (.base 0) "parcels" parcelTable.fields) [⟨1, .ascending⟩] (some 2) none)
    [⟨.column 0, "id", .int64, false⟩,
      ⟨.column 1, "stops", .list ⟨"item", .struct [⟨"stop", .int64, false⟩], true⟩, true⟩,
      ⟨.column 2, "weight", .int64, true⟩] (some ⟨.topN, [2]⟩)

/-- The least event per payload is dropped by a scan on the database as well, as if
keyed writes kept the least row. A ranking by a nested column is dropped there in any
case, as the scan does not show that column. -/
theorem least_per_payload_is_dropped :
    (let session := overPayloads.run [.compile "least" (firstPerPayload [⟨0, .ascending⟩])]
      ∃ compiled scan, overPayloads.compile "least" (firstPerPayload [⟨0, .ascending⟩])
          = .ok (session, compiled) ∧ compiled.stage.isWrite = true ∧
        session.convertOn "database" (.scan (.view 1) "least" compiled.table.fields) = .ok scan ∧
        ¬scan.Honours compiled.table.pending.topN ∧
        compiled.table.pending.topN.order = [⟨1, .ascending⟩]) ∧
      let session := overParcels.run [.compile "two" twoPerWeight]
      ∃ compiled scan, overParcels.compile "two" twoPerWeight = .ok (session, compiled) ∧
        compiled.stage.isWrite = true ∧
        session.convertOn "database" (.scan (.view 1) "two" (flatFields compiled.table.fields))
          = .ok scan ∧
        ¬scan.Honours compiled.table.pending.topN ∧
        compiled.table.pending.topN.limit = some 2 :=
  ⟨⟨_, _, rfl, rfl, rfl, Plan.not_honours_of_scan rfl rfl rfl, rfl⟩,
    _, _, rfl, rfl, rfl, Plan.not_honours_of_scan rfl rfl rfl, rfl⟩

end Compiler

end StreamPlan
