import Mathlib.Data.List.Dedup
import StreamPlan.Proofs.Catalog.Sane
import StreamPlan.Proofs.Schema.RowType
import StreamPlan.Proofs.Session.Publishing
import StreamPlan.Proofs.Session.Calls

/-!
# Keys of published tables

A table counts its key columns and has them in front. A published plan lists the
columns of its key first, each once, and the table counts the key of the plan, so
the two fit together exactly if the key repeats no column.

* `Plan.published_gives`: every plan of a query has a published form.
* `Compiler.compile_gives`: what the planner plans under a free name is published,
  unless the key counts more columns than the table has.
* `Converter.keyed_of_scan`: a later scan of a table reads its leading columns as its
  key.
* `Compiler.compile_publishes_key`: **a table begins with the key of its plan**, and
  later scans have that key, exactly if the key repeats no column.
-/

namespace StreamPlan

namespace Selection

/-- Columns that are all kept repeat none. -/
theorem nodup_of_length {columns : List Nat} (h : (append [] columns).length = columns.length) :
    columns.Nodup := by
  have hperm : (append [] columns).Perm columns.dedup :=
    (List.perm_ext_iff_of_nodup (nodup_append List.nodup_nil) (List.nodup_dedup columns)).2 fun c => by
      rw [mem_append, List.mem_dedup, List.mem_nil_iff, false_or]
  have hdedup : columns.dedup = columns :=
    (List.dedup_sublist columns).eq_of_length (hperm.length_eq.symm.trans h)
  exact List.dedup_eq_self.1 hdedup

end Selection

/-- Columns in front of a list without repeats are where they stand. -/
theorem movedTo_front {front columns moved : List Nat} (hn : columns.Nodup) (hf : front <+: columns)
    (h : List.Forall₂ (MovedTo columns) front moved) : moved = List.range front.length := by
  refine List.ext_getElem (by rw [List.length_range, h.length_eq]) fun i hi hi' => ?_
  have hlt : i < front.length := h.length_eq ▸ hi
  have hat : columns[moved[i]]? = some front[i] :=
    find_position ((List.forall₂_iff_get.1 h).2 i hlt hi)
  obtain ⟨hmoved, hat⟩ := List.getElem?_eq_some_iff.1 hat
  have hbound : i < columns.length := Nat.lt_of_lt_of_le hlt hf.length_le
  have hfront : columns[i] = front[i] := (hf.getElem hlt).symm
  rw [List.getElem_range]
  exact (List.Nodup.getElem_inj_iff hn).1 (hat.trans hfront.symm)

namespace Plan

variable {plan out : Plan} {fs : Fields}

/-- The fields of the key columns, in the order of the key. -/
def keyFields (plan : Plan) : Except Fault Fields := do
  let fields ← plan.rel.fields
  plan.key.targets.mapM (itemAt fields)

theorem publishedColumns_lt (hs : plan.Sound) : ∀ c ∈ plan.publishedColumns, c < plan.width := by
  intro c hc
  rcases mem_publishedColumns.1 hc with hc | hc | hc | ⟨f, hf, rfl⟩ | hc | hc
  · exact hs.key_lt c hc
  · exact hs.select_lt c hc
  · exact hs.time c (EventTime.bestColumn?_mem hc)
  · exact hs.time _ (hs.nowFilter f hf)
  · exact hs.topN c hc
  · exact hs.sort c hc

/-- **A plan of a query has a published form.** -/
theorem published_gives (hs : plan.Sound) (hf : plan.HasFields) :
    Gives plan.published fun _ => True := by
  unfold published
  simp only
  split
  · exact .ok trivial
  · refine (movedKey_gives fun i hi => Selection.position?_of_mem
      (mem_publishedColumns.2 (.inl hi))).bind fun _ _ => ?_
    refine (movedKey_gives fun i hi => Selection.position?_of_mem
      (mem_publishedColumns.2 (.inr (.inl hi)))).bind fun _ _ => ?_
    exact (projectColumns_gives hf (publishedColumns_lt hs)).bind fun _ _ => .ok trivial

/-- A published plan has the fields of the published columns. -/
theorem fields_of_published (hf : plan.rel.fields = .ok fs) (h : plan.published = .ok out) :
    ∃ gs, out.rel.fields = .ok gs ∧ Picks fs plan.publishedColumns gs := by
  unfold published at h
  simp only at h
  split at h
  · rename_i hrange
    cases h
    refine ⟨fs, hf, ?_⟩
    rw [hrange, width, ← Rel.length_of_fields hf]
    exact picks_all fs
  · obtain ⟨key, -, h⟩ := bind_eq_ok.1 h
    obtain ⟨select, -, h⟩ := bind_eq_ok.1 h
    obtain ⟨rel, hrel, h⟩ := bind_eq_ok.1 h
    cases h
    obtain ⟨fields, hfields, hrel⟩ := bind_eq_ok.1 hrel
    obtain ⟨outputs, houtputs, hrel⟩ := bind_eq_ok.1 hrel
    cases hrel
    obtain rfl : fs = fields := Except.ok.inj (hf.symm.trans hfields)
    exact ⟨_, by rw [Rel.fields], Output.picks_of_columns houtputs⟩

/-- The columns of a key that repeats none are published first. -/
theorem key_prefix_published (hn : plan.key.targets.Nodup) :
    plan.key.targets <+: plan.publishedColumns := by
  rw [publishedColumns, List.append_assoc, List.append_assoc, List.append_assoc, List.append_assoc,
    Selection.append_append, Selection.append_of_fresh hn (by simp), List.nil_append]
  obtain ⟨added, heq, -⟩ := Selection.append_eq plan.key.targets (plan.select.targets ++ _)
  exact ⟨added, heq.symm⟩

theorem nodup_publishedColumns (plan : Plan) : plan.publishedColumns.Nodup :=
  Selection.nodup_append List.nodup_nil

/-- **The key of a published plan** is its leading columns, if it repeats none. -/
theorem PublishedAs.key_of_nodup (h : plan.PublishedAs out) (hn : plan.key.targets.Nodup) :
    out.key.targets = List.range plan.key.targets.length :=
  movedTo_front plan.nodup_publishedColumns (key_prefix_published hn) h.key

theorem PublishedAs.keySources (h : plan.PublishedAs out) : out.key.sources = plan.key.targets.length :=
  h.key.length_eq.symm

/-- A table that begins with the key columns of a plan, in the order of the key, and
counts them. -/
structure LeadsWithKey (plan published : Plan) (table : BaseTable) : Prop where
  key : published.key.targets = List.range table.keys
  columns : plan.publishedColumns.take table.keys = plan.key.targets
  fields : plan.keyFields = .ok (table.fields.take table.keys)

/-- **The table of a published plan begins with the key**, if it repeats no column. -/
theorem leadsWithKey {table : BaseTable} {stage name : String} (hs : plan.Sound)
    (hn : plan.key.targets.Nodup) (h : plan.published = .ok out) (hf : plan.rel.fields = .ok fs)
    (ht : out.toTable name stage = .ok table) : plan.LeadsWithKey out table := by
  have has := published_as hs h
  obtain ⟨gs, hgs, hpicks⟩ := fields_of_published hf h
  obtain ⟨fields, hfields, rfl⟩ := Compiler.toTable_eq_ok ht
  obtain rfl := Except.ok.inj (hgs.symm.trans hfields)
  have hcolumns : plan.publishedColumns.take plan.key.targets.length = plan.key.targets :=
    (List.prefix_iff_eq_take.1 (key_prefix_published hn)).symm
  refine ⟨?_, ?_, ?_⟩
  · rw [has.key_of_nodup hn, has.keySources]
  · rw [has.keySources, hcolumns]
  · have hkey := List.forall₂_take plan.key.targets.length hpicks
    rw [hcolumns] at hkey
    rw [keyFields, hf, ok_bind, has.keySources]
    exact mapM_eq_ok.2 (hkey.imp fun _ _ hi => itemAt_eq_ok.2 hi)

end Plan

namespace Catalog

variable {catalog : Catalog}

/-- A table with as many columns as it counts keys is registered under a free name. -/
theorem addTable_gives {table : BaseTable} (hk : table.keys ≤ table.fields.length)
    (hfree : catalog.names.lookup table.name = none) :
    ∃ next id, catalog.addTable table table.name = .ok (next, id) := by
  have hcheck : catalog.checkFree table.name = .ok () := by
    rw [checkFree, hfree]
    rfl
  unfold addTable
  rw [if_neg (Nat.not_lt.2 hk)]
  simp only [hcheck, ne_eq, not_true_eq_false, if_false]
  exact ⟨_, _, rfl⟩

end Catalog

namespace Converter

variable {c : Converter} {table : BaseTable} {out : Plan} {relation : RelationId} {b id : Nat}

/-- **A scan of a table**, or of its root view, reads its leading columns as its key. A
view that is not unrolled has no nested columns, so there they must not be in the key. -/
theorem keyed_of_scan {name : String} {fields : Fields} (hb : c.catalog.bases[b]? = some table)
    (hv : c.catalog.views[id]? = some (table.rootView b)) (hk : table.keys ≤ table.fields.length)
    (hrelation : relation = .base b ∨ relation = .view id ∧
      (c.stage.supports .denormalize = true ∨ PlainKeys table.fields table.keys))
    (h : c.convert (.scan relation name fields) = .ok out) :
    out.key.targets = List.range table.keys ∧
      out.keyFields = .ok (table.fields.take table.keys) := by
  rw [convert] at h
  obtain ⟨scan, hscan, h⟩ := bind_eq_ok.1 h
  obtain ⟨hsettled, -⟩ := finish_sound h
  obtain ⟨found, hscan⟩ := scanPlan_cases hscan
  -- whichever way the table is scanned, the fields `fs` of the scan begin with its key
  have hread : ∀ {fs : Fields}, scan.rel.fields = .ok fs → scan.key.targets = List.range table.keys →
      fs.take table.keys = table.fields.take table.keys → table.keys ≤ fs.length →
      out.key.targets = List.range table.keys ∧
        out.keyFields = .ok (table.fields.take table.keys) := by
    intro fs hfs hkey htake hle
    have hkey' : out.key.targets = List.range table.keys := hsettled.key ▸ hkey
    refine ⟨hkey', ?_⟩
    rw [Plan.keyFields, hsettled.fields, hfs, ok_bind, hkey', ← htake]
    exact mapM_eq_ok.2 ((picks_take hle).imp fun _ _ hi => itemAt_eq_ok.2 hi)
  have hscanFields : ∀ relation name, (Rel.scan relation name table.fields).fields = .ok table.fields :=
    fun _ _ => by rw [Rel.fields]
  rcases hrelation with rfl | ⟨rfl, hplain⟩
  · cases hscan with
    | base ht _ hkey =>
      obtain rfl : table = found := Option.some.inj (hb.symm.trans ht)
      exact hread (hscanFields _ _) (ColumnMap.of_targets hkey).1 rfl hk
  · have hbaseOf : c.catalog.baseOf id = .ok b := Catalog.baseOf_of_root hv rfl
    cases hscan with
    | root hdenormalize hview hbase ht _ _ hkey =>
      obtain rfl := Option.some.inj (hv.symm.trans hview)
      obtain rfl := Except.ok.inj (hbaseOf.symm.trans hbase)
      obtain rfl : table = found := Option.some.inj (hb.symm.trans ht)
      have hplain : PlainKeys table.fields table.keys :=
        hplain.resolve_left (by rw [hdenormalize]; decide)
      refine hread ?_ ?_ (take_flatFields hplain hk) (le_length_flatFields hplain hk)
      · change (Rel.scan _ _ _).fields = _
        rw [Rel.fields]
        rfl
      · rw [show (table.rootView b).keys = table.keys from Nat.zero_add _] at hkey
        exact (ColumnMap.of_targets hkey).1
    | nested _ hview _ _ hchild =>
      obtain rfl := Option.some.inj (hv.symm.trans hview)
      cases hchild
    | unrolled _ hview hbase ht hpath hroot hat _ hstart hunrolled hkey hselect =>
      obtain rfl := Option.some.inj (hv.symm.trans hview)
      obtain rfl := Except.ok.inj (hbaseOf.symm.trans hbase)
      obtain rfl : table = found := Option.some.inj (hb.symm.trans ht)
      obtain rfl := Except.ok.inj ((Catalog.ancestry_of_root hv rfl).symm.trans hpath)
      obtain rfl := Option.some.inj hroot
      obtain rfl := Option.some.inj (hv.symm.trans hat)
      cases hunrolled
      have hstart : _ = _ := Except.ok.inj hstart
      subst hstart
      refine hread (hscanFields _ _) ((ColumnMap.of_targets hkey).1.trans ?_) rfl hk
      simp [Lineage.root, Lineage.keys, Level.ownKey, List.range_eq_range', BaseTable.rootView]

end Converter

namespace Compiler

variable {c next : Compiler} {name : String} {query : Rel} {selected : SelectedPlan}
  {compiled : CompiledQuery}

/-- **What is planned under a free name is published**, unless the key of the plan counts
more columns than its table has. -/
theorem compile_gives (hplan : c.plan query = .ok selected) (hquery : c.queries.lookup name = none)
    (hname : c.catalog.names.lookup name = none) :
    ∃ published, selected.plan.published = .ok published ∧ selected.plan.PublishedAs published ∧
      ((∃ next compiled, c.compile name query = .ok (next, compiled)) ↔
        selected.plan.key.targets.length ≤ selected.plan.publishedColumns.length) := by
  obtain ⟨-, hconvert⟩ := plan_eq_ok hplan
  obtain ⟨hs, hfields⟩ := (Converter.keeps_fields _).convert hconvert
  obtain ⟨published, hpublished, -⟩ := Plan.published_gives hs hfields
  have has := Plan.published_as hs hpublished
  refine ⟨published, hpublished, has, ?_⟩
  obtain ⟨fs, hfs⟩ := hfields
  obtain ⟨gs, hgs, hpicks⟩ := Plan.fields_of_published hfs hpublished
  rw [hpicks.length_eq, ← has.keySources]
  constructor
  · rintro ⟨next, compiled, h⟩
    obtain ⟨selected', published', mid, hselected, hpublished', htable, hmid, -⟩ := compile_eq_ok h
    obtain rfl := Except.ok.inj (hplan.symm.trans hselected)
    obtain rfl := Except.ok.inj (hpublished.symm.trans hpublished')
    obtain ⟨catalog, hadd, -⟩ := registerTable_eq_ok.1 hmid
    obtain ⟨fields, hfields, htable⟩ := toTable_eq_ok htable
    obtain rfl := Except.ok.inj (hgs.symm.trans hfields)
    have hk := (Catalog.addTable_eq_ok hadd).1
    rwa [htable] at hk
  · -- the catalog checks the number of keys, and nothing else can fail
    intro hk
    have hmanifest : ∃ manifest, Manifest.ofPlan published = .ok manifest := by
      rw [Manifest.ofPlan, hgs]
      exact ⟨_, rfl⟩
    obtain ⟨manifest, hmanifest⟩ := hmanifest
    have htable : published.toTable name selected.stage.name = .ok ⟨name, gs, published.key.sources,
        published.kind, published.time, published.pending, some selected.stage.name⟩ := by
      rw [Plan.toTable, hgs]
      rfl
    have hadded : ∃ catalog view, c.catalog.addTable ⟨name, gs, published.key.sources, published.kind,
        published.time, published.pending, some selected.stage.name⟩ name = .ok (catalog, view) :=
      Catalog.addTable_gives hk hname
    obtain ⟨catalog, view, hadd⟩ := hadded
    unfold compile
    rw [hquery, if_neg (by decide), hplan, ok_bind, hpublished, orFault_ok, ok_bind, hmanifest,
      orFault_ok, ok_bind, htable, orFault_ok, ok_bind, registerTable_eq_ok.2 ⟨catalog, hadd, rfl⟩]
    exact ⟨_, _, rfl⟩

/-- **A table begins with the key of its plan** exactly if the key repeats no column. A
query that is planned under a free name is then published, and every later scan of its
table, or of the root view, has the key columns of the plan in front as its key. -/
theorem compile_publishes_key (hplan : c.plan query = .ok selected)
    (hquery : c.queries.lookup name = none) (hname : c.catalog.names.lookup name = none) :
    (selected.plan.key.targets.Nodup ↔
        ∃ next compiled, c.compile name query = .ok (next, compiled) ∧
          compiled.table.keys = (Selection.append [] selected.plan.key.targets).length) ∧
      (selected.plan.key.targets.Nodup → ∃ next compiled published,
        c.compile name query = .ok (next, compiled) ∧ selected.plan.PublishedAs published ∧
        selected.plan.LeadsWithKey published compiled.table ∧
        ∀ (calls : List Call) (later : Converter) (relation : RelationId) (shown : String)
          (fields : Fields) (scan : Plan), later.catalog = (next.run calls).catalog →
          (relation = .base c.catalog.bases.length ∨ relation = .view compiled.view ∧
            (later.stage.supports .denormalize = true ∨
              PlainKeys compiled.table.fields compiled.table.keys)) →
          later.convert (.scan relation shown fields) = .ok scan →
          scan.key.targets = List.range compiled.table.keys ∧
            scan.keyFields = selected.plan.keyFields) := by
  obtain ⟨published, hpublished, has, hcompiles⟩ := compile_gives hplan hquery hname
  obtain ⟨hs, fs, hfs⟩ := (Converter.keeps_fields _).convert (plan_eq_ok hplan).2
  have hcounted : ∀ {next compiled}, c.compile name query = .ok (next, compiled) →
      ∃ mid, published.toTable name selected.stage.name = .ok compiled.table ∧
        c.registerTable compiled.table = .ok (mid, compiled.view) ∧ next.catalog = mid.catalog := by
    intro next compiled h
    obtain ⟨selected', published', mid, hselected, hpublished', htable, hmid, rfl, -⟩ := compile_eq_ok h
    obtain rfl := Except.ok.inj (hplan.symm.trans hselected)
    obtain rfl := Except.ok.inj (hpublished.symm.trans hpublished')
    exact ⟨mid, htable, hmid, rfl⟩
  have hkeys : ∀ {next compiled}, c.compile name query = .ok (next, compiled) →
      compiled.table.keys = selected.plan.key.targets.length := by
    intro next compiled h
    obtain ⟨mid, htable, -⟩ := hcounted h
    obtain ⟨fields, -, htable⟩ := toTable_eq_ok htable
    rw [htable, has.keySources]
  -- a key that repeats no column begins the published columns, so it cannot count more than those
  have hpublishes : selected.plan.key.targets.Nodup →
      ∃ next compiled, c.compile name query = .ok (next, compiled) := fun hn =>
    hcompiles.2 (Plan.key_prefix_published hn).length_le
  refine ⟨⟨fun hn => ?_, ?_⟩, fun hn => ?_⟩
  · obtain ⟨next, compiled, h⟩ := hpublishes hn
    exact ⟨next, compiled, h, by rw [hkeys h, Selection.append_of_fresh hn (by simp), List.nil_append]⟩
  · rintro ⟨next, compiled, h, hdistinct⟩
    exact Selection.nodup_of_length (hdistinct.symm.trans (hkeys h))
  · obtain ⟨next, compiled, h⟩ := hpublishes hn
    obtain ⟨mid, htable, hmid, hcatalog⟩ := hcounted h
    have hleads := Plan.leadsWithKey hs hn hpublished hfs htable
    refine ⟨next, compiled, published, h, has, hleads, ?_⟩
    intro calls later relation shown fields scan hlater hrelation hscan
    obtain ⟨catalog, hadd, rfl⟩ := registerTable_eq_ok.1 hmid
    obtain ⟨hk, hview, rfl⟩ := Catalog.addTable_eq hadd
    have hgrows := hlater ▸ hcatalog ▸ next.grows_run calls
    have hbase := hgrows.base List.getElem?_concat_length
    have hroot := hgrows.view (hview ▸ List.getElem?_concat_length)
    rw [hleads.fields]
    exact Converter.keyed_of_scan hbase hroot hk hrelation hscan

/-- On the database, the latest payloads still have the number of their event as key. It
is not among the visible columns and was published in front of them. -/
theorem latest_payloads_keep_key :
    let session := overPayloads.run [.compile "latest" latestPayloads]
    let onDatabase : Converter :=
      ⟨session.catalog, .streamAndDatabase, .database "database", .default⟩
    ∃ selected compiled scan, overPayloads.plan latestPayloads = .ok selected ∧
      selected.plan.key.targets = [0] ∧ selected.plan.select.targets = [2] ∧
      overPayloads.compile "latest" latestPayloads = .ok (session, compiled) ∧
      onDatabase.convert (.scan (.view 1) "latest" []) = .ok scan ∧
      scan.key.targets = [0] ∧ scan.keyFields = selected.plan.keyFields := by
  intro session onDatabase
  have hplan : overPayloads.plan latestPayloads = .ok _ := rfl
  have hquery : overPayloads.queries.lookup "latest" = none := rfl
  have hname : overPayloads.catalog.names.lookup "latest" = none := rfl
  have hcompile : overPayloads.compile "latest" latestPayloads = .ok (session, _) := rfl
  have hscan : onDatabase.convert (.scan (.view 1) "latest" []) = .ok _ := rfl
  obtain ⟨next, compiled, published, hnext, -, -, hscans⟩ :=
    (compile_publishes_key hplan hquery hname).2 (by decide)
  obtain ⟨rfl, rfl⟩ := Prod.mk.inj (Except.ok.inj (hcompile.symm.trans hnext))
  obtain ⟨hkey, hfields⟩ := hscans [] onDatabase (.view 1) "latest" [] _ rfl
    (.inr ⟨rfl, .inr (plainKeys_one rfl)⟩) hscan
  exact ⟨_, _, _, hplan, rfl, rfl, hcompile, hscan, hkey, hfields⟩

/-- A table of users. -/
def usersTable : BaseTable where
  name := "users"
  fields := [⟨"id", .int64, false⟩, ⟨"name", .utf8, true⟩]
  keys := 1
  kind := .state
  time := .none
  pending := .none
  stage := none

/-- A session with the users, planned for a database. -/
def overUsers : Compiler :=
  Compiler.run ⟨.empty, Profile.databaseOnly.pipeline, ⟨.databaseOnly, .default⟩, .simple, []⟩
    [.registerTable usersTable]

/-- The names of the users, each in two columns. -/
def namesTwice (hint : Option RankingHint) : Rel :=
  .project (.scan (.view 0) "users" usersTable.fields)
    [⟨.column 1, "name", .utf8, true⟩, ⟨.column 1, "name", .utf8, true⟩] hint

/-- How many users have a name. -/
def countedNames : Rel := .aggregate (namesTwice none) [0, 1] [] [.countRows "n"] none

/-- The names that users have. -/
def distinctNames : Rel := namesTwice (some ⟨.selectDistinct, []⟩)

/-- Grouping by a column that is selected twice makes a key that repeats it. The table
counts two key columns, has one, and takes the count of users for the other, and so does
a scan. Distinct names leave no other column, so the table is refused. -/
theorem repeated_key_is_miscounted :
    (∃ selected next compiled scan, overUsers.queries.lookup "counted" = none ∧
      overUsers.catalog.names.lookup "counted" = none ∧
      overUsers.plan countedNames = .ok selected ∧ selected.plan.key.targets = [0, 0] ∧
      overUsers.compile "counted" countedNames = .ok (next, compiled) ∧ compiled.table.keys = 2 ∧
      compiled.table.fields.map Field.name = ["name", "n"] ∧
      next.convertOn "database" (.scan (.view compiled.view) "counted" compiled.table.fields)
        = .ok scan ∧ scan.key.targets = [0, 1]) ∧
    ∃ selected, overUsers.queries.lookup "distinct" = none ∧
      overUsers.catalog.names.lookup "distinct" = none ∧
      overUsers.plan distinctNames = .ok selected ∧ selected.plan.key.targets = [1, 1] ∧
      overUsers.compile "distinct" distinctNames
        = .error (.refused (.catalog (.invalidKey "distinct" 2 1))) :=
  ⟨⟨_, _, _, _, rfl, rfl, rfl, rfl, rfl, rfl, rfl, rfl, rfl⟩, _, rfl, rfl, rfl, rfl, rfl⟩

end Compiler

end StreamPlan
