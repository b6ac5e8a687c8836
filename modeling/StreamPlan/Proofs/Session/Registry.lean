import StreamPlan.Proofs.Session.InPlace
import StreamPlan.Proofs.Session.Publishing
import StreamPlan.Proofs.Session.Calls

/-!
# What a session has registered

A session has two stores, a catalog with its names and the compiled queries, and calls may
fail in any order. The stores stay in line with each other.

* `Catalog.AddsName`: a registration adds one view under a name that was free.
* `Compiler.Registry`: the names are those of the views, each once, and a compiled query
  is under its name in both stores. Every step keeps this (`Registry.step`).
* `Compiler.Step.relation?`, `Step.compiled`: what a name stands for, it goes on to.
* `Compiler.sessions_stay_in_line`: **calls on a new session**, however they end, keep the
  stores in line.
-/

namespace StreamPlan

namespace Catalog

variable {catalog later : Catalog}

/-- A later catalog has one more view, under a name that was free, and all other names
stand for what they stood for. -/
structure AddsName (catalog later : Catalog) (name : String) : Prop where
  free : catalog.names.lookup name = none
  views : later.views.map View.name = catalog.views.map View.name ++ [name]
  resolves : later.names.lookup name = some (.view catalog.views.length)
  others : ∀ other, other ≠ name → later.names.lookup other = catalog.names.lookup other

theorem AddsName.lookup {name other : String} {relation : RelationId}
    (h : catalog.AddsName later name) (hat : catalog.names.lookup other = some relation) :
    later.names.lookup other = some relation := by
  have hne : other ≠ name := by
    rintro rfl
    rw [h.free] at hat
    cases hat
  rw [h.others other hne, hat]

/-- A table under its own name adds its root view. -/
theorem addsName_of_addTable {table : BaseTable} {id : Nat}
    (h : catalog.addTable table table.name = .ok (later, id)) : catalog.AddsName later table.name := by
  have hfree := (free_of_addTable h).1
  obtain ⟨-, rfl, rfl⟩ := addTable_eq h
  refine ⟨hfree, by simp, List.lookup_cons_self, fun other hne => ?_⟩
  rw [List.lookup_cons, List.lookup_cons, beq_false_of_ne hne]

theorem addsName_of_addChild {parent keys id : Nat} {column name : String}
    (h : catalog.addChild parent column name keys = .ok (later, id)) : catalog.AddsName later name := by
  obtain ⟨hfree, rfl, hnames⟩ := names_of_addChild h
  obtain ⟨_, _, _, _, -, -, -, -, -, -, hviews⟩ := addChild_eq_ok h
  refine ⟨hfree, by simp [hviews], by rw [hnames, List.lookup_cons_self], fun other hne => ?_⟩
  rw [hnames, List.lookup_cons, beq_false_of_ne hne]

end Catalog

namespace Compiler

variable {c next : Compiler} {given : Option String} {name : String}

/-- What a name stands for. -/
def relation? (c : Compiler) (name : String) : Option RelationId := c.catalog.names.lookup name

/-- A step changes nothing or adds the name that it gives. -/
theorem Step.addsName (h : c.Step given next) :
    given = none ∧ next = c ∨ ∃ name, given = some name ∧ c.catalog.AddsName next.catalog name := by
  cases h with
  | failed => exact .inl ⟨rfl, rfl⟩
  | table hadd => exact .inr ⟨_, rfl, Catalog.addsName_of_addTable hadd⟩
  | child hadd => exact .inr ⟨_, rfl, Catalog.addsName_of_addChild hadd⟩
  | compiled _ _ htable hadd =>
    exact .inr ⟨_, rfl, htable ▸ Catalog.addsName_of_addTable (htable.symm ▸ hadd)⟩

/-- **What a name stands for**, it goes on to. -/
theorem Step.relation? {relation : RelationId} (h : c.Step given next)
    (hat : c.relation? name = some relation) : next.relation? name = some relation := by
  rcases h.addsName with ⟨-, rfl⟩ | ⟨_, -, hadds⟩
  · exact hat
  · exact hadds.lookup hat

/-- A compiled query stays under its name. -/
theorem Step.compiled? {compiled : CompiledQuery} (h : c.Step given next)
    (hat : c.queries.lookup name = some compiled) : next.queries.lookup name = some compiled := by
  cases h with
  | failed | table | child => exact hat
  | compiled => exact lookup_append_some hat

/-- A compiled query is recorded under a name: the name stands for its view, and the base
table of that view is the one that was published. -/
structure Records (c : Compiler) (name : String) (compiled : CompiledQuery) : Prop where
  own : compiled.name = name
  view : c.relation? name = some (.view compiled.view)
  table : ∃ view b, c.catalog.views[compiled.view]? = some view ∧ view.place = .root b ∧
    c.catalog.bases[b]? = some compiled.table

/-- The names are those of the views, each once, and every compiled query is recorded. -/
structure Registry (c : Compiler) : Prop where
  nodup : (c.catalog.views.map View.name).Nodup
  named : ∀ name, name ∈ c.catalog.views.map View.name ↔ ∃ relation, c.relation? name = some relation
  has : ∀ name relation, c.relation? name = some relation → c.catalog.Has relation
  queries : ∀ name compiled, c.queries.lookup name = some compiled → c.Records name compiled

theorem Records.step {compiled : CompiledQuery} (h : c.Records name compiled)
    (hstep : c.Step given next) : next.Records name compiled := by
  obtain ⟨view, b, hview, hplace, hbase⟩ := h.table
  exact ⟨h.own, hstep.relation? h.view, view, b, hstep.grows.view hview, hplace,
    hstep.grows.base hbase⟩

/-- A compiled query is recorded by the step that adds it. -/
theorem records_of_addTable {compiled : CompiledQuery} {catalog : Catalog}
    (hname : compiled.name = name)
    (hadd : c.catalog.addTable compiled.table name = .ok (catalog, compiled.view)) :
    Records { c with catalog, queries := c.queries ++ [(name, compiled)] } name compiled := by
  obtain ⟨-, hview, rfl⟩ := Catalog.addTable_eq hadd
  refine ⟨hname, ?_, _, c.catalog.bases.length, hview ▸ List.getElem?_concat_length, rfl,
    List.getElem?_concat_length⟩
  rw [relation?, List.lookup_cons_self, hview]

/-- A new view with its name keeps names and views in line. -/
theorem Registry.addsName (h : c.Registry) (hadds : c.catalog.AddsName next.catalog name) :
    (next.catalog.views.map View.name).Nodup ∧
      ∀ other, other ∈ next.catalog.views.map View.name ↔
        ∃ relation, next.relation? other = some relation := by
  have hnew : name ∉ c.catalog.views.map View.name := fun hmem => by
    obtain ⟨relation, hrelation⟩ := (h.named name).1 hmem
    rw [relation?, hadds.free] at hrelation
    cases hrelation
  rw [hadds.views]
  refine ⟨List.nodup_append.2 ⟨h.nodup, List.nodup_singleton name, ?_⟩, fun other => ?_⟩
  · rintro other hother _ hname rfl
    exact hnew (List.mem_singleton.1 hname ▸ hother)
  · rw [List.mem_append, List.mem_singleton]
    by_cases hother : other = name
    · subst hother
      exact iff_of_true (.inr rfl) ⟨_, hadds.resolves⟩
    · rw [or_iff_left hother, h.named other, relation?, relation?, hadds.others other hother]

/-- **Every step keeps the stores in line.** -/
theorem Registry.step (h : c.Registry) (hstep : c.Step given next) : next.Registry := by
  have hgrows := hstep.grows
  -- names and views
  have hnames : (next.catalog.views.map View.name).Nodup ∧ (∀ name,
      name ∈ next.catalog.views.map View.name ↔ ∃ relation, next.relation? name = some relation) ∧
      ∀ name relation, next.relation? name = some relation → next.catalog.Has relation := by
    rcases hstep.addsName with ⟨-, rfl⟩ | ⟨added, -, hadds⟩
    · exact ⟨h.nodup, h.named, h.has⟩
    · obtain ⟨hnodup, hnamed⟩ := h.addsName hadds
      refine ⟨hnodup, hnamed, fun name relation hat => ?_⟩
      by_cases hname : name = added
      · subst hname
        obtain rfl := Option.some.inj (hadds.resolves.symm.trans hat)
        have hlength := congrArg List.length hadds.views
        rw [List.length_append, List.length_map, List.length_map, List.length_singleton] at hlength
        exact Nat.lt_of_lt_of_eq (Nat.lt_succ_self _) hlength.symm
      · exact hgrows.has (h.has name relation ((hadds.others name hname).symm.trans hat))
  refine ⟨hnames.1, hnames.2.1, hnames.2.2, fun name compiled hat => ?_⟩
  -- compiled queries
  cases hstep with
  | failed => exact h.queries name compiled hat
  | table hadd => exact (h.queries name compiled hat).step (.table hadd)
  | child hadd => exact (h.queries name compiled hat).step (.child hadd)
  | @compiled added new catalog hfree hname htable hadd =>
    rw [List.lookup_append] at hat
    rcases Option.or_eq_some_iff.1 hat with hold | ⟨-, hnew⟩
    · exact (h.queries name compiled hold).step (.compiled hfree hname htable hadd)
    · rw [List.lookup_cons] at hnew
      split at hnew
      · rename_i hbeq
        obtain rfl := eq_of_beq hbeq
        cases hnew
        exact records_of_addTable hname hadd
      · cases hnew

/-- A new session has nothing registered. -/
theorem registry_start {config : Config} {cost : CostModel}
    (h : Compiler.start config cost = .ok c) : c.Registry ∧ c.catalog = .empty := by
  unfold Compiler.start at h
  obtain ⟨_, -, h⟩ := bind_eq_ok.1 h
  cases h
  refine ⟨⟨List.nodup_nil, fun name => ⟨fun hmem => (by cases hmem), ?_⟩, ?_, ?_⟩, rfl⟩
  · rintro ⟨relation, ⟨⟩⟩
  · rintro name relation ⟨⟩
  · rintro name compiled ⟨⟩

theorem run_append (c : Compiler) (calls more : List Call) :
    c.run (calls ++ more) = (c.run calls).run more := List.foldl_append

theorem registry_run (h : c.Registry) (calls : List Call) : (c.run calls).Registry :=
  run_keeps (fun _ _ _ h hstep => h.step hstep) h calls

theorem relation?_run {relation : RelationId} (h : c.relation? name = some relation)
    (calls : List Call) : (c.run calls).relation? name = some relation :=
  run_keeps (I := fun next => next.relation? name = some relation)
    (fun _ _ _ h hstep => hstep.relation? h) h calls

theorem compiled?_run {compiled : CompiledQuery} (h : c.queries.lookup name = some compiled)
    (calls : List Call) : (c.run calls).queries.lookup name = some compiled :=
  run_keeps (I := fun next => next.queries.lookup name = some compiled)
    (fun _ _ _ h hstep => hstep.compiled? h) h calls

/-- The views of a session are named as the calls registered them. -/
theorem views_run (c : Compiler) (calls : List Call) :
    (c.run calls).catalog.views.map View.name
      = c.catalog.views.map View.name ++ c.registered calls := by
  induction calls generalizing c with
  | nil => exact (List.append_nil _).symm
  | cons call calls ih =>
    have hcall : (c.after call).catalog.views.map View.name
        = c.catalog.views.map View.name ++ (c.registers call).toList := by
      rcases (c.step_after call).addsName with ⟨hnone, hsame⟩ | ⟨name, hname, hadds⟩
      · rw [hnone, hsame]
        exact (List.append_nil _).symm
      · rw [hname]
        exact hadds.views
    rw [registered, ← List.append_assoc, ← hcall]
    exact ih (c.after call)

theorem query_eq_ok {compiled : CompiledQuery} :
    c.query name = .ok compiled ↔ c.queries.lookup name = some compiled := by
  unfold query
  cases c.queries.lookup name <;> simp [refuse, pure, Except.pure]

/-- **Calls on a new session keep its stores in line, however they end.** A call that is
carried out in place and fails leaves the session as it was. Names are given once, and
stand for what they first stood for, which stays under its number. A compiled query is
under its name in both stores, with the table that was published. -/
theorem sessions_stay_in_line {config : Config} {cost : CostModel}
    (hstart : Compiler.start config cost = .ok c) (calls : List Call) :
    (∀ call, ((Edit.ofCall call).on (c.run calls)).2 = c.run (calls ++ [call]) ∧
        ∀ e later, (Edit.ofCall call).on (c.run calls) = (.error e, later) → later = c.run calls) ∧
      ((c.registered calls).Nodup ∧
        ∀ name, name ∈ c.registered calls ↔
          ∃ relation, (c.run calls).catalog.lookup name = .ok relation) ∧
      (∀ name relation more, (c.run calls).catalog.lookup name = .ok relation →
        (c.run (calls ++ more)).catalog.lookup name = .ok relation ∧
          (c.run calls).catalog.Has relation ∧
          (c.run calls).catalog.Grows (c.run (calls ++ more)).catalog) ∧
      ∀ name compiled, (c.run calls).query name = .ok compiled →
        compiled.name = name ∧ (c.run calls).catalog.lookup name = .ok (.view compiled.view) ∧
          (∃ b, (c.run calls).catalog.baseOf compiled.view = .ok b ∧
            (c.run calls).catalog.base b = .ok compiled.table) ∧
          ∀ more, (c.run (calls ++ more)).query name = .ok compiled := by
  obtain ⟨hregistry, hempty⟩ := registry_start hstart
  have hr := registry_run hregistry calls
  have hviews : (c.run calls).catalog.views.map View.name = c.registered calls := by
    rw [views_run, hempty]
    rfl
  refine ⟨fun call => ?_, ⟨hviews ▸ hr.nodup, fun name => ?_⟩, fun name relation more h => ?_,
    fun name compiled h => ?_⟩
  · rw [run_append]
    exact Edit.ofCall_settles call (c.run calls)
  · simp only [← hviews, hr.named name, Catalog.lookup_eq_ok]
    rfl
  · have hat := Catalog.lookup_eq_ok.1 h
    rw [run_append]
    exact ⟨Catalog.lookup_eq_ok.2 (relation?_run hat more), hr.has name relation hat,
      grows_run _ more⟩
  · have hat := query_eq_ok.1 h
    obtain ⟨hown, hview, view, b, hroot, hplace, hbase⟩ := hr.queries name compiled hat
    refine ⟨hown, Catalog.lookup_eq_ok.2 hview,
      ⟨b, Catalog.baseOf_of_root hroot hplace, itemAt_eq_ok.2 hbase⟩, fun more => ?_⟩
    rw [run_append]
    exact query_eq_ok.2 (compiled?_run hat more)

/-- Of four calls two fail: a query cannot take the name of the events, nor can a second
table. The query that is compiled between them is recorded with its table. -/
theorem latest_payloads_stay_in_line :
    let calls : List Call := [.registerTable payloadTable, .compile "events" latestPayloads,
      .compile "latest" latestPayloads, .registerTable payloadTable]
    ∃ c compiled b, Compiler.start .default .simple = .ok c ∧
      (c.registered calls).Nodup ∧ c.registered calls = ["events", "latest"] ∧
      (∃ e, (Edit.ofCall (.compile "events" latestPayloads)).on (c.run calls)
        = (.error e, c.run calls)) ∧
      (c.run calls).query "latest" = .ok compiled ∧
      (c.run calls).catalog.lookup "latest" = .ok (.view compiled.view) ∧
      (c.run calls).catalog.baseOf compiled.view = .ok b ∧
      (c.run calls).catalog.base b = .ok compiled.table := by
  intro calls
  have hstart : Compiler.start .default .simple = .ok _ := rfl
  obtain ⟨hedits, ⟨hnodup, -⟩, -, hqueries⟩ := sessions_stay_in_line hstart calls
  have hquery : (Compiler.run ⟨.empty, .streamAndDatabase, .default, .simple, []⟩ calls).query "latest"
      = .ok _ := rfl
  obtain ⟨-, hview, ⟨b, hbaseOf, hbase⟩, -⟩ := hqueries _ _ hquery
  have hfails : ∃ e, ((Edit.ofCall (.compile "events" latestPayloads)).on
      (Compiler.run ⟨.empty, .streamAndDatabase, .default, .simple, []⟩ calls)).1 = .error e := ⟨_, rfl⟩
  obtain ⟨e, he⟩ := hfails
  have hleaves := (hedits (.compile "events" latestPayloads)).2 e _ (Prod.ext he rfl)
  exact ⟨_, _, b, hstart, hnodup, rfl, ⟨e, Prod.ext he hleaves⟩, hquery, hview, hbaseOf, hbase⟩

end Compiler

end StreamPlan
