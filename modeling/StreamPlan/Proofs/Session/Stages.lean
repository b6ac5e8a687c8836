import StreamPlan.Proofs.Plan.Coverage
import StreamPlan.Proofs.Plan.Columns
import StreamPlan.Proofs.Session.Calls

/-!
# The stage of a plan

A plan records a stage with its requirements. It is the stage that the query was
tried on, unless a scan has moved the plan to the read stage that computes its
table. The selected stage, and with it the stage of the published table, stays the
one that was tried.

* `Converter.stageOf`: where a table is scanned.
* `Converter.follows_scansOn`: all scans of a query are on the stage of its plan.
* `Converter.Stays`: no table of a query is computed by another read stage.
* `Compiler.stages_agree`: **a session records one stage of a query** exactly if
  its plan was not moved.
-/

namespace StreamPlan

namespace Converter

variable {c : Converter} {q : Rel} {plan out : Plan} {table : BaseTable}

/-- A read stage other than the conversion's own computes the table. -/
def ComputedOn (c : Converter) (table : BaseTable) (stage : Stage) : Prop :=
  table.stage.bind c.pipeline.find? = some stage ∧ stage.name ≠ c.stage.name ∧ stage.isRead = true

/-- No table of a query is computed by another read stage. -/
def Stays (c : Converter) (q : Rel) : Prop :=
  ∀ relation table stage, q.ScansIn relation → c.catalog.tableOf relation = .ok table →
    ¬c.ComputedOn table stage

/-- A stage on which a table is scanned: the read stage that computes the table, if
plans may change their stage, or else the conversion's own. -/
def ScannedOn (c : Converter) (table : BaseTable) (stage : Stage) : Prop :=
  c.ComputedOn table stage ∧ c.settings.allowStageChange = true ∨
    stage = c.stage ∧ ∀ other, ¬c.ComputedOn table other

theorem scanNeeds_eq_ok {needs : Requirements} (h : c.scanNeeds table = .ok needs) :
    c.ScannedOn table needs.stage := by
  unfold scanNeeds at h
  split at h
  · rename_i hnone
    cases h
    refine .inr ⟨rfl, fun other ⟨hother, _⟩ => ?_⟩
    rw [hnone] at hother
    cases hother
  · rename_i stage hstage
    split at h
    · rename_i hown
      cases h
      refine .inr ⟨rfl, fun other ⟨hother, hname, hread⟩ => ?_⟩
      obtain rfl : stage = other := Option.some.inj (hstage.symm.trans hother)
      simp [hname, hread] at hown
    · rename_i hother
      split at h
      · rename_i hallowed
        cases h
        obtain ⟨hname, hread⟩ := not_or.1 hother
        rw [Bool.not_eq_true, Bool.not_eq_false'] at hread
        exact .inl ⟨⟨hstage, hname, hread⟩, hallowed⟩
      · cases h

/-- **A scan** is on the stage where its table is scanned. -/
theorem ScansAs.scannedOn {relation : RelationId} (h : c.ScansAs relation table out) :
    c.ScannedOn table out.needs.stage := by
  cases h with
  | base _ hneeds | root _ _ _ _ _ hneeds | nested _ _ _ _ _ _ _ hneeds =>
    exact scanNeeds_eq_ok hneeds
  | @unrolled _ _ _ _ _ _ _ needs _ _ _ start _ _ _ _ _ _ _ _ hneeds hstart =>
    have hstage : start.needs.stage = needs.stage := (builtOn_belowLevels hstart).1.needs.stage
    exact hstage ▸ scanNeeds_eq_ok hneeds

/-- A plan on a known stage, on which all tables of its query are scanned. There is
at least one. -/
structure ScansOn (c : Converter) (q : Rel) (plan : Plan) : Prop where
  known : c.Known plan.needs
  scans : ∀ relation, q.ScansIn relation →
    ∃ table, c.catalog.tableOf relation = .ok table ∧ c.ScannedOn table plan.needs.stage
  some : ∃ relation, q.ScansIn relation

/-- An operator whose inputs are planned on its stage. -/
theorem ScansOn.ofInputs (hq : q.inputs ≠ []) (hknown : c.Known out.needs)
    (h : ∀ input ∈ q.inputs, ∃ plan, c.ScansOn input plan ∧ plan.needs.stage = out.needs.stage) :
    c.ScansOn q out where
  known := hknown
  scans relation hscan := by
    obtain ⟨input, hi, hbelow⟩ := hscan.below hq
    obtain ⟨plan, hplan, hstage⟩ := h input hi
    exact hstage ▸ hplan.scans relation hbelow
  some := by
    obtain ⟨input, hi⟩ := List.exists_mem_of_ne_nil _ hq
    obtain ⟨plan, hplan, -⟩ := h input hi
    obtain ⟨relation, hscan⟩ := hplan.some
    exact ⟨relation, hscan.above hi⟩

/-- An operator over one input, whose plan goes on where that of the input is. -/
theorem ScansOn.step {input : Rel} (h : c.ScansOn input plan) (hq : q.inputs = [input])
    (hneeds : plan.needs.Extends out.needs) : c.ScansOn q out := by
  refine .ofInputs (by rw [hq]; exact List.cons_ne_nil _ _) (h.known.extends hneeds) ?_
  rw [hq]
  exact List.forall_mem_singleton.2 ⟨plan, h, hneeds.stage.symm⟩

/-- **All scans of a query are on the stage of its plan.** -/
theorem follows_scansOn (c : Converter) : c.Follows c.ScansOn where
  scan {relation name fields plan} h := by
    refine ⟨(scanPlan_covers h).1, ?_, relation, name, fields, Rel.self_mem_preorder _⟩
    rintro relation' ⟨name', fields', hmem⟩
    rw [Rel.preorder, List.mem_singleton] at hmem
    cases hmem
    obtain ⟨table, hscans⟩ := scanPlan_cases h
    exact ⟨table, hscans.tableOf, hscans.scannedOn⟩
  filter hi ho := hi.holds.step rfl (Plan.builtOn_filtered ho).needs
  project hi _ ho := hi.holds.step rfl (Plan.builtOn_projected ho).needs
  rank {q input plan out columns outputs hint order limit} hq hi _ ho := by
    have hneeds := (Plan.builtOn_ranked ho).needs
    cases hq with
    | bare => exact hi.holds.step rfl hneeds
    | sorted order limit =>
      have hsorted : c.ScansOn (.sort input order limit none) plan := hi.holds.step rfl (.refl _)
      exact hsorted.step rfl hneeds
  join {left right l r out kind condition hint j} hl hr hj ho := by
    have hcombine := JoinInputs.needs_of hj
    have hextends := (joined_recorded ho).needs
    obtain ⟨hname, hj⟩ := combine_eq_ok hcombine
    have hstage : out.needs.stage = l.needs.stage := hextends.stage.trans (by rw [hj])
    refine .ofInputs (List.cons_ne_nil _ _)
      ((hl.holds.known.combine hr.holds.known hcombine).extends hextends) ?_
    refine List.forall_mem_cons.2 ⟨⟨l, hl.holds, hstage.symm⟩, List.forall_mem_singleton.2 ⟨r, hr.holds, ?_⟩⟩
    rw [hstage, hl.holds.known.stage_eq hr.holds.known hname]
  aggregate hi ho := hi.holds.step rfl (Plan.aggregated_requires ho).1.needs
  single h := h.step rfl (.refl _)
  union {input inputs first rest out all} hfirst hrest ho := by
    have hbranches := List.Forall₂.cons (R := fun q => BranchOf (c.ScansOn q)) hfirst hrest
    have hneeds : ∀ {q b}, BranchOf (c.ScansOn q) b → c.ScansOn q b := by
      rintro q b ⟨plan, position, -, hplan, hb⟩
      have hextends := (Plan.builtOn_asBranch hb).needs
      exact ⟨hplan.known.extends hextends, hextends.stage ▸ hplan.scans, hplan.some⟩
    obtain ⟨hknown, hstages⟩ := (united_recorded (c := c) ho).2.1 fun b hb => by
      obtain ⟨q, -, hq⟩ := exists_of_mem_right hbranches hb
      exact (hneeds hq).known
    refine .ofInputs (List.cons_ne_nil _ _) hknown fun q hq => ?_
    obtain ⟨b, hb, hbranch⟩ := exists_of_mem_left hbranches hq
    exact ⟨b, hneeds hbranch, hstages b hb⟩
  sort hi ho := hi.holds.step rfl (Plan.builtOn_sorted ho).needs
  settle h ho := by
    have hextends := (Plan.builtOn_withoutPending ho).needs
    exact ⟨h.known.extends hextends, hextends.stage ▸ h.scans, h.some⟩

/-- A plan that may not change its stage stays on that of its conversion. -/
theorem stays_of_fixed (h : c.convert q = .ok plan) (hfixed : c.settings.allowStageChange = false) :
    c.Stays q := by
  obtain ⟨-, -, hscans, -⟩ := (follows_scansOn c).convert h
  intro relation table stage hscan htable hcomputed
  obtain ⟨table', htable', hscanned⟩ := hscans relation hscan
  obtain rfl : table = table' := Except.ok.inj (htable.symm.trans htable')
  rcases hscanned with ⟨-, hallowed⟩ | ⟨-, hnone⟩
  · rw [hfixed] at hallowed
    cases hallowed
  · exact hnone stage hcomputed

/-- **A plan is on the stage of its conversion** exactly if no table of the query is
computed by another read stage. -/
theorem stage_of_convert (h : c.convert q = .ok plan) :
    (plan.needs.stage = c.stage ↔ c.Stays q) ∧
      (plan.needs.stage.name = c.stage.name ↔ c.Stays q) := by
  obtain ⟨-, -, hscans, relation, hscan⟩ := (follows_scansOn c).convert h
  -- one scan tells where the plan is, as all scans of it are on one stage
  have hstays : c.Stays q → plan.needs.stage = c.stage := fun hq => by
    obtain ⟨table, htable, hscanned⟩ := hscans relation hscan
    exact (hscanned.resolve_left fun hmoved => hq relation table _ hscan htable hmoved.1).1
  have hname : plan.needs.stage.name = c.stage.name → c.Stays q := by
    intro hname relation table stage hscan htable hcomputed
    obtain ⟨table', htable', hscanned⟩ := hscans relation hscan
    obtain rfl : table = table' := Except.ok.inj (htable.symm.trans htable')
    rcases hscanned with ⟨hmoved, -⟩ | ⟨-, hnone⟩
    · exact hmoved.2.1 hname
    · exact hnone stage hcomputed
  exact ⟨⟨fun he => hname (congrArg _ he), hstays⟩, ⟨hname, fun hq => congrArg _ (hstays hq)⟩⟩

end Converter

namespace Compiler

variable {c next : Compiler} {name : String} {query : Rel} {compiled : CompiledQuery}

/-- The table of a compiled query is on the selected stage, and its manifest names the
stage of the plan. -/
theorem stages_of_compile (h : c.compile name query = .ok (next, compiled)) :
    ∃ selected, c.plan query = .ok selected ∧ compiled.stage = selected.stage ∧
      compiled.table.stage = some selected.stage.name ∧
      compiled.manifest.stage = selected.plan.needs.stage.name := by
  obtain ⟨selected, published, _, hselected, hpublished, htable, -, -, hstage, hmanifest⟩ :=
    compile_eq_ok h
  have has := Plan.published_as (Converter.sound_of_convert (plan_eq_ok hselected).2) hpublished
  obtain ⟨_, -, htable⟩ := toTable_eq_ok htable
  obtain ⟨_, -, hmanifest⟩ := bind_eq_ok.1 hmanifest
  have hnamed : published.needs.stage.name = compiled.manifest.stage :=
    congrArg Manifest.stage (Except.ok.inj hmanifest)
  exact ⟨selected, hselected, hstage, by rw [htable], by rw [← hnamed, has.needs]⟩

/-- **One stage is recorded of a query** exactly if no table that it scans is computed
by another read stage: the selected stage is that of the plan, and the manifest of a
compiled query names the stage that its table is on. Both hold in any case if plans
may not change their stage. -/
theorem stages_agree (query : Rel) :
    (∀ catalog pipeline settings cost selected,
      findCheapest query catalog pipeline settings cost = .ok selected →
        (selected.stage = selected.plan.needs.stage ↔
          Converter.Stays ⟨catalog, pipeline, selected.stage, settings⟩ query) ∧
        (settings.allowStageChange = false → selected.stage = selected.plan.needs.stage)) ∧
      ∀ (c next : Compiler) name compiled, c.compile name query = .ok (next, compiled) →
        compiled.table.stage = some compiled.stage.name ∧
        (compiled.manifest.stage = compiled.stage.name ↔
          Converter.Stays ⟨c.catalog, c.pipeline, compiled.stage, c.config.settings⟩ query) ∧
        (c.config.settings.allowStageChange = false →
          compiled.manifest.stage = compiled.stage.name) := by
  constructor
  · intro catalog pipeline settings cost selected h
    obtain ⟨-, hplan⟩ := planned_of_findCheapest h
    have hiff := (Converter.stage_of_convert hplan).1
    exact ⟨eq_comm.trans hiff, fun hfixed => (hiff.2 (Converter.stays_of_fixed hplan hfixed)).symm⟩
  · intro c next name compiled h
    obtain ⟨selected, hselected, hstage, htable, hmanifest⟩ := stages_of_compile h
    obtain ⟨-, hplan⟩ := plan_eq_ok hselected
    rw [hstage, hmanifest]
    have hiff := (Converter.stage_of_convert hplan).2
    exact ⟨htable, hiff, fun hfixed => hiff.2 (Converter.stays_of_fixed hplan hfixed)⟩

/-- Scores that the database computes. -/
def scoresTable : BaseTable where
  name := "scores"
  fields := [⟨"id", .int64, false⟩, ⟨"score", .int64, true⟩]
  keys := 1
  kind := .state
  time := .none
  pending := .none
  stage := some "database"

/-- A session with the scores, whose plans may change their stage. -/
def overScores (startStage : Option String) : Compiler :=
  Compiler.run ⟨.empty, .streamAndDatabase, ⟨.streamAndDatabase, ⟨true, 50, startStage⟩⟩, .simple, []⟩
    [.registerTable scoresTable]

/-- All scores. -/
def allScores : Rel := .scan (.view 0) "scores" scoresTable.fields

/-- A scan that has moved to the database is selected for the stream stage, and
published there, with a manifest for the database. -/
theorem moved_scan_is_on_two_stages :
    (∃ selected, findCheapest allScores (overScores none).catalog .streamAndDatabase ⟨true, 50, none⟩
        .simple = .ok selected ∧
      selected.stage = .stream "stream" ∧ selected.plan.needs.stage = .database "database") ∧
    ∃ next compiled, (overScores none).compile "all" allScores = .ok (next, compiled) ∧
      compiled.stage = .stream "stream" ∧ compiled.table.stage = some "stream" ∧
      compiled.manifest.stage = "database" :=
  ⟨⟨_, rfl, rfl, rfl⟩, _, _, rfl, rfl, rfl, rfl⟩

/-- Tried on the database from the start, the scan stays where it is. -/
theorem scores_stay_on_database :
    let session := overScores (some "database")
    (∃ selected, findCheapest allScores session.catalog .streamAndDatabase
        ⟨true, 50, some "database"⟩ .simple = .ok selected ∧
      selected.stage = .database "database" ∧ selected.stage = selected.plan.needs.stage) ∧
    ∃ next compiled, session.compile "all" allScores = .ok (next, compiled) ∧
      compiled.table.stage = some "database" ∧ compiled.manifest.stage = "database" ∧
      Converter.Stays ⟨session.catalog, .streamAndDatabase, .database "database",
        ⟨true, 50, some "database"⟩⟩ allScores := by
  intro session
  have hselected : findCheapest allScores session.catalog .streamAndDatabase
    ⟨true, 50, some "database"⟩ .simple = .ok _ := rfl
  have hcompile : session.compile "all" allScores = .ok _ := rfl
  obtain ⟨hstage, -⟩ := (stages_agree allScores).1 _ _ _ _ _ hselected
  obtain ⟨htable, hmanifest, -⟩ := (stages_agree allScores).2 _ _ _ _ hcompile
  have hstays := hmanifest.1 rfl
  exact ⟨⟨_, hselected, rfl, hstage.2 hstays⟩, _, _, hcompile, htable, rfl, hstays⟩

end Compiler

end StreamPlan
