import StreamPlan.Plan.Cheapest
import StreamPlan.Proofs.Catalog.Growth
import StreamPlan.Proofs.Entities.Lineage
import StreamPlan.Proofs.Query.Rel

/-!
# Plans against later catalogs

A conversion reads the catalog where a query scans a relation, and where two rows of
one entity become one: then the collections that only the right row has are looked up.

* `Converter.KnowsLevels`, `traces_knownLevels`: the levels of every lineage are views of
  the catalog that the query was planned against, so these lookups find what they found.
* `Converter.scanPlan_against`, `mergeLevels_against`, `joined_against`: each reading gives the same
  against a catalog that has grown.
* `Converter.plans_stable`: **registrations change no plan**, no refusal and no selection
  of a query over the relations that were there before.
-/

namespace StreamPlan.Converter

/-- The same conversion against another catalog. -/
def against (c : Converter) (later : Catalog) : Converter := { c with catalog := later }

variable {c : Converter} {later : Catalog} {plan out : Plan}

/-- The levels of a lineage are views of the catalog. -/
def KnowsLevels (c : Converter) (l : Lineage) : Prop :=
  ∀ level ∈ l, level.view < c.catalog.views.length

theorem KnowsLevels.concat {l : Lineage} {level : Level} (h : c.KnowsLevels l)
    (hlevel : level.view < c.catalog.views.length) : c.KnowsLevels (l ++ [level]) := by
  intro other hother
  rcases List.mem_append.1 hother with hother | hother
  · exact h other hother
  · exact List.mem_singleton.1 hother ▸ hlevel

theorem knowsLevels_of_unrollLevels {path : List Nat} {state final : Unrolled}
    (h : c.KnowsLevels state.lineage)
    (hfold : path.foldlM (fun state next => liftM (c.unrollLevel state next)) state
      = (.ok final : Planning Unrolled)) : c.KnowsLevels final.lineage :=
  unrollLevels_each (I := fun next => c.KnowsLevels next.lineage) h
    (fun _ _ _ _ _ _ hknown hview _ => hknown.concat (List.getElem?_eq_some_iff.1 hview).1) hfold

/-- **The levels of every lineage** are views of the catalog. -/
theorem traces_knownLevels (c : Converter) : c.Traces fun l _ => c.KnowsLevels l where
  scan ho := by
    obtain ⟨table, hscan⟩ := scanPlan_cases ho
    cases hscan with
    | base | root | nested => exact traced_of_none rfl
    | unrolled _ _ _ _ _ _ hroot _ _ hunrolled =>
      rintro l ⟨⟩
      refine knowsLevels_of_unrollLevels (fun level hlevel => ?_) hunrolled
      rw [List.mem_singleton.1 hlevel]
      exact (List.getElem?_eq_some_iff.1 hroot).1
  restrict h _ := h
  merge hl _ hj ho := by
    obtain ⟨rfl, -⟩ := JoinInputs.of_eq_ok hj
    obtain ⟨l, r, matching, hleft, -, -, -, hplan⟩ := JoinInputs.selfJoin?_eq_ok ho
    obtain ⟨merged, _, _, _, -, hmerged, -, -, -, rfl⟩ := JoinInputs.mergedPlan_eq_ok hplan
    rintro _ ⟨⟩
    refine JoinInputs.mergeLevels_keeps (I := fun state => c.KnowsLevels state.lineage) ?_
      (hl l hleft) hmerged
    intro state next level _ h hnext
    obtain ⟨_, _, view, _, _, _, -, -, hview, -, -, -, hlineage, -⟩ :=
      JoinInputs.mergeLevel_eq_ok hnext
    rw [hlineage]
    exact h.concat (List.getElem?_eq_some_iff.1 hview).1

section Grown

variable (hg : c.catalog.Grows later) (hw : c.catalog.Grounded)

include hg

theorem unrollLevel_against {id : Nat} (hid : id < c.catalog.views.length) (state : Unrolled) :
    (c.against later).unrollLevel state id = c.unrollLevel state id := by
  unfold unrollLevel
  rw [show (c.against later).catalog.view id = c.catalog.view id from hg.view_eq hid]

include hw

theorem unrolledPlan_against {id baseId : Nat} (table : BaseTable)
    (hid : id < c.catalog.views.length) :
    (c.against later).unrolledPlan id baseId table = c.unrolledPlan id baseId table := by
  unfold unrolledPlan
  rw [show (c.against later).catalog.ancestry id = c.catalog.ancestry id from hg.ancestry_eq hw hid,
    show (c.against later).catalog.view id = c.catalog.view id from hg.view_eq hid]
  refine bind_congr_ok fun needs _ => bind_congr_ok fun path hpath => ?_
  have hmem := Catalog.lt_of_mem_ancestry (lift_eq_ok.1 hpath)
  refine bind_congr_ok fun rootId hrootId => ?_
  have hroot : rootId ∈ path := List.mem_of_getElem? (itemAt_eq_ok.1 (lift_eq_ok.1 hrootId))
  rw [show (c.against later).catalog.view rootId = c.catalog.view rootId from
    hg.view_eq (hmem rootId hroot)]
  refine bind_congr_ok fun root _ => bind_congr_ok fun scan _ => bind_congr_ok fun start _ => ?_
  rw [foldlM_congr fun level hlevel state => by
    rw [unrollLevel_against hg (hmem level (List.mem_of_mem_tail hlevel)) state]]

theorem viewPlan_against {id : Nat} (view : View) (table : BaseTable)
    (hid : id < c.catalog.views.length) :
    (c.against later).viewPlan id view table = c.viewPlan id view table := by
  unfold viewPlan
  rw [show (c.against later).catalog.rootOf id = c.catalog.rootOf id from hg.rootOf_eq hw hid]
  refine bind_congr_ok fun needs _ => bind_congr_ok fun plan _ => bind_congr_ok fun rootId hroot => ?_
  rw [show (c.against later).catalog.view rootId = c.catalog.view rootId from
    hg.view_eq (Catalog.lt_of_rootOf (lift_eq_ok.1 hroot))]
  rfl

/-- **A scan** of a relation that was there before has the plan it had. -/
theorem scanPlan_against {relation : RelationId} (hr : c.catalog.Has relation) :
    (c.against later).scanPlan relation = c.scanPlan relation := by
  cases relation with
  | base id =>
    simp only [scanPlan, basePlan]
    rw [show (c.against later).catalog.base id = c.catalog.base id from hg.base_eq hr]
    rfl
  | view id =>
    simp only [scanPlan]
    rw [show (c.against later).catalog.view id = c.catalog.view id from hg.view_eq hr,
      show (c.against later).catalog.baseOf id = c.catalog.baseOf id from hg.baseOf_eq hw hr]
    refine bind_congr_ok fun view _ => bind_congr_ok fun baseId hbase => ?_
    rw [show (c.against later).catalog.base baseId = c.catalog.base baseId from
      hg.base_eq (hw.baseOf_lt (lift_eq_ok.1 hbase))]
    refine bind_congr_ok fun table _ => ?_
    rw [unrolledPlan_against hg hw table hr, viewPlan_against hg hw view table hr]
    rfl

omit hw

theorem mergeLevel_against {level : Level} (hlevel : level.view < c.catalog.views.length)
    (state : JoinInputs.Merged) (position : Nat) :
    JoinInputs.mergeLevel (c.against later) state level position
      = JoinInputs.mergeLevel c state level position := by
  unfold JoinInputs.mergeLevel
  rw [show (c.against later).catalog.view level.view = c.catalog.view level.view from hg.view_eq hlevel]

theorem mergeLevels_against {levels : List (Level × Nat)}
    (hlevels : ∀ level ∈ levels, level.1.view < c.catalog.views.length) :
    ∀ state : JoinInputs.Merged, JoinInputs.mergeLevels (c.against later) state levels
      = JoinInputs.mergeLevels c state levels := by
  induction levels with
  | nil => exact fun _ => rfl
  | cons level levels ih =>
    intro state
    obtain ⟨hlevel, hrest⟩ := List.forall_mem_cons.1 hlevels
    unfold JoinInputs.mergeLevels
    rw [mergeLevel_against hg hlevel]
    refine bind_congr_ok fun next _ => ?_
    cases next with
    | none => rfl
    | some next => exact ih hrest next

theorem mergedPlan_against {j : JoinInputs} {left right : Lineage} {matching : Lineage.Matching}
    (hright : c.KnowsLevels right) :
    j.mergedPlan (c.against later) left right matching = j.mergedPlan c left right matching := by
  unfold JoinInputs.mergedPlan
  simp only
  rw [mergeLevels_against hg fun level hlevel => hright level.1
    (List.fst_mem_of_mem_zipIdx (List.mem_of_mem_filter hlevel))]

/-- **A join** of plans against the catalog is planned as before. -/
theorem joined_against {j : JoinInputs} (hright : ∀ l, j.right.lineage = some l → c.KnowsLevels l) :
    (c.against later).joined j = c.joined j := by
  have hself : j.selfJoin? (c.against later) = j.selfJoin? c := by
    unfold JoinInputs.selfJoin?
    split
    · rename_i left right _ hr
      split
      · split
        · exact mergedPlan_against hg (hright right hr)
        · rfl
      · rfl
    · rfl
  unfold joined
  rw [hself]

include hw

/-- The plans of queries and of the branches of unions. -/
theorem convert_and_branches_against :
    (∀ q : Rel, (∀ relation, q.ScansIn relation → c.catalog.Has relation) →
      (c.against later).convert q = c.convert q) ∧
    ∀ (position : Nat) (qs : List Rel),
      (∀ q ∈ qs, ∀ relation, q.ScansIn relation → c.catalog.Has relation) →
      (c.against later).convertBranches position qs = c.convertBranches position qs := by
  -- what an operator scans, its inputs scan
  have hinput : ∀ {q input : Rel}, (∀ relation, q.ScansIn relation → c.catalog.Has relation) →
      input ∈ q.inputs → ∀ relation, input.ScansIn relation → c.catalog.Has relation :=
    fun hq hi relation hr => hq relation (hr.above hi)
  refine convert.mutual_induct _ _ ?scan ?filter ?project ?offset ?sorted ?ranked ?join ?aggregate
    ?union ?sort ?unnest ?firstRows ?noBranch ?branch
  case scan =>
    intro relation name fields hq
    rw [convert, convert, scanPlan_against hg hw (hq relation ⟨name, fields, Rel.self_mem_preorder _⟩)]
    rfl
  case filter =>
    intro input predicate ih hq
    rw [convert, convert, ih (hinput hq List.mem_cons_self)]
    rfl
  case project =>
    intro input outputs ih hq
    rw [convert, convert, ih (hinput hq List.mem_cons_self)]
    rfl
  case sorted =>
    intro input order limit outputs hint ih hq
    rw [convert, convert, ih (hinput (hinput hq List.mem_cons_self) List.mem_cons_self)]
    rfl
  case ranked =>
    intro input outputs hint hoffset hsort ih hq
    rw [convert, convert, ih (hinput hq List.mem_cons_self)]
    · rfl
    · exact hoffset
    · exact hsort
    · exact hoffset
    · exact hsort
  case join =>
    intro left right kind condition hint ihl ihr hq
    rw [convert, convert, ihl (hinput hq List.mem_cons_self),
      ihr (hinput hq (List.mem_cons_of_mem _ List.mem_cons_self))]
    refine bind_congr_ok fun _ _ => bind_congr_ok fun l _ => bind_congr_ok fun r hr =>
      bind_congr_ok fun j hj => ?_
    obtain ⟨-, rfl, -⟩ := JoinInputs.of_eq_ok hj
    rw [joined_against hg ((traces_knownLevels c).keeps.convert hr).2]
    rfl
  case aggregate =>
    intro input keys groupingSets calls hint ih hq
    rw [convert, convert, ih (hinput hq List.mem_cons_self)]
    rfl
  case union =>
    intro inputs all ih hq
    rcases inputs with _ | ⟨first, _ | ⟨second, rest⟩⟩
    · rw [convert, convert]
    · rw [convert, convert, ih (hinput hq List.mem_cons_self)]
      rfl
    · rw [convert_union, convert_union, ih.1 (hinput hq List.mem_cons_self),
        ih.2 fun q hmem => hinput hq (List.mem_cons_of_mem _ hmem)]
      rfl
  case sort =>
    intro input order limit offset ih hq
    rw [convert, convert, ih (hinput hq List.mem_cons_self)]
    rfl
  case noBranch =>
    intro position _
    rw [convertBranches, convertBranches]
  case branch =>
    intro position q qs ihq ihqs hq
    obtain ⟨hfirst, hrest⟩ := List.forall_mem_cons.1 hq
    rw [convertBranches, convertBranches, ihq hfirst, ihqs hrest]
  -- what is refused at once
  all_goals
    intros
    rw [convert, convert]

end Grown

/-- **Registrations change no plan.** A query over relations that are there is planned
alike, with the same refusal or fault if it has no plan, against every catalog that
registrations lead to; and so is the cheapest stage selected. -/
theorem plans_stable {catalog later : Catalog} {q : Rel} (hc : Catalog.empty.Reaches catalog)
    (hl : catalog.Reaches later) (hq : ∀ relation, q.ScansIn relation → catalog.Has relation)
    (pipeline : Pipeline) (settings : PlanSettings) (cost : CostModel) :
    (∀ stage, Converter.convert ⟨later, pipeline, stage, settings⟩ q
      = Converter.convert ⟨catalog, pipeline, stage, settings⟩ q) ∧
      findCheapest q later pipeline settings cost = findCheapest q catalog pipeline settings cost := by
  have hw := hc.grounded Catalog.grounded_empty
  have hconvert : ∀ stage, Converter.convert ⟨later, pipeline, stage, settings⟩ q
      = Converter.convert ⟨catalog, pipeline, stage, settings⟩ q := fun stage =>
    (convert_and_branches_against (c := ⟨catalog, pipeline, stage, settings⟩) hl.grows hw).1 q hq
  have htry : tryStage later pipeline settings cost q = tryStage catalog pipeline settings cost q := by
    funext stage
    rw [tryStage, tryStage, hconvert stage]
  refine ⟨hconvert, ?_⟩
  rw [findCheapest, findCheapest, htry]

/-- Lines joined with notes by order keep their plan when a table of events is registered
after them. Both collections are looked up: one by its scan, one by the join. -/
theorem lines_with_notes_stable :
    ∃ later id plan, overOrders.catalog.addTable eventsTable "events" = .ok (later, id) ∧
      overOrders.convert linesWithNotes = .ok plan ∧
      (overOrders.against later).convert linesWithNotes = .ok plan ∧
      findCheapest linesWithNotes later overOrders.pipeline overOrders.settings .simple
        = findCheapest linesWithNotes overOrders.catalog overOrders.pipeline overOrders.settings
          .simple := by
  obtain ⟨later, id, hadd⟩ : ∃ later id,
      overOrders.catalog.addTable eventsTable "events" = .ok (later, id) := ⟨_, _, rfl⟩
  obtain ⟨plan, hplan⟩ : ∃ plan, overOrders.convert linesWithNotes = .ok plan := ⟨_, rfl⟩
  have horders : Catalog.empty.Reaches overOrders.catalog := by
    have htable := @Catalog.Reaches.table .empty _ _ ordersTable "orders" 0 .refl rfl
    have hlines := @Catalog.Reaches.child .empty _ _ 0 1 1 "lines" "lines" htable rfl
    exact @Catalog.Reaches.child .empty _ overOrders.catalog 0 2 1 "notes" "notes" hlines rfl
  have hscans : ∀ relation, linesWithNotes.ScansIn relation → overOrders.catalog.Has relation := by
    rintro relation ⟨name, fields, hmem⟩
    simp only [linesWithNotes, scannedLines, scannedNotes, Rel.preorder, List.mem_cons,
      List.mem_append, List.not_mem_nil, reduceCtorEq, Rel.scan.injEq, or_false, false_or] at hmem
    rcases hmem with ⟨rfl, -⟩ | ⟨rfl, -⟩
    · exact Nat.lt_succ_of_lt (Nat.lt_succ_self 1)
    · exact Nat.lt_succ_self 2
  obtain ⟨hconvert, hcheapest⟩ := plans_stable horders (.table .refl hadd) hscans overOrders.pipeline
    overOrders.settings .simple
  exact ⟨later, id, plan, hadd, hplan, (hconvert overOrders.stage).trans hplan, hcheapest⟩

end StreamPlan.Converter
