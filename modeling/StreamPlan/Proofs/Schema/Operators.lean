import StreamPlan.Proofs.Plan.Aggregate
import StreamPlan.Proofs.Plan.Filter
import StreamPlan.Proofs.Plan.Keeps
import StreamPlan.Proofs.Plan.Ranking
import StreamPlan.Proofs.Schema.Names
import StreamPlan.Proofs.Schema.Queries

/-!
# Row types of operators over one input

* `Converter.Presents`: a plan shows the row type of its query, with the names where
  these survive, and its levels still look like their views.
* `PassesOn`, `Presents.passes`: operators that change neither columns nor what is seen
  of them.
* `Presents.picked`, `presents_computed`: projections of bare columns, and all others.
* `Presents.aggregated`: every kind of aggregation shows the keys, then the calls.
-/

namespace StreamPlan.Converter

variable {c : Converter} {q input : Rel} {fs gs : Fields} {plan out : Plan}

/-- **A plan shows the row type of its query**: the types of all columns, and their
names where these survive. As long as nothing is renamed, its levels have the names of
their views. -/
structure Presents (c : Converter) (q : Rel) (fs gs : Fields) (plan : Plan) : Prop where
  query : q.fields = .ok fs
  tree : plan.rel.fields = .ok gs
  visible : Fields.Show (c.KeepsNames q) gs plan.select.targets fs
  levels : ∀ l, plan.lineage = some l → l.ShowsViews c.catalog q.RenamesNothing gs

/-- A query with the row type of its input, whose names survive only if those of the
input do. -/
structure PassesOn (c : Converter) (input q : Rel) : Prop where
  fields : q.fields = input.fields
  names : c.KeepsNames q → c.KeepsNames input
  renames : q.RenamesNothing → input.RenamesNothing

theorem PassesOn.refl (c : Converter) (q : Rel) : c.PassesOn q q := ⟨rfl, id, id⟩

theorem passesOn_filter (c : Converter) (input : Rel) (predicate : Expr) :
    c.PassesOn input (.filter input predicate) where
  fields := by rw [Rel.fields]
  names h := by rwa [KeepsNames] at h
  renames h := h.input List.mem_cons_self

theorem passesOn_sort (c : Converter) (input : Rel) (order : SortOrder) (limit offset : Option Nat) :
    c.PassesOn input (.sort input order limit offset) where
  fields := by rw [Rel.fields]
  names h := by rwa [KeepsNames] at h
  renames h := h.input List.mem_cons_self

/-- A union passes on what its first branch shows. -/
theorem passesOn_union (c : Converter) (input : Rel) (inputs : List Rel) (all : Bool) :
    c.PassesOn input (.union (input :: inputs) all) where
  fields := by rw [Rel.fields, Rel.firstFields]
  names h := by rwa [KeepsNames, KeepsFirstNames] at h
  renames h := h.input List.mem_cons_self

/-- An operator that changes neither columns nor what is seen of them. -/
theorem Presents.passes (h : c.Presents input fs gs plan) (hq : c.PassesOn input q)
    (htree : out.rel.fields = plan.rel.fields) (hselect : out.select = plan.select)
    (hlineage : out.lineage = plan.lineage ∨ out.lineage = none) : c.Presents q fs gs out where
  query := hq.fields.trans h.query
  tree := htree.trans h.tree
  visible := hselect ▸ h.visible.mono hq.names
  levels l hl := by
    rcases hlineage with hsame | hnone
    · exact (h.levels l (hsame ▸ hl)).mono hq.renames
    · rw [hnone] at hl
      cases hl

/-- Constraints that are applied change neither. -/
theorem Presents.settled (h : c.Presents q fs gs plan) (hs : plan.Settled out) :
    c.Presents q fs gs out :=
  h.passes (.refl c q) hs.fields hs.select (.inl hs.lineage)

/-- **A filter** keeps the columns and what is seen of them. -/
theorem Presents.filtered {predicate : Expr} (h : c.Presents input fs gs plan)
    (ho : plan.filtered predicate = .ok out) : c.Presents (.filter input predicate) fs gs out := by
  unfold Plan.filtered at ho
  obtain ⟨base, hbase, ho⟩ := bind_eq_ok.1 ho
  obtain ⟨moved, -, ho⟩ := bind_eq_ok.1 ho
  obtain ⟨⟨next, remaining⟩, hnext, ho⟩ := bind_eq_ok.1 ho
  obtain ⟨time, nowFilter, rfl, -⟩ := Plan.extractNowFilters_shape hnext
  have hbelow := h.settled (Plan.withoutTopN_settled hbase).1
  have hq := passesOn_filter c input predicate
  simp only at ho
  split at ho
  · cases ho
    exact hbelow.passes hq rfl rfl (.inl rfl)
  · obtain ⟨needs, -, ho⟩ := bind_eq_ok.1 ho
    cases ho
    exact hbelow.passes hq (by rw [Rel.fields]) rfl (.inr rfl)

/-- **A sort** keeps the columns and what is seen of them. -/
theorem Presents.sorted {order : SortOrder} {limit offset : Option Nat}
    (h : c.Presents input fs gs plan) (ho : plan.sorted order limit = .ok out) :
    c.Presents (.sort input order limit offset) fs gs out := by
  have hq := passesOn_sort c input order limit offset
  unfold Plan.sorted at ho
  obtain ⟨moved, -, ho⟩ := bind_eq_ok.1 ho
  rcases limit with _ | n
  · cases ho
    exact h.passes hq rfl rfl (.inl rfl)
  · obtain ⟨base, hbase, ho⟩ := bind_eq_ok.1 ho
    obtain ⟨needs, -, ho⟩ := bind_eq_ok.1 ho
    cases ho
    exact (h.settled (Plan.withoutPending_settled hbase).1).passes hq rfl rfl (.inr rfl)

variable {outputs : List Output} {columns targets : List Nat} {rel : Rel}

/-- **Bare columns under the names of outputs** look like these outputs. All fields of the
tree keep their types, and their names if the query renames nothing. -/
theorem Presents.renamed (h : c.Presents input fs gs plan)
    (hbare : List.Forall₂ (fun o i => o.expr = .column i ∧ i < fs.length) outputs columns)
    (hdeclared : ∀ o ∈ outputs, o.Declared fs) (htargets : columns.mapM plan.select.apply = .ok targets)
    (hrenamed : Plan.renamed? plan.rel targets outputs = .ok (some rel)) :
    ∃ next, rel.fields = .ok next ∧
      (∀ named, Fields.Show named next targets (outputs.map Output.field)) ∧
      List.Forall₂ (Field.Like (c.KeepsNames input ∧ ∀ o ∈ outputs, ∀ i field,
        o.expr = .column i → fs[i]? = some field → o.field.name = field.name)) gs next := by
  obtain ⟨next, hnext, hgiven, hlike⟩ := Plan.renamed?_fields h.tree hrenamed
  -- an output shows a column that looks like the one of the query
  have hshown : List.Forall₂ (fun t o => ∃ i f g, o.expr = .column i ∧ fs[i]? = some f ∧
      gs[t]? = some g ∧ f.Like (c.KeepsNames input) g) targets outputs := by
    refine forall₂_of_left (mapM_eq_ok.1 htargets) hbare.flip fun i _ t o ht ho => ?_
    obtain ⟨f, g, hf, hg, hfg⟩ := h.visible.at_position (ColumnMap.apply_eq_ok.1 ht)
    exact ⟨i, f, g, ho.1, hf, hg, hfg⟩
  obtain ⟨hlength, hzip⟩ := List.forall₂_iff_zip.1 hshown
  refine ⟨next, hnext, fun named => ?_, hlike.imp fun _ _ hl =>
    hl.mono fun ⟨hkeeps, hsame⟩ pair hpair field hfield => ?_⟩
  · rw [Fields.show_iff_forall₂, List.forall₂_map_right_iff]
    refine List.forall₂_iff_zip.2 ⟨hlength, fun {t o} hpair => ?_⟩
    obtain ⟨i, f, g, he, hf, hg, hfg⟩ := hzip hpair
    refine ⟨g.withName o.field.name, by rw [hgiven _ hpair, hg]; rfl, ?_, fun _ => rfl⟩
    exact hfg.dataType.trans ((hdeclared o (List.of_mem_zip hpair).2).dataType he hf).symm
  · obtain ⟨i, f, g, he, hf, hg, hfg⟩ := hzip hpair
    obtain rfl : g = field := Option.some.inj (hg.symm.trans hfield)
    rw [hsame _ (List.of_mem_zip hpair).2 i f he hf, hfg.name hkeeps]

/-- **A projection of bare columns**, and a ranking of them, of the input or of a sort
right below. -/
theorem Presents.picked {below : Rel} {hint : Option RankingHint} (h : c.Presents input fs gs plan)
    (hbelow : below.fields = .ok fs) (hq : (Rel.project below outputs hint).Declared c.catalog)
    (hrenames : below.RenamesNothing → input.RenamesNothing)
    (hbare : List.Forall₂ (fun o i => o.expr = .column i ∧ i < fs.length) outputs columns)
    (htargets : columns.mapM plan.select.apply = .ok targets)
    (hrenamed : Plan.renamed? plan.rel targets outputs = .ok (some out.rel))
    (hselect : out.select.targets = targets)
    (hlineage : out.lineage = plan.lineage ∨ out.lineage = none) :
    ∃ next, c.Presents (.project below outputs hint) (outputs.map Output.field) next out := by
  have hself := (Rel.project below outputs hint).self_mem_preorder
  obtain ⟨next, hnext, hvisible, hlike⟩ :=
    h.renamed hbare (hq.outputs _ _ _ _ hself hbelow) htargets hrenamed
  refine ⟨next, by rw [Rel.fields], hnext, hselect ▸ hvisible _, fun l hl => ?_⟩
  rcases hlineage with hsame | hnone
  · refine ((h.levels l (hsame ▸ hl)).along hlike).mono fun hr => ?_
    have hinput := hrenames (hr.input List.mem_cons_self)
    exact ⟨hinput, keepsNames_of_renamesNothing hinput, hr _ _ _ _ hself hbelow⟩
  · rw [hnone] at hl
    cases hl

/-- **A computed projection** shows its outputs in front. -/
theorem presents_computed {hint : Option RankingHint} (ho : plan.computed outputs = .ok out) :
    ∃ next, c.Presents (.project input outputs hint) (outputs.map Output.field) next out := by
  obtain ⟨base, needs, moved, -, hmoved, -, ho⟩ := Plan.computed_eq_ok ho
  obtain ⟨below, carried, -, ho⟩ := Plan.projectedTo_eq_ok ho
  obtain ⟨appended, _, _, select, -, -, -, hselect, rfl⟩ := Plan.withOutputs_eq_ok ho
  have hfields : moved.map Output.field = outputs.map Output.field := by
    refine (map_eq_map_of_forall₂ (mapM_eq_ok.1 hmoved) fun o _ o' _ hremap => ?_).symm
    obtain ⟨expr, -, hremap⟩ := bind_eq_ok.1 hremap
    cases hremap
    rfl
  refine ⟨_, by rw [Rel.fields], by rw [Rel.fields], Fields.show_of_picks _ ?_, by rintro _ ⟨⟩⟩
  have hlength : moved.length = (outputs.map Output.field).length := by
    rw [List.length_map, length_of_mapM_eq_ok hmoved]
  rw [hselect, List.map_append, hfields, hlength]
  exact picks_front _ _

/-- The bare columns of a projection of bare columns. -/
theorem forall₂_of_bareOf {bare : Option (List Nat)} (hf : input.fields = .ok fs)
    (h : bareOf input outputs = .ok bare) (hbare : bare = some columns) :
    List.Forall₂ (fun o i => o.expr = .column i ∧ i < fs.length) outputs columns := by
  obtain ⟨found, hfound, h⟩ := bind_eq_ok.1 h
  obtain rfl : found = fs := Except.ok.inj ((lift_eq_ok.1 hfound).symm.trans hf)
  cases h
  exact Plan.bareColumns_eq_some.1 hbare

/-- **A projection** shows its outputs. -/
theorem Presents.projected {bare : Option (List Nat)} (h : c.Presents input fs gs plan)
    (hq : (Rel.project input outputs none).Declared c.catalog)
    (hbare : bareOf input outputs = .ok bare) (ho : projected plan bare outputs = .ok out) :
    ∃ next, c.Presents (.project input outputs none) (outputs.map Output.field) next out := by
  unfold Converter.projected at ho
  split at ho
  · exact presents_computed ho
  · obtain ⟨picked, hpicked, ho⟩ := bind_eq_ok.1 ho
    rcases picked with _ | picked
    · exact presents_computed ho
    · cases ho
      obtain ⟨targets, rel, select, htargets, hrenamed, hselect, rfl⟩ :=
        Plan.picked?_eq_ok (lift_eq_ok.1 hpicked)
      exact h.picked h.query hq id (forall₂_of_bareOf h.query hbare rfl) htargets hrenamed
        (ColumnMap.of_targets hselect).1 (.inl rfl)

/-- **A ranking** shows the columns that it is written over. -/
theorem Presents.ranked {hint : RankingHint} {order : SortOrder} {limit : Option Nat}
    (h : c.Presents input fs gs plan) (hranks : Ranks input outputs hint order limit q)
    (hq : q.Declared c.catalog) (hcolumns : rankedColumns input outputs = .ok columns)
    (ho : plan.ranked hint columns outputs order limit = .ok out) :
    ∃ next, c.Presents q (outputs.map Output.field) next out := by
  obtain ⟨base, targets, rel, ranking, key, time, select, hbase, htargets, hrenamed, -, -, hselect,
    rfl⟩ := Plan.ranked_eq_ok ho
  obtain ⟨hrel, -, -, hlineage⟩ := Plan.withRanking_shape { base with rel, key } ranking
  have hbelow := h.settled (Plan.withoutPending_settled hbase).1
  have hbare : List.Forall₂ (fun o i => o.expr = .column i ∧ i < fs.length) outputs columns := by
    obtain ⟨bare, hbare, hcolumns⟩ := bind_eq_ok.1 hcolumns
    split at hcolumns
    · cases hcolumns
      exact forall₂_of_bareOf h.query hbare rfl
    · cases hcolumns
  cases hranks with
  | sorted =>
    have hfields : (Rel.sort input order limit none).fields = .ok fs := by rw [Rel.fields, h.query]
    exact hbelow.picked hfields hq (fun hr => hr.input List.mem_cons_self) hbare htargets
      (hrel.symm ▸ hrenamed) hselect hlineage.symm
  | bare => exact hbelow.picked h.query hq id hbare htargets (hrel.symm ▸ hrenamed) hselect hlineage.symm

section Aggregations

variable {keys : List Nat} {calls moved : List AggregateCall} {keyFields : Fields}

theorem fields_of_calls {f : Nat → Except Fault Nat} (h : calls.mapM (·.remap f) = .ok moved) :
    moved.map AggregateCall.field = calls.map AggregateCall.field := by
  refine (map_eq_map_of_forall₂ (mapM_eq_ok.1 h) fun call _ call' _ hremap => ?_).symm
  obtain ⟨args, -, hremap⟩ := bind_eq_ok.1 hremap
  obtain ⟨filter, -, hremap⟩ := bind_eq_ok.1 hremap
  cases hremap
  rfl

/-- A grouped tree has the keys where its layout has them, and the calls behind them. -/
theorem fields_of_groupedAs {kind : TableKind} {hidden : List Nat} {hint : Option AggregateHint}
    (ho : plan.groupedAs kind (.of keys hidden calls.length) calls hint = .ok out)
    (htree : plan.rel.fields = .ok gs) (hkeys : Picks gs keys keyFields)
    (hhidden : ∀ t ∈ hidden, t < plan.width) :
    ∃ next, out.rel.fields = .ok next ∧
      Picks next out.select.targets (keyFields ++ calls.map AggregateCall.field) := by
  obtain ⟨-, hselect⟩ := Plan.groupedAs_columns ho
  obtain ⟨key, select, hout⟩ := Plan.groupedAs_eq_ok ho
  -- every grouping column is a column of the tree
  have hsorted : Gives ((Ascending.ofList (keys ++ hidden)).mapM (itemAt gs)) fun _ => True := by
    refine (Gives.mapM fun t ht => Gives.itemAt ?_).mono fun _ _ => trivial
    rcases List.mem_append.1 (Ascending.mem_ofList.1 ht) with ht | ht
    · exact hkeys.lt t ht
    · exact Nat.lt_of_lt_of_eq (hhidden t ht) (Rel.length_of_fields htree).symm
  obtain ⟨sorted, hsorted, -⟩ := hsorted
  have hpicks : Picks gs (Ascending.ofList (keys ++ hidden)) sorted :=
    (mapM_eq_ok.1 hsorted).imp fun _ _ ht => itemAt_eq_ok.1 ht
  refine ⟨sorted ++ calls.map AggregateCall.field, ?_, ?_⟩
  · rw [hout, show (Plan.GroupLayout.of keys hidden calls.length).keys = Ascending.ofList (keys ++ hidden)
      from rfl, Ascending.ofList_ofList]
    change (Rel.aggregate plan.rel _ [] calls hint).fields = _
    rw [Rel.fields, htree, ok_bind, hsorted]
    rfl
  · rw [hselect]
    have hcalls := picks_behind sorted (calls.map AggregateCall.field)
    rw [List.length_map, ← hpicks.length_eq] at hcalls
    refine Picks.append ?_ hcalls
    refine Picks.left ?_ _
    rw [Picks, List.forall₂_map_left_iff]
    refine List.forall₂_iff_zip.2 ⟨hkeys.length_eq, fun {t f} hpair => ?_⟩
    have ht := Ascending.mem_ofList.2 (List.mem_append_left hidden (List.of_mem_zip hpair).1)
    rw [hpicks.getElem? (Ascending.getElem?_idxOf ht)]
    exact (List.forall₂_iff_zip.1 hkeys).2 hpair

/-- A plan below an aggregation has the row type of the plan. -/
theorem fields_of_carryOver {timestamp : Nat} {below : Plan} {carried : Option NowFilter}
    (h : plan.carryOver timestamp = .ok (below, carried)) : below.rel.fields = plan.rel.fields := by
  rcases Plan.carryOver_eq_ok h with rfl | hbelow
  · rfl
  · exact (Plan.withoutNowFilter_settled hbelow).1.fields

/-- A running aggregate has the keys in front and the calls last. The timestamp stands
between them. -/
theorem fields_of_running (htree : plan.rel.fields = .ok gs) (hkeys : Picks gs keys keyFields)
    (h : plan.running keys calls = .ok out) :
    ∃ next, out.rel.fields = .ok next ∧
      Picks next out.select.targets (keyFields ++ calls.map AggregateCall.field) := by
  obtain ⟨needs, below, fields, shown, key, select, time, -, hbelow, hfields, hshown, hselect, rfl⟩ :=
    Plan.running_eq_ok h
  obtain rfl : fields = gs := Except.ok.inj (hfields.symm.trans
    ((Plan.withoutNowFilter_settled hbelow).1.fields.trans htree))
  rw [List.mapM_append] at hshown
  obtain ⟨front, hfront, hshown⟩ := bind_eq_ok.1 hshown
  obtain ⟨last, hlast, hshown⟩ := bind_eq_ok.1 hshown
  cases hshown
  have hkeyFields := (Output.picks_of_columns hfront).unique hkeys
  have hlength : ((front ++ last).map Output.field).length = keys.length + 1 := by
    rw [List.length_map, List.length_append, length_of_mapM_eq_ok hfront, length_of_mapM_eq_ok hlast,
      List.length_singleton]
  have hcalls := picks_behind ((front ++ last).map Output.field) (calls.map AggregateCall.field)
  rw [hlength, List.length_map] at hcalls
  refine ⟨(front ++ last).map Output.field ++ calls.map AggregateCall.field, ?_, ?_⟩
  · change (Rel.project below.rel _ none).fields = _
    rw [Rel.fields, List.map_append, List.map_map]
    rfl
  · change Picks _ select.targets _
    rw [hselect, hkeys.length_eq]
    refine Picks.append ?_ (hkeys.length_eq ▸ hcalls)
    rw [List.map_append, hkeyFields]
    exact (picks_front keyFields _).left _

/-- **Every kind of aggregation** shows the keys, then the calls. -/
theorem fields_of_aggregated (hs : plan.Sound) (htree : plan.rel.fields = .ok gs)
    (hkeys : Picks gs keys keyFields) (h : plan.Aggregated keys calls out) :
    ∃ next, out.rel.fields = .ok next ∧
      Picks next out.select.targets (keyFields ++ calls.map AggregateCall.field) := by
  cases h with
  | timed _ hcarry _ hhidden hgrouped =>
    have hbelow := (fields_of_carryOver hcarry).trans htree
    have hgroups := fields_of_groupedAs hgrouped hbelow hkeys fun t ht => by
      obtain ⟨rfl, hcandidates⟩ := hhidden t ht
      have hlt := hs.time _ (Plan.leadingTime_mem hs hcandidates)
      rwa [Plan.width, ← Rel.length_of_fields htree, Rel.length_of_fields hbelow] at hlt
    exact hgroups
  | sliding _ hfilter hgrouped =>
    have hgroups := fields_of_groupedAs hgrouped htree hkeys fun t ht => by
      obtain rfl := List.mem_singleton.1 ht
      exact hs.time _ (hs.nowFilter _ hfilter)
    exact hgroups
  | running hrun => exact fields_of_running htree hkeys hrun
  | plain hbelow hgrouped =>
    exact fields_of_groupedAs hgrouped ((Plan.withoutPending_settled hbelow).1.fields.trans htree) hkeys
      (List.forall_mem_nil _)

/-- **An aggregation** shows its keys as its input does, and its calls. -/
theorem Presents.aggregated {groupingSets : List (List Nat)} {hint : Option AggregateHint}
    (h : c.Presents input fs gs plan) (hs : plan.Sound) (ho : plan.aggregated c keys calls = .ok out) :
    ∃ shown next, c.Presents (.aggregate input keys groupingSets calls hint) shown next out := by
  obtain ⟨base, needs, columns, moved, hbase, hcolumns, hmoved, -, hout⟩ := Plan.aggregated_cases ho
  obtain ⟨hset, -, -⟩ := Plan.withoutTopN_settled hbase
  -- the keys of the query look like the columns that are grouped by
  have hpositions : Picks plan.select.targets keys columns :=
    (mapM_eq_ok.1 hcolumns).imp fun _ _ hi => ColumnMap.apply_eq_ok.1 hi
  obtain ⟨keyFields, hkeys, hlike⟩ := hpositions.related (Fields.show_iff_forall₂.1 h.visible)
  obtain ⟨shown, hshown, hlike⟩ := Fields.show_iff_forall₂.2 hlike
  obtain ⟨next, hnext, hpicks⟩ := fields_of_aggregated ((hset.sound hs).unsorted needs)
    (hset.fields.trans h.tree) hshown hout
  have hquery : keys.mapM (itemAt fs) = .ok keyFields :=
    mapM_eq_ok.2 (hkeys.imp fun _ _ hi => itemAt_eq_ok.2 hi)
  refine ⟨keyFields ++ calls.map AggregateCall.field, next, ?_, hnext, ?_, fun l hl => ?_⟩
  · rw [Rel.fields, h.query, ok_bind, hquery]
    rfl
  · rw [KeepsNames]
    refine ⟨_, hpicks, List.rel_append hlike ?_⟩
    rw [fields_of_calls hmoved]
    exact List.forall₂_same.2 fun field _ => .refl _ field
  · rw [Plan.lineage_of_aggregated ho] at hl
    cases hl

end Aggregations

end StreamPlan.Converter
