import StreamPlan.Proofs.Answers.Pending
import StreamPlan.Proofs.Rows.Window

/-!
# Answers of projections

* `Projected`: an answer whose rows are the outputs over the rows of another
  answer, in order and each with its key.
* `Plan.picked_rows`: bare columns, which only change what the query sees.
* `Plan.computed_over`: the rows that computed outputs go over, windows included, with a
  now-filter carried over them.
* `Plan.computed_rows`: computed outputs without windows, row by row.
* `Converter.project_projects_answer`: **the answer of a projection** is the
  projection of the answer of its input, with more rows at most where a bucket
  function moves the timestamp of a pending now-filter.
-/

namespace StreamPlan

variable {now : Int} {row above : Row} {fixture : Fixture}

/-- Trees that give the same rows. -/
def Rel.SameRows (fixture : Fixture) (rel other : Rel) : Prop :=
  ∀ rows, evaluate fixture rel = .ok rows ↔ evaluate fixture other = .ok rows

namespace Rel.SameRows

variable {rel other : Rel}

theorem filter (h : Rel.SameRows fixture rel other) (predicate : Expr) :
    Rel.SameRows fixture (.filter rel predicate) (.filter other predicate) := by
  intro rows
  rw [evaluate, evaluate, bind_eq_ok, bind_eq_ok]
  exact exists_congr fun below => and_congr_left' (h below)

theorem sort (h : Rel.SameRows fixture rel other) (order : SortOrder) (limit offset : Option Nat) :
    Rel.SameRows fixture (.sort rel order limit offset) (.sort other order limit offset) := by
  intro rows
  rw [evaluate, evaluate, bind_eq_ok, bind_eq_ok]
  exact exists_congr fun below => and_congr_left' (h below)

theorem firstRows (h : Rel.SameRows fixture rel other) (partition : List Nat) (limit : Option Nat)
    (distinct : Bool) :
    Rel.SameRows fixture (.firstRows rel partition limit distinct)
      (.firstRows other partition limit distinct) := by
  intro rows
  rw [evaluate, evaluate, bind_eq_ok, bind_eq_ok]
  exact exists_congr fun below => and_congr_left' (h below)

theorem onto (h : Rel.SameRows fixture rel other) (topN : TopN) :
    Rel.SameRows fixture (topN.onto rel) (topN.onto other) := by
  unfold TopN.onto
  split
  · exact h
  · simp only
    split
    · exact h.firstRows _ _ _
    · exact (h.sort _ _ _).firstRows _ _ _

end Rel.SameRows

/-- What is pending applies to the rows of a tree, not to the tree. -/
theorem Plan.sameRows_settledRel {plan out : Plan} (h : Rel.SameRows fixture plan.rel out.rel)
    (hn : out.nowFilter = plan.nowFilter) (ht : out.topN = plan.topN) :
    Rel.SameRows fixture plan.settledRel out.settledRel := by
  unfold Plan.settledRel Plan.filteredRel
  rw [hn, ht]
  cases plan.nowFilter with
  | none => exact h.onto _
  | some filter => exact (h.filter filter.expr).onto _

section Pairs

variable {α β : Type} {R : α → β → Prop} {p : α → Bool} {q : β → Bool} {xs : List α} {ys : List β}

/-- Filters that agree on pairs keep the same pairs. -/
theorem forall₂_filter (h : List.Forall₂ R xs ys) (hpq : List.Forall₂ (fun x y => p x = q y) xs ys) :
    List.Forall₂ R (xs.filter p) (ys.filter q) := by
  induction h with
  | nil => exact .nil
  | @cons x y xs ys hr _ ih =>
    cases hpq with
    | cons hxy hrest =>
      rw [List.filter_cons, List.filter_cons, ← hxy]
      split
      · exact .cons hr (ih hrest)
      · exact ih hrest

/-- Where one filter keeps more, what the other keeps is still there, in order. -/
theorem exists_sublist_filter (h : List.Forall₂ R xs ys)
    (hpq : List.Forall₂ (fun x y => p x = true → q y = true) xs ys) :
    ∃ sub, sub.Sublist (ys.filter q) ∧ List.Forall₂ R (xs.filter p) sub := by
  induction h with
  | nil => exact ⟨[], List.nil_sublist _, .nil⟩
  | @cons x y xs ys hr _ ih =>
    cases hpq with
    | cons hxy hrest =>
      obtain ⟨sub, hsub, hf⟩ := ih hrest
      by_cases hp : p x = true
      · rw [List.filter_cons_of_pos hp, List.filter_cons_of_pos (hxy hp)]
        exact ⟨y :: sub, hsub.cons_cons y, .cons hr hf⟩
      · rw [List.filter_cons_of_neg hp]
        exact ⟨sub, hsub.trans ((List.sublist_cons_self y ys).filter q), hf⟩

end Pairs

/-- An answer whose rows are outputs over the rows of another one, in order and
each with its key. -/
structure Projected (now : Int) (outputs : List Output) (answer projected : List AnsweredRow) :
    Prop where
  visible : projectRows now outputs (answer.map AnsweredRow.visible)
    = .ok (projected.map AnsweredRow.visible)
  key : projected.map AnsweredRow.key = answer.map AnsweredRow.key

namespace Plan

variable {plan out : Plan} {outputs : List Output} {rows aboves : List Row}

/-- A row that shows outputs over what another row shows, with its key. -/
structure ShowsProjected (now : Int) (plan out : Plan) (outputs : List Output) (row above : Row) :
    Prop where
  visible : outputsOn now outputs (plan.shown row).visible = .ok (out.shown above).visible
  key : (out.shown above).key = (plan.shown row).key

/-- An answer is projected without windows where every row shows the outputs. -/
theorem projected_iff_forall₂ (hw : ∀ o ∈ outputs, o.expr.isWindow = false) :
    Projected now outputs (rows.map plan.shown) (aboves.map out.shown) ↔
      List.Forall₂ (ShowsProjected now plan out outputs) rows aboves := by
  have hvisible : projectRows now outputs ((rows.map plan.shown).map AnsweredRow.visible)
        = .ok ((aboves.map out.shown).map AnsweredRow.visible) ↔
      List.Forall₂ (fun row above =>
        outputsOn now outputs (plan.shown row).visible = .ok (out.shown above).visible) rows aboves := by
    rw [projectRows_eq hw, List.map_map, List.map_map, mapM_eq_ok, List.forall₂_map_left_iff,
      List.forall₂_map_right_iff]
    rfl
  have hkey : (aboves.map out.shown).map AnsweredRow.key = (rows.map plan.shown).map AnsweredRow.key ↔
      List.Forall₂ (fun row above => (plan.shown row).key = (out.shown above).key) rows aboves := by
    rw [eq_comm, List.map_map, List.map_map, ← List.forall₂_eq_eq_eq, List.forall₂_map_left_iff,
      List.forall₂_map_right_iff]
    rfl
  constructor
  · rintro ⟨hv, hk⟩
    have hv := hvisible.1 hv
    have hk := hkey.1 hk
    exact List.forall₂_iff_get.2 ⟨hv.length_eq, fun i hi hi' =>
      ⟨(List.forall₂_iff_get.1 hv).2 i hi hi', ((List.forall₂_iff_get.1 hk).2 i hi hi').symm⟩⟩
  · exact fun h =>
      ⟨hvisible.2 (h.imp fun _ _ hs => hs.visible), hkey.2 (h.imp fun _ _ hs => hs.key.symm)⟩

/-- **A projection of bare columns** changes what the query sees of the rows. -/
theorem picked_rows {columns : List Nat} (hshaped : plan.rel.Shaped fixture)
    (ho : plan.picked? columns outputs = .ok (some out))
    (hcolumns : outputs.map Output.expr = columns.map Expr.column)
    (hrows : evaluate fixture plan.settledRel = .ok rows)
    (haboves : evaluate fixture out.settledRel = .ok aboves) :
    Projected fixture.now outputs (rows.map plan.shown) (aboves.map out.shown) := by
  obtain ⟨targets, rel, select, htargets, hrenamed, hselect, rfl⟩ := picked?_eq_ok ho
  have hsame : Rel.SameRows fixture plan.rel rel := fun _ =>
    ((renamed?_renames hrenamed).evaluate hshaped).symm
  have hsettled : Rel.SameRows fixture plan.settledRel (settledRel { plan with rel, select }) :=
    sameRows_settledRel hsame rfl rfl
  have heq := (hsettled rows).1 hrows
  obtain rfl : rows = aboves := Except.ok.inj (heq.symm.trans haboves)
  refine (projected_iff_forall₂ (isWindow_of_columns hcolumns)).2
    (List.forall₂_same.2 fun row _ => ?_)
  refine ⟨(outputsOn_columns hcolumns).2 (at_eq_ok.2 ?_), rfl⟩
  rw [visible_shown, visible_shown, (ColumnMap.of_targets hselect).1, Row.pick, Row.pick,
    List.forall₂_map_right_iff]
  refine (mapM_eq_ok.1 htargets).imp fun c t ht => ?_
  rw [List.getElem?_map, ColumnMap.apply_eq_ok.1 ht]
  rfl

/-- A column that has a place above a projection has its value there. -/
theorem value_of_placeOf {appended : List Output} {moved : Option KeptTime} {c j : Nat}
    (ha : appended.map Output.expr = (plan.appendedColumns outputs moved).map Expr.column)
    (hp : Projects now (outputs ++ appended) row above) (h : plan.placeOf outputs moved c = some j) :
    ∃ v, above[j]? = some v ∧ row[c]? = some v := by
  obtain ⟨o, ho, he⟩ := expr_of_placeOf ha h
  obtain ⟨v, hv, hval⟩ := hp.value j o ho (by rw [he]; rfl)
  refine ⟨v, hv, ?_⟩
  rw [he, evalExpr] at hval
  split at hval
  · rename_i w hw
    cases hval
    exact hw
  · cases hval

theorem expr_of_remap {f : Nat → Except Fault Nat} {o o' : Output} (h : o.remap f = .ok o') :
    o.expr.remap f = .ok o'.expr := by
  obtain ⟨e, he, h⟩ := bind_eq_ok.1 h
  cases h
  exact he

/-- **Computed rows** show the outputs over what the rows below show. -/
theorem projected_of_projectRows {moved appended : List Output} {time : Option KeptTime}
    (hs : plan.Sound) (hrows : ∀ row ∈ rows, row.length = plan.width)
    (hmoved : outputs.mapM (·.remap plan.select.apply) = .ok moved)
    (ha : appended.map Output.expr = (plan.appendedColumns moved time).map Expr.column)
    (hkey : List.Forall₂ (fun i j => plan.placeOf moved time i = some j) plan.key.targets
      out.key.targets)
    (hselect : out.select.targets = List.range moved.length)
    (hp : projectRows now (moved ++ appended) rows = .ok aboves) :
    Projected now outputs (rows.map plan.shown) (aboves.map out.shown) := by
  have hprojects := projects_of_projectRows hp
  have hsees : List.Forall₂ (Expr.Sees plan.select.apply) rows
      ((rows.map plan.shown).map AnsweredRow.visible) := by
    rw [List.map_map, List.forall₂_map_right_iff]
    exact List.forall₂_same.2 fun row hrow => hs.sees (hrows row hrow)
  constructor
  · rw [← projectRows_remap hsees hmoved, projectRows_take hp, List.map_map]
    refine congrArg _ (List.map_congr_left fun above habove => ?_)
    obtain ⟨row, -, hrow⟩ := exists_of_mem_right hprojects habove
    have hlength : moved.length ≤ above.length := by
      rw [hrow.length, List.length_append]
      exact Nat.le_add_right _ _
    rw [Function.comp_apply, visible_shown out, hselect, Row.pick_range hlength]
  · rw [List.map_map, List.map_map]
    refine (map_eq_map_of_forall₂ hprojects fun row _ above _ hrow => ?_).symm
    rw [Function.comp_apply, Function.comp_apply, key_shown, key_shown]
    refine (Row.pick_congr (hkey.imp fun c j hj => ?_)).symm
    obtain ⟨v, hv, hc⟩ := value_of_placeOf ha hrow hj
    rw [hv, hc]

/-- An output applies a bucket function to the fixed timestamp of a plan with a
pending now-filter. -/
def BucketsPending (plan : Plan) (outputs : List Output) (bucket : Bucket) : Prop :=
  ∃ filter o function args i column, plan.nowFilter = some filter ∧ plan.time.fixed = true ∧
    o ∈ outputs ∧ o.expr = .call function args ∧ function.bucket? = some bucket ∧
    args.head? = some (.column i) ∧ plan.select.apply i = .ok column ∧
    plan.time.bestColumn? = some column

/-- A now-filter that moves to the end of a bucket is one over a bucketed timestamp. -/
theorem bucketsPending_of_moved {moved : List Output} {kept : KeptTime} {filter : NowFilter}
    {bucket : Bucket} (hmoved : outputs.mapM (·.remap plan.select.apply) = .ok moved)
    (ht : movedTime? plan.time (keptTimes plan.time (moved.map Output.expr)) = some kept)
    (hf : plan.nowFilter = some filter) (hb : kept.bucket = some bucket) :
    plan.BucketsPending outputs bucket := by
  obtain ⟨hfixed, hkept, hbest⟩ := movedTime?_eq_some ht
  obtain ⟨function, args, he, -, ha, -, hbucket⟩ := mem_keptTimes hkept
  rw [List.getElem?_map, Option.map_eq_some_iff] at he
  obtain ⟨o', ho', he⟩ := he
  obtain ⟨o, ho, hremap⟩ := mem_of_mapM_eq_ok hmoved (List.mem_of_getElem? ho')
  have hcall := Expr.remap_cases (expr_of_remap hremap)
  rw [he] at hcall
  generalize hexpr : o.expr = e at hcall
  cases hcall with
  | @call _ before _ hargs =>
    obtain ⟨first, hfirst, hcolumn⟩ := Expr.head?_of_remapAll hargs ha
    cases Expr.remap_cases hcolumn with
    | @column i _ hi =>
      exact ⟨filter, o, function, before, i, kept.input, hf, hfixed, ho, hexpr,
        hbucket.symm.trans hb, hfirst, hi, hbest⟩

/-- The rows above the outputs of a projection, of which those go on that the
now-filter above it keeps. -/
theorem rows_above {outputs : List Output} {rel : Rel} {hint : Option RankingHint}
    (hrel : out.rel = .project rel outputs hint)
    (ht : ∀ rows, evaluate fixture rel = .ok rows → ∀ row ∈ rows, ∀ above,
      Projects fixture.now outputs row above → ∀ f, out.nowFilter = some f → above.Timed f.timestamp)
    (h : evaluate fixture out.filteredRel = .ok aboves) :
    ∃ rows all, evaluate fixture rel = .ok rows ∧ projectRows fixture.now outputs rows = .ok all ∧
      aboves = all.filter (out.keeps fixture.now) := by
  have htimes : out.FiltersTimes fixture := by
    intro f hf all hall above habove
    rw [hrel] at hall
    obtain ⟨rows, hrows, row, hrow, hp⟩ := mem_of_project hall habove
    exact ht rows hrows row hrow above hp f hf
  obtain ⟨all, hall, rfl⟩ := rows_of_filteredRel htimes h
  rw [hrel, evaluate] at hall
  obtain ⟨rows, hrows, hall⟩ := bind_eq_ok.1 hall
  exact ⟨rows, all, hrows, hall, rfl⟩

/-- The value of a bucket function that moves a timestamp. -/
theorem bucket_value {time : EventTime} {appended : List Output} {kept : KeptTime} {bucket : Bucket}
    (hk : kept ∈ keptTimes time (outputs.map Output.expr)) (hb : kept.bucket = some bucket)
    (hp : Projects now (outputs ++ appended) row above) :
    ∃ v u, row[kept.input]? = some v ∧ bucket.apply v = .ok u ∧ above[kept.output]? = some u := by
  obtain ⟨function, args, he, -, ha, -, hbucket⟩ := mem_keptTimes hk
  rw [List.getElem?_map, Option.map_eq_some_iff] at he
  obtain ⟨o, ho, he⟩ := he
  obtain ⟨u, hu, hval⟩ := hp.value kept.output o (Catalog.getElem?_append_some ho) (by rw [he]; rfl)
  have hrole : function.role = .bucket bucket := by
    rw [hb] at hbucket
    unfold ScalarFunction.bucket? at hbucket
    split at hbucket
    · rename_i hrole
      cases hbucket
      exact hrole
    · cases hbucket
  rw [he, evalExpr, hrole] at hval
  obtain ⟨v, hv, hval⟩ := bind_eq_ok.1 hval
  have hcolumn := (evalOnly_eq_ok ha hv).2
  rw [evalExpr] at hcolumn
  split at hcolumn
  · rename_i w hw
    cases hcolumn
    exact ⟨_, u, hw, hval, hu⟩
  · cases hcolumn

/-- A now-filter whose timestamp keeps its value is carried over a projection and keeps
the same rows. -/
theorem keeps_of_carried {moved appended : List Output} {time : Option KeptTime}
    (hsame : time = none ∨ plan.nowFilter = none)
    (htime : ∀ f, plan.nowFilter = some f → f.timestamp ∈ plan.time.columns)
    (ha : appended.map Output.expr = (plan.appendedColumns moved time).map Expr.column)
    (hfilter : out.nowFilter = if time.isSome then plan.nowFilter
      else plan.nowFilter.bind (·.remap (plan.placeOf moved time))) :
    out.nowFilter.isSome = plan.nowFilter.isSome ∧
      ∀ row above, (∀ i ∈ plan.time.columns, row.Timed i) →
        Projects now (moved ++ appended) row above →
        (∀ f, out.nowFilter = some f → above.Timed f.timestamp) ∧
          plan.keeps now row = out.keeps now above := by
  have hplaced : (plan.nowFilter = none ∧ out.nowFilter = none) ∨
      ∃ f j, plan.nowFilter = some f ∧ plan.placeOf moved time f.timestamp = some j ∧
        out.nowFilter = some { f with timestamp := j } := by
    rw [hfilter]
    exact nowFilter_of_placed hsame htime
  rcases hplaced with ⟨hn, hno⟩ | ⟨f, j, hf, hj, hfo⟩
  · refine ⟨by rw [hn, hno], fun row above _ _ => ?_⟩
    rw [keeps_of_none hn, keeps_of_none hno, hno]
    exact ⟨nofun, rfl⟩
  · refine ⟨by rw [hf, hfo]; rfl, fun row above htimed hp => ?_⟩
    obtain ⟨v, hv, hc⟩ := value_of_placeOf ha hp hj
    rw [keeps_of_some hf, keeps_of_some hfo, NowFilter.keeps_remap hv hc, hfo]
    refine ⟨?_, rfl⟩
    rintro _ ⟨⟩
    obtain ⟨w, hw, htime'⟩ := htimed _ (htime f hf)
    obtain rfl : w = v := Option.some.inj (hw.symm.trans hc)
    exact ⟨w, hv, htime'⟩

/-- A now-filter that is widened for a bucket function keeps at least the same rows. -/
theorem keeps_of_widened {time : EventTime} {appended : List Output} {kept : KeptTime}
    {filter wide : NowFilter} {bucket : Bucket}
    (hk : kept ∈ keptTimes time (outputs.map Output.expr)) (hb : kept.bucket = some bucket)
    (hwide : NowFilter.widen { filter with timestamp := kept.output } bucket.width = .ok wide)
    (htime : filter.timestamp = kept.input) (hp : Projects now (outputs ++ appended) row above) :
    above.Timed wide.timestamp ∧
      (0 < bucket.width → filter.keeps now row = true → wide.keeps now above = true) := by
  obtain ⟨v, u, hv, hu, ha⟩ := bucket_value hk hb hp
  rw [NowFilter.timestamp_of_widen hwide]
  exact ⟨⟨u, ha, Bucket.isTime_of_apply hu⟩,
    fun hwidth => NowFilter.keeps_widen hwidth hwide (htime ▸ hv) hu ha⟩

/-- The rows that computed outputs go over, and what becomes of the now-filter.
It is applied below, it is carried over the outputs, or it is widened. A pending
ranking is applied before it in any case. -/
inductive GoesOver (fixture : Fixture) (plan out : Plan) (outputs : List Output)
    (rows aboves : List Row) : Prop
  | applied {filter : NowFilter} : plan.nowFilter = some filter → out.nowFilter = none →
      evaluate fixture (filter.onto (plan.topN.onto plan.rel)) = .ok rows →
      GoesOver fixture plan out outputs rows aboves
  | carried : out.nowFilter.isSome = plan.nowFilter.isSome →
      evaluate fixture (plan.topN.onto plan.rel) = .ok rows →
      List.Forall₂ (fun row above => plan.keeps fixture.now row = out.keeps fixture.now above)
        rows aboves →
      GoesOver fixture plan out outputs rows aboves
  | widened {bucket : Bucket} : out.nowFilter.isSome = true → plan.BucketsPending outputs bucket →
      evaluate fixture (plan.topN.onto plan.rel) = .ok rows →
      (0 < bucket.width → List.Forall₂ (fun row above =>
        plan.keeps fixture.now row = true → out.keeps fixture.now above = true) rows aboves) →
      GoesOver fixture plan out outputs rows aboves

/-- **Computed outputs** are projected from all the rows that they go over, windows
included. The now-filter above them keeps some. -/
theorem computed_over {catalog : Catalog} (hs : plan.Sound) (hr : plan.Regular catalog fixture)
    (ho : plan.computed outputs = .ok out) (haboves : evaluate fixture out.settledRel = .ok aboves) :
    ∃ rows all, GoesOver fixture plan out outputs rows all ∧
      Projected fixture.now outputs (rows.map plan.shown) (all.map out.shown) ∧
      aboves = all.filter (out.keeps fixture.now) := by
  obtain ⟨base, needs, moved, hbase, hmoved, -, hto⟩ := computed_eq_ok ho
  obtain ⟨below, carried, hcarry, hout⟩ := projectedTo_eq_ok hto
  obtain ⟨hset, hempty, hnow⟩ := withoutTopN_settled hbase
  have hsb := hset.sound hs
  have hrb := hr.withoutTopN hbase
  have hbaserel := rel_of_withoutTopN hbase
  obtain ⟨hbelow, htopN, -⟩ := hcarry.settled
  have hsource : Sound { base with needs } :=
    ⟨hsb.key, hsb.select, hsb.stateTime, hsb.stateNowFilter, hsb.time, hsb.nowFilter, hsb.sort, hsb.topN⟩
  have hbs := hbelow.sound hsource
  change Carries { base with needs }
    (movedTime? base.time (keptTimes base.time (moved.map Output.expr))) below carried at hcarry
  change below.withOutputs moved (keptTimes base.time (moved.map Output.expr))
    (movedTime? base.time (keptTimes base.time (moved.map Output.expr))) carried = .ok out at hout
  generalize htime : movedTime? base.time (keptTimes base.time (moved.map Output.expr)) = time
    at hcarry hout
  obtain ⟨appended, etime, key, select, happended, -, hkey, hselect, hout⟩ := withOutputs_eq_ok hout
  have hrel : out.rel = .project below.rel (moved ++ appended) none := by rw [hout]
  have hfilter : out.nowFilter = if time.isSome then carried
      else carried.bind (·.remap (below.placeOf moved time)) := by rw [hout]
  have hshaped : below.rel.Shaped fixture := hcarry.restricted.shaped hrb.shaped
  -- what the rows show does not depend on what becomes of the now-filter
  have hshow : ∀ {belows alls : List Row}, evaluate fixture below.rel = .ok belows →
      projectRows fixture.now (moved ++ appended) belows = .ok alls →
      Projected fixture.now outputs (belows.map plan.shown) (alls.map out.shown) := by
    intro belows alls hbelows hall
    have hshown : below.shown = plan.shown := by
      rw [shown_settled hbelow, ← shown_settled hset]
      rfl
    have hselect' : below.select = plan.select := hbelow.select.trans hset.select
    rw [← hshown]
    exact projected_of_projectRows hbs (hshaped belows hbelows) (by rw [hselect']; exact hmoved)
      happended (by rw [hout]; exact hkey) (by rw [hout]; exact hselect) hall
  rw [settledRel_eq_filteredRel (by rw [hout]; exact htopN ▸ hempty)] at haboves
  cases hcarry with
  | @applied kept filter _ hmove hf hb hbl =>
    have hnone : out.nowFilter = none := by rw [hfilter]; split <;> rfl
    have hrb' : below.rel = filter.onto base.rel := by
      rw [rel_of_withoutNowFilter hbl, filteredRel, hf]
    obtain ⟨rows, all, hrows, hall, he⟩ := rows_above hrel
      (fun _ _ _ _ _ _ f hf => by rw [hnone] at hf; cases hf) haboves
    refine ⟨rows, all, .applied (hnow ▸ hf) hnone ?_, hshow hrows hall, he⟩
    rw [← hbaserel, ← hrb']
    exact hrows
  | same h =>
    obtain ⟨hsome, hcarried⟩ := keeps_of_carried h hsb.nowFilter happended hfilter
    obtain ⟨rows, all, hrows, hall, he⟩ := rows_above hrel
      (fun rows hrows row hrow above hp => (hcarried row above (hrb.timed rows hrows row hrow) hp).1)
      haboves
    have hrows' : evaluate fixture base.rel = .ok rows := hrows
    refine ⟨rows, all, .carried (hnow ▸ hsome) (hbaserel ▸ hrows) ?_, hshow hrows hall, he⟩
    refine ((List.forall₂_and_left _ _).2 ⟨fun _ h => h, projects_of_projectRows hall⟩).imp ?_
    rintro row above ⟨hrow, hp⟩
    rw [keeps, ← hnow]
    exact (hcarried row above (hrb.timed rows hrows' row hrow) hp).2
  | @widened kept filter wide bucket hmove hf hb hwide =>
    -- the now-filter is on the fixed timestamp, since the candidates of a fixed time tie
    obtain ⟨hfixed, hkept, hbest⟩ := movedTime?_eq_some (htime.trans hmove)
    have hts : filter.timestamp = kept.input :=
      hrb.coherent.eq_best hfixed (hsb.nowFilter filter hf) hbest
    have hwidefilter : out.nowFilter = some wide := by rw [hfilter, hmove]; rfl
    obtain ⟨rows, all, hrows, hall, he⟩ := rows_above hrel
      (fun _ _ row _ above hp f hf => by
        obtain rfl := Option.some.inj (hwidefilter.symm.trans hf)
        exact (keeps_of_widened hkept hb hwide hts hp).1) haboves
    have hpending : plan.BucketsPending outputs bucket := by
      rw [hset.time] at htime
      exact bucketsPending_of_moved hmoved (htime.trans hmove) (hnow ▸ hf) hb
    refine ⟨rows, all, .widened (by rw [hwidefilter]; rfl) hpending (hbaserel ▸ hrows) ?_,
      hshow hrows hall, he⟩
    intro hwidth
    refine (projects_of_projectRows hall).imp fun row above hp => ?_
    rw [keeps_of_some (hnow ▸ hf), keeps_of_some hwidefilter]
    exact (keeps_of_widened hkept hb hwide hts hp).2 hwidth

/-- **Computed outputs** show the outputs over the rows, in order. Where a bucket
function moves the timestamp of a pending now-filter, there may be more rows. -/
theorem computed_rows {catalog : Catalog} (hs : plan.Sound) (hr : plan.Regular catalog fixture)
    (hone : plan.nowFilter = none ∨ plan.topN.isEmpty = true)
    (hw : ∀ o ∈ outputs, o.expr.isWindow = false) (ho : plan.computed outputs = .ok out)
    (hrows : evaluate fixture plan.settledRel = .ok rows)
    (haboves : evaluate fixture out.settledRel = .ok aboves) :
    List.Forall₂ (ShowsProjected fixture.now plan out outputs) rows aboves ∨
      ∃ bucket, plan.BucketsPending outputs bucket ∧ (0 < bucket.width →
        ∃ sub, sub.Sublist aboves ∧
          List.Forall₂ (ShowsProjected fixture.now plan out outputs) rows sub) := by
  obtain ⟨belows, all, hover, hprojected, rfl⟩ := computed_over hs hr ho haboves
  have hshows := (projected_iff_forall₂ hw).1 hprojected
  cases hover with
  | applied hf hn hbelows =>
    have ht : plan.topN.isEmpty = true := hone.resolve_left (by rw [hf]; rintro ⟨⟩)
    rw [settledRel_eq_filteredRel ht, filteredRel, hf] at hrows
    rw [TopN.onto, if_pos ht] at hbelows
    obtain rfl : belows = rows := Except.ok.inj (hbelows.symm.trans hrows)
    rw [List.filter_eq_self.2 fun above _ => keeps_of_none hn]
    exact .inl hshows
  | carried _ hbelows hkeeps =>
    obtain ⟨belows', hbelows', rfl⟩ := rows_of_settledRel hs hr hone hrows
    obtain rfl : belows' = belows := Except.ok.inj (hbelows'.symm.trans hbelows)
    exact .inl (forall₂_filter hshows hkeeps)
  | widened _ hb hbelows hkeeps =>
    obtain ⟨belows', hbelows', rfl⟩ := rows_of_settledRel hs hr hone hrows
    obtain rfl : belows' = belows := Except.ok.inj (hbelows'.symm.trans hbelows)
    exact .inr ⟨_, hb, fun hwidth => exists_sublist_filter hshows (hkeeps hwidth)⟩

theorem exprs_of_bareColumns {width : Nat} {columns : List Nat}
    (h : bareColumns width outputs = some columns) :
    outputs.map Output.expr = columns.map Expr.column := by
  have hf := bareColumns_eq_some.1 h
  clear h
  induction hf with
  | nil => rfl
  | cons hc _ ih => rw [List.map_cons, List.map_cons, hc.1, ih]

/-- **The plan of a projection** shows the projection of what its input shows. -/
theorem projected_answer {catalog : Catalog} {bare : Option (List Nat)} (hs : plan.Sound)
    (hr : plan.Regular catalog fixture) (hone : plan.nowFilter = none ∨ plan.topN.isEmpty = true)
    (hw : ∀ o ∈ outputs, o.expr.isWindow = false)
    (hbare : ∀ columns, bare = some columns → outputs.map Output.expr = columns.map Expr.column)
    (ho : Converter.projected plan bare outputs = .ok out)
    (hrows : evaluate fixture plan.settledRel = .ok rows)
    (haboves : evaluate fixture out.settledRel = .ok aboves) :
    Projected fixture.now outputs (rows.map plan.shown) (aboves.map out.shown) ∨
      ∃ bucket, plan.BucketsPending outputs bucket ∧ (0 < bucket.width →
        ∃ kept, kept.Sublist (aboves.map out.shown) ∧
          Projected fixture.now outputs (rows.map plan.shown) kept) := by
  -- bare columns of which one gets two names are computed after all, so this is needed twice
  have hcomputed : plan.computed outputs = .ok out →
      Projected fixture.now outputs (rows.map plan.shown) (aboves.map out.shown) ∨
        ∃ bucket, plan.BucketsPending outputs bucket ∧ (0 < bucket.width →
          ∃ kept, kept.Sublist (aboves.map out.shown) ∧
            Projected fixture.now outputs (rows.map plan.shown) kept) := by
    intro ho
    rcases computed_rows hs hr hone hw ho hrows haboves with hall | ⟨bucket, hb, hsub⟩
    · exact .inl ((projected_iff_forall₂ hw).2 hall)
    · refine .inr ⟨bucket, hb, fun hwidth => ?_⟩
      obtain ⟨sub, hsub, hf⟩ := hsub hwidth
      exact ⟨sub.map out.shown, hsub.map _, (projected_iff_forall₂ hw).2 hf⟩
  unfold Converter.projected at ho
  split at ho
  · exact hcomputed ho
  · rename_i columns
    obtain ⟨picked, hpicked, ho⟩ := bind_eq_ok.1 ho
    rcases picked with _ | picked
    · exact hcomputed ho
    · cases ho
      exact .inl (picked_rows hr.shaped (lift_eq_ok.1 hpicked) (hbare columns rfl) hrows haboves)

end Plan

namespace Converter

variable {c : Converter} {q : Rel} {plan : Plan} {outputs : List Output}
  {answer projected : List AnsweredRow}

/-- **The answer of a projection** is the projection of the answer of its input,
row by row and with the keys of these rows, however the projection is planned.
Where a bucket function is applied to the fixed timestamp of a plan with a
pending now-filter, these rows are still there, in order, maybe among others. -/
theorem project_projects_answer (hb : c.catalog.Built) (hone : c.catalog.PullsOne)
    (hf : fixture.Fits c.catalog) (hw : ∀ o ∈ outputs, o.expr.isWindow = false)
    (hplan : c.convert q = .ok plan) (hanswer : c.Answers fixture q answer)
    (hprojected : c.Answers fixture (.project q outputs none) projected) :
    ((∀ bucket, ¬plan.BucketsPending outputs bucket) →
        Projected fixture.now outputs answer projected) ∧
      ((∀ bucket, plan.BucketsPending outputs bucket → 0 < bucket.width) →
        ∃ kept, kept.Sublist projected ∧ Projected fixture.now outputs answer kept) := by
  obtain ⟨input, rows, hinput, hrows, rfl⟩ := answer_settled hanswer
  obtain rfl : input = plan := Except.ok.inj (hinput.symm.trans hplan)
  obtain ⟨final, aboves, hfinal, haboves, rfl⟩ := answer_settled hprojected
  rw [convert] at hfinal
  obtain ⟨bare, hbare, hfinal⟩ := bind_eq_ok.1 hfinal
  obtain ⟨_, hsame, hfinal⟩ := bind_eq_ok.1 hfinal
  cases Except.ok.inj (hsame.symm.trans hplan)
  obtain ⟨out, hout, hfinal⟩ := bind_eq_ok.1 hfinal
  obtain ⟨hs, hr⟩ := regular_of_convert hb.linked hf hplan
  obtain ⟨hsettled, hshown⟩ := finish_answers hfinal
  rw [hsettled] at haboves
  rw [hshown]
  have hexprs : ∀ columns, bare = some columns → outputs.map Output.expr = columns.map Expr.column := by
    rintro columns rfl
    obtain ⟨fields, -, hbare⟩ := bind_eq_ok.1 hbare
    exact Plan.exprs_of_bareColumns (pure_eq_ok.1 hbare)
  rcases Plan.projected_answer hs hr (hr.single hone) hw hexprs hout hrows haboves with
    hall | ⟨bucket, hbucket, hkept⟩
  · exact ⟨fun _ => hall, fun _ => ⟨_, List.Sublist.refl _, hall⟩⟩
  · exact ⟨fun hno => absurd hbucket (hno bucket), fun hwidth => hkept (hwidth bucket hbucket)⟩

/-- The number of an event, and the end of its bucket of ten milliseconds. -/
def bucketedEvents : List Output :=
  [⟨.column 0, "id", .int64, false⟩,
    ⟨.call (.timeBucket "end_of_bucket" (.ofWidth 10)) [.column 1], "at", .timestamp, true⟩]

/-- Of two events the pulled-up now-filter keeps one. The other is in a bucket
that the widened now-filter keeps. -/
theorem bucketed_event_is_kept :
    let events := eventsAt [(1, 990), (2, 895)]
    let answer := [⟨[.int 1, .timestamp 990], [.int 1]⟩]
    let projected := [⟨[.int 1, .timestamp 999], [.int 1]⟩, ⟨[.int 2, .timestamp 899], [.int 2]⟩]
    overEvents.Answers events scannedEvents answer ∧
      overEvents.Answers events (.project scannedEvents bucketedEvents none) projected ∧
      ∃ kept, kept.Sublist projected ∧ Projected events.now bucketedEvents answer kept := by
  intro events answer projected
  have hall : overEvents.Answers events scannedEvents answer := ⟨_, _, _, rfl, rfl, rfl⟩
  have hbucketed : overEvents.Answers events (.project scannedEvents bucketedEvents none) projected :=
    ⟨_, _, _, rfl, rfl, rfl⟩
  obtain ⟨plan, hplan⟩ : ∃ plan, overEvents.convert scannedEvents = .ok plan := ⟨_, rfl⟩
  have hprojects := project_projects_answer overEvents_built overEvents_pullsOne (eventsAt_fits _)
    (by decide) hplan hall hbucketed
  refine ⟨hall, hbucketed, hprojects.2 ?_⟩
  rintro bucket ⟨_, o, function, args, _, _, -, -, ho, he, hb, -, -, -⟩
  rcases List.mem_cons.1 ho with rfl | ho
  · cases he
  · cases List.mem_singleton.1 ho
    cases he
    cases hb
    decide

end Converter

end StreamPlan
