import StreamPlan.Plan.Convert
import StreamPlan.Proofs.Answers.Pending
import StreamPlan.Proofs.Entities.Unrolling
import StreamPlan.Proofs.Plan.Aggregate
import StreamPlan.Proofs.Plan.Keeps
import StreamPlan.Proofs.Plan.Lineage
import StreamPlan.Proofs.Plan.Scan
import StreamPlan.Proofs.Plan.Union
import StreamPlan.Proofs.Stage.Requirements
import StreamPlan.Proofs.Typing.Join

/-!
# Plans that keep their lineage

Nothing is pulled up to a table here. A plan that still has a lineage is then
the unrolling of its entity, maybe with now-filters on the way.

* `Plan.Unrolled`: what such a plan is; no ranking is pending, and a now-filter
  that was applied shows in what the plan needs.
* `Converter.keeps_lineage`: every operator keeps that or loses the lineage.
* `Converter.lineage_unrolls`: **the rows of a plan with a lineage are those of
  its entity**, unless the plan needs the current time; then now-filters have
  dropped some.
-/

namespace StreamPlan

/-- No constraint was pulled up to a table. -/
def Catalog.PullsNothing (catalog : Catalog) : Prop :=
  ∀ table ∈ catalog.bases, table.pending.isEmpty = true

namespace Plan

variable {catalog : Catalog} {plan out : Plan} {l : Lineage}

/-- What a plan with a lineage is: an unrolling with now-filters on the way, for
which the plan then needs the current time. -/
structure Unrolled (catalog : Catalog) (plan : Plan) (l : Lineage) : Prop where
  topN : plan.topN.isEmpty = true
  nowFilter : ∀ f, plan.nowFilter = some f → f.timestamp < plan.width
  rel : ∃ filters, Unrolling catalog filters l plan.rel ∧
    (filters ≠ [] → .nowFunction ∈ plan.needs.required)

/-- A plan that is an unrolling as long as it has a lineage. -/
def KeepsLineage (catalog : Catalog) (plan : Plan) : Prop :=
  ∀ l, plan.lineage = some l → plan.Unrolled catalog l

theorem keepsLineage_of_none (h : plan.lineage = none) : plan.KeepsLineage catalog := by
  intro l hl
  rw [h] at hl
  cases hl

/-- Other column names change nothing. -/
theorem Unrolled.renamed (h : plan.Unrolled catalog l) (hr : Renames plan.rel out.rel)
    (htop : out.topN = plan.topN) (hnow : out.nowFilter = plan.nowFilter)
    (hneeds : out.needs = plan.needs) : out.Unrolled catalog l := by
  obtain ⟨hempty, hfilter, filters, hrel, happlied⟩ := h
  refine ⟨htop ▸ hempty, fun f hf => ?_, filters, hrel.renamed hr, hneeds ▸ happlied⟩
  exact Nat.lt_of_lt_of_eq (hfilter f (hnow ▸ hf)) hr.width.symm

theorem KeepsLineage.withoutTopN (h : plan.KeepsLineage catalog)
    (ho : plan.withoutTopN = .ok out) : out.KeepsLineage catalog := by
  intro l hl
  rw [(withoutTopN_settled ho).1.lineage] at hl
  rcases withoutTopN_eq_ok ho with ⟨-, rfl⟩ | ⟨-, hne, -⟩
  · exact h l hl
  · rw [(h l hl).topN] at hne
    cases hne

/-- A now-filter that is applied is one more on the way. -/
theorem KeepsLineage.withoutNowFilter (h : plan.KeepsLineage catalog)
    (ho : plan.withoutNowFilter = .ok out) : out.KeepsLineage catalog := by
  intro l hl
  rw [(withoutNowFilter_settled ho).1.lineage] at hl
  obtain ⟨htop, hfilter, filters, hrel, hneeds⟩ := h l hl
  rcases withoutNowFilter_eq_ok ho with ⟨-, rfl⟩ | ⟨f, needs, hf, hr, rfl⟩
  · exact ⟨htop, hfilter, filters, hrel, hneeds⟩
  · exact ⟨htop, by rintro _ ⟨⟩, f :: filters, hrel.filtered (hfilter f hf),
      fun _ => Requirements.required_of_require hr⟩

theorem KeepsLineage.settle (h : plan.KeepsLineage catalog)
    (ho : plan.withoutPending = .ok out) : out.KeepsLineage catalog := by
  obtain ⟨mid, hmid, ho⟩ := withoutPending_eq_ok.1 ho
  exact (h.withoutNowFilter hmid).withoutTopN ho

/-- **A filter** that is no now-filter loses the lineage. -/
theorem KeepsLineage.filtered {predicate : Expr} (hs : plan.Sound) (h : plan.KeepsLineage catalog)
    (ho : plan.filtered predicate = .ok out) : out.KeepsLineage catalog := by
  unfold Plan.filtered at ho
  obtain ⟨base, hbase, ho⟩ := bind_eq_ok.1 ho
  obtain ⟨moved, -, ho⟩ := bind_eq_ok.1 ho
  obtain ⟨⟨next, remaining⟩, hnext, ho⟩ := bind_eq_ok.1 ho
  simp only at ho
  -- either the whole predicate is taken out as now-filters, or a filter is added
  split at ho
  · cases ho
    have hsound := (withoutTopN_settled hbase).1.sound hs
    have hpending := extractNowFilters_pending hsound.nowFilter hnext
    obtain ⟨time, nowFilter, rfl, hsub, -⟩ := extractNowFilters_shape hnext
    intro l hl
    obtain ⟨htop, -, hrel⟩ := h.withoutTopN hbase l hl
    exact ⟨htop, fun f hf => hsound.time _ (hsub _ (hpending f hf)), hrel⟩
  · obtain ⟨needs, -, ho⟩ := bind_eq_ok.1 ho
    cases ho
    exact keepsLineage_of_none rfl

/-- **A projection** of bare columns changes names at most. -/
theorem KeepsLineage.projected {bare : Option (List Nat)} {outputs : List Output}
    (h : plan.KeepsLineage catalog) (ho : Converter.projected plan bare outputs = .ok out) :
    out.KeepsLineage catalog := by
  unfold Converter.projected at ho
  split at ho
  · exact keepsLineage_of_none (lineage_of_computed ho)
  · obtain ⟨picked, hpicked, ho⟩ := bind_eq_ok.1 ho
    rcases picked with _ | picked
    · exact keepsLineage_of_none (lineage_of_computed ho)
    · cases ho
      obtain ⟨_, rel, _, -, hr, -, rfl⟩ := picked?_eq_ok (lift_eq_ok.1 hpicked)
      exact fun l hl => (h l hl).renamed (renamed?_renames hr) rfl rfl rfl

/-- **A ranking** loses the lineage unless it does nothing. -/
theorem KeepsLineage.ranked {hint : RankingHint} {columns : List Nat} {outputs : List Output}
    {order : SortOrder} {limit : Option Nat} (h : plan.KeepsLineage catalog)
    (ho : plan.ranked hint columns outputs order limit = .ok out) : out.KeepsLineage catalog := by
  obtain ⟨base, targets, rel, ranking, key, time, select, hbase, -, hrenamed, -, -, -, rfl⟩ :=
    ranked_eq_ok ho
  have hr := renamed?_renames hrenamed
  -- the lineage goes with a ranking that does something, and only with one
  by_cases hempty : ranking.constraint.isEmpty = true
  · simp only [withRanking, if_pos hempty]
    exact fun l hl => (h.settle hbase l hl).renamed hr rfl rfl rfl
  · simp only [withRanking, if_neg hempty]
    exact keepsLineage_of_none rfl

/-- **A sort** with a limit loses the lineage. -/
theorem KeepsLineage.sorted {order : SortOrder} {limit : Option Nat} (h : plan.KeepsLineage catalog)
    (ho : plan.sorted order limit = .ok out) : out.KeepsLineage catalog := by
  unfold Plan.sorted at ho
  obtain ⟨moved, -, ho⟩ := bind_eq_ok.1 ho
  rcases limit with _ | n
  · cases ho
    intro l hl
    obtain ⟨htop, hfilter, hrel⟩ := h l hl
    exact ⟨htop, hfilter, hrel⟩
  · obtain ⟨base, -, ho⟩ := bind_eq_ok.1 ho
    obtain ⟨needs, -, ho⟩ := bind_eq_ok.1 ho
    cases ho
    exact keepsLineage_of_none rfl

end Plan

namespace Converter

variable {c : Converter} {plan out : Plan} {l : Lineage}

/-- A table without pull-ups has nothing open. -/
theorem openConstraints_of_pullsNothing {table : BaseTable} (h : table.pending.isEmpty = true) :
    (c.openConstraints table).nowFilter = none ∧ (c.openConstraints table).topN.isEmpty = true := by
  simp only [Pending.isEmpty, Bool.and_eq_true, Option.isNone_iff_eq_none] at h
  unfold openConstraints
  simp only
  constructor
  · split
    · rfl
    · exact h.1.1
  · split
    · rfl
    · exact h.1.2

/-- **The plan of a view** that is unrolled is an unrolling. -/
theorem keepsLineage_of_unrolledPlan {id baseId rootId : Nat} {root : View} {rest : List Nat}
    {table : BaseTable} (hnone : table.pending.isEmpty = true)
    (hpath : c.catalog.ancestry id = .ok (rootId :: rest))
    (hroot : c.catalog.views[rootId]? = some root) (hplace : root.place = .root baseId)
    (ht : c.catalog.bases[baseId]? = some table) (hd : c.catalog.Descends rootId rest id)
    (ho : c.unrolledPlan id baseId table = .ok out) : out.KeepsLineage c.catalog := by
  obtain ⟨key, needs, start, unrolled, hstart, hfold, hrel, hlineage, -, hnow, htopN⟩ :=
    unrolledPlan_eq_ok hpath hroot ho
  obtain ⟨hnowNone, hempty⟩ := @openConstraints_of_pullsNothing c table hnone
  -- nothing is open, so the levels start from the bare table
  obtain ⟨hstartRel, hstartNow, hstartTop⟩ : start.rel = .scan (.base baseId) table.name table.fields ∧
      start.nowFilter = none ∧ start.topN.isEmpty = true := by
    rcases belowLevels_eq_ok hstart with rfl | ⟨needs', base, hbase, rfl⟩
    · exact ⟨rfl, hnowNone, hempty⟩
    · obtain ⟨-, htop, hfilter⟩ := Plan.withoutTopN_settled hbase
      refine ⟨?_, hfilter.trans hnowNone, htop⟩
      exact (Plan.rel_of_withoutTopN hbase).trans (by rw [TopN.onto]; exact if_pos hempty)
  intro l hl
  rw [hlineage] at hl
  cases hl
  refine ⟨htopN ▸ hstartTop, fun f hf => ?_, [], ?_, fun hne => absurd rfl hne⟩
  · rw [hnow, hstartNow] at hf
    cases hf
  · rw [hrel]
    refine unrollLevels_keep (I := fun rel l => Unrolling c.catalog [] l rel)
      (fun h ha hv hp => h.level ha hv hp) hd ⟨_, rfl, rfl, rfl⟩ ?_ hfold
    rw [hstartRel]
    exact .scan hroot hplace ht

/-- **The plan of a scan** of a table without pull-ups is an unrolling or has no lineage. -/
theorem keepsLineage_of_scanPlan (hl : c.catalog.Linked) {relation : RelationId}
    (hp : ∀ table, c.catalog.tableOf relation = .ok table → table.pending.isEmpty = true)
    (ho : c.scanPlan relation = .ok out) : out.KeepsLineage c.catalog := by
  cases relation with
  | base id =>
    obtain ⟨_, _, _, -, rfl⟩ := basePlan_eq_ok ho
    exact Plan.keepsLineage_of_none rfl
  | view id =>
    obtain ⟨view, hview, ho⟩ := bind_eq_ok.1 ho
    obtain ⟨baseId, hbase, ho⟩ := bind_eq_ok.1 ho
    obtain ⟨table, ht, ho⟩ := bind_eq_ok.1 ho
    have hview := itemAt_eq_ok.1 (lift_eq_ok.1 hview)
    have hbase := lift_eq_ok.1 hbase
    have hnone : table.pending.isEmpty = true := hp table (by
      rw [Catalog.tableOf, hbase]
      exact lift_eq_ok.1 ht)
    have ht := itemAt_eq_ok.1 (lift_eq_ok.1 ht)
    obtain ⟨b, hb, rootId, rest, root, table', hpath, hroot, hplace, ht', -, hd⟩ :=
      hl.baseOf (List.getElem?_eq_some_iff.1 hview).1
    obtain rfl : b = baseId := Except.ok.inj (hb.symm.trans hbase)
    split at ho
    · exact keepsLineage_of_unrolledPlan hnone hpath hroot hplace ht hd ho
    · exact Plan.keepsLineage_of_none (viewPlan_eq_ok ho).2.1

/-- Right levels that are unrolled below a left row: the tree is still an
unrolling, and needs what it did. -/
theorem unrolling_of_mergeLevels {filters : List NowFilter} {right : Lineage} {width : Nat}
    (hlinked : right.Linked c.catalog width) {levels : List (Level × Nat)}
    (hlevels : ∀ level ∈ levels, right[level.2]? = some level.1) {state merged : JoinInputs.Merged}
    (h : Unrolling c.catalog filters state.lineage state.rel)
    (hstands : ∀ pair ∈ state.matching, Lineage.Stands state.lineage right pair)
    (hm : JoinInputs.mergeLevels c state levels = .ok (some merged)) :
    Unrolling c.catalog filters merged.lineage merged.rel ∧
      ∀ cap ∈ state.needs.required, cap ∈ merged.needs.required := by
  refine (JoinInputs.mergeLevels_keeps (I := fun next =>
    (Unrolling c.catalog filters next.lineage next.rel ∧
      ∀ cap ∈ state.needs.required, cap ∈ next.needs.required) ∧
    ∀ pair ∈ next.matching, Lineage.Stands next.lineage right pair) ?_
    ⟨⟨h, fun _ hcap => hcap⟩, hstands⟩ hm).1
  rintro state next level hmem ⟨⟨h, hneeds⟩, hstands⟩ hnext
  obtain ⟨p, parent, view, column, above, -, -, hview, habove, hplace, hrel, hlineage, -, -, hrequire,
    hnext⟩ := JoinInputs.mergeLevel_below hlinked (hlevels level hmem) hstands hnext
  refine ⟨⟨?_, fun cap hcap => Requirements.mem_of_require hrequire (hneeds cap hcap)⟩, hnext⟩
  rw [hrel, hlineage]
  exact h.level habove hview hplace

/-- **An entity joined with itself** is unrolled below the left row. -/
theorem keepsLineage_of_selfJoin (hc : c.catalog.Linked) {left right : Plan} {kind : JoinKind}
    {condition : Expr} {j : JoinInputs} (hl : left.KeepsLineage c.catalog)
    (hr : right.KeepsLineage c.catalog) (hj : JoinInputs.of left right kind condition = .ok j)
    (ho : j.selfJoin? c = .ok (some out)) : out.KeepsLineage c.catalog := by
  have hcombine := JoinInputs.needs_of hj
  obtain ⟨rfl, rfl, -⟩ := JoinInputs.of_eq_ok hj
  obtain ⟨l, r, matching, hleft, hright, hmay, hmatch, hplan⟩ := JoinInputs.selfJoin?_eq_ok ho
  obtain ⟨merged, shown, select, key, -, hmerged, -, -, -, rfl⟩ := JoinInputs.mergedPlan_eq_ok hplan
  obtain ⟨htop, -, filters, hrel, hnow⟩ := hl l hleft
  obtain ⟨-, -, _, hrelR, -⟩ := hr r hright
  have hmatching := Lineage.match?_stands hmatch
  obtain ⟨hunrolling, hneeds⟩ := unrolling_of_mergeLevels (hrelR.linked hc)
    (fun level hmem => (JoinInputs.mem_lackingLevels.1 hmem).1) hrel hmatching hmerged
  -- a side with a pending now-filter is not merged
  have hpending : j.left.nowFilter = none := (JoinInputs.settled_of_mayMerge hmay).1.1
  intro l' hl'
  cases hl'
  refine ⟨htop, fun f hf => ?_, filters, hunrolling, fun hne =>
    hneeds _ (mem_of_combine hcombine (.inl (hnow hne)))⟩
  rw [show _ = j.left.nowFilter from rfl, hpending] at hf
  cases hf

/-- **A join** loses the lineage unless the entity is joined with itself. -/
theorem keepsLineage_of_joined (hc : c.catalog.Linked) {left right : Plan} {kind : JoinKind}
    {condition : Expr} {j : JoinInputs} (hl : left.KeepsLineage c.catalog)
    (hr : right.KeepsLineage c.catalog) (hj : JoinInputs.of left right kind condition = .ok j)
    (ho : c.joined j = .ok out) : out.KeepsLineage c.catalog := by
  rcases lineage_of_joined ho with hnone | hself
  · exact Plan.keepsLineage_of_none hnone
  · exact keepsLineage_of_selfJoin hc hl hr hj hself

/-- **Every operator** keeps an unrolling or loses the lineage. -/
theorem keeps_lineage (hc : c.catalog.Linked) (hp : c.catalog.PullsNothing) :
    c.Keeps (Plan.KeepsLineage c.catalog) where
  scan h := keepsLineage_of_scanPlan hc (fun table ht => hp table (Catalog.mem_of_tableOf ht)) h
  filter hs h ho := h.filtered hs ho
  project _ h ho := h.projected ho
  rank _ h ho := h.ranked ho
  join _ _ hl hr hj ho := keepsLineage_of_joined hc hl hr hj ho
  aggregate _ _ ho := Plan.keepsLineage_of_none (Plan.lineage_of_aggregated ho)
  union _ _ ho := by
    obtain ⟨-, _, _, -, -, -, hlineage, -⟩ := Plan.united_eq_ok ho
    exact Plan.keepsLineage_of_none hlineage
  sort _ h ho := h.sorted ho
  settle h ho := h.settle ho

/-- **The rows of a plan with a lineage** are those of its entity, the base table
unnested along the lineage, unless the plan needs the current time. Then
now-filters have dropped some of these rows. -/
theorem lineage_unrolls {fixture : Fixture} {q : Rel} (hb : c.catalog.Built)
    (hp : c.catalog.PullsNothing) (hf : fixture.Conforms c.catalog)
    (h : c.convert q = .ok plan) (hl : plan.lineage = some l) :
    ∃ tree, l.tree? c.catalog = some tree ∧
      (.nowFunction ∉ plan.needs.required → ∀ rows,
        evaluate fixture plan.rel = .ok rows ↔ evaluate fixture tree = .ok rows) ∧
      ∃ filters : List NowFilter, ∀ rows all, evaluate fixture plan.rel = .ok rows →
        evaluate fixture tree = .ok all →
        rows = all.filter fun row => filters.all fun f => trueOn fixture.now f.expr row := by
  obtain ⟨-, hkeeps⟩ := (keeps_lineage hb.linked hp).convert h
  obtain ⟨-, -, filters, hrel, hneeds⟩ := hkeeps l hl
  obtain ⟨tree, htree, -⟩ := hrel.exists_tree
  refine ⟨tree, htree, fun hnow rows => ?_, filters, fun rows all hrows hall =>
    hrel.rows_eq_filter hb.linked hf htree hrows hall⟩
  -- a now-filter on the way would show in what the plan needs
  have hnil : filters = [] := by_contra fun hne => hnow (hneeds hne)
  subst hnil
  exact hrel.evaluate hb.linked hf htree

/-- A number as the only column of a row type. -/
def numberField (name : String) : Fields := [⟨name, .int64, false⟩]

/-- A table of orders by number, with numbered lines and notes. -/
def ordersTable : BaseTable where
  name := "orders"
  fields := [⟨"id", .int64, false⟩, ⟨"lines", .nestedOf (numberField "line"), true⟩,
    ⟨"notes", .nestedOf (numberField "note"), true⟩]
  keys := 1
  kind := .state
  time := .none
  pending := .none
  stage := none

/-- The catalog of that table with views of its lines and its notes, on the
stream stage. -/
def overOrders : Converter where
  catalog := ⟨[ordersTable],
    [⟨"orders", .root 0, ordersTable.fields, 1, [0], 0, numberField "id"⟩,
      ⟨"lines", .child 0 1, numberField "line", 1, [0], 1, numberField "id" ++ numberField "line"⟩,
      ⟨"notes", .child 0 2, numberField "note", 1, [0], 1, numberField "id" ++ numberField "note"⟩],
    [("notes", .view 2), ("lines", .view 1), ("orders", .view 0), ("orders", .base 0)]⟩
  pipeline := .streamAndDatabase
  stage := .stream "stream"
  settings := .default

theorem overOrders_built : overOrders.catalog.Built := by
  have htable := @Catalog.Built.table .empty _ ordersTable "orders" 0 .empty
    (show ordersTable.time.Coherent from EventTime.coherent_none) rfl
  have hlines := @Catalog.Built.child _ _ 0 1 1 "lines" "lines" htable rfl
  exact @Catalog.Built.child _ overOrders.catalog 0 2 1 "notes" "notes" hlines rfl

theorem overOrders_pullsNothing : overOrders.catalog.PullsNothing := by
  intro table ht
  obtain rfl := List.mem_singleton.1 ht
  rfl

/-- A collection of numbers. -/
def numbers (ns : List Int) : Value := .list (ns.map fun n => [.int n])

/-- Orders by number, lines and notes. -/
def ordersOf (orders : List (Int × List Int × List Int)) : Fixture where
  tables := [(.base 0, orders.map fun (id, lines, notes) => [.int id, numbers lines, numbers notes])]
  now := 0

theorem ordersOf_conforms (orders : List (Int × List Int × List Int)) :
    (ordersOf orders).Conforms overOrders.catalog := by
  intro id table rows ht hrows row hrow
  obtain rfl : id = 0 := Nat.lt_one_iff.1 (List.getElem?_eq_some_iff.1 ht).1
  cases ht
  cases hrows
  obtain ⟨⟨id, lines, notes⟩, -, rfl⟩ := List.mem_map.1 hrow
  have hnumbers : ∀ (name : String) (ns : List Int) (r : Row), r ∈ ns.map (fun n => [Value.int n]) →
      Row.Fits (numberField name) r := by
    intro name ns r hr
    obtain ⟨n, -, rfl⟩ := List.mem_map.1 hr
    exact Row.fits_of_flat rfl (by simp [numberField, Field.nested?, DataType.nested?])
  refine ⟨rfl, fun i field element rows hf hn hi => ?_⟩
  match i with
  | 0 =>
    cases hf
    cases hn
  | 1 =>
    cases hf
    cases hn
    cases hi
    exact hnumbers "line" lines
  | 2 =>
    cases hf
    cases hn
    cases hi
    exact hnumbers "note" notes
  | i + 3 => cases hf

theorem ordersOf_fits (orders : List (Int × List Int × List Int)) :
    (ordersOf orders).Fits overOrders.catalog := by
  refine ⟨fun id table rows ht hrows row hrow => ⟨?_, ?_⟩, fun id view rows _ hrows => nomatch hrows⟩
  · exact ordersOf_conforms orders id table rows ht hrows row hrow
  · obtain rfl : id = 0 := Nat.lt_one_iff.1 (List.getElem?_eq_some_iff.1 ht).1
    cases ht
    rintro i ⟨⟩

/-- The lines of orders. -/
def scannedLines : Rel := .scan (.view 1) "lines" (numberField "id" ++ numberField "line")

/-- The notes of orders. -/
def scannedNotes : Rel := .scan (.view 2) "notes" (numberField "id" ++ numberField "note")

/-- The lines and notes of each order. -/
def linesWithNotes : Rel := .join scannedLines scannedNotes .inner (.equate 0 2) none

/-- Lines and notes that are joined by order are the orders unnested along both. -/
theorem lines_with_notes_unroll :
    let orders := ordersOf [(1, [1, 2], [5]), (2, [1], [])]
    ∃ plan l tree, overOrders.convert linesWithNotes = .ok plan ∧ plan.lineage = some l ∧
      plan.hasPending = false ∧ l.tree? overOrders.catalog = some tree ∧
      .nowFunction ∉ plan.needs.required ∧
      ∀ rows, evaluate orders plan.rel = .ok rows ↔ evaluate orders tree = .ok rows := by
  intro orders
  obtain ⟨plan, l, hplan, hl, hpending, hneeds⟩ : ∃ plan l,
      overOrders.convert linesWithNotes = .ok plan ∧ plan.lineage = some l ∧
        plan.hasPending = false ∧ .nowFunction ∉ plan.needs.required :=
    ⟨_, _, rfl, rfl, rfl, by decide⟩
  obtain ⟨tree, htree, hrows, -⟩ := lineage_unrolls overOrders_built overOrders_pullsNothing
    (ordersOf_conforms _) hplan hl
  exact ⟨plan, l, tree, hplan, hl, hpending, htree, hneeds, hrows hneeds⟩

/-- The events of a table, seen through its view. -/
def viewedEvents : Rel := .scan (.view 0) "events" eventsTable.fields

/-- Events of the last 100 milliseconds. -/
def recentEvents : Rel :=
  .filter viewedEvents (.binary .gt (.column 1) (.binary .minus .now (.interval 100)))

/-- A read stage that can unroll collections and knows the current time. -/
def cacheStage : Stage := (Stage.bare "cache" .database .read).granting [.denormalize, .nowFunction]

/-- On a read stage a now-filter is applied at once, and the plan keeps its lineage:
one of two events is dropped. Joined with all events, the filter is lost. -/
theorem recent_events_keep_lineage :
    let converter := { overPlainEvents cacheStage with pipeline := ⟨[cacheStage], by decide⟩ }
    let events := eventsAt [(1, 990), (2, 800)]
    let first : Row := [.int 1, .timestamp 990]
    let second : Row := [.int 2, .timestamp 800]
    converter.catalog.Built ∧ converter.catalog.PullsNothing ∧ events.Conforms converter.catalog ∧
      (∃ plan l tree, converter.convert recentEvents = .ok plan ∧ plan.lineage = some l ∧
        plan.hasPending = false ∧ l.tree? converter.catalog = some tree ∧
        evaluate events tree = .ok [first, second] ∧ evaluate events plan.rel = .ok [first]) ∧
      ∃ joined, converter.convert (.join viewedEvents recentEvents .inner (.equate 0 2) none)
          = .ok joined ∧
        joined.select.targets = [0, 1, 0, 1] ∧ evaluate events joined.rel = .ok [first, second] := by
  intro converter events first second
  refine ⟨overPlainEvents_built cacheStage, ?_, (plainEvents_fits cacheStage _).conforms,
    ⟨_, _, _, rfl, rfl, rfl, rfl, rfl, rfl⟩, _, rfl, rfl, rfl⟩
  intro table ht
  obtain rfl := List.mem_singleton.1 ht
  rfl

end Converter

end StreamPlan
