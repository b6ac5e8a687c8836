import StreamPlan.Proofs.Answers.Filter
import StreamPlan.Proofs.Answers.Materialized
import StreamPlan.Proofs.Answers.Project
import StreamPlan.Proofs.Entities.SelfJoin
import StreamPlan.Proofs.Keys.Join

/-!
# Keys of queries of joins

A query of scans, filters, projections and joins has a key that tells its rows apart, if
the relations that it scans have one.

* `Rel.JoinQuery`: such a query over a catalog, over tables without pull-ups.
* `Fixture.KeyedIn`: known rows of which the relations that a query scans have keys, and
  so have the collections that its views go through.
* `Converter.MatchesOnce`: its left joins of current values match each left row at most
  once.
* `Plan.KeyedAlong`: a plan with a key, which is that of its lineage while there is one.
* `Converter.primary_key_tells_rows_apart`: **the primary key of a final result** is a key.
* `Converter.primary_key_repeats`: without these conditions it is not.
-/

namespace StreamPlan

variable {c : Converter} {catalog : Catalog} {fixture : Fixture} {q top : Rel} {plan out : Plan}

/-- A query of scans, filters, projections and joins. No constraint was pulled up to a
table that it scans. -/
inductive Rel.JoinQuery (catalog : Catalog) : Rel → Prop
  | scan {relation : RelationId} {name : String} {fields : Fields} :
      (∀ table, catalog.tableOf relation = .ok table → table.pending.isEmpty = true) →
      JoinQuery catalog (.scan relation name fields)
  | filter {input : Rel} {predicate : Expr} :
      JoinQuery catalog input → JoinQuery catalog (.filter input predicate)
  | project {input : Rel} {outputs : List Output} :
      JoinQuery catalog input → JoinQuery catalog (.project input outputs none)
  | join {left right : Rel} {kind : JoinKind} {condition : Expr} {hint : Option JoinHint} :
      JoinQuery catalog left → JoinQuery catalog right →
      JoinQuery catalog (.join left right kind condition hint)

/-- A view that is on the way from the root to a view which a query scans. -/
def Rel.PassesIn (catalog : Catalog) (q : Rel) (id : Nat) : Prop :=
  ∃ scanned path, q.ScansIn (.view scanned) ∧ catalog.ancestry scanned = .ok path ∧ id ∈ path

/-- Known rows that differ in their keys: those of the relations that a query scans, and,
on the way to a view that it scans, those of one collection. -/
structure Fixture.KeyedIn (differ : Value → Value → Prop) (fixture : Fixture) (catalog : Catalog)
    (q : Rel) : Prop where
  base : ∀ id table rows, q.ScansIn (.base id) → catalog.bases[id]? = some table →
    fixture.rowsOf (.base id) = .ok rows → rows.Pairwise (Row.DifferOn differ (List.range table.keys))
  view : ∀ id view rows, q.ScansIn (.view id) → catalog.views[id]? = some view →
    fixture.rowsOf (.view id) = .ok rows → rows.Pairwise (Row.DifferOn differ (List.range view.keys))
  levels : fixture.Tells differ catalog (q.PassesIn catalog)

/-- Where a query keeps left rows in a join of current values, it matches each of them at
most once. -/
def Converter.MatchesOnce (c : Converter) (fixture : Fixture) (q : Rel) : Prop :=
  ∀ left right kind condition hint, .join left right kind condition hint ∈ q.preorder →
    ∀ l r j, c.convert left = .ok l → c.convert right = .ok r →
      JoinInputs.of l r kind condition = .ok j → j.plannedKind = .left → j.rule c = .current →
        j.MatchesOnce fixture

namespace Plan

variable {inViews : Nat → Prop}

/-- A plan whose key tells its rows apart. As long as it has a lineage, it is an unrolling
of some views, and its key is that of all levels. -/
structure KeyedAlong (catalog : Catalog) (fixture : Fixture) (inViews : Nat → Prop)
    (plan : Plan) : Prop extends plan.Keyed fixture where
  unrolled : plan.KeepsLineage catalog
  levels : ∀ l, plan.lineage = some l →
    plan.key.targets = l.keys ∧ ∀ level ∈ l, inViews level.view

/-- Without a lineage only the key counts. -/
theorem Keyed.along (h : plan.Keyed fixture) (hl : plan.lineage = none) :
    plan.KeyedAlong catalog fixture inViews where
  toKeyed := h
  unrolled := keepsLineage_of_none hl
  levels l hsome := by
    rw [hl] at hsome
    cases hsome

/-- A scan has the key of its relation. -/
theorem keyed_of_scan {relation : RelationId} {name : String} {fields : Fields} {keys : Nat}
    (htop : out.topN.isEmpty = true) (hrel : out.rel = .scan relation name fields)
    (hkey : out.key.targets = List.range keys)
    (hrows : ∀ rows, fixture.rowsOf relation = .ok rows →
      rows.Pairwise (Row.DifferOn Value.Apart (List.range keys))) : out.Keyed fixture := by
  refine ⟨htop, fun rows h => ?_⟩
  rw [hrel, evaluate_scan] at h
  rw [hkey]
  exact hrows rows h

/-- **An unrolled entity** has a key if its views have. -/
theorem keyedAlong_of_lineage {l : Lineage} (hc : catalog.Linked) (hf : fixture.Conforms catalog)
    (hk : fixture.Tells Value.Apart catalog inViews) (h : plan.KeepsLineage catalog)
    (hl : plan.lineage = some l) (hkey : plan.key.targets = l.keys)
    (hviews : ∀ level ∈ l, inViews level.view) : plan.KeyedAlong catalog fixture inViews where
  unranked := (h l hl).topN
  apart rows hrows := by
    obtain ⟨filters, hrel, -⟩ := (h l hl).rel
    rw [hkey]
    exact hrel.tells hc hf hk hviews hrows
  unrolled := h
  levels l' hl' := by
    obtain rfl := Option.some.inj (hl.symm.trans hl')
    exact ⟨hkey, hviews⟩

/-- An operator that keeps the lineage, or loses it, and keeps the key. -/
theorem KeyedAlong.step (h : plan.KeyedAlong catalog fixture inViews) (ho : out.Keyed fixture)
    (hu : out.KeepsLineage catalog) (hkey : out.key = plan.key)
    (hl : out.lineage = none ∨ out.lineage = plan.lineage) :
    out.KeyedAlong catalog fixture inViews where
  toKeyed := ho
  unrolled := hu
  levels l hsome := by
    rcases hl with hnone | hsame
    · rw [hnone] at hsome
      cases hsome
    · rw [hkey]
      exact h.levels l (hsame ▸ hsome)

theorem KeyedAlong.settle (h : plan.KeyedAlong catalog fixture inViews)
    (ho : plan.withoutPending = .ok out) : out.KeyedAlong catalog fixture inViews :=
  have hset := (withoutPending_settled ho).1
  h.step (h.toKeyed.settle ho) (h.unrolled.settle ho) hset.key (.inr hset.lineage)

theorem KeyedAlong.filtered {predicate : Expr} (hs : plan.Sound)
    (h : plan.KeyedAlong catalog fixture inViews) (ho : plan.filtered predicate = .ok out) :
    out.KeyedAlong catalog fixture inViews := by
  obtain ⟨base, moved, next, remaining, hbase, -, -, hrel, -, -, htop, -, hkey, hlineage⟩ :=
    filtered_eq_ok ho
  obtain rfl := eq_of_withoutTopN h.unranked hbase
  refine h.step ?_ (h.unrolled.filtered hs ho) hkey hlineage
  split at hrel
  · exact h.toKeyed.congr htop hrel hkey
  · exact h.toKeyed.filter htop hrel hkey

/-- **Computed outputs** keep the columns of the key, though they move. -/
theorem Keyed.computed {outputs : List Output} (h : plan.Keyed fixture)
    (ho : plan.computed outputs = .ok out) : out.Keyed fixture := by
  obtain ⟨base, needs, moved, hbase, -, -, hprojected⟩ := computed_eq_ok ho
  obtain rfl := eq_of_withoutTopN h.unranked hbase
  obtain ⟨below, carried, hcarries, houtputs⟩ := projectedTo_eq_ok hprojected
  have hneeds : Keyed fixture { base with needs } := h.congr h.unranked rfl rfl
  have hbelow : below.Keyed fixture := by
    cases hcarries with
    | same | widened => exact hneeds.congr hneeds.unranked rfl rfl
    | applied _ _ _ hb => exact hneeds.withoutNowFilter hb
  obtain ⟨appended, time, key, select, happended, -, hkey, -, rfl⟩ :=
    withOutputs_eq_ok houtputs
  refine ⟨hbelow.unranked, fun above habove => ?_⟩
  obtain ⟨rows, hrows, hprojects⟩ := rows_of_project habove
  refine pairwise_of_forall₂ hprojects (hbelow.apart rows hrows)
    fun row row' above above' hrow hrow' hne => hne.of_moved (hkey.imp fun i k hk => ?_)
  obtain ⟨v, hv, hi⟩ := value_of_placeOf happended hrow hk
  obtain ⟨v', hv', hi'⟩ := value_of_placeOf happended hrow' hk
  exact ⟨hv.trans hi.symm, hv'.trans hi'.symm⟩

theorem KeyedAlong.projected {bare : Option (List Nat)} {outputs : List Output}
    (hshaped : plan.rel.Shaped fixture) (h : plan.KeyedAlong catalog fixture inViews)
    (ho : Converter.projected plan bare outputs = .ok out) :
    out.KeyedAlong catalog fixture inViews := by
  have hunrolled := h.unrolled.projected ho
  have hcomputed : plan.computed outputs = .ok out → out.KeyedAlong catalog fixture inViews :=
    fun ho => (h.toKeyed.computed ho).along (lineage_of_computed ho)
  unfold Converter.projected at ho
  split at ho
  · exact hcomputed ho
  · obtain ⟨picked, hpicked, ho⟩ := bind_eq_ok.1 ho
    rcases picked with _ | picked
    · exact hcomputed ho
    · cases ho
      obtain ⟨_, rel, _, -, hrenamed, -, rfl⟩ := picked?_eq_ok (lift_eq_ok.1 hpicked)
      refine h.step ⟨h.unranked, fun rows hrows => ?_⟩ hunrolled rfl (.inr rfl)
      exact h.apart rows (((renamed?_renames hrenamed).evaluate hshaped).1 hrows)

end Plan

namespace Converter

/-- The levels that are unrolled on the way down are of the views on the way. -/
theorem views_of_unrollLevels {rest : List Nat} {state final : Unrolled}
    (h : rest.foldlM (fun state next => liftM (c.unrollLevel state next)) state
      = (.ok final : Planning Unrolled)) :
    ∀ level ∈ final.lineage, level ∈ state.lineage ∨ level.view ∈ rest := by
  refine unrollLevels_each
    (I := fun next => ∀ level ∈ next.lineage, level ∈ state.lineage ∨ level.view ∈ rest)
    (fun _ => .inl) (fun mid id _ _ _ hid hlevels _ _ level hl => ?_) h
  rcases List.mem_append.1 hl with hl | hl
  · exact hlevels level hl
  · exact .inr (List.mem_singleton.1 hl ▸ hid)

/-- **The plan of a scan** has a key if the relation has. -/
theorem keyedAlong_of_scanPlan {relation : RelationId} (hl : c.catalog.Linked)
    (hf : fixture.Conforms c.catalog)
    (hp : ∀ table, c.catalog.tableOf relation = .ok table → table.pending.isEmpty = true)
    (hk : fixture.KeyedIn Value.Apart c.catalog top) (hscan : top.ScansIn relation)
    (ho : c.scanPlan relation = .ok out) :
    out.KeyedAlong c.catalog fixture (top.PassesIn c.catalog) := by
  have hunrolled := keepsLineage_of_scanPlan hl hp ho
  obtain ⟨table, hscans⟩ := scanPlan_cases ho
  obtain ⟨-, hopen⟩ := @openConstraints_of_pullsNothing c table (hp table hscans.tableOf)
  cases hscans with
  | base ht _ hkey =>
    exact (Plan.keyed_of_scan hopen rfl (ColumnMap.of_targets hkey).1
      (hk.base _ _ · hscan ht)).along rfl
  | root _ hv _ _ _ _ hkey =>
    exact (Plan.keyed_of_scan (Pending.topN_remap _ hopen) rfl (ColumnMap.of_targets hkey).1
      (hk.view _ _ · hscan hv)).along rfl
  | nested _ hv _ _ _ _ _ _ hkey =>
    exact (Plan.keyed_of_scan rfl rfl (ColumnMap.of_targets hkey).1
      (hk.view _ _ · hscan hv)).along rfl
  | @unrolled id baseId rootId path view root _ _ _ _ _ _ _ _ _ _ _ hpath hroot _ _ _ hfold hkey _ =>
    refine Plan.keyedAlong_of_lineage hl hf hk.levels hunrolled rfl (ColumnMap.of_targets hkey).1
      fun level hmem => ⟨id, path, hscan, hpath, ?_⟩
    rcases views_of_unrollLevels hfold level hmem with hstart | hrest
    · rw [List.mem_singleton.1 hstart]
      exact List.mem_of_getElem? hroot
    · exact List.mem_of_mem_tail hrest

/-- **An entity joined with itself** has the keys of all levels. -/
theorem keyedAlong_of_selfJoin {left right : Plan} {kind : JoinKind} {condition : Expr}
    {j : JoinInputs} {inViews : Nat → Prop} (hc : c.catalog.Linked) (hf : fixture.Conforms c.catalog)
    (hk : fixture.Tells Value.Apart c.catalog inViews)
    (hl : left.KeyedAlong c.catalog fixture inViews)
    (hr : right.KeyedAlong c.catalog fixture inViews)
    (hj : JoinInputs.of left right kind condition = .ok j)
    (ho : j.selfJoin? c = .ok (some out)) : out.KeyedAlong c.catalog fixture inViews := by
  have hunrolled := keepsLineage_of_selfJoin hc hl.unrolled hr.unrolled hj ho
  obtain ⟨rfl, rfl, -⟩ := JoinInputs.of_eq_ok hj
  obtain ⟨l, r, matching, hleft, hright, -, -, hplan⟩ := JoinInputs.selfJoin?_eq_ok ho
  obtain ⟨merged, shown, select, key, -, hmerged, -, -, hkey, rfl⟩ :=
    JoinInputs.mergedPlan_eq_ok hplan
  obtain ⟨hkeys, hviews⟩ := hl.levels l hleft
  refine Plan.keyedAlong_of_lineage hc hf hk hunrolled rfl (hkey.trans ?_) ?_
  · exact JoinInputs.keys_of_mergeLevels hmerged (by rw [List.append_nil, hkeys])
  · refine JoinInputs.views_of_mergeLevels hmerged (fun level hmem => ?_) hviews
    exact (hr.levels r hright).2 _
      (List.mem_of_getElem? (JoinInputs.mem_lackingLevels.1 hmem).1)

/-- **A join** has a key if its inputs have, whichever rule it comes from. -/
theorem keyedAlong_of_joined {left right : Plan} {kind : JoinKind} {condition : Expr}
    {j : JoinInputs} {inViews : Nat → Prop} (hc : c.catalog.Linked) (hf : fixture.Conforms c.catalog)
    (hk : fixture.Tells Value.Apart c.catalog inViews) (hsl : left.Sound) (hsr : right.Sound)
    (hrl : left.Regular c.catalog fixture) (hrr : right.Regular c.catalog fixture)
    (hl : left.KeyedAlong c.catalog fixture inViews)
    (hr : right.KeyedAlong c.catalog fixture inViews)
    (hj : JoinInputs.of left right kind condition = .ok j)
    (honce : j.plannedKind = .left → j.rule c = .current → j.MatchesOnce fixture)
    (ho : c.joined j = .ok out) : out.KeyedAlong c.catalog fixture inViews := by
  have hplanned := joined_by_rule ho
  cases hrule : j.rule c <;> rw [hrule] at hplanned
  case entity => exact keyedAlong_of_selfJoin hc hf hk hl hr hj hplanned
  case temporal =>
    obtain ⟨sides, hshape, hplan⟩ := JoinInputs.temporalJoin?_eq_ok hplanned
    have hkeyed := JoinInputs.keyed_of_temporalPlan hj hsl hsr hrl hrr hl.toKeyed hr.toKeyed
      hshape hplan
    obtain ⟨_, _, _, -, -, -, -, -, -, -, hlineage, -⟩ := JoinInputs.temporalPlan_eq_ok hplan
    exact hkeyed.along hlineage
  case interval =>
    obtain ⟨window, hwindow, hplan⟩ := JoinInputs.intervalJoin?_eq_ok hplanned
    have hkeyed := JoinInputs.keyed_of_intervalPlan hj hsl hrl hl.toKeyed hr.toKeyed hwindow hplan
    obtain ⟨_, _, _, -, -, -, -, -, -, -, hlineage, -⟩ := JoinInputs.intervalPlan_eq_ok hplan
    exact hkeyed.along hlineage
  case current =>
    have hkeyed := JoinInputs.keyed_of_statePlan hj hsl hrl hl.toKeyed hr.toKeyed
      (fun hleft => honce hleft hrule) hplanned
    obtain ⟨_, _, _, -, -, -, -, -, -, -, hlineage, -⟩ := JoinInputs.statePlan_eq_ok hplanned
    exact hkeyed.along hlineage

/-- **The plans of a query of joins** have keys, as its parts have. -/
theorem follows_keyedAlong (hb : c.catalog.Built) (hf : fixture.Fits c.catalog)
    (hk : fixture.KeyedIn Value.Apart c.catalog top) (honce : c.MatchesOnce fixture top) :
    c.Follows fun q plan => (∀ op ∈ q.preorder, op ∈ top.preorder) → q.JoinQuery c.catalog →
      plan.KeyedAlong c.catalog fixture (top.PassesIn c.catalog) where
  scan {relation name fields plan} ho htop hq := by
    obtain ⟨hp⟩ := hq
    exact keyedAlong_of_scanPlan hb.linked hf.conforms hp hk
      ⟨name, fields, htop _ (Rel.self_mem_preorder _)⟩ ho
  filter hi ho htop hq := by
    obtain _ | hq := hq
    exact (hi.holds (fun op hop => htop op (Rel.preorder_of_inputs List.mem_cons_self op hop))
      hq).filtered hi.sound ho
  project hi _ ho htop hq := by
    cases hq with
    | project hq =>
      exact (hi.holds (fun op hop => htop op (Rel.preorder_of_inputs List.mem_cons_self op hop))
        hq).projected (regular_of_convert hb.linked hf hi.convert).2.shaped ho
  rank hranks _ _ _ _ hq := by cases hranks <;> cases hq
  join hl hr hj ho htop hq := by
    cases hq with
    | join hql hqr =>
      refine keyedAlong_of_joined hb.linked hf.conforms hk.levels hl.sound hr.sound
        (regular_of_convert hb.linked hf hl.convert).2 (regular_of_convert hb.linked hf hr.convert).2
        (hl.holds (fun op hop => htop op (Rel.preorder_of_inputs List.mem_cons_self op hop)) hql)
        (hr.holds (fun op hop => htop op (Rel.preorder_of_inputs
          (List.mem_cons_of_mem _ List.mem_cons_self) op hop)) hqr) hj ?_ ho
      exact honce _ _ _ _ _ (htop _ (Rel.self_mem_preorder _)) _ _ _ hl.convert hr.convert hj
  aggregate _ _ _ hq := by cases hq
  single _ _ hq := by cases hq
  union _ _ _ _ hq := by cases hq
  sort _ _ _ hq := by cases hq
  settle h ho htop hq := (h htop hq).settle ho

/-- **The primary key of a final result is a key.** A query of scans, filters, projections
and joins over relations with keys tells its rows apart in the key that its plan declares,
if its left joins of current values match each left row at most once. -/
theorem primary_key_tells_rows_apart {final : Plan} {manifest : Manifest} {rows : List Row}
    (hb : c.catalog.Built) (hf : fixture.Fits c.catalog) (hq : q.JoinQuery c.catalog)
    (hk : fixture.KeyedIn Value.Apart c.catalog q) (honce : c.MatchesOnce fixture q)
    (hplan : c.convert q = .ok plan) (hfinal : plan.materialize = .ok (final, manifest))
    (hrows : evaluate fixture final.rel = .ok rows) :
    rows.Pairwise (Row.DifferOn Value.Apart final.key.targets) := by
  obtain ⟨hs, hkeyed⟩ := (follows_keyedAlong hb hf hk honce).convert hplan
  have hkeyed := (hkeyed (fun _ hop => hop) hq).toKeyed
  obtain ⟨halign, -, -⟩ := Plan.materialize_eq_ok.1 hfinal
  obtain ⟨base, hbase, -⟩ := Plan.align_cases halign
  obtain ⟨below, hbelow, hkeeps⟩ := (Plan.arrangedAs_of_align hs halign).rows fixture rows hrows
  have hset := (Plan.withoutPending_settled hbase).1
  rw [← Plan.rel_of_withoutPending hbase] at hbelow
  have hapart := (hkeyed.settle hbase).apart below hbelow
  rw [hset.key] at hapart
  exact pairwise_of_forall₂ hkeeps hapart fun row row' above above' hrow hrow' hne =>
    hne.of_moved ((Plan.key_of_align hs halign).imp fun i k hk =>
      ⟨hrow k i (find_position hk), hrow' k i (find_position hk)⟩)

/-- A line and a note of one order have one number. -/
def sameNumber : Expr := .binary .and (.equate 0 2) (.equate 1 3)

/-- The note of each line of an order that has the number of the line. -/
def notesOfLines : Rel :=
  .project (.join scannedLines scannedNotes .left sameNumber none)
    [⟨.column 3, ⟨"note", .int64, true⟩⟩] none

/-- Lines and notes are the views below orders. -/
theorem overOrders_child {id child column : Nat} {view : View}
    (hv : overOrders.catalog.views[child]? = some view) (hplace : view.place = .child id column) :
    id = 0 ∧ child ≠ 0 ∧ view.ownKeys = 1 ∧ (column = 1 ∨ column = 2) := by
  match child with
  | 0 => cases hv; cases hplace
  | 1 | 2 => cases hv; cases hplace; simp
  | _ + 3 => cases hv

/-- Orders whose numbers differ, and so do those of the lines, and of the notes, of each. -/
theorem ordersOf_tells {differ : Value → Value → Prop} {orders : List (Int × List Int × List Int)}
    (inViews : Nat → Prop) (hids : orders.Pairwise fun o p => differ (.int o.1) (.int p.1))
    (hnumbers : ∀ o ∈ orders, ∀ ns ∈ [o.2.1, o.2.2],
      ns.Pairwise fun m n => differ (.int m) (.int n)) :
    (ordersOf orders).Tells differ overOrders.catalog inViews := by
  constructor
  · intro id view b rows _ hv hplace hrows
    obtain ⟨rfl, rfl, hkeys⟩ := overOrders_root hv hplace
    cases hrows
    rw [hkeys, List.pairwise_map]
    exact hids.imp fun h => ⟨0, List.mem_singleton.2 rfl, h⟩
  · intro id view b rows _ hv hplace hrows row hrow
    obtain ⟨rfl, rfl, -⟩ := overOrders_root hv hplace
    cases hrows
    obtain ⟨⟨n, lines, notes⟩, ho, rfl⟩ := List.mem_map.1 hrow
    have hns : ∀ ns : List Int, (ns.Pairwise fun m n => differ (.int m) (.int n)) →
        (ns.map fun n => [Value.int n]).Pairwise (Row.DifferOn differ [0]) := fun ns h =>
      List.pairwise_map.2 (h.imp fun h => ⟨0, List.mem_singleton.2 rfl, h⟩)
    refine ⟨fun child view column _ hv hp => ?_, fun child view column _ hv hp element _ => ?_⟩
    · obtain ⟨-, -, hkeys, rfl | rfl⟩ := overOrders_child hv hp <;> rw [hkeys]
      · exact hns _ (hnumbers _ ho _ (by simp))
      · exact hns _ (hnumbers _ ho _ (by simp))
    · refine Row.tells_of_leaf fun child' view' column' hv' hp' => ?_
      exact (overOrders_child hv hp).2.1 (overOrders_child hv' hp').1

/-- The key of a line tells its note apart, behind the visible column, as all of the key
of a note is equated. -/
theorem notes_of_lines_have_key :
    let orders := ordersOf [(1, [1, 2], [2, 3]), (2, [2], [])]
    ∃ plan final manifest rows, overOrders.convert notesOfLines = .ok plan ∧
      plan.materialize = .ok (final, manifest) ∧ evaluate orders final.rel = .ok rows ∧
      final.key.targets = [1, 2] ∧
      rows = [[.null, .int 1, .int 1], [.int 2, .int 1, .int 2], [.null, .int 2, .int 2]] ∧
      rows.Pairwise (Row.DifferOn Value.Apart final.key.targets) := by
  intro orders
  have hq : notesOfLines.JoinQuery overOrders.catalog := by
    refine .project (.join (.scan ?_) (.scan ?_)) <;>
      exact fun table ht => overOrders_pullsNothing table (Catalog.mem_of_tableOf ht)
  have hkeyed : orders.KeyedIn Value.Apart overOrders.catalog notesOfLines := {
    base := fun id table rows ⟨name, fields, hmem⟩ => by
      simp [notesOfLines, scannedLines, scannedNotes, Rel.preorder] at hmem
    view := fun id view rows _ _ hrows => nomatch hrows
    levels := ordersOf_tells _ (by decide) (by decide) }
  have honce : overOrders.MatchesOnce orders notesOfLines := by
    obtain ⟨l, r, j, hl, hr, hj, hcovers⟩ : ∃ l r j, overOrders.convert scannedLines = .ok l ∧
        overOrders.convert scannedNotes = .ok r ∧ JoinInputs.of l r .left sameNumber = .ok j ∧
        ∀ t ∈ j.right.key.targets, ∃ p ∈ j.parts.equalities, p.2 = t :=
      ⟨_, _, _, rfl, rfl, rfl, by decide⟩
    intro left right kind condition hint hmem l' r' j' hl' hr' hj' _ _
    obtain ⟨rfl, rfl, rfl, rfl, rfl⟩ : left = scannedLines ∧ right = scannedNotes ∧ kind = .left ∧
        condition = sameNumber ∧ hint = none := by
      simpa [notesOfLines, scannedLines, scannedNotes, Rel.preorder] using hmem
    obtain rfl := Except.ok.inj (hl.symm.trans hl')
    obtain rfl := Except.ok.inj (hr.symm.trans hr')
    obtain rfl := Except.ok.inj (hj.symm.trans hj')
    exact .inl hcovers
  obtain ⟨plan, final, manifest, rows, hplan, hfinal, hrows, hshown⟩ : ∃ plan final manifest rows,
      overOrders.convert notesOfLines = .ok plan ∧ plan.materialize = .ok (final, manifest) ∧
      evaluate orders final.rel = .ok rows ∧ final.key.targets = [1, 2] ∧
      rows = [[.null, .int 1, .int 1], [.int 2, .int 1, .int 2], [.null, .int 2, .int 2]] :=
    ⟨_, _, _, _, rfl, rfl, rfl, rfl, rfl⟩
  exact ⟨plan, final, manifest, rows, hplan, hfinal, hrows, hshown.1, hshown.2,
    primary_key_tells_rows_apart overOrders_built (ordersOf_fits _) hq hkeyed honce hplan hfinal hrows⟩

/-- A stream of readings by number, each of a part. -/
def readingsTable : BaseTable where
  name := "readings"
  fields := [⟨"id", .int64, false⟩, ⟨"at", .timestamp, true⟩, ⟨"part", .float64, true⟩]
  keys := 1
  kind := .stream
  time := .single 1 .source
  pending := .none
  stage := none

/-- The versions of parts by number. -/
def partsTable : BaseTable where
  name := "parts"
  fields := [⟨"part", .int64, false⟩, ⟨"since", .timestamp, true⟩]
  keys := 1
  kind := .versioned
  time := .single 1 .source
  pending := .none
  stage := none

/-- The catalog of the two tables on the stream stage. -/
def overReadings : Converter where
  catalog := ⟨[readingsTable, partsTable],
    [⟨"readings", .root 0, readingsTable.fields, 1, [0, 1, 2], 0, readingsTable.fields⟩,
      ⟨"parts", .root 1, partsTable.fields, 1, [0, 1], 0, partsTable.fields⟩],
    [("parts", .view 1), ("parts", .base 1), ("readings", .view 0), ("readings", .base 0)]⟩
  pipeline := .streamAndDatabase
  stage := .stream "stream"
  settings := .default

theorem overReadings_built : overReadings.catalog.Built := by
  have hreadings := @Catalog.Built.table .empty _ readingsTable "readings" 0 .empty
    (EventTime.coherent_single 1 .source) rfl
  exact @Catalog.Built.table _ overReadings.catalog partsTable "parts" 1 hreadings
    (EventTime.coherent_single 1 .source) rfl

/-- Two readings of a part whose number is the nearest float to that of another one. -/
def largeParts : Fixture where
  tables := [(.base 0, [[.int 1, .timestamp 5, .float 9007199254740992],
      [.int 2, .timestamp 6, .float 9007199254740992]]),
    (.base 1, [[.int 9007199254740992, .timestamp 1], [.int 9007199254740993, .timestamp 2]])]
  now := 0

theorem largeParts_fits : largeParts.Fits overReadings.catalog := by
  refine ⟨fun id table rows ht hrows row hrow => ?_, fun id view rows _ hrows => nomatch hrows⟩
  match id with
  | 0 | 1 =>
    cases ht
    cases hrows
    simp only [List.mem_cons, List.not_mem_nil, or_false] at hrow
    rcases hrow with rfl | rfl
    all_goals
      refine ⟨Row.fits_of_flat rfl (by decide), fun i hi => ?_⟩
      obtain rfl := List.mem_singleton.1 hi
      exact ⟨_, rfl, .inr ⟨_, rfl⟩⟩
  | _ + 2 => cases ht

/-- No two parts have the same number, and no two readings. -/
theorem largeParts_keyed (q : Rel) :
    largeParts.KeyedIn Value.Unequal overReadings.catalog q where
  base id table rows _ ht hrows := by
    match id with
    | 0 | 1 =>
      cases ht
      cases hrows
      decide
    | _ + 2 => cases ht
  view id view rows _ _ hrows := nomatch hrows
  levels := by
    refine ⟨fun id view b rows _ hv hplace hrows => ?_, fun id view b rows _ hv hplace hrows row _ =>
      Row.tells_of_leaf fun child below column hv' hplace' => ?_⟩
    · match id with
      | 0 | 1 =>
        cases hv
        cases hplace
        cases hrows
        decide
      | _ + 2 => cases hv
    · match child with
      | 0 | 1 =>
        cases hv'
        cases hplace'
      | _ + 2 => cases hv'

/-- The readings of each part. -/
def readingsOfParts : Rel :=
  .join (.scan (.base 1) "parts" partsTable.fields) (.scan (.base 0) "readings" readingsTable.fields)
    .left (.equate 0 4) none

/-- Each reading with the version of its part. -/
def partsOfReadings : Rel :=
  .join (.scan (.base 0) "readings" readingsTable.fields) (.scan (.base 1) "parts" partsTable.fields)
    .auto (.equate 2 3) none

/-- Nothing was pulled up to the two tables. -/
theorem scan_joinQuery {relation : RelationId} {name : String} {fields : Fields} :
    Rel.JoinQuery overReadings.catalog (.scan relation name fields) := by
  refine .scan fun table ht => ?_
  have hmem : table ∈ [readingsTable, partsTable] := Catalog.mem_of_tableOf ht
  simp only [List.mem_cons, List.not_mem_nil, or_false] at hmem
  rcases hmem with rfl | rfl <;> rfl

/-- Two rows of the final result of a query have the same primary key. -/
def RepeatsKey (c : Converter) (fixture : Fixture) (q : Rel) : Prop :=
  ∃ plan final manifest rows, c.convert q = .ok plan ∧ plan.materialize = .ok (final, manifest) ∧
    evaluate fixture final.rel = .ok rows ∧
    ¬rows.Pairwise fun row other => row.pick final.key.targets ≠ other.pick final.key.targets

/-- **A primary key is repeated** by a left join of current values, which has the left key
alone, and by a join by time in which a float equals two integers. -/
theorem primary_key_repeats :
    overReadings.catalog.Built ∧ largeParts.Fits overReadings.catalog ∧
      (∀ table ∈ largeParts.tables, ∀ row ∈ table.2, ∀ v ∈ row, v.isNull = false) ∧
      ∀ q ∈ [readingsOfParts, partsOfReadings], q.JoinQuery overReadings.catalog ∧
        largeParts.KeyedIn Value.Unequal overReadings.catalog q ∧
        overReadings.RepeatsKey largeParts q := by
  refine ⟨overReadings_built, largeParts_fits, by decide, List.forall_mem_cons.2 ⟨?_,
    List.forall_mem_singleton.2 ?_⟩⟩
  all_goals
    refine ⟨.join scan_joinQuery scan_joinQuery, largeParts_keyed _, _, _, _, _, rfl, rfl, rfl,
      fun h => ?_⟩
    -- the first two rows are of one left row
    exact (List.pairwise_cons.1 h).1 _ List.mem_cons_self rfl

end Converter

end StreamPlan
