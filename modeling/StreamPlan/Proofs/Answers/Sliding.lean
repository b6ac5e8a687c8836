import StreamPlan.Proofs.Answers.Aggregate
import StreamPlan.Proofs.Answers.Materialized
import StreamPlan.Proofs.Rows.Ranks
import StreamPlan.Proofs.Rows.Regroup

/-!
# Sliding windows

A sliding window gives a row for every key at every time, a pane each, and the latest
row per key is what counts.

* `FreshestPane`: the rows of a group at its greatest time, and the calls over them.
* `Plan.latest_panes`: the first of the panes of each key, the latest in front, is the
  freshest one of the group.
* `Converter.sliding_window_keeps_freshest_panes`: so **a sliding window has a row for
  every group** of its input by the key, and no other.
-/

namespace StreamPlan

variable {columns : List Nat} {t p : Nat} {calls : List AggregateCall} {rows panes : List Row}
  {whole : Row × List Row}

/-- The columns of a pane: those that the query groups by and the time, ascending. -/
abbrev paneColumns (columns : List Nat) (t : Nat) : List Nat := Ascending.ofList (columns ++ [t])

/-- The freshest pane of a group: the rows of it at the greatest time, of which `m` is
one, with the values of the calls over them. -/
structure FreshestPane (t : Nat) (calls : List AggregateCall) (group : Row × List Row) (m : Row)
    (latest : Int) (values : Row) : Prop where
  member : m ∈ group.2
  time : m.timeAt t = some latest
  greatest : ∀ o ∈ group.2, ∀ s, o.timeAt t = some s → s ≤ latest
  calls : calls.mapM (·.valueOn (group.2.filter fun o => o.timeAt t = some latest)) = .ok values

/-- Rows are the same in some columns and in others if they are so in all of them. -/
theorem Row.sameRow_pick_append (a b : Row) (front back : List Nat) :
    Value.sameRow (a.pick (front ++ back)) (b.pick (front ++ back))
      = (Value.sameRow (a.pick front) (b.pick front) && Value.sameRow (a.pick back) (b.pick back)) := by
  simp only [pick, Value.sameRow_map, List.all_append]

/-- Rows are in one pane if they have the same key and the same time. -/
theorem sameRow_pane {a b : Row} {s u : Int} (ha : a.timeAt t = some s) (hb : b.timeAt t = some u) :
    Value.sameRow (a.pick (paneColumns columns t))
        (b.pick (paneColumns columns t))
      = (Value.sameRow (a.pick columns) (b.pick columns) && decide (s = u)) := by
  have htime : Value.sameRow (a.pick [t]) (b.pick [t]) = decide (s = u) := by
    simp only [Row.pick, List.map_cons, List.map_nil, Row.timeAt_eq_some.1 ha,
      Row.timeAt_eq_some.1 hb, Option.getD_some, Value.sameRow, Bool.and_true]
    rfl
  rw [Row.sameRow_pick_ofList, Row.sameRow_pick_append, htime]

/-- Rows of one pane have the same key. -/
theorem sameRow_of_pane {a b : Row}
    (h : Value.sameRow (a.pick (paneColumns columns t)) (b.pick (paneColumns columns t)) = true) :
    Value.sameRow (a.pick columns) (b.pick columns) = true := by
  rw [Row.sameRow_pick_ofList, Row.sameRow_pick_append, Bool.and_eq_true] at h
  exact h.1

/-- A pane has the time of its rows at the position of the time. -/
theorem timeAt_pane {m : Row} {s : Int} (values : Row)
    (hp : (paneColumns columns t)[p]? = some t) (hm : m.timeAt t = some s) :
    Row.timeAt (m.pick (paneColumns columns t) ++ values) p = some s := by
  have hm := Row.timeAt_eq_some.1 hm
  have hlt := (List.getElem?_eq_some_iff.1 hp).1
  rw [Row.timeAt_eq_some, List.getElem?_append_left (by rwa [Row.length_pick]),
    Row.getElem?_pick hp (List.getElem?_eq_some_iff.1 hm).1, hm]

/-- The rows of a pane are those of its group at its time. -/
theorem members_of_pane (hwhole : whole ∈ groupsFrom (·.pick columns) [] rows)
    (htimes : ∀ row ∈ rows, ∃ s, row.timeAt t = some s) {m : Row} {rest : List Row} {s : Int}
    (hpane : (m.pick (paneColumns columns t), m :: rest) ∈
      groupsFrom (·.pick (paneColumns columns t)) [] whole.2)
    (hm : m.timeAt t = some s) : m :: rest = whole.2.filter fun o => o.timeAt t = some s := by
  have hmem : m ∈ whole.2 := members_of_groupsFrom whole.2 _ hpane m List.mem_cons_self
  rcases alike_of_group hwhole with ⟨only, honly⟩ | halike
  · -- a row alone is its only pane
    rw [honly] at hpane hmem ⊢
    obtain rfl := List.mem_singleton.1 hmem
    obtain ⟨_, hrest⟩ := List.cons.inj (Prod.mk.inj (List.mem_singleton.1 hpane)).2
    rw [hrest, List.filter_cons, if_pos (decide_eq_true hm)]
    rfl
  · have hself : Value.sameRow (m.pick (paneColumns columns t))
        (m.pick (paneColumns columns t)) = true := by
      rw [sameRow_pane hm hm, halike m hmem m hmem, decide_eq_true rfl, Bool.and_self]
    rw [group_eq_sameAs hpane hself, sameAs]
    refine List.filter_congr fun o ho => ?_
    obtain ⟨u, hu⟩ := htimes o (members_of_groupsFrom rows whole hwhole o ho)
    rw [sameRow_pane hm hu, halike m hmem o ho, hu, Bool.true_and]
    exact decide_eq_decide.2 ⟨fun h => h ▸ rfl, fun h => (Option.some.inj h).symm⟩

/-- A row of a plan shows the freshest pane of a group: its key, which is that of a row
of the pane, the values of the calls, and its time. -/
def Plan.ShowsPane (plan : Plan) (columns : List Nat) (t : Nat) (calls : List AggregateCall)
    (group : Row × List Row) (row : Row) : Prop :=
  ∃ m latest values, FreshestPane t calls group m latest values ∧
    plan.shown row = ⟨m.pick columns ++ values, m.pick columns⟩ ∧ plan.bestTime row = some latest

namespace Plan

variable {plan out : Plan} {n : Nat}

/-- A pane has a time, and a value in every column of the key. -/
theorem whole_of_pane (hp : (paneColumns columns t)[p]? = some t)
    (htimes : ∀ row ∈ rows, ∃ s, row.timeAt t = some s)
    (hpanes : List.Forall₂ (AggregatesTo calls)
      (groupsFrom (·.pick (paneColumns columns t)) [] rows) panes) {pane : Row} (hmem : pane ∈ panes) :
    (∃ s, pane.timeAt p = some s) ∧
      ∀ c ∈ (GroupLayout.of columns [t] calls.length).key, c < pane.length := by
  obtain ⟨g, hg, values, -, rfl⟩ := exists_of_mem_right hpanes hmem
  obtain ⟨first, rest, rfl, hsub, -⟩ := first_of_group g hg
  obtain ⟨s, hs⟩ := htimes first (hsub.subset List.mem_cons_self)
  refine ⟨⟨s, timeAt_pane values hp hs⟩, fun c hc => ?_⟩
  rw [List.length_append, Row.length_pick]
  exact Nat.lt_of_lt_of_le (GroupLayout.of_key_lt c hc) (Nat.le_add_right _ _)

/-- The columns of a plan are those of panes, with the time at a position. -/
structure OfPanes (plan : Plan) (columns : List Nat) (t p n : Nat) : Prop where
  time : plan.time.bestColumn? = some p
  position : (paneColumns columns t)[p]? = some t
  key : plan.key.targets = (GroupLayout.of columns [t] n).key
  select : plan.select.targets = (GroupLayout.of columns [t] n).select

/-- **The latest of the panes of a group** is the freshest one. -/
theorem shows_latest_pane (hplan : plan.OfPanes columns t p calls.length)
    (htimes : ∀ row ∈ rows, ∃ s, row.timeAt t = some s)
    (hwhole : whole ∈ groupsFrom (·.pick columns) [] rows) {row : Row}
    (hpanes : List.Forall₂ (AggregatesTo calls)
      (groupsFrom (·.pick (paneColumns columns t)) [] whole.2) panes)
    (hrow : row ∈ panes)
    (hlatest : ∀ o ∈ panes, ∀ s u, row.timeAt p = some s → o.timeAt p = some u → u ≤ s) :
    plan.ShowsPane columns t calls whole row := by
  have hp := hplan.position
  have hinto := members_of_groupsFrom rows whole hwhole
  obtain ⟨pane, hpane, values, hvalues, rfl⟩ := exists_of_mem_right hpanes hrow
  obtain ⟨m, rest, rfl, hsub, -⟩ := first_of_group pane hpane
  have hmem : m ∈ whole.2 := hsub.subset List.mem_cons_self
  obtain ⟨latest, hm⟩ := htimes m (hinto m hmem)
  have htime := timeAt_pane values hp hm
  rw [members_of_pane hwhole htimes hpane hm] at hvalues
  refine ⟨m, latest, values, ⟨hmem, hm, fun o ho u hu => ?_, hvalues⟩, ?_, ?_⟩
  rotate_left
  · rw [shown, hplan.key, hplan.select, pick_key, pick_layout m columns [t] (length_of_mapM_eq_ok hvalues)]
  · rw [bestTime, hplan.time, Option.bind_some, htime]
  -- every row of the group has its time in a pane
  obtain ⟨other, hother, hin⟩ : ∃ g ∈ groupsFrom (·.pick (paneColumns columns t)) [] whole.2, o ∈ g.2 :=
    group_of_mem o ho
  obtain ⟨_, hrow', values', -, rfl⟩ := exists_of_mem_left hpanes hother
  obtain ⟨first, rest', rfl, hsub', hsame⟩ := first_of_group other hother
  obtain ⟨s, hs⟩ := htimes first (hinto first (hsub'.subset List.mem_cons_self))
  obtain rfl : s = u := by
    rcases List.mem_cons.1 hin with rfl | hin
    · exact Option.some.inj (hs.symm.trans hu)
    · have := hsame o hin
      rw [sameRow_pane hs hu, Bool.and_eq_true] at this
      exact of_decide_eq_true this.2
  exact hlatest _ hrow' _ _ htime (timeAt_pane values' hp hs)

/-- **The first of the panes of each key**, the latest in front, are the freshest panes
of the groups. That they can be sorted is part of it. -/
theorem latest_panes (hplan : plan.OfPanes columns t p calls.length)
    (htimes : ∀ row ∈ rows, ∃ s, row.timeAt t = some s)
    (hpanes : aggregateRows (paneColumns columns t) calls rows = .ok panes) :
    ∃ sorted kept, sortRows [⟨p, .descending⟩] panes = .ok sorted ∧
      firstRowsOf plan.key.targets (some 1) false sorted = .ok kept ∧
      ∃ matched, matched.Perm kept ∧ List.Forall₂ (plan.ShowsPane columns t calls)
        (groupsFrom (·.pick columns) [] rows) matched := by
  have hp := hplan.position
  rw [hplan.key]
  obtain ⟨-, -, hgroups⟩ := groups_of_aggregateRows hpanes
  rw [wholeGroups_of_ne_nil (List.ne_nil_of_mem (List.mem_of_getElem? hp))] at hgroups
  obtain ⟨sorted, hsorted, hperm, hlatest⟩ := sortRows_latest fun pane hmem =>
    (whole_of_pane hp htimes hgroups hmem).1
  obtain ⟨kept, hkept, hfirst⟩ := firstRowsOf_groups fun pane hmem =>
    (whole_of_pane hp htimes hgroups (hperm.subset hmem)).2
  refine ⟨sorted, kept, hsorted, hkept, ?_⟩
  -- a kept pane is the latest of its group of panes
  obtain ⟨matched, hperm', hmatched⟩ := least_of_groups
    (fun _ s u hs hu => le_of_eq (Option.some.inj (hu.symm.trans hs))) hperm hlatest hfirst
  refine ⟨matched, hperm', ?_⟩
  -- the panes of a key are those of the rows of a group
  have hkey : ∀ (first : Row) rest pane,
      AggregatesTo calls (first.pick (paneColumns columns t), first :: rest) pane →
        pane.pick (GroupLayout.of columns [t] calls.length).key = first.pick columns := by
    rintro first rest _ ⟨values, -, rfl⟩
    exact pick_key first values columns [t] _
  have hregroup := groupsFrom_regroup (fun _ _ => sameRow_of_pane) hkey hgroups
  refine forall₂_of_left ((List.forall₂_and_left _ _).2 ⟨fun _ hwhole => hwhole, hregroup.flip⟩).flip
    hmatched fun g _ whole row hR hrow => ?_
  exact shows_latest_pane hplan htimes hR.1 hR.2 hrow.1 hrow.2

theorem slideOf_eq_ok {window slide : Int} {panes : Nat} (h : slideOf window panes = .ok slide) :
    0 < slide ∧ slide < window := by
  unfold slideOf at h
  obtain ⟨quotient, -, h⟩ := bind_eq_ok.1 h
  split at h
  · exact (refuse_ne_ok h).elim
  · cases h
    omega

/-- **The plan of a sliding window** groups the rows by key and time, without the
now-filter. The latest row per key is pending. -/
theorem sliding_eq_ok {filter : NowFilter} (h : plan.sliding columns calls filter n = .ok out) :
    ∃ slide p, 0 < slide ∧ slide < filter.interval ∧
      out.rel = .aggregate plan.rel (paneColumns columns filter.timestamp) [] calls
        (some (.sliding filter.timestamp filter.interval slide)) ∧
      out.nowFilter = none ∧ out.topN = .latestPerKey out.key.targets p ∧
      out.time = .single p .bucketed ∧ out.OfPanes columns filter.timestamp p calls.length := by
  unfold sliding at h
  obtain ⟨slide, hslide, h⟩ := bind_eq_ok.1 h
  obtain ⟨needs, -, h⟩ := bind_eq_ok.1 h
  obtain ⟨grouped, hgrouped, h⟩ := bind_eq_ok.1 h
  cases h
  have hgrouped := lift_eq_ok.1 hgrouped
  obtain ⟨hkey, hselect⟩ := groupedAs_columns hgrouped
  obtain ⟨p, hp, -⟩ := @GroupLayout.position?_of_mem columns [filter.timestamp] calls.length
    filter.timestamp (.inr List.mem_cons_self)
  obtain ⟨key, select, rfl⟩ := groupedAs_eq_ok hgrouped
  refine ⟨slide, p, (slideOf_eq_ok hslide).1, (slideOf_eq_ok hslide).2, ?_, rfl, ?_, ?_, ?_, ?_, hkey,
    hselect⟩
  · exact congrArg (fun sorted => Rel.aggregate plan.rel sorted [] calls _) (Ascending.ofList_ofList _)
  · rw [hp, ← hkey]; rfl
  · rw [hp]; rfl
  · rw [hp]; rfl
  · exact find_position hp

/-- **The rows of a sliding window** are there if the calls have values over the panes,
and they show the freshest pane of every group. -/
theorem rows_of_sliding {fixture : Fixture} {filter : NowFilter}
    (h : plan.sliding columns calls filter n = .ok out) (hrows : evaluate fixture plan.rel = .ok rows)
    (htimes : ∀ row ∈ rows, ∃ s, row.timeAt filter.timestamp = some s)
    (hpanes : aggregateRows (paneColumns columns filter.timestamp) calls rows = .ok panes) :
    ∃ kept matched, evaluate fixture out.settledRel = .ok kept ∧ matched.Perm kept ∧
      List.Forall₂ (out.ShowsPane columns filter.timestamp calls)
        (groupsFrom (·.pick columns) [] rows) matched := by
  obtain ⟨slide, p, -, -, hrel, hnow, htop, -, hplan⟩ := sliding_eq_ok h
  obtain ⟨sorted, kept, hsorted, hkept, matched, hperm, hmatched⟩ := latest_panes hplan htimes hpanes
  refine ⟨kept, matched, ?_, hperm, hmatched⟩
  have hgrouped : evaluate fixture out.rel = .ok panes := by
    rw [hrel, evaluate, hrows]
    exact lift_eq_ok.2 hpanes
  rw [settledRel, htop, TopN.onto_latestPerKey, filteredRel, hnow, evaluate, evaluate, hgrouped, ok_bind,
    hsorted]
  exact lift_eq_ok.2 hkept

end Plan

namespace Converter

variable {c : Converter} {fixture : Fixture} {q : Rel} {plan out final : Plan} {keys : List Nat}
  {groupingSets : List (List Nat)} {moved : List AggregateCall} {hint : Option AggregateHint}
  {filter : NowFilter} {manifest : Manifest}

/-- The plan of a sliding window, before it is finished for the stage, goes above the
ranked input. -/
theorem sliding_of_convert (hplan : c.convert q = .ok plan)
    (hcolumns : keys.mapM plan.select.apply = .ok columns)
    (hmoved : calls.mapM (·.remap plan.select.apply) = .ok moved)
    (hrule : plan.aggregateRule? c columns = some (.sliding filter))
    (hout : c.convert (.aggregate q keys groupingSets calls hint) = .ok out) :
    ∃ base grouped : Plan, base.rel = plan.topN.onto plan.rel ∧
      base.sliding columns moved filter c.settings.panes = .ok grouped ∧
      c.finish grouped = .ok out := by
  rw [convert] at hout
  obtain ⟨_, -, hout⟩ := bind_eq_ok.1 hout
  obtain ⟨input, hinput, hout⟩ := bind_eq_ok.1 hout
  obtain rfl : input = plan := Except.ok.inj (hinput.symm.trans hplan)
  obtain ⟨grouped, hgrouped, hfinish⟩ := bind_eq_ok.1 hout
  obtain ⟨base, needs, columns', moved', rule, hbase, hcolumns', hmoved', hrule', hsliding⟩ :=
    Plan.aggregated_eq_ok hgrouped
  obtain rfl : columns' = columns := Except.ok.inj (hcolumns'.symm.trans hcolumns)
  obtain rfl : moved' = moved := Except.ok.inj (hmoved'.symm.trans hmoved)
  obtain rfl : rule = .sliding filter := Option.some.inj (hrule'.symm.trans hrule)
  have hrel : base.rel = input.topN.onto input.rel := Plan.rel_of_withoutTopN hbase
  exact ⟨{ base with sort := [], needs }, grouped, hrel, hsliding, hfinish⟩

/-- **A sliding window keeps the freshest pane per key.** Its hint has the interval of the
now-filter as the window, which the slide splits. If the input of the aggregation has
rows with a time each, and the calls have values over the panes, then the final result
has a row for every group of these rows by the key, and no other: that of the freshest
pane of the group. -/
theorem sliding_window_keeps_freshest_panes (hplan : c.convert q = .ok plan)
    (hcolumns : keys.mapM plan.select.apply = .ok columns)
    (hmoved : calls.mapM (·.remap plan.select.apply) = .ok moved)
    (hrule : plan.aggregateRule? c columns = some (.sliding filter))
    (hout : c.convert (.aggregate q keys groupingSets calls hint) = .ok out)
    (hfinal : out.materialize = .ok (final, manifest))
    (hrows : evaluate fixture (plan.topN.onto plan.rel) = .ok rows)
    (htimes : ∀ row ∈ rows, ∃ s, row.timeAt filter.timestamp = some s)
    (hpanes : aggregateRows (paneColumns columns filter.timestamp) moved rows = .ok panes) :
    ∃ slide groups finals matched, 0 < slide ∧ slide < filter.interval ∧
      .aggregate (.sliding filter.timestamp filter.interval slide) ∈ manifest.hints ∧
      .aggregate (plan.topN.onto plan.rel) (paneColumns columns filter.timestamp) [] moved
        (some (.sliding filter.timestamp filter.interval slide)) ∈ final.rel.preorder ∧
      groupRows columns rows = .ok groups ∧ evaluate fixture final.rel = .ok finals ∧
      matched.Perm finals ∧
      List.Forall₂ (final.ShowsPane columns filter.timestamp moved) groups matched := by
  have hsound := sound_of_convert hout
  obtain ⟨halign, -, hmanifest⟩ := Plan.materialize_eq_ok.1 hfinal
  -- the plan of the window
  obtain ⟨base, grouped, hbase, hsliding, hfinish⟩ :=
    sliding_of_convert hplan hcolumns hmoved hrule hout
  rw [← hbase] at hrows ⊢
  obtain ⟨kept, matched, hkept, hperm, hmatched⟩ := Plan.rows_of_sliding hsliding hrows htimes hpanes
  obtain ⟨slide, p, hpos, hlt, hrel, -, -, htime, -⟩ := Plan.sliding_eq_ok hsliding
  have hset := (finish_sound hfinish).1
  obtain ⟨hsettled, hshown⟩ := finish_answers hfinish
  have hwindow := ((within_finish hfinish).trans (Plan.within_align halign)) _
    (Rel.self_mem_preorder grouped.rel)
  rw [hrel] at hwindow
  -- the final result shows what that plan does
  have hshaped : out.settledRel.Shaped fixture := hsettled ▸
    (Plan.settledRel_restricted grouped).shaped (hrel ▸ Rel.shaped_aggregate)
  have hranked : out.time.Ranked := by
    rw [hset.time, htime]
    exact List.pairwise_singleton _ _
  obtain ⟨reread, hfinals, hreads⟩ := Plan.shown_of_align hsound hranked hshaped halign
    (hsettled ▸ hkept)
  have hgroups : groupRows columns rows = .ok (groupsFrom (·.pick columns) [] rows) :=
    groupRows_of_at fun row hrow => Row.at_of_inside fun c hc =>
      (Plan.groups_of_aggregateRows hpanes).1 row hrow c
        (Ascending.mem_ofList.2 (List.mem_append_left _ hc))
  refine ⟨slide, _, _, matched.map reread, hpos, hlt, Plan.mem_hints hmanifest hwindow rfl, hwindow,
    hgroups, hfinals, hperm.map reread, forall₂_of_left hmatched.flip (List.forall₂_map_right_iff.2
      (List.forall₂_same.2 fun _ _ => rfl)) ?_⟩
  rintro row hrow group _ ⟨m, latest, values, hfresh, hrow', hlatest⟩ rfl
  obtain ⟨hshows, htimes'⟩ := hreads row (hperm.subset hrow)
  refine ⟨m, latest, values, hfresh, ?_, ?_⟩
  · rw [hshows, hshown, hrow']
  · rw [htimes', Plan.bestTime, hset.time]
    exact hlatest

/-- Of four recent events, three with the first number, the counts per number are those at
the latest time of the number: two events at 990, and one at 950. -/
theorem recent_counts_are_freshest :
    let events := eventsAt [(1, 990), (2, 950), (1, 970), (1, 990)]
    let rows : List Row := [[.int 1, .timestamp 990], [.int 2, .timestamp 950],
      [.int 1, .timestamp 970], [.int 1, .timestamp 990]]
    let counts : List Row := [[.int 1, .int 2, .timestamp 990], [.int 2, .int 1, .timestamp 950]]
    ∃ out final manifest slide groups matched,
      overEvents.convert (.aggregate scannedEvents [0] [] [.countRows "n"] none) = .ok out ∧
      out.materialize = .ok (final, manifest) ∧ 0 < slide ∧ slide < 100 ∧
      .aggregate (.sliding 1 100 slide) ∈ manifest.hints ∧
      evaluate events final.rel = .ok counts ∧ groupRows [0] rows = .ok groups ∧
      matched.Perm counts ∧
      List.Forall₂ (final.ShowsPane [0] 1 [.countRows "n"]) groups matched := by
  intro events rows counts
  obtain ⟨plan, hplan, hrule, hrows⟩ : ∃ plan, overEvents.convert scannedEvents = .ok plan ∧
      plan.aggregateRule? overEvents [0] = some (.sliding ⟨1, .gt, 100⟩) ∧
      evaluate events (plan.topN.onto plan.rel) = .ok rows := ⟨_, rfl, rfl, rfl⟩
  obtain ⟨hcolumns, hout⟩ : [0].mapM plan.select.apply = .ok [0] ∧ ∃ out final manifest,
      overEvents.convert (.aggregate scannedEvents [0] [] [.countRows "n"] none) = .ok out ∧
      out.materialize = .ok (final, manifest) ∧ evaluate events final.rel = .ok counts := by
    cases Except.ok.inj hplan
    exact ⟨rfl, _, _, _, rfl, rfl, rfl⟩
  obtain ⟨out, final, manifest, hout, hfinal, hcounts⟩ := hout
  have htimes : ∀ row ∈ rows, ∃ s, row.timeAt 1 = some s := by
    simp [rows, Row.timeAt]
  obtain ⟨slide, groups, finals, matched, hpos, hlt, hhint, -, hgroups, hfinals, hperm, hpanes⟩ :=
    sliding_window_keeps_freshest_panes hplan hcolumns rfl hrule hout hfinal hrows htimes rfl
  cases Except.ok.inj (hcounts.symm.trans hfinals)
  exact ⟨out, final, manifest, slide, groups, matched, hout, hfinal, hpos, hlt, hhint, hcounts,
    hgroups, hperm, hpanes⟩

end Converter

end StreamPlan
