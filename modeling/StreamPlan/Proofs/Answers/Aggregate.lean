import StreamPlan.Proofs.Answers.Aligned
import StreamPlan.Proofs.Answers.Project
import StreamPlan.Proofs.Plan.AggregateRule
import StreamPlan.Proofs.Rows.Group

/-!
# Answers of aggregations

An aggregation sorts its keys and drops repeated ones, and a now-filter on a
key that is a timestamp moves above the groups.

* `NowFilter.admits`: the times that a now-filter keeps. It does not tell values
  apart that are the same for grouping (`admits_congr`).
* `Plan.aggregateRows_of_layout`: grouping by the sorted keys gives, column by
  column, what grouping by the written ones does.
* `Converter.aggregate_groups_answer`: **the answer of a plain or tumbling
  aggregation** is the aggregation of the answer of its input.
-/

namespace StreamPlan

namespace Plan

variable {plan below : Plan}

/-- A now-filter on the grouped timestamp is carried over, any other applies below. -/
theorem carryOver_cases {timestamp : Nat} {carried : Option NowFilter}
    (h : plan.carryOver timestamp = .ok (below, carried)) :
    (below.rel = plan.filteredRel ∧ carried = none) ∨
      ∃ filter, plan.nowFilter = some filter ∧ filter.timestamp = timestamp ∧
        below.rel = plan.rel ∧ carried = some filter := by
  unfold carryOver at h
  split at h
  · rename_i hn
    cases h
    exact .inl ⟨by rw [filteredRel, hn], rfl⟩
  · rename_i filter hn
    split at h
    · rename_i hts
      cases h
      exact .inr ⟨filter, hn, hts, rfl, rfl⟩
    · obtain ⟨next, hnext, h⟩ := bind_eq_ok.1 h
      cases h
      exact .inl ⟨rel_of_withoutNowFilter hnext, rfl⟩

end Plan

namespace NowFilter

variable {now : Int} {filter : NowFilter} {row : Row}

/-- The comparison of a value with the time that a now-filter looks back to. -/
def compared (now : Int) (filter : NowFilter) (value : Value) : Eval Value :=
  evalExpr now [] (.binary .minus .now (.interval filter.interval)) >>=
    filter.comparison.op.apply value

/-- Whether a now-filter keeps rows with a value at its timestamp. -/
def admits (now : Int) (filter : NowFilter) (value : Value) : Bool :=
  match filter.compared now value with
  | .ok v => v.isTrue
  | .error _ => false

/-- A now-filter looks at its timestamp and nothing else. -/
theorem trueOn_expr {value : Value} (h : row[filter.timestamp]? = some value) :
    trueOn now filter.expr row = filter.admits now value := by
  have hbound : evalExpr now row (.binary .minus .now (.interval filter.interval))
      = evalExpr now [] (.binary .minus .now (.interval filter.interval)) := by
    simp only [Expr.now, Expr.interval, evalExpr]
    rfl
  have hvalue : evalExpr now row filter.expr = filter.compared now value := by
    rw [expr, evalExpr, hbound, evalExpr, h]
    rfl
  rw [trueOn, hvalue]
  rfl

/-- **A now-filter** does not tell values apart that are the same. -/
theorem admits_congr {a b : Value} (h : a.same b = true) :
    filter.admits now a = filter.admits now b := by
  have hcompare : filter.comparison.op.apply a = filter.comparison.op.apply b := by
    funext v
    cases filter.comparison <;> simp only [NowComparison.op, BinaryOp.apply, Value.compare?_congr h v]
  rw [admits, admits, compared, compared, hcompare]

end NowFilter

namespace Row

/-- Rows that are the same in some columns are so in the sorted columns. -/
theorem sameRow_pick_ofList (a b : Row) (columns : List Nat) :
    Value.sameRow (a.pick (Ascending.ofList columns)) (b.pick (Ascending.ofList columns))
      = Value.sameRow (a.pick columns) (b.pick columns) := by
  rw [pick, pick, pick, pick, Value.sameRow_map, Value.sameRow_map, Bool.eq_iff_iff,
    List.all_eq_true, List.all_eq_true]
  simp only [Ascending.mem_ofList]

theorem pick_append (row : Row) (front back : List Nat) :
    row.pick (front ++ back) = row.pick front ++ row.pick back := by
  rw [pick, pick, pick, List.map_append]

/-- Columns that are sorted before other values stand where the sorted list has them. -/
theorem pick_idxOf (row values : Row) {columns sorted : List Nat} (h : ∀ c ∈ columns, c ∈ sorted) :
    (row.pick (Ascending.ofList sorted) ++ values).pick
      (columns.map (Ascending.ofList sorted).idxOf) = row.pick columns := by
  refine Row.pick_congr (List.forall₂_map_right_iff.2 (List.forall₂_same.2 fun c hc => ?_))
  have hmem := Ascending.mem_ofList.2 (h c hc)
  rw [List.getElem?_append_left
      (by rw [length_pick]; exact List.idxOf_lt_length_of_mem hmem),
    pick, List.getElem?_map, Ascending.getElem?_idxOf hmem]
  rfl

theorem pick_range' (front values : Row) :
    (front ++ values).pick (List.range' front.length values.length) = values := by
  refine List.ext_getElem? fun i => ?_
  rw [pick, List.getElem?_map]
  rcases Nat.lt_or_ge i values.length with hi | hi
  · rw [List.getElem?_range' hi, Option.map_some, List.getElem?_append_right (by omega),
      show front.length + 1 * i - front.length = i by omega, List.getElem?_eq_getElem hi]
    rfl
  · rw [List.getElem?_eq_none (by rwa [List.length_range']), List.getElem?_eq_none hi]
    rfl

end Row

namespace Plan

variable {plan : Plan} {keys columns : List Nat} {calls moved : List AggregateCall}
  {rows above : List Row} {now : Int}

/-- The key of a grouped row. -/
theorem pick_key (row values : Row) (columns hidden : List Nat) (n : Nat) :
    (row.pick (Ascending.ofList (columns ++ hidden)) ++ values).pick
      (GroupLayout.of columns hidden n).key = row.pick columns :=
  Row.pick_idxOf row values fun _ hc => List.mem_append_left hidden hc

/-- A grouped row in the columns that the query sees. -/
theorem pick_layout (row : Row) {values : Row} (columns hidden : List Nat) {n : Nat}
    (hn : values.length = n) :
    (row.pick (Ascending.ofList (columns ++ hidden)) ++ values).pick
      (GroupLayout.of columns hidden n).select = row.pick columns ++ values := by
  subst hn
  have hrange := Row.pick_range' (row.pick (Ascending.ofList (columns ++ hidden))) values
  rw [Row.length_pick] at hrange
  rw [← pick_key row values columns hidden values.length, GroupLayout.of, Row.pick_append, hrange]

/-- The groups that have a row are alike as well. -/
theorem wholeGroups_alike {gs hs : List (Row × List Row)} {seen : Row → Row}
    (hkeys : keys.isEmpty = columns.isEmpty)
    (h : List.Forall₂ (AlikeGroups (·.pick (Ascending.ofList columns)) (·.pick columns) seen) gs hs) :
    List.Forall₂ (AlikeGroups (·.pick (Ascending.ofList columns)) (·.pick columns) seen)
      (wholeGroups (Ascending.ofList columns) gs) (wholeGroups keys hs) := by
  cases columns with
  | cons c columns =>
    have hne : Ascending.ofList (c :: columns) ≠ [] :=
      List.ne_nil_of_mem (Ascending.mem_ofList.2 List.mem_cons_self)
    have hne' : keys ≠ [] := by rintro rfl; cases hkeys
    rw [wholeGroups_of_ne_nil hne, wholeGroups_of_ne_nil hne']
    exact h
  | nil =>
    obtain rfl := List.isEmpty_iff.1 hkeys
    cases h with
    | nil => exact .cons ⟨[], rfl, rfl, rfl⟩ .nil
    | cons hg hrest => exact .cons hg hrest

theorem members_of_wholeGroups {gs : List (Row × List Row)} {keys : List Nat}
    (h : ∀ g ∈ gs, ∀ m ∈ g.2, m ∈ rows) : ∀ g ∈ wholeGroups keys gs, ∀ m ∈ g.2, m ∈ rows := by
  intro g hg
  rw [wholeGroups] at hg
  split at hg
  · rw [List.mem_singleton.1 hg]
    intro m hm
    cases hm
  · exact h g hg

/-- **Grouping by the sorted keys** gives, in the columns of the layout, what
grouping the visible rows by the written keys does. -/
theorem aggregateRows_of_layout (hin : ∀ row ∈ rows, ∀ t ∈ plan.select.targets, t < row.length)
    (hcolumns : keys.mapM plan.select.apply = .ok columns)
    (hmoved : calls.mapM (·.remap plan.select.apply) = .ok moved)
    (h : List.Forall₂ (AggregatesTo moved) (wholeGroups (Ascending.ofList columns)
      (groupsFrom (·.pick (Ascending.ofList columns)) [] rows)) above) :
    aggregateRows keys calls (rows.map fun row => row.pick plan.select.targets)
      = .ok (above.map fun row => row.pick (GroupLayout.of columns [] calls.length).select) := by
  have hseen : List.Forall₂ (fun c i => plan.select.targets[i]? = some c) columns keys :=
    (mapM_eq_ok.1 hcolumns).flip.imp fun c i hi => ColumnMap.apply_eq_ok.1 hi
  have hkeys : ∀ row ∈ rows.map fun row => row.pick plan.select.targets,
      row.at keys = .ok (row.pick keys) := by
    intro shown hshown
    obtain ⟨row, -, rfl⟩ := List.mem_map.1 hshown
    refine Row.at_of_inside fun k hk => ?_
    obtain ⟨i, hi, rfl⟩ := List.getElem_of_mem hk
    obtain ⟨c, -, hc⟩ := getElem?_of_mapM_eq_ok hcolumns (List.getElem?_eq_getElem hi)
    rw [Row.length_pick]
    exact (List.getElem?_eq_some_iff.1 (ColumnMap.apply_eq_ok.1 hc)).1
  -- the sorted keys are once each, the written ones may repeat: rows agree on the former exactly if
  -- they agree on the latter
  have halike : List.Forall₂ (AlikeGroups (·.pick (Ascending.ofList columns)) (·.pick columns)
      fun row => row.pick plan.select.targets)
      (groupsFrom (·.pick (Ascending.ofList columns)) [] rows)
      (groupsFrom (·.pick keys) [] (rows.map fun row => row.pick plan.select.targets)) :=
    groupsFrom_alike (fun a b => Row.sameRow_pick_ofList a b columns) fun row _ => Row.pick_pick hseen
  have hempty : keys.isEmpty = columns.isEmpty := by
    rw [Bool.eq_iff_iff, List.isEmpty_iff, List.isEmpty_iff, ← List.length_eq_zero_iff,
      ← List.length_eq_zero_iff, hseen.length_eq]
  have hcalls : ∀ members : List Row, (∀ m ∈ members, m ∈ rows) →
      calls.mapM (·.valueOn (members.map fun row => row.pick plan.select.targets))
        = moved.mapM (·.valueOn members) := by
    intro members hmembers
    refine mapM_congr ((mapM_eq_ok.1 hmoved).imp fun call target hmove => ?_)
    refine AggregateCall.valueOn_remap (f := plan.select.apply) (List.forall₂_map_right_iff.2
      (List.forall₂_same.2 fun row hrow i t ht => ?_)) hmove
    have ht := ColumnMap.apply_eq_ok.1 ht
    exact Row.getElem?_pick ht (hin row (hmembers row hrow) t (List.mem_of_getElem? ht))
  -- group by group: the same members give the same values, under the key as it is written
  refine aggregateRows_eq_ok.2 ⟨_, groupRows_of_at hkeys, ?_⟩
  rw [List.forall₂_map_right_iff]
  refine forall₂_of_left (wholeGroups_alike hempty halike) h ?_
  rintro g hg shown row ⟨first, hfirst, hother, hmembers⟩ ⟨values, hvalues, rfl⟩
  refine ⟨values, ?_, ?_⟩
  · rw [hmembers, hcalls g.2 (members_of_wholeGroups (members_of_groupsFrom rows) g hg)]
    exact hvalues
  · have hlength : values.length = calls.length := by
      rw [length_of_mapM_eq_ok hvalues, length_of_mapM_eq_ok hmoved]
    have hlayout := pick_layout first columns [] hlength
    rw [List.append_nil] at hlayout
    rw [hfirst, hlayout, hother]

/-- The groups of the rows of an aggregation by sorted keys. -/
theorem groups_of_aggregateRows (h : aggregateRows columns moved rows = .ok above) :
    (∀ row ∈ rows, ∀ t ∈ columns, t < row.length) ∧
      (∀ g ∈ groupsFrom (·.pick columns) [] rows, g.1.length = columns.length) ∧
      List.Forall₂ (AggregatesTo moved)
        (wholeGroups columns (groupsFrom (·.pick columns) [] rows)) above := by
  obtain ⟨groups, hgroups, h⟩ := aggregateRows_eq_ok.1 h
  have hat := at_of_groupRows hgroups
  have hpick : ∀ row ∈ rows, row.at columns = .ok (row.pick columns) := by
    intro row hrow
    obtain ⟨key, hkey⟩ := hat row hrow
    rw [hkey, eq_pick_of_at hkey]
  cases Except.ok.inj (hgroups.symm.trans (groupRows_of_at hpick))
  refine ⟨fun row hrow => inside_of_at (hpick row hrow), fun g hg => ?_, h⟩
  obtain ⟨row, -, hat⟩ := key_of_groupRows hgroups g hg
  exact length_of_at hat

/-- **A now-filter on a key** keeps the groups of the rows that it keeps. -/
theorem groups_of_filtered {filter : NowFilter} {p : Nat} (hp : columns[p]? = some filter.timestamp)
    (h : aggregateRows columns moved rows = .ok above) :
    List.Forall₂ (AggregatesTo moved)
      (wholeGroups columns (groupsFrom (·.pick columns) [] (rows.filter (trueOn now filter.expr))))
      (above.filter (trueOn now (NowFilter.expr { filter with timestamp := p }))) := by
  obtain ⟨hinside, hlength, hgroups⟩ := groups_of_aggregateRows h
  have hne : columns ≠ [] := by rintro rfl; cases hp
  rw [wholeGroups_of_ne_nil hne] at hgroups ⊢
  have hfilter : rows.filter (trueOn now filter.expr)
      = rows.filter fun row => filter.admits now (((row.pick columns)[p]?).getD .null) := by
    refine List.filter_congr fun row hrow => ?_
    have hlt := hinside row hrow _ (List.mem_of_getElem? hp)
    rw [Row.getElem?_pick hp hlt, NowFilter.trueOn_expr (List.getElem?_eq_getElem hlt),
      List.getElem?_eq_getElem hlt]
    rfl
  -- rows of one group tie on the timestamp, so the now-filter keeps a group whole or not at all
  have hsame : ∀ a b : Row, Value.sameRow a b = true →
      filter.admits now ((a[p]?).getD .null) = filter.admits now ((b[p]?).getD .null) := by
    intro a b hab
    have hf := Value.sameRow_iff.1 hab
    rcases Nat.lt_or_ge p a.length with hlt | hge
    · have hlt' : p < b.length := hf.length_eq ▸ hlt
      rw [List.getElem?_eq_getElem hlt, List.getElem?_eq_getElem hlt']
      exact NowFilter.admits_congr ((List.forall₂_iff_get.1 hf).2 p hlt hlt')
    · rw [List.getElem?_eq_none hge, List.getElem?_eq_none (hf.length_eq ▸ hge)]
  rw [hfilter, groupsFrom_filter hsame]
  refine forall₂_filter hgroups (((List.forall₂_and_left _ _).2 ⟨hlength, hgroups⟩).imp ?_)
  rintro ⟨key, members⟩ row ⟨hkey, values, -, rfl⟩
  have hlt : p < key.length := hkey ▸ (List.getElem?_eq_some_iff.1 hp).1
  have hvalue : (key ++ values)[p]? = some key[p] := by
    rw [List.getElem?_append_left hlt, List.getElem?_eq_getElem hlt]
  have hadmits : trueOn now (NowFilter.expr { filter with timestamp := p }) (key ++ values)
      = filter.admits now key[p] := NowFilter.trueOn_expr hvalue
  rw [hadmits, List.getElem?_eq_getElem hlt]
  rfl

variable {c : Converter} {fixture : Fixture} {out : Plan}

theorem rows_of_grouped {kind : TableKind} {hint : Option AggregateHint} {grouped below : Plan}
    (h : below.groupedAs kind (.of columns [] moved.length) moved hint = .ok grouped)
    (habove : evaluate fixture grouped.rel = .ok above) :
    ∃ rows, evaluate fixture below.rel = .ok rows ∧
      aggregateRows (Ascending.ofList columns) moved rows = .ok above := by
  obtain ⟨key, select, rfl⟩ := groupedAs_eq_ok h
  simp only [bare, GroupLayout.of, List.append_nil, Ascending.ofList_ofList] at habove
  rw [evaluate] at habove
  obtain ⟨rows, hrows, habove⟩ := bind_eq_ok.1 habove
  exact ⟨rows, hrows, lift_eq_ok.1 habove⟩

/-- The rows of a plain aggregation are the groups of the rows below. -/
theorem plain_groups (h : plan.plain columns moved = .ok out)
    (hrows : evaluate fixture plan.settledRel = .ok rows)
    (habove : evaluate fixture out.settledRel = .ok above) :
    List.Forall₂ (AggregatesTo moved) (wholeGroups (Ascending.ofList columns)
        (groupsFrom (·.pick (Ascending.ofList columns)) [] rows)) above ∧
      out.key.targets = (GroupLayout.of columns [] moved.length).key ∧
      out.select.targets = (GroupLayout.of columns [] moved.length).select := by
  unfold plain at h
  obtain ⟨below, hbelow, h⟩ := bind_eq_ok.1 h
  have hgrouped := lift_eq_ok.1 h
  refine ⟨?_, groupedAs_columns hgrouped⟩
  obtain ⟨key, select, hshape⟩ := groupedAs_eq_ok hgrouped
  rw [settledRel_eq_rel (by rw [hshape]; rfl) (by rw [hshape]; rfl)] at habove
  obtain ⟨rows', hrows', habove⟩ := rows_of_grouped hgrouped habove
  rw [rel_of_withoutPending hbelow, hrows] at hrows'
  cases hrows'
  exact (groups_of_aggregateRows habove).2.2

/-- The rows of a tumbling window are the groups of the rows that a pending
now-filter keeps, whether it moves above the groups or not. -/
theorem tumbling_groups {timestamp : Nat} (ht : plan.topN.isEmpty = true)
    (hmem : timestamp ∈ columns) (h : plan.tumbling columns moved timestamp = .ok out)
    (hrows : evaluate fixture plan.settledRel = .ok rows)
    (habove : evaluate fixture out.settledRel = .ok above) :
    List.Forall₂ (AggregatesTo moved) (wholeGroups (Ascending.ofList columns)
        (groupsFrom (·.pick (Ascending.ofList columns)) [] rows)) above ∧
      out.key.targets = (GroupLayout.of columns [] moved.length).key ∧
      out.select.targets = (GroupLayout.of columns [] moved.length).select := by
  unfold tumbling at h
  obtain ⟨needs, -, h⟩ := bind_eq_ok.1 h
  obtain ⟨⟨below, carried⟩, hcarry, h⟩ := bind_eq_ok.1 h
  obtain ⟨grouped, hgrouped, h⟩ := bind_eq_ok.1 h
  cases h
  have hgrouped := lift_eq_ok.1 hgrouped
  refine ⟨?_, (groupedAs_columns hgrouped).1, (groupedAs_columns hgrouped).2⟩
  obtain ⟨key, select, hshape⟩ := groupedAs_eq_ok hgrouped
  rw [settledRel_eq_filteredRel (by rw [hshape]; rfl)] at habove
  rw [settledRel_eq_filteredRel ht] at hrows
  -- a now-filter applies below the groups, or moves to the timestamp among their keys
  rcases carryOver_cases hcarry with ⟨hbelow, rfl⟩ | ⟨filter, hf, rfl, hbelow, rfl⟩
  · obtain ⟨rows', hrows', habove⟩ := rows_of_grouped hgrouped habove
    rw [hbelow] at hrows'
    cases Except.ok.inj (hrows.symm.trans hrows')
    exact (groups_of_aggregateRows habove).2.2
  · obtain ⟨p, hp, -⟩ := @GroupLayout.position?_of_mem columns [] moved.length _ (.inl hmem)
    simp only [filteredRel, Option.bind_some, NowFilter.remap, hp, Option.map_some, NowFilter.onto]
      at habove
    rw [filteredRel, show plan.nowFilter = some filter from hf] at hrows
    simp only [NowFilter.onto] at hrows
    rw [evaluate] at habove hrows
    obtain ⟨mid, hmid, habove⟩ := bind_eq_ok.1 habove
    obtain ⟨all, hall, hrows⟩ := bind_eq_ok.1 hrows
    obtain ⟨-, rfl⟩ := filterRows_eq_ok.1 habove
    obtain ⟨-, rfl⟩ := filterRows_eq_ok.1 hrows
    obtain ⟨all', hall', hmid⟩ := rows_of_grouped hgrouped hmid
    rw [hbelow] at hall'
    cases Except.ok.inj (hall.symm.trans hall')
    have hposition : (Ascending.ofList columns)[p]? = some filter.timestamp := by
      have := find_position hp
      rwa [show (GroupLayout.of columns [] moved.length).keys = Ascending.ofList columns by
        simp [GroupLayout.of]] at this
    exact groups_of_filtered hposition hmid

/-- The key of grouped rows are the grouping columns. -/
theorem key_of_layout (hkey : out.key.targets = (GroupLayout.of columns [] moved.length).key)
    (hselect : out.select.targets = (GroupLayout.of columns [] moved.length).select) :
    out.key.targets = out.select.targets.take columns.length := by
  rw [hkey, hselect]
  simp [GroupLayout.of]

/-- A key of the first visible columns is what a row shows first. -/
theorem key_of_take {row : Row} {n : Nat} (h : out.key.targets = out.select.targets.take n) :
    (out.shown row).key = (out.shown row).visible.take n := by
  rw [key_shown, visible_shown, h, Row.pick, Row.pick, List.map_take]

/-- The rows of an aggregation by the plain or the tumbling rule are the groups
of the rows of its input. -/
theorem aggregated_groups (hone : plan.nowFilter = none ∨ plan.topN.isEmpty = true)
    (hcolumns : keys.mapM plan.select.apply = .ok columns)
    (hrule : plan.aggregateRule? c columns = some .plain ∨
      ∃ timestamp, plan.aggregateRule? c columns = some (.tumbling timestamp))
    (hout : plan.aggregated c keys calls = .ok out)
    (hrows : evaluate fixture plan.settledRel = .ok rows)
    (habove : evaluate fixture out.settledRel = .ok above) :
    ∃ moved, calls.mapM (·.remap plan.select.apply) = .ok moved ∧
      List.Forall₂ (AggregatesTo moved) (wholeGroups (Ascending.ofList columns)
        (groupsFrom (·.pick (Ascending.ofList columns)) [] rows)) above ∧
      out.key.targets = (GroupLayout.of columns [] calls.length).key ∧
      out.select.targets = (GroupLayout.of columns [] calls.length).select := by
  obtain ⟨base, needs, columns', moved, rule, hbase, hcolumns', hmoved, hrule', hby⟩ :=
    aggregated_eq_ok hout
  obtain rfl : columns' = columns := Except.ok.inj (hcolumns'.symm.trans hcolumns)
  obtain ⟨-, hempty, -⟩ := withoutTopN_settled hbase
  rw [← filteredRel_of_withoutTopN hone hbase] at hrows
  have hsettled : settledRel { base with sort := [], needs } = base.filteredRel :=
    (settledRel_eq_filteredRel hempty : settledRel { base with sort := [], needs }
      = filteredRel { base with sort := [], needs })
  rw [← hsettled] at hrows
  refine ⟨moved, hmoved, ?_⟩
  rw [← length_of_mapM_eq_ok hmoved]
  rcases hrule with hr | ⟨timestamp, hr⟩ <;> cases Option.some.inj (hrule'.symm.trans hr)
  · exact plain_groups hby hrows habove
  · refine tumbling_groups ?_ (mem_of_tumbling hr) hby hrows habove
    exact hempty

end Plan

namespace Converter

variable {c : Converter} {fixture : Fixture} {q : Rel} {plan : Plan} {keys columns : List Nat}
  {groupingSets : List (List Nat)} {calls : List AggregateCall} {hint : Option AggregateHint}
  {answer grouped : List AnsweredRow}

/-- **The answer of a plain or tumbling aggregation** is, in order, the aggregation
of the answer of its input by the keys as they are written, repeats included.
A now-filter that moved above the groups, and a ranking below them, make no
difference. The key of a group is what it shows first. -/
theorem aggregate_groups_answer (hplan : c.convert q = .ok plan)
    (hone : plan.nowFilter = none ∨ plan.topN.isEmpty = true)
    (hcolumns : keys.mapM plan.select.apply = .ok columns)
    (hrule : plan.aggregateRule? c columns = some .plain ∨
      ∃ timestamp, plan.aggregateRule? c columns = some (.tumbling timestamp))
    (hanswer : c.Answers fixture q answer)
    (hgrouped : c.Answers fixture (.aggregate q keys groupingSets calls hint) grouped) :
    aggregateRows keys calls (answer.map AnsweredRow.visible)
        = .ok (grouped.map AnsweredRow.visible) ∧
      (∀ row ∈ grouped, row.key = row.visible.take keys.length) ∧
      ∃ final, c.convert (.aggregate q keys groupingSets calls hint) = .ok final ∧
        final.key.targets = final.select.targets.take keys.length := by
  obtain ⟨plan', rows, hplan', hrows, rfl⟩ := answer_settled hanswer
  obtain rfl : plan' = plan := Except.ok.inj (hplan'.symm.trans hplan)
  obtain ⟨final, above, hfinal, habove, rfl⟩ := answer_settled hgrouped
  have hconverted := hfinal
  rw [convert] at hfinal
  obtain ⟨_, -, hfinal⟩ := bind_eq_ok.1 hfinal
  obtain ⟨input, hinput, hfinal⟩ := bind_eq_ok.1 hfinal
  obtain rfl : input = plan' := Except.ok.inj (hinput.symm.trans hplan)
  obtain ⟨out, hout, hfinal⟩ := bind_eq_ok.1 hfinal
  obtain ⟨hsettled, hshown⟩ := finish_answers hfinal
  have hset := (finish_sound hfinal).1
  rw [hsettled] at habove
  obtain ⟨moved, hmoved, hgroups, hkey, hselect⟩ :=
    Plan.aggregated_groups hone hcolumns hrule hout hrows habove
  have hlength : columns.length = keys.length := length_of_mapM_eq_ok hcolumns
  refine ⟨?_, ?_, final, hconverted, ?_⟩
  · rw [List.map_map, List.map_map, hshown]
    refine (Plan.aggregateRows_of_layout (answer_inside hanswer hplan hrows) hcolumns hmoved
      hgroups).trans (congrArg _ (List.map_congr_left fun row _ => ?_))
    rw [Function.comp_apply, Plan.visible_shown, hselect]
  · rw [hshown, ← hlength]
    intro shown hmem
    obtain ⟨row, -, rfl⟩ := List.mem_map.1 hmem
    exact Plan.key_of_take (Plan.key_of_layout hkey hselect)
  · rw [hset.key, hset.select, ← hlength]
    exact Plan.key_of_layout hkey hselect

/-- Of four events two have the same number and time, and the pulled-up now-filter
keeps all but the last. It moves above the groups. -/
theorem recent_groups_are_kept :
    let events := eventsAt [(1, 990), (2, 950), (1, 990), (3, 800)]
    let answer := [⟨[.int 1, .timestamp 990], [.int 1]⟩, ⟨[.int 2, .timestamp 950], [.int 2]⟩,
      ⟨[.int 1, .timestamp 990], [.int 1]⟩]
    let calls := [AggregateCall.countRows "n"]
    let grouped := [
      ⟨[.timestamp 990, .int 1, .int 1, .int 2], [.timestamp 990, .int 1, .int 1]⟩,
      ⟨[.timestamp 950, .int 2, .int 2, .int 1], [.timestamp 950, .int 2, .int 2]⟩]
    overEvents.Answers events scannedEvents answer ∧
      overEvents.Answers events (.aggregate scannedEvents [1, 0, 0] [] calls none) grouped ∧
      aggregateRows [1, 0, 0] calls (answer.map AnsweredRow.visible)
        = .ok (grouped.map AnsweredRow.visible) ∧
      ∀ row ∈ grouped, row.key = row.visible.take 3 := by
  intro events answer calls grouped
  have hanswer : overEvents.Answers events scannedEvents answer := ⟨_, _, _, rfl, rfl, rfl⟩
  have hgrouped : overEvents.Answers events (.aggregate scannedEvents [1, 0, 0] [] calls none)
      grouped := ⟨_, _, _, rfl, rfl, rfl⟩
  obtain ⟨hrows, hkeys, -⟩ := aggregate_groups_answer rfl (.inr rfl) rfl
    (.inr ⟨1, rfl⟩) hanswer hgrouped
  exact ⟨hanswer, hgrouped, hrows, hkeys⟩

end Converter

end StreamPlan
