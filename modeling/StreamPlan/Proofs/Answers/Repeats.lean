import StreamPlan.Proofs.Answers.Aggregate
import StreamPlan.Proofs.Rows.Repeats

/-!
# Aggregations by columns that repeat

An aggregation drops repeats among its columns, but which rule it is planned by depends on
the columns as they are written.

* `Selection.onceAt`: where the outputs stand among those of the aggregation by each column
  once (`pick_onceAt`).
* `Plan.RepeatsColumns`: plans that differ by repeated columns alone. The last step of an
  operator keeps that (`Converter.finish_repeats`).
* `Plan.aggregatedBy_repeats`: aggregations by one rule differ so, with a lemma per rule:
  `tumbling_repeats`, `sliding_repeats`, `byRootKey_repeats`, `running_repeats`, `plain_repeats`.
* `Converter.repeated_columns_are_grouped_once`: **a repeated group column** changes nothing,
  unless it changes the rule.
-/

namespace StreamPlan

variable {columns : List Nat}

namespace Selection

/-- Where the outputs of an aggregation by columns stand among those of the aggregation
by each of them once. -/
def onceAt (columns : List Nat) (calls : Nat) : List Nat :=
  columns.map (append [] columns).idxOf ++ List.range' (append [] columns).length calls

/-- **Values by column with repeats** are picked from the values by column without. -/
theorem pick_onceAt (values : Nat → Value) (rest : Row) :
    Row.pick ((append [] columns).map values ++ rest) (onceAt columns rest.length)
      = columns.map values ++ rest := by
  have hrest : Row.pick ((append [] columns).map values ++ rest)
      (List.range' (append [] columns).length rest.length) = rest := by
    have hlength : ((append [] columns).map values).length = (append [] columns).length :=
      List.length_map values
    rw [← hlength]
    exact Row.pick_range' _ rest
  rw [onceAt, Row.pick_append, hrest]
  congr 1
  rw [Row.pick, List.map_map]
  refine List.map_congr_left fun c hc => ?_
  have hmem : c ∈ append [] columns := mem_unrepeated.2 hc
  rw [Function.comp_apply, List.getElem?_append_left
      (by rw [List.length_map]; exact List.idxOf_lt_length_of_mem hmem),
    List.getElem?_map, Ascending.getElem?_idxOf hmem]
  rfl

end Selection

/-- The hints of a tree, each operator before its inputs. -/
def Rel.hints (rel : Rel) : List ManifestHint := rel.preorder.filterMap ManifestHint.ofRoot?

/-- An applied ranking has no hint. -/
theorem Rel.hints_onto (topN : TopN) (rel : Rel) : (topN.onto rel).hints = rel.hints := by
  unfold TopN.onto
  split
  · rfl
  · simp only
    split <;> simp only [hints, preorder] <;> rfl

/-- Rankings that differ in how their partition is written. -/
structure TopN.SamePartitions (a b : TopN) : Prop where
  members : ∀ col, col ∈ a.partition ↔ col ∈ b.partition
  rest : b = { a with partition := b.partition }

namespace TopN.SamePartitions

variable {a b : TopN} {fixture : Fixture}

theorem refl (a : TopN) : a.SamePartitions a := ⟨fun _ => .rfl, rfl⟩

theorem isEmpty (h : a.SamePartitions b) : a.isEmpty = b.isEmpty := by
  have hnil : a.partition.isEmpty = b.partition.isEmpty := by
    rw [Bool.eq_iff_iff, List.isEmpty_iff, List.isEmpty_iff, List.eq_nil_iff_forall_not_mem,
      List.eq_nil_iff_forall_not_mem]
    simp only [h.members]
  rw [h.rest, TopN.isEmpty, TopN.isEmpty, hnil]

theorem evaluate (h : a.SamePartitions b) (rel : Rel) :
    StreamPlan.evaluate fixture (a.onto rel) = StreamPlan.evaluate fixture (b.onto rel) := by
  have hempty := h.isEmpty
  obtain ⟨hmembers, hrest⟩ := h
  generalize b.partition = partition at hmembers hrest
  subst hrest
  unfold onto
  rw [← hempty]
  split
  · rfl
  · simp only [StreamPlan.evaluate, firstRowsOf_members hmembers]

end TopN.SamePartitions

namespace Plan

variable {plan out once : Plan} {c : Converter} {calls : List AggregateCall}

theorem hints_settledRel (plan : Plan) : plan.settledRel.hints = plan.rel.hints := by
  rw [settledRel, Rel.hints_onto, filteredRel]
  split
  · rfl
  · simp only [Rel.hints, NowFilter.onto, Rel.preorder]
    rfl

/-- **The plan of an aggregation by columns as they are written** beside that of the aggregation
by each of them once: the rows mean the same and have the same times, with the same hints and
the same constraints pending, and they show the repeated columns again. -/
structure RepeatsColumns (columns : List Nat) (calls : Nat) (out once : Plan) : Prop where
  kind : out.kind = once.kind
  needs : out.needs = once.needs
  time : out.time.best?.map (fun t => (t.derivation, t.rank))
    = once.time.best?.map (fun t => (t.derivation, t.rank))
  hints : out.rel.hints = once.rel.hints
  nowFilter : out.nowFilter = once.nowFilter
  topN : out.topN.isEmpty = once.topN.isEmpty
  rows : ∀ fixture, Alike (List.Forall₂ fun row other =>
      (out.shown row).visible = (once.shown other).visible.pick (Selection.onceAt columns calls) ∧
        out.bestTime row = once.bestTime other)
    (evaluate fixture out.settledRel) (evaluate fixture once.settledRel)

theorem needs_of_withoutTopN {a b : Plan} (hneeds : a.needs = b.needs)
    (htopN : a.topN.isEmpty = b.topN.isEmpty) :
    Alike (fun a b : Plan => a.needs = b.needs) a.withoutTopN b.withoutTopN := by
  unfold withoutTopN inlineTopN
  rw [htopN, hneeds]
  split
  · exact .ok hneeds
  · cases b.needs.require .sort with
    | ok needs => exact .ok rfl
    | error missing => exact .error _

/-- Constraints that are pending alike apply alike. -/
theorem RepeatsColumns.needs_of_withoutPending {n : Nat} (h : RepeatsColumns columns n out once) :
    Alike (fun a b : Plan => a.needs = b.needs) out.withoutPending once.withoutPending := by
  unfold withoutPending inlineAll inlineNowFilter
  rw [h.nowFilter, h.needs]
  cases once.nowFilter with
  | none => exact needs_of_withoutTopN h.needs h.topN
  | some filter =>
    cases once.needs.require .nowFunction with
    | ok needs =>
      exact needs_of_withoutTopN (a := { out with nowFilter := none, needs, rel := filter.onto out.rel })
        (b := { once with nowFilter := none, needs, rel := filter.onto once.rel }) rfl h.topN
    | error missing => exact .error _

/-- Plans with everything pending applied show what they did. -/
theorem RepeatsColumns.settled {n : Nat} (h : RepeatsColumns columns n out once) {a b : Plan}
    (ha : out.withoutPending = .ok a) (hb : once.withoutPending = .ok b) (hneeds : a.needs = b.needs) :
    RepeatsColumns columns n a b := by
  obtain ⟨hseta, hna, hta⟩ := withoutPending_settled ha
  obtain ⟨hsetb, hnb, htb⟩ := withoutPending_settled hb
  refine ⟨?_, hneeds, ?_, ?_, hna.trans hnb.symm, hta.trans htb.symm, fun fixture => ?_⟩
  · rw [hseta.kind, hsetb.kind, h.kind]
  · rw [hseta.time, hsetb.time, h.time]
  · rw [rel_of_withoutPending ha, rel_of_withoutPending hb, hints_settledRel, hints_settledRel, h.hints]
  · rw [settledRel_of_withoutPending ha, settledRel_of_withoutPending hb, shown_settled hseta,
      shown_settled hsetb]
    simp only [bestTime, hseta.time, hsetb.time]
    exact h.rows fixture

end Plan

/-- **The last step of an operator** keeps what is the same about the plans. -/
theorem Converter.finish_repeats {c : Converter} {n : Nat} {out once : Plan}
    (h : Plan.RepeatsColumns columns n out once) (hout : out.Sound) (honce : once.Sound) :
    Alike (Plan.RepeatsColumns columns n) (c.finish out) (c.finish once) := by
  have hlast : ∀ {a b : Plan}, Plan.RepeatsColumns columns n a b → a.Sound → b.Sound →
      Alike (Plan.RepeatsColumns columns n) (do liftM a.check; return a : Planning Plan)
        (do liftM b.check; return b) := by
    intro a b hab ha hb
    rw [Plan.check_eq_ok_iff.2 ha, Plan.check_eq_ok_iff.2 hb]
    exact .ok hab
  unfold finish
  rw [h.needs]
  simp only
  split
  · exact .error _
  · split
    · refine h.needs_of_withoutPending.results.bind fun a b ⟨ha, hb, hneeds⟩ => ?_
      exact hlast (h.settled ha hb hneeds) ((Plan.withoutPending_settled ha).1.sound hout)
        ((Plan.withoutPending_settled hb).1.sound honce)
    · exact hlast h hout honce

namespace Plan

variable {plan : Plan} {c : Converter} {calls : List AggregateCall}

/-- Plans that differ by repeats, each of which is sound. -/
def RepeatsSoundly (columns : List Nat) (calls : Nat) (out once : Plan) : Prop :=
  RepeatsColumns columns calls out once ∧ out.Sound ∧ once.Sound

/-- An aggregation sorts its keys and drops repeats. -/
theorem keys_unrepeated (columns hidden : List Nat) (n : Nat) :
    (GroupLayout.of (Selection.append [] columns) hidden n).keys
      = (GroupLayout.of columns hidden n).keys := by
  refine Ascending.eq_of_mem_iff (Ascending.pairwise_ofList _) (Ascending.pairwise_ofList _) fun col => ?_
  rw [GroupLayout.mem_of_keys, GroupLayout.mem_of_keys, Selection.mem_unrepeated]

theorem position?_unrepeated (columns hidden : List Nat) (n : Nat) :
    (GroupLayout.of (Selection.append [] columns) hidden n).position?
      = (GroupLayout.of columns hidden n).position? := by
  funext col
  rw [GroupLayout.position?, GroupLayout.position?, keys_unrepeated]

/-- What a grouped row shows by columns with repeats. -/
theorem pick_select_unrepeated (row : Row) (columns hidden : List Nat) (n : Nat) :
    row.pick (GroupLayout.of columns hidden n).select
      = (row.pick (GroupLayout.of (Selection.append [] columns) hidden n).select).pick
          (Selection.onceAt columns n) := by
  have hshown : ∀ keys : List Nat, (GroupLayout.of keys hidden n).keys
        = (GroupLayout.of columns hidden n).keys →
      row.pick (GroupLayout.of keys hidden n).select
        = keys.map (fun col => (row[(GroupLayout.of columns hidden n).keys.idxOf col]?).getD .null)
          ++ row.pick (List.range' (GroupLayout.of columns hidden n).keys.length n) := by
    intro keys hkeys
    rw [show (GroupLayout.of keys hidden n).select
        = keys.map (GroupLayout.of keys hidden n).keys.idxOf
          ++ List.range' (GroupLayout.of keys hidden n).keys.length n from rfl, hkeys, Row.pick_append]
    congr 1
    rw [Row.pick, List.map_map]
    rfl
  have hlength : (row.pick (List.range' (GroupLayout.of columns hidden n).keys.length n)).length = n := by
    rw [Row.length_pick, List.length_range']
  rw [hshown columns rfl, hshown _ (keys_unrepeated columns hidden n), ← Selection.pick_onceAt, hlength]

/-- A plan of a tree with columns of its own, a timestamp and constraints about it. -/
theorem sound_of_bare {rel : Rel} {kind : TableKind} {key select : ColumnMap} {needs : Requirements}
    {time : EventTime} {nowFilter : Option NowFilter} {topN : TopN} {rootKeys : Option Nat}
    (hk : key.width = rel.width) (hs : select.width = rel.width)
    (hst : kind = .state → time.columns = [] ∧ nowFilter = none)
    (ht : ∀ i ∈ time.columns, i < rel.width)
    (hn : ∀ f, nowFilter = some f → f.timestamp ∈ time.columns)
    (htop : ∀ i ∈ topN.columns, i < rel.width) :
    ({ bare rel kind key needs with select, time, nowFilter, topN, rootKeys } : Plan).Sound :=
  ⟨hk, hs, fun h => (hst h).1, fun h => (hst h).2, ht, hn, (fun i hi => by cases hi), htop⟩

/-- Plans of one grouped tree with the columns of either layout. -/
theorem repeats_of_grouped {out once : Plan} {hidden : List Nat} {n : Nat} (hrel : out.rel = once.rel)
    (hkind : out.kind = once.kind) (hneeds : out.needs = once.needs) (htime : out.time = once.time)
    (hnow : out.nowFilter = once.nowFilter) (htopN : out.topN.SamePartitions once.topN)
    (hselect : out.select.targets = (GroupLayout.of columns hidden n).select)
    (honce : once.select.targets = (GroupLayout.of (Selection.append [] columns) hidden n).select) :
    RepeatsColumns columns n out once := by
  refine ⟨hkind, hneeds, by rw [htime], by rw [hrel], hnow, htopN.isEmpty, fun fixture => ?_⟩
  have hrows : evaluate fixture out.settledRel = evaluate fixture once.settledRel := by
    rw [settledRel, settledRel, filteredRel, filteredRel, hrel, hnow]
    exact htopN.evaluate _
  rw [hrows]
  cases evaluate fixture once.settledRel with
  | ok rows =>
    refine .ok (List.forall₂_same.2 fun row _ => ⟨?_, by rw [bestTime, bestTime, htime]⟩)
    rw [visible_shown, visible_shown, hselect, honce]
    exact pick_select_unrepeated row columns hidden n
  | error e => exact .error e

/-- The plan of groups of a timestamp each, with the now-filter that goes on above them. -/
theorem sound_of_timed {rel : Rel} {kind : TableKind} {key select : ColumnMap} {needs : Requirements}
    {layout : GroupLayout} {timestamp p : Nat} {derivation : Derivation} {carried : Option NowFilter}
    {rootKeys : Option Nat} (hk : key.width = rel.width) (hs : select.width = rel.width)
    (hkind : kind ≠ .state) (hp : layout.position? timestamp = some p) (hlt : p < rel.width)
    (hcarried : ∀ f, carried = some f → f.timestamp = timestamp) :
    ({ bare rel kind key needs with
      select
      time := .single ((layout.position? timestamp).getD 0) derivation
      nowFilter := carried.bind (·.remap layout.position?)
      rootKeys } : Plan).Sound := by
  refine sound_of_bare hk hs (fun h => absurd h hkind) ?_ ?_ (fun i hi => by cases hi)
  · intro i hi
    rw [hp] at hi
    exact List.mem_singleton.1 hi ▸ hlt
  · intro f hf
    obtain ⟨g, hg, hf⟩ := Option.bind_eq_some_iff.1 hf
    obtain ⟨q, hq, rfl⟩ := Option.map_eq_some_iff.1 hf
    rw [hcarried g hg, hp] at hq
    cases hq
    rw [hp]
    exact List.mem_cons_self

theorem timestamp_of_carryOver {below : Plan} {timestamp : Nat} {carried : Option NowFilter}
    (h : plan.carryOver timestamp = .ok (below, carried)) :
    ∀ f, carried = some f → f.timestamp = timestamp := by
  rcases carryOver_cases h with ⟨-, rfl⟩ | ⟨filter, -, hts, -, rfl⟩
  · exact nofun
  · rintro f ⟨⟩
    exact hts

/-- **Groups of a timestamp each.** -/
theorem timed_repeats {below : Plan} {kind : TableKind} {hidden : List Nat} {hint : Option AggregateHint}
    {timestamp : Nat} {carried : Option NowFilter} {derivation : Derivation}
    (rootKeys : Nat → Option Nat → Option Nat) (hkind : kind ≠ .state)
    (hmem : timestamp ∈ columns ∨ timestamp ∈ hidden)
    (hcarried : ∀ f, carried = some f → f.timestamp = timestamp) :
    let timed := fun keys : List Nat => (do
      let layout := GroupLayout.of keys hidden calls.length
      let grouped ← below.groupedAs kind layout calls hint
      return { grouped with
        time := .single ((layout.position? timestamp).getD 0) derivation
        nowFilter := carried.bind (·.remap layout.position?)
        rootKeys := rootKeys keys.length grouped.rootKeys } : Planning Plan)
    Alike (RepeatsSoundly columns calls.length) (timed columns) (timed (Selection.append [] columns)) := by
  intro timed
  have hmem' : timestamp ∈ Selection.append [] columns ∨ timestamp ∈ hidden :=
    hmem.imp_left Selection.mem_unrepeated.2
  obtain ⟨_, hout, _, key, select, rfl, rfl, hw, hkw, hsw, -, hsts⟩ :=
    groupedAs_bare below kind columns hidden calls hint
  obtain ⟨_, honce, _, key', select', rfl, rfl, hw', hkw', hsw', -, hsts'⟩ :=
    groupedAs_bare below kind (Selection.append [] columns) hidden calls hint
  -- the timestamp is a key or hidden, with and without repeats
  obtain ⟨p, hp, hlt⟩ := @GroupLayout.position?_of_mem columns hidden calls.length timestamp hmem
  obtain ⟨p', hp', hlt'⟩ := @GroupLayout.position?_of_mem _ hidden calls.length timestamp hmem'
  simp only [timed, hout, honce]
  refine .ok ⟨repeats_of_grouped ?_ rfl rfl ?_ ?_ (.refl _) hsts hsts', ?_, ?_⟩
  · exact congrArg (Rel.aggregate below.rel · [] calls hint) (keys_unrepeated columns hidden _).symm
  · simp only [position?_unrepeated]
  · simp only [position?_unrepeated]
  · exact sound_of_timed hkw hsw hkind hp (hw ▸ Nat.lt_of_lt_of_le hlt (Nat.le_add_right _ _)) hcarried
  · exact sound_of_timed hkw' hsw' hkind hp' (hw' ▸ Nat.lt_of_lt_of_le hlt' (Nat.le_add_right _ _))
      hcarried

theorem tumbling_repeats {timestamp : Nat} (h : timestamp ∈ columns) :
    Alike (RepeatsSoundly columns calls.length) (plan.tumbling columns calls timestamp)
      (plan.tumbling (Selection.append [] columns) calls timestamp) := by
  unfold tumbling
  refine .step rfl fun needs => ?_
  refine .after fun ⟨below, carried⟩ hcarry => ?_
  exact timed_repeats (fun _ rootKeys => rootKeys) (by simp) (.inl h) (timestamp_of_carryOver hcarry)

theorem byRootKey_repeats :
    Alike (RepeatsSoundly columns calls.length) (plan.byRootKey columns calls)
      (plan.byRootKey (Selection.append [] columns) calls) := by
  unfold byRootKey
  refine .step rfl fun needs => ?_
  refine .after fun ⟨below, carried⟩ hcarry => ?_
  exact timed_repeats (fun n _ => some n) (by simp) (.inr List.mem_cons_self)
    (timestamp_of_carryOver hcarry)

theorem plain_repeats :
    Alike (RepeatsSoundly columns calls.length) (plan.plain columns calls)
      (plan.plain (Selection.append [] columns) calls) := by
  unfold plain
  refine .step rfl fun below => ?_
  obtain ⟨_, hout, _, key, select, rfl, rfl, -, hkw, hsw, -, hsts⟩ :=
    groupedAs_bare below .state columns [] calls none
  obtain ⟨_, honce, _, key', select', rfl, rfl, -, hkw', hsw', -, hsts'⟩ :=
    groupedAs_bare below .state (Selection.append [] columns) [] calls none
  rw [hout, honce]
  refine .ok ⟨repeats_of_grouped ?_ rfl rfl rfl rfl (.refl _) hsts hsts', ?_, ?_⟩
  · exact congrArg (Rel.aggregate below.rel · [] calls none) (keys_unrepeated columns [] _).symm
  · exact sound_of_bare hkw hsw (fun _ => ⟨rfl, rfl⟩) nofun nofun nofun
  · exact sound_of_bare hkw' hsw' (fun _ => ⟨rfl, rfl⟩) nofun nofun nofun

/-- The latest row per key, by keys with repeats and without. -/
theorem latestPerKey_unrepeated (columns hidden : List Nat) (n timestamp : Nat) :
    (TopN.latestPerKey (GroupLayout.of columns hidden n).key timestamp).SamePartitions
      (TopN.latestPerKey (GroupLayout.of (Selection.append [] columns) hidden n).key timestamp) := by
  refine ⟨fun col => ?_, rfl⟩
  have hkey : ∀ keys : List Nat, (GroupLayout.of keys hidden n).key
      = keys.map (GroupLayout.of keys hidden n).keys.idxOf := fun _ => rfl
  simp only [TopN.latestPerKey, hkey, keys_unrepeated, List.mem_map, Selection.mem_unrepeated]

/-- The plan of a sliding window, of which the latest row per key counts. -/
theorem sound_of_sliding {rel : Rel} {key select : ColumnMap} {needs : Requirements}
    {keys hidden : List Nat} {n timestamp : Nat} (hw : rel.width = (GroupLayout.of keys hidden n).keys.length + n)
    (hk : key.width = rel.width) (hs : select.width = rel.width) (hmem : timestamp ∈ hidden) :
    ({ bare rel .versioned key needs with
      select
      time := .single (((GroupLayout.of keys hidden n).position? timestamp).getD 0) .bucketed
      topN := .latestPerKey (GroupLayout.of keys hidden n).key
        (((GroupLayout.of keys hidden n).position? timestamp).getD 0) } : Plan).Sound := by
  obtain ⟨p, hp, hlt⟩ := @GroupLayout.position?_of_mem keys hidden n timestamp (.inr hmem)
  have hin : ∀ i, i < (GroupLayout.of keys hidden n).keys.length → i < rel.width := fun i hi =>
    hw ▸ Nat.lt_of_lt_of_le hi (Nat.le_add_right _ _)
  rw [hp, Option.getD_some]
  refine sound_of_bare hk hs nofun ?_ nofun ?_
  · exact fun i hi => List.mem_singleton.1 hi ▸ hin p hlt
  · intro i hi
    rcases List.mem_append.1 hi with hi | hi
    · exact hin i (GroupLayout.of_key_lt i hi)
    · exact List.mem_singleton.1 hi ▸ hin p hlt

theorem sliding_repeats {filter : NowFilter} {panes : Nat} :
    Alike (RepeatsSoundly columns calls.length) (plan.sliding columns calls filter panes)
      (plan.sliding (Selection.append [] columns) calls filter panes) := by
  unfold sliding
  refine .step rfl fun slide => .step rfl fun needs => ?_
  obtain ⟨_, hout, _, key, select, rfl, rfl, hw, hkw, hsw, -, hsts⟩ := groupedAs_bare
    { plan with needs } .versioned columns [filter.timestamp] calls
      (some (.sliding filter.timestamp filter.interval slide))
  obtain ⟨_, honce, _, key', select', rfl, rfl, hw', hkw', hsw', -, hsts'⟩ := groupedAs_bare
    { plan with needs } .versioned (Selection.append [] columns) [filter.timestamp] calls
      (some (.sliding filter.timestamp filter.interval slide))
  simp only [hout, honce]
  refine .ok ⟨repeats_of_grouped ?_ rfl rfl ?_ rfl ?_ hsts hsts', ?_, ?_⟩
  · exact congrArg (Rel.aggregate plan.rel · [] calls _) (keys_unrepeated columns _ _).symm
  · simp only [position?_unrepeated]
  · simp only [position?_unrepeated]
    exact latestPerKey_unrepeated _ _ _ _
  · exact sound_of_sliding hw hkw hsw List.mem_cons_self
  · exact sound_of_sliding hw' hkw' hsw' List.mem_cons_self

/-- What is shown of a row with the values of columns, a timestamp and more values. -/
theorem pick_windowed (row : Row) (columns : List Nat) (timestamp : Nat) {values : Row} {n : Nat}
    (hn : values.length = n) :
    (row.pick (columns ++ [timestamp]) ++ values).pick
      (List.range columns.length ++ List.range' (columns.length + 1) n) = row.pick columns ++ values := by
  subst hn
  have hlength : (row.pick (columns ++ [timestamp])).length = columns.length + 1 := by
    rw [Row.length_pick, List.length_append, List.length_singleton]
  have hvalues := Row.pick_range' (row.pick (columns ++ [timestamp])) values
  rw [hlength] at hvalues
  have hfront : (row.pick (columns ++ [timestamp]) ++ values).take columns.length = row.pick columns := by
    rw [Row.pick_append, List.append_assoc, List.take_left' (Row.length_pick row columns)]
  rw [Row.pick_append, hvalues, Row.pick_range (by rw [List.length_append, hlength]; omega), hfront]

theorem timeAt_windowed (row : Row) (columns : List Nat) (timestamp : Nat) (values : Row) :
    (row.pick (columns ++ [timestamp]) ++ values).timeAt columns.length
      = (row.pick [timestamp]).timeAt 0 := by
  have hcell : (row.pick (columns ++ [timestamp]) ++ values)[columns.length]?
      = (row.pick [timestamp])[0]? := by
    rw [Row.pick_append, List.append_assoc,
      List.getElem?_append_right (Nat.le_of_eq (Row.length_pick row columns)), Row.length_pick,
      Nat.sub_self]
    rfl
  rw [Row.timeAt, Row.timeAt, hcell]

/-- A plan of columns, a timestamp and windows over a tree, which shows all but the timestamp. -/
structure Windowed (out : Plan) (below : Rel) (columns : List Nat) (timestamp : Nat)
    (derivation : Derivation) (shown windows : List Output) : Prop where
  rel : out.rel = .project below (shown ++ windows) none
  exprs : shown.map Output.expr = (columns ++ [timestamp]).map Expr.column
  time : out.time = .single columns.length derivation
  select : out.select.targets
    = List.range columns.length ++ List.range' (columns.length + 1) windows.length
  nowFilter : out.nowFilter = none
  topN : out.topN = .none

namespace Windowed

variable {out : Plan} {below : Rel} {timestamp : Nat} {derivation : Derivation}
  {shown windows : List Output}

theorem hints (h : out.Windowed below columns timestamp derivation shown windows) :
    out.rel.hints = below.hints := by
  rw [h.rel, Rel.hints, Rel.hints, Rel.preorder]
  rfl

theorem settledRel (h : out.Windowed below columns timestamp derivation shown windows) :
    out.settledRel = .project below (shown ++ windows) none := by
  rw [settledRel_eq_rel h.nowFilter (by rw [h.topN]; rfl), h.rel]

/-- What a row shows whose windows have some values, and its time. -/
theorem shows (h : out.Windowed below columns timestamp derivation shown windows) (row : Row)
    {values : Row} (hvalues : values.length = windows.length) :
    (out.shown (row.pick (columns ++ [timestamp]) ++ values)).visible = row.pick columns ++ values ∧
      out.bestTime (row.pick (columns ++ [timestamp]) ++ values)
        = (row.pick [timestamp]).timeAt 0 := by
  constructor
  · rw [visible_shown, h.select, pick_windowed row _ _ hvalues]
  · rw [bestTime, h.time]
    exact timeAt_windowed row _ _ values

end Windowed

/-- A projection of columns, a timestamp and windows becomes such a plan. -/
theorem windowed_gives (below : Rel) (needs : Requirements) {shown windows : List Output}
    {timestamp n : Nat} (hshown : shown.map Output.expr = (columns ++ [timestamp]).map Expr.column)
    (hwindows : windows.length = n) (derivation : Derivation) :
    ∃ out, (do
        let windowed ← Plan.ofRel (.project below (shown ++ windows) none) .versioned
          (List.range columns.length) needs
        let select ← ColumnMap.of (List.range columns.length ++ List.range' (columns.length + 1) n)
          (columns.length + 1 + n)
        return { windowed with select, time := .single columns.length derivation } : Planning Plan)
      = .ok out ∧ out.kind = .versioned ∧ out.needs = needs ∧
      out.Windowed below columns timestamp derivation shown windows ∧ out.Sound := by
  subst hwindows
  generalize hrel : Rel.project below (shown ++ windows) none = rel
  have hwidth : rel.width = columns.length + 1 + windows.length := by
    have hlength : shown.length = columns.length + 1 := by
      simpa using congrArg List.length hshown
    rw [← hrel, Rel.width, List.length_append, hlength]
  have hkeys : ∀ i ∈ List.range columns.length, i < rel.width := fun i hi => by
    have := List.mem_range.1 hi
    omega
  have hvisible : ∀ i ∈ List.range columns.length
      ++ List.range' (columns.length + 1) windows.length,
      i < columns.length + 1 + windows.length := by
    intro i hi
    rcases List.mem_append.1 hi with hi | hi
    · have := List.mem_range.1 hi
      omega
    · have := (List.mem_range'_1.1 hi).2
      omega
  obtain ⟨key, hkey, -, hkw⟩ := ColumnMap.of_gives hkeys
  obtain ⟨select, hselect, hsts, hsw⟩ := ColumnMap.of_gives hvisible
  refine ⟨{ bare rel .versioned key needs with select, time := .single columns.length derivation }, ?_,
    rfl, rfl, ⟨hrel.symm, hshown, rfl, hsts, rfl, rfl⟩, ?_⟩
  · rw [ofRel_eq_ok.2 ⟨key, hkey, rfl⟩, hselect]
    rfl
  · refine sound_of_bare hkw (hsw.trans hwidth.symm) nofun (fun i hi => ?_) nofun nofun
    rw [show i = columns.length from List.mem_singleton.1 hi, hwidth]
    omega

/-- The outputs of columns and a timestamp, and those of the columns without repeats. -/
theorem shown_unrepeated (columns : List Nat) (timestamp : Nat) (fields : Fields) :
    Alike (fun shown others : List Output =>
        shown.map Output.expr = (columns ++ [timestamp]).map Expr.column ∧
        others.map Output.expr = (Selection.append [] columns ++ [timestamp]).map Expr.column)
      (orFault ((columns ++ [timestamp]).mapM (Output.column · fields)) : Planning _)
      (orFault ((Selection.append [] columns ++ [timestamp]).mapM (Output.column · fields))) := by
  have halike : Alike (fun _ _ => True) ((columns ++ [timestamp]).mapM (Output.column · fields))
      ((Selection.append [] columns ++ [timestamp]).mapM (Output.column · fields)) := by
    rw [List.mapM_append, List.mapM_append]
    exact (mapM_unrepeated _ columns).bind fun _ _ _ => .step rfl fun _ => .ok trivial
  have hexprs : ∀ {cells : List Nat} {outputs : List Output},
      cells.mapM (Output.column · fields) = .ok outputs →
        outputs.map Output.expr = cells.map Expr.column :=
    map_of_mapM_eq_ok fun _ _ h => Output.expr_of_column h
  exact (halike.results.mono fun shown others ⟨hs, ho, _⟩ => ⟨hexprs hs, hexprs ho⟩).orFault

/-- Such plans by columns with repeats and without, of windows with the same values. -/
theorem repeats_of_windowed {below : Rel} {timestamp : Nat} {derivation : Derivation}
    {shown others windows otherWindows : List Output} (hkind : out.kind = once.kind)
    (hneeds : out.needs = once.needs)
    (hout : out.Windowed below columns timestamp derivation shown windows)
    (honce : once.Windowed below (Selection.append [] columns) timestamp derivation others otherWindows)
    (hwindows : ∀ rows : List Row, List.Forall₂ (fun o o' : Output => o.expr.isWindow = true ∧
      windowValues rows o.expr = windowValues rows o'.expr) windows otherWindows) :
    RepeatsColumns columns windows.length out once := by
  refine ⟨hkind, hneeds, by rw [hout.time, honce.time]; rfl, hout.hints.trans honce.hints.symm,
    hout.nowFilter.trans honce.nowFilter.symm, by rw [hout.topN, honce.topN], fun fixture => ?_⟩
  rw [hout.settledRel, honce.settledRel, evaluate, evaluate]
  refine .step rfl fun rows => ?_
  refine (projectRows_repeated hout.exprs honce.exprs (hwindows rows)).mono fun above otherAbove habove =>
    habove.imp ?_
  rintro _ _ ⟨row, values, hlength, rfl, rfl⟩
  obtain ⟨hvisible, htime⟩ := hout.shows row hlength
  obtain ⟨hvisible', htime'⟩ := honce.shows row (hlength.trans (hwindows rows).length_eq)
  rw [hvisible, hvisible', htime, htime', ← hlength]
  exact ⟨(Selection.pick_onceAt _ values).symm, rfl⟩

/-- **A running aggregate** by columns with repeats. -/
theorem running_repeats :
    Alike (RepeatsSoundly columns calls.length) (plan.running columns calls)
      (plan.running (Selection.append [] columns) calls) := by
  unfold running
  refine .step rfl fun needs => .step rfl fun below => .step rfl fun fields => ?_
  generalize ({ plan with needs } : Plan) = base
  refine (shown_unrepeated columns _ fields).bind ?_
  rintro shown others ⟨hshown, hothers⟩
  generalize base.leadingTime = timestamp at hshown hothers ⊢
  generalize derivationAt base.time timestamp = derivation
  let windows := fun keys : List Nat => calls.map fun call =>
    Output.named (.window call keys [⟨timestamp, .ascending⟩]) call.name fields
  have hlength : ∀ keys, (windows keys).length = calls.length := fun _ => List.length_map _
  obtain ⟨out, hgives, hkind, hneeds, hout, hsound⟩ :=
    windowed_gives below.rel below.needs hshown (hlength columns) derivation
  obtain ⟨once, hgives', hkind', hneeds', honce, hsound'⟩ :=
    windowed_gives below.rel below.needs hothers (hlength (Selection.append [] columns)) derivation
  -- a window depends on its partition as a set of columns
  have hwindows : ∀ rows : List Row, List.Forall₂ (fun o o' : Output => o.expr.isWindow = true ∧
      windowValues rows o.expr = windowValues rows o'.expr)
      (windows columns) (windows (Selection.append [] columns)) := by
    refine fun rows => List.forall₂_map_left_iff.2 (List.forall₂_map_right_iff.2
      (List.forall₂_same.2 fun call _ => ⟨rfl, ?_⟩))
    simp only [Output.named, windowValues, runningValues_members fun _ => Selection.mem_unrepeated]
  have hrepeats := repeats_of_windowed (hkind.trans hkind'.symm) (hneeds.trans hneeds'.symm) hout honce
    hwindows
  rw [hlength] at hrepeats
  simp only
  rw [hgives, hgives']
  exact .ok ⟨hrepeats, hsound, hsound'⟩

/-- **Aggregations by one rule** differ by repeats alone. -/
theorem aggregatedBy_repeats {rule : AggregateRule} (h : plan.aggregateRule? c columns = some rule) :
    Alike (RepeatsSoundly columns calls.length) (plan.aggregatedBy c columns calls rule)
      (plan.aggregatedBy c (Selection.append [] columns) calls rule) := by
  cases rule with
  | tumbling timestamp => exact tumbling_repeats (mem_of_tumbling h)
  | sliding filter => exact sliding_repeats
  | byRootKey => exact byRootKey_repeats
  | running => exact running_repeats
  | plain => exact plain_repeats

variable {keys fewer : List Nat} {rule : AggregateRule}

/-- An aggregation of a plan by a rule, with and without repeats. -/
theorem aggregated_repeats (hcolumns : keys.mapM plan.select.apply = .ok columns)
    (hfewer : fewer.mapM plan.select.apply = .ok (Selection.append [] columns))
    (hrule : plan.aggregateRule? c columns = some rule)
    (honce : plan.aggregateRule? c (Selection.append [] columns) = some rule) :
    Alike (RepeatsSoundly columns calls.length) (plan.aggregated c keys calls)
      (plan.aggregated c fewer calls) := by
  rw [aggregated_eq, aggregated_eq]
  refine .after fun base hbase => ?_
  obtain ⟨hset, -, hnow⟩ := withoutTopN_settled hbase
  rw [← hset.select] at hcolumns hfewer
  rw [hcolumns, hfewer, orFault_ok, orFault_ok, ok_bind, ok_bind]
  refine .after fun moved hmoved => .step rfl fun needs => ?_
  have hrule' := (aggregateRule?_settled hset hnow needs).trans hrule
  rw [hrule', (aggregateRule?_settled hset hnow needs).trans honce,
    ← length_of_mapM_eq_ok (orFault_eq_ok.1 hmoved)]
  exact aggregatedBy_repeats hrule'

end Plan

namespace Converter

variable {c : Converter} {q : Rel} {plan : Plan} {keys fewer : List Nat} {groupingSets : List (List Nat)}
  {calls : List AggregateCall} {hint : Option AggregateHint}

/-- **Conversion by one rule**, with and without repeats, ends alike. -/
theorem convert_repeats (hplan : c.convert q = .ok plan)
    (hcolumns : keys.mapM plan.select.apply = .ok columns)
    (hfewer : fewer.mapM plan.select.apply = .ok (Selection.append [] columns)) {rule : AggregateRule}
    (hrule : plan.aggregateRule? c columns = some rule)
    (honce : plan.aggregateRule? c (Selection.append [] columns) = some rule) :
    Alike (Plan.RepeatsColumns columns calls.length)
      (c.convert (.aggregate q keys groupingSets calls hint))
      (c.convert (.aggregate q fewer groupingSets calls hint)) := by
  rw [convert, convert, hplan]
  refine .step rfl fun _ => ?_
  rw [ok_bind, ok_bind]
  refine (Plan.aggregated_repeats hcolumns hfewer hrule honce).bind ?_
  rintro out once ⟨h, hout, honce⟩
  exact finish_repeats h hout honce

/-- A converted aggregation has the kind of its rule. -/
theorem rule_of_convert (hplan : c.convert q = .ok plan)
    (hcolumns : keys.mapM plan.select.apply = .ok columns) {out : Plan}
    (h : c.convert (.aggregate q keys groupingSets calls hint) = .ok out) :
    ∃ rule, plan.aggregateRule? c columns = some rule ∧ out.kind = rule.kind := by
  rw [convert, hplan] at h
  obtain ⟨_, -, h⟩ := bind_eq_ok.1 h
  rw [ok_bind] at h
  obtain ⟨grouped, hgrouped, h⟩ := bind_eq_ok.1 h
  obtain ⟨_, _, columns', _, rule, -, hcolumns', -, hrule, hby⟩ := Plan.aggregated_eq_ok hgrouped
  obtain rfl : columns' = columns := Except.ok.inj (hcolumns'.symm.trans hcolumns)
  exact ⟨rule, hrule, (finish_sound h).1.kind.trans (Plan.kind_of_aggregatedBy hby)⟩

/-- **Repeating a group column** changes nothing, unless it is the only timestamp that a stream is
grouped by or belongs to the root key that the columns begin with. Otherwise the rule is the same,
one of the aggregations converts exactly if the other does, and the plans and answers differ by the
repeated columns alone. A timestamp that repeats is refused, and a root key that repeats is none,
so that the rows do not mean the same. -/
theorem repeated_columns_are_grouped_once (hplan : c.convert q = .ok plan)
    (hcolumns : keys.mapM plan.select.apply = .ok columns)
    (hfewer : fewer.mapM plan.select.apply = .ok (Selection.append [] columns)) :
    (plan.aggregateRule? c columns = plan.aggregateRule? c (Selection.append [] columns) ↔
      ¬plan.RepeatsTime columns ∧ ¬plan.RepeatsRootKey c columns) ∧
    ((∀ n, plan.rootKeys = some n → (columns.take n).Nodup) → ¬plan.RepeatsRootKey c columns) ∧
    (¬plan.RepeatsTime columns → ¬plan.RepeatsRootKey c columns →
      ((∃ out, c.convert (.aggregate q keys groupingSets calls hint) = .ok out) ↔
        ∃ once, c.convert (.aggregate q fewer groupingSets calls hint) = .ok once) ∧
      (∀ out once, c.convert (.aggregate q keys groupingSets calls hint) = .ok out →
        c.convert (.aggregate q fewer groupingSets calls hint) = .ok once →
        Plan.RepeatsColumns columns calls.length out once) ∧
      ∀ fixture answer onceAnswer,
        c.Answers fixture (.aggregate q keys groupingSets calls hint) answer →
        c.Answers fixture (.aggregate q fewer groupingSets calls hint) onceAnswer →
        List.Forall₂ (fun row other => row.visible
          = other.visible.pick (Selection.onceAt columns calls.length)) answer onceAnswer) ∧
    (plan.RepeatsTime columns →
      ∀ out, c.convert (.aggregate q keys groupingSets calls hint) ≠ .ok out) ∧
    (plan.RepeatsRootKey c columns →
      ∀ out once, c.convert (.aggregate q keys groupingSets calls hint) = .ok out →
        c.convert (.aggregate q fewer groupingSets calls hint) = .ok once → out.kind ≠ once.kind) := by
  have hrules := @Plan.aggregateRule?_unrepeated plan c columns
  refine ⟨hrules, Plan.not_repeatsRootKey, fun htime hroot => ?_, fun htime out hout => ?_,
    fun hroot out once hout honce => ?_⟩
  · have hsame := hrules.2 ⟨htime, hroot⟩
    have hplans : ∀ out once, c.convert (.aggregate q keys groupingSets calls hint) = .ok out →
        c.convert (.aggregate q fewer groupingSets calls hint) = .ok once →
        Plan.RepeatsColumns columns calls.length out once := by
      intro out once hout honce
      obtain ⟨rule, hrule, -⟩ := rule_of_convert hplan hcolumns hout
      obtain ⟨once', honce', hrepeats⟩ :=
        (convert_repeats hplan hcolumns hfewer hrule (hsame ▸ hrule)).of_ok hout
      obtain rfl : once' = once := Except.ok.inj (honce'.symm.trans honce)
      exact hrepeats
    refine ⟨?_, hplans, fun fixture answer onceAnswer hanswer honceAnswer => ?_⟩
    · cases hrule : plan.aggregateRule? c columns with
      | some rule => exact (convert_repeats hplan hcolumns hfewer hrule (hsame ▸ hrule)).exists_ok_iff
      | none =>
        -- both lists have several timestamps
        constructor
        · rintro ⟨out, hout⟩
          obtain ⟨rule, hsome, -⟩ := rule_of_convert hplan hcolumns hout
          exact nomatch hrule.symm.trans hsome
        · rintro ⟨once, honce⟩
          obtain ⟨rule, hsome, -⟩ := rule_of_convert hplan hfewer honce
          exact nomatch (hsame ▸ hrule).symm.trans hsome
    · obtain ⟨out, rows, hout, hrows, rfl⟩ := answer_settled hanswer
      obtain ⟨once, onceRows, honce, honceRows, rfl⟩ := answer_settled honceAnswer
      obtain ⟨others, hothers, hshown⟩ := ((hplans out once hout honce).rows fixture).of_ok hrows
      obtain rfl : others = onceRows := Except.ok.inj (hothers.symm.trans honceRows)
      exact List.forall₂_map_left_iff.2 (List.forall₂_map_right_iff.2 (hshown.imp fun _ _ h => h.1))
  · obtain ⟨rule, hrule, -⟩ := rule_of_convert hplan hcolumns hout
    exact nomatch (htime.rule (c := c)).symm.trans hrule
  · obtain ⟨rule, hrule, hkind⟩ := rule_of_convert hplan hcolumns hout
    obtain ⟨onceRule, honceRule, honceKind⟩ := rule_of_convert hplan hfewer honce
    rw [hkind, honceKind]
    exact hroot.kinds hrule honceRule

/-- A table of timed visits, whose key is a site and a visitor. -/
def visitsTable : BaseTable where
  name := "visits"
  fields := [⟨"site", .int64, false⟩, ⟨"visitor", .int64, false⟩, ⟨"at", .timestamp, true⟩]
  keys := 2
  kind := .stream
  time := .single 2 .source
  pending := .none
  stage := none

/-- The catalog of that table, on the stream stage. -/
def overVisits : Converter where
  catalog := ⟨[visitsTable],
    [⟨"visits", .root 0, visitsTable.fields, 2, [0, 1, 2], 0, visitsTable.fields⟩],
    [("visits", .view 0), ("visits", .base 0)]⟩
  pipeline := .streamAndDatabase
  stage := .stream "stream"
  settings := .default

theorem overVisits_built : overVisits.catalog.Built :=
  @Catalog.Built.table .empty _ visitsTable "visits" 0 .empty (EventTime.coherent_single 2 .source) rfl

/-- Visits by site, visitor and time. -/
def visitsAt (visits : List (Int × Int × Int)) : Fixture where
  tables := [(.base 0, visits.map fun visit =>
    [.int visit.1, .int visit.2.1, .timestamp visit.2.2])]
  now := 1000

/-- Some columns of that table. -/
def visitsIn (columns : List Nat) : Rel :=
  .project (.scan (.base 0) "visits" visitsTable.fields)
    (columns.filterMap fun col => (visitsTable.fields[col]?).map (⟨.column col, ·⟩)) none

/-- The visits in columns of that table, counted by some of these. -/
def countedVisits (columns keys : List Nat) : Rel :=
  .aggregate (visitsIn columns) keys [] [.countRows "n"] none

/-- Two of three visits are of one visitor to one site at one time. Behind the root key the site
repeats. -/
theorem visits_are_grouped_once :
    let visits := visitsAt [(1, 7, 990), (2, 7, 950), (1, 7, 990)]
    let answer := [⟨[.int 1, .int 7, .int 1, .int 2], [.int 1, .int 7, .int 1]⟩,
      ⟨[.int 2, .int 7, .int 2, .int 1], [.int 2, .int 7, .int 2]⟩]
    let once := [⟨[.int 1, .int 7, .int 2], [.int 1, .int 7]⟩,
      ⟨[.int 2, .int 7, .int 1], [.int 2, .int 7]⟩]
    overVisits.Answers visits (countedVisits [0, 1, 0] [0, 1, 2]) answer ∧
      overVisits.Answers visits (countedVisits [0, 1, 0] [0, 1]) once ∧
      List.Forall₂ (fun row other => row.visible = other.visible.pick [0, 1, 0, 2]) answer once := by
  intro visits answer once
  have hanswer : overVisits.Answers visits (countedVisits [0, 1, 0] [0, 1, 2]) answer :=
    ⟨_, _, _, rfl, rfl, rfl⟩
  have honce : overVisits.Answers visits (countedVisits [0, 1, 0] [0, 1]) once :=
    ⟨_, _, _, rfl, rfl, rfl⟩
  obtain ⟨hrules, -, hsame, -⟩ := @repeated_columns_are_grouped_once _ overVisits (visitsIn [0, 1, 0])
    _ [0, 1, 2] [0, 1] [] [.countRows "n"] none rfl rfl rfl
  obtain ⟨htime, hroot⟩ := hrules.1 rfl
  exact ⟨hanswer, honce, (hsame htime hroot).2.2 visits answer once hanswer honce⟩

/-- **A repeat can change the plan**: a timestamp that is shown twice is refused, and with a part
of the root key shown twice the visits are counted over time. -/
theorem repeated_visits_are_not_grouped :
    overVisits.catalog.Built ∧
      overVisits.convert (countedVisits [2, 2] [0, 1])
        = refuse (.invalidWindow (.severalTimestamps [2, 2])) ∧
      (∃ once, overVisits.convert (countedVisits [2, 2] [0]) = .ok once ∧ once.kind = .stream) ∧
      ∃ out once, overVisits.convert (countedVisits [0, 0, 1] [0, 1, 2]) = .ok out ∧
        overVisits.convert (countedVisits [0, 0, 1] [0, 2]) = .ok once ∧
        out.kind = .versioned ∧ once.kind = .stream :=
  ⟨overVisits_built, rfl, ⟨_, rfl, rfl⟩, _, _, rfl, rfl, rfl, rfl⟩

end Converter

end StreamPlan
