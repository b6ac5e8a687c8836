import StreamPlan.Plan.Convert
import StreamPlan.Proofs.Lineage
import StreamPlan.Proofs.Plan.Sound

/-!
# What joins are made of

* `JoinInputs.of_eq_ok`: the inputs of a join.
* `Converter.joined_eq_ok`: the rule that a plan of a join comes from.
* `JoinInputs.TemporalSides.Of`: what the two inputs of a join by time are.
* `JoinInputs.statePlan_eq_ok`, `temporalPlan_eq_ok`, `intervalPlan_eq_ok`,
  `mergedPlan_eq_ok`: the plans of the rules.
* `JoinInputs.bounds_of_rootWindow`: events of one root entity are within a window of no
  length.
* `JoinInputs.settled_of_mayMerge`: rows of one entity are merged with nothing pending.
-/

namespace StreamPlan

namespace JoinInputs

variable {j : JoinInputs} {out : Plan} {left right : Plan}

theorem of_eq_ok {kind : JoinKind} {condition : Expr} (h : of left right kind condition = .ok j) :
    j.left = left ∧ j.right = right ∧ j.kind = kind ∧
      condition.remap (joinedColumn left right) = .ok j.condition ∧
      JoinCondition.ofExpr j.condition left.width (isTimestamp left right) = .ok j.parts := by
  unfold of at h
  obtain ⟨needs, -, h⟩ := bind_eq_ok.1 h
  obtain ⟨moved, hmoved, h⟩ := bind_eq_ok.1 h
  obtain ⟨parts, hparts, h⟩ := bind_eq_ok.1 h
  cases h
  exact ⟨rfl, rfl, rfl, lift_eq_ok.1 hmoved, lift_eq_ok.1 hparts⟩

theorem needs_of {kind : JoinKind} {condition : Expr} (h : of left right kind condition = .ok j) :
    Converter.combine left.needs right.needs = .ok j.needs := by
  unfold of at h
  obtain ⟨needs, hneeds, h⟩ := bind_eq_ok.1 h
  obtain ⟨moved, -, h⟩ := bind_eq_ok.1 h
  obtain ⟨parts, -, h⟩ := bind_eq_ok.1 h
  cases h
  exact hneeds

/-- A planned join keeps no right rows without a partner. -/
theorem keepsRight_plannedKind (j : JoinInputs) : j.plannedKind.keepsRight = false := by
  unfold plannedKind
  split <;> rfl

/-- **The plan of a join of current values** joins the trees on the condition. Its key is
both keys, or the left one if left rows are kept. -/
theorem statePlan_eq_ok (h : j.statePlan = .ok out) :
    ∃ left right hint, j.left.withoutPending = .ok left ∧ j.right.withoutPending = .ok right ∧
      left.select.joinAt right.select j.left.width = .ok out.select ∧
      out.rel = .join left.rel right.rel j.plannedKind j.condition hint ∧ out.time = .none ∧
      out.nowFilter = none ∧ out.topN = .none ∧ out.lineage = none ∧
      out.key.targets = if j.plannedKind = .left then left.key.targets
        else left.key.targets ++ right.key.targets.map (j.left.width + ·) := by
  unfold statePlan at h
  obtain ⟨left, hl, h⟩ := bind_eq_ok.1 h
  obtain ⟨right, hr, h⟩ := bind_eq_ok.1 h
  obtain ⟨key, hkey, h⟩ := bind_eq_ok.1 h
  obtain ⟨select, hselect, h⟩ := bind_eq_ok.1 h
  obtain ⟨plan, hplan, h⟩ := bind_eq_ok.1 h
  cases h
  obtain ⟨m, -, rfl⟩ := Plan.ofRel_eq_ok.1 (lift_eq_ok.1 hplan)
  refine ⟨left, right, _, hl, hr, lift_eq_ok.1 hselect, rfl, rfl, rfl, rfl, rfl, ?_⟩
  have hkey := lift_eq_ok.1 hkey
  unfold stateKey at hkey
  split at hkey
  · rename_i hleft
    rw [if_pos hleft]
    exact (ColumnMap.of_targets hkey).1
  · rename_i hleft
    rw [if_neg hleft]
    exact (ColumnMap.joinAt_targets hkey).1

/-- The inputs of a join by role: a stream, and a table, on either side. -/
structure TemporalSides.Of (sides : TemporalSides) (j : JoinInputs) : Prop where
  stream : sides.stream.kind = .stream
  roles : (sides.swapped = false ∧ sides.stream = j.left ∧ sides.table = j.right ∧
      sides.equalities = j.parts.equalities) ∨
    (sides.swapped = true ∧ j.kind ≠ .left ∧ sides.stream = j.right ∧ sides.table = j.left ∧
      sides.equalities = j.parts.equalities.map Prod.swap)

/-- What both inputs have, the stream and the table have. -/
theorem TemporalSides.Of.both {I : Plan → Prop} {sides : TemporalSides} (h : sides.Of j)
    (hl : I j.left) (hr : I j.right) : I sides.stream ∧ I sides.table := by
  rcases h.roles with ⟨-, hs, ht, -⟩ | ⟨-, -, hs, ht, -⟩
  · rw [hs, ht]
    exact ⟨hl, hr⟩
  · rw [hs, ht]
    exact ⟨hr, hl⟩

theorem temporalSides_of {sides : TemporalSides} (h : j.temporalSides = .ok sides) :
    sides.Of j := by
  unfold temporalSides at h
  split at h
  · rename_i hl _
    cases h
    exact ⟨hl, .inl ⟨rfl, rfl, rfl, rfl⟩⟩
  · rename_i _ hr
    split at h
    · cases h
    · rename_i hk
      cases h
      exact ⟨hr, .inr ⟨rfl, hk, rfl, rfl, rfl⟩⟩
  · cases h

theorem temporalShape_eq_ok {sides : TemporalSides} (h : j.temporalShape = .ok sides) :
    sides.Of j ∧ j.temporalProblem? sides = none := by
  unfold temporalShape at h
  obtain ⟨found, hfound, h⟩ := bind_eq_ok.1 h
  split at h
  · cases h
  · rename_i hp
    cases h
    exact ⟨temporalSides_of hfound, hp⟩

/-- The stream as it is joined has nothing pending but its now-filter. -/
theorem readyStream_eq_ok {stream ready : Plan} (h : readyStream stream = .ok ready) :
    (stream.topN.isEmpty = true ∧ ready = stream) ∨ stream.withoutPending = .ok ready := by
  unfold readyStream at h
  split at h
  · rename_i he
    cases h
    exact .inl ⟨he, rfl⟩
  · exact .inr h

/-- What a stream has, and has with nothing pending, it has as it is joined. -/
theorem readyStream_keeps {I : Plan → Prop} {stream ready : Plan} (hs : I stream)
    (hsettle : ∀ out, stream.withoutPending = .ok out → I out)
    (h : readyStream stream = .ok ready) : I ready := by
  rcases readyStream_eq_ok h with ⟨-, rfl⟩ | h
  · exact hs
  · exact hsettle _ h

theorem readyStream_settled {stream ready : Plan} (h : readyStream stream = .ok ready) :
    stream.Settled ready :=
  readyStream_keeps (.refl _) (fun _ ho => (Plan.withoutPending_settled ho).1) h

/-- The timestamp of a stream is one of its candidates. -/
theorem streamTime_columns {stream : Plan} {time : EventTime} (h : streamTime stream = .ok time) :
    (∀ i ∈ time.columns, i ∈ stream.time.columns) ∧ time.Coherent := by
  unfold streamTime at h
  have hfix : ∀ c, stream.time.fix c = .ok time →
      (∀ i ∈ time.columns, i ∈ stream.time.columns) ∧ time.Coherent := by
    intro c hc
    obtain ⟨hcolumns, -, hmem⟩ := EventTime.fix_columns hc
    refine ⟨fun i hi => ?_, EventTime.coherent_of_fix hc⟩
    rw [hcolumns, List.mem_singleton] at hi
    exact hi ▸ hmem
  have hbest : stream.time.fixBest = .ok time →
      (∀ i ∈ time.columns, i ∈ stream.time.columns) ∧ time.Coherent := fun hb =>
    ⟨EventTime.fixBest_columns hb, EventTime.coherent_fixBest hb⟩
  split at h
  · split at h
    · exact hfix _ h
    · exact hbest h
  · exact hbest h

/-- The equalities of a join by time as a condition over the joined row. -/
def TemporalSides.condition (sides : TemporalSides) (offset : Nat) : Expr :=
  .all (sides.equalities.map fun (s, t) => Expr.equate s (t + offset))

/-- **The plan of a join by time** joins the stream with the table on the key. Its key is
that of the stream. -/
theorem temporalPlan_eq_ok {sides : TemporalSides} (h : j.temporalPlan sides = .ok out) :
    ∃ stream table hint, readyStream sides.stream = .ok stream ∧
      sides.table.withoutPending = .ok table ∧ streamTime stream = .ok out.time ∧
      j.temporalSelect sides.swapped stream table = .ok out.select ∧
      out.rel = .join stream.rel table.rel j.plannedKind (sides.condition stream.width) hint ∧
      out.nowFilter = stream.nowFilter ∧ out.topN = .none ∧ out.lineage = none ∧
      out.key.targets = stream.key.targets := by
  unfold temporalPlan at h
  obtain ⟨stream, hs, h⟩ := bind_eq_ok.1 h
  obtain ⟨table, ht, h⟩ := bind_eq_ok.1 h
  obtain ⟨needs, -, h⟩ := bind_eq_ok.1 h
  obtain ⟨time, htime, h⟩ := bind_eq_ok.1 h
  obtain ⟨select, hselect, h⟩ := bind_eq_ok.1 h
  obtain ⟨plan, hplan, h⟩ := bind_eq_ok.1 h
  cases h
  obtain ⟨m, hm, rfl⟩ := Plan.ofRel_eq_ok.1 (lift_eq_ok.1 hplan)
  exact ⟨stream, table, _, hs, ht, lift_eq_ok.1 htime, lift_eq_ok.1 hselect, rfl, rfl, rfl, rfl,
    (ColumnMap.of_targets hm).1⟩

/-- Inputs that are joined by time equate every key column of the table. -/
theorem equated_of_temporalShape {sides : TemporalSides} (h : j.temporalProblem? sides = none) :
    ∀ t ∈ sides.table.key.targets, ∃ p ∈ sides.equalities, p.2 = t := by
  unfold temporalProblem? at h
  split at h
  · cases h
  · rename_i hkey
    simp only [TemporalSides.equatesKey, Bool.not_eq_true, Bool.not_eq_false', Bool.and_eq_true,
      List.all_eq_true, List.contains_iff_mem] at hkey
    intro t ht
    obtain ⟨p, hp, rfl⟩ := List.mem_map.1 (hkey.1.2 t ht)
    exact ⟨p, hp, rfl⟩

theorem temporalJoin?_eq_ok (h : j.temporalJoin? = .ok (some out)) :
    ∃ sides, j.temporalShape = .ok sides ∧ j.temporalPlan sides = .ok out := by
  unfold temporalJoin? at h
  split at h
  · rename_i sides hsides
    obtain ⟨plan, hplan, h⟩ := map_eq_ok.1 h
    cases h
    exact ⟨sides, hsides, hplan⟩
  · split at h <;> cases h

/-- The timestamp of a join within a bounded time is a candidate of a side. -/
theorem intervalTime_columns {window : ClosedWindow} {time : EventTime}
    (h : j.intervalTime window = .ok time) :
    ((∀ i ∈ time.columns, i ∈ j.left.time.columns) ∨
      ∀ i ∈ time.columns, ∃ k ∈ j.right.time.columns, i = j.left.width + k) ∧ time.Coherent := by
  unfold intervalTime at h
  simp only at h
  generalize (if (decide (j.kind = .left) || !window.rightLeads) = true then window.leftTime
    else window.rightTime) = column at h
  split at h
  · obtain ⟨hcolumns, -, hmem⟩ := EventTime.fix_columns h
    refine ⟨.inl fun i hi => ?_, EventTime.coherent_of_fix h⟩
    rw [hcolumns, List.mem_singleton] at hi
    exact hi ▸ hmem
  · obtain ⟨hcolumns, -, hmem⟩ := EventTime.fix_columns h
    refine ⟨.inr fun i hi => ?_, EventTime.coherent_of_fix h⟩
    rw [hcolumns, List.mem_singleton] at hi
    rw [EventTime.columns_shift, List.mem_map] at hmem
    obtain ⟨k, hk, hki⟩ := hmem
    exact ⟨k, hk, hi.trans hki.symm⟩

/-- The condition of a join within a bounded time: the condition without its
time bounds, and the bounds of the window. -/
def ClosedWindow.condition (window : ClosedWindow) (j : JoinInputs) : Expr :=
  .all ((j.parts.withoutTime j.left.width).conjuncts ++ window.bounds.map TimeBound.expr)

/-- **The plan of a join within a bounded time** joins the trees on the
condition with the bounds of the window. Its key is both keys, with the root key once. -/
theorem intervalPlan_eq_ok {window : ClosedWindow} (h : j.intervalPlan window = .ok out) :
    ∃ left right hint, j.left.withoutPending = .ok left ∧ j.right.withoutPending = .ok right ∧
      j.intervalTime window = .ok out.time ∧
      left.select.joinAt right.select j.left.width = .ok out.select ∧
      out.rel = .join left.rel right.rel j.plannedKind (window.condition j) hint ∧
      out.nowFilter = none ∧ out.topN = .none ∧ out.lineage = none ∧
      out.key.targets = j.left.key.targets
        ++ (j.right.key.targets.drop (window.rootKeys.getD 0)).map (j.left.width + ·) := by
  unfold intervalPlan at h
  obtain ⟨left, hl, h⟩ := bind_eq_ok.1 h
  obtain ⟨right, hr, h⟩ := bind_eq_ok.1 h
  obtain ⟨needs, -, h⟩ := bind_eq_ok.1 h
  obtain ⟨time, htime, h⟩ := bind_eq_ok.1 h
  obtain ⟨key, hkey, h⟩ := bind_eq_ok.1 h
  obtain ⟨plan, hplan, h⟩ := bind_eq_ok.1 h
  obtain ⟨select, hselect, h⟩ := bind_eq_ok.1 h
  cases h
  obtain ⟨m, -, rfl⟩ := Plan.ofRel_eq_ok.1 (lift_eq_ok.1 hplan)
  refine ⟨left, right, _, hl, hr, lift_eq_ok.1 htime, lift_eq_ok.1 hselect, rfl, rfl, rfl, rfl, ?_⟩
  have hkey := lift_eq_ok.1 hkey
  -- a root key that both keys start with is kept once
  unfold intervalKey at hkey
  split at hkey
  · rename_i n hn
    split at hkey
    · cases hkey
    · rw [hn, Option.getD_some]
      simp only [Nat.add_comm j.left.width]
      exact (ColumnMap.extend_targets hkey).1
  · rename_i hn
    rw [hn, Option.getD_none, List.drop_zero]
    exact (ColumnMap.joinAt_targets hkey).1

/-- Root keys that are equated are equated column by column. -/
theorem equated_of_equatesRootKeys : ∀ {n : Nat}, j.equatesRootKeys n = .ok true →
    ∀ t ∈ j.right.key.targets.take n, ∃ p ∈ j.parts.equalities, p.2 = t
  | 0, _ => by simp
  | n + 1, h => by
    unfold equatesRootKeys at h
    obtain ⟨equated, hequated, h⟩ := bind_eq_ok.1 h
    split at h
    · rename_i htrue
      subst htrue
      obtain ⟨l, -, h⟩ := bind_eq_ok.1 h
      obtain ⟨r, hr, h⟩ := bind_eq_ok.1 h
      have hmem : (l, r) ∈ j.parts.equalities := List.contains_iff_mem.1 (Except.ok.inj h)
      rw [List.take_add_one, ColumnMap.apply_eq_ok.1 hr, Option.toList_some]
      refine List.forall_mem_append.2 ⟨equated_of_equatesRootKeys hequated, ?_⟩
      exact List.forall_mem_singleton.2 ⟨(l, r), hmem, rfl⟩
    · cases h

/-- The bound of events of one root entity, whose root keys are equated: their best times
are equal. -/
theorem rootBound_eq_ok {bound : TimeBound} {n : Nat} (h : j.rootBound = .ok (bound, n)) :
    j.equatesRootKeys n = .ok true ∧
      ∃ lt rt, j.left.time.bestColumn? = some lt ∧ j.right.time.bestColumn? = some rt ∧
        bound = ⟨.column (rt + j.left.width), .column lt, .eq, 0⟩ := by
  unfold rootBound at h
  split at h
  · rename_i n' m hl hr
    split at h
    · obtain ⟨equated, hequated, h⟩ := bind_eq_ok.1 h
      split at h
      · rename_i htrue
        subst htrue
        split at h
        · rename_i lt rt hlt hrt
          cases h
          exact ⟨orFault_eq_ok.1 hequated, lt, rt, hlt, hrt, rfl⟩
        · exact absurd h refuse_ne_ok
      · exact absurd h refuse_ne_ok
    · exact absurd h refuse_ne_ok
  · exact absurd h refuse_ne_ok

/-- An equality of a right and a left time bounds both sides. -/
theorem ofBounds_equality (leftWidth lt rt : Nat) :
    TimeWindow.ofBounds [⟨.column (rt + leftWidth), .column lt, .eq, 0⟩] leftWidth
      = .ok ⟨some (lt, rt + leftWidth), some (⟨.column (rt + leftWidth), .column lt, .eq, 0⟩, 0),
          some (⟨.column (rt + leftWidth), .column lt, .eq, 0⟩, 0), true⟩ := by
  have hle : leftWidth ≤ rt + leftWidth := Nat.le_add_left _ _
  simp [TimeWindow.ofBounds, TimeWindow.add, TimeWindow.none, TimeOperand.column?,
    TimeWindow.boundValue, TimeWindow.place, TimeBound.isEquality, hle]
  rfl

/-- Without written bounds, the bound of a window is that of events of one root entity. -/
theorem bounds_of_rootWindow {window : ClosedWindow} (hnone : j.parts.timeBounds = [])
    (h : j.closedWindow = .ok window) :
    ∃ lt rt, j.left.time.bestColumn? = some lt ∧ j.right.time.bestColumn? = some rt ∧
      window.bounds = [⟨.column (rt + j.left.width), .column lt, .eq, 0⟩] := by
  unfold closedWindow at h
  obtain ⟨⟨bounds, rootKeys⟩, hwritten, h⟩ := bind_eq_ok.1 h
  obtain ⟨found, hfound, h⟩ := bind_eq_ok.1 h
  unfold writtenBounds at hwritten
  rw [hnone] at hwritten
  split at hwritten
  · exact absurd hwritten refuse_ne_ok
  obtain ⟨⟨bound, n⟩, hbound, hwritten⟩ := bind_eq_ok.1 hwritten
  cases hwritten
  obtain ⟨-, lt, rt, hlt, hrt, rfl⟩ := rootBound_eq_ok hbound
  -- no side is left to be closed
  cases (ofBounds_equality j.left.width lt rt).symm.trans hfound
  cases h
  exact ⟨lt, rt, hlt, hrt, rfl⟩

/-- The root keys of a window are equated. -/
theorem equated_of_closedWindow {window : ClosedWindow} (h : j.closedWindow = .ok window) :
    ∀ t ∈ j.right.key.targets.take (window.rootKeys.getD 0), ∃ p ∈ j.parts.equalities, p.2 = t := by
  unfold closedWindow at h
  obtain ⟨⟨bounds, rootKeys⟩, hwritten, h⟩ := bind_eq_ok.1 h
  obtain ⟨found, -, h⟩ := bind_eq_ok.1 h
  obtain rfl : window.rootKeys = rootKeys := by
    unfold close at h
    split at h
    · cases h
      rfl
    · cases h
      rfl
    · cases h
      rfl
    · exact absurd h refuse_ne_ok
  cases hroot : window.rootKeys with
  | none => simp
  | some n =>
    rw [hroot] at hwritten
    unfold writtenBounds at hwritten
    split at hwritten
    · exact absurd hwritten refuse_ne_ok
    · split at hwritten
      · cases hwritten
      · obtain ⟨⟨bound, m⟩, hbound, hwritten⟩ := bind_eq_ok.1 hwritten
        cases hwritten
        exact equated_of_equatesRootKeys (rootBound_eq_ok hbound).1

theorem intervalJoin?_eq_ok (h : j.intervalJoin? = .ok (some out)) :
    ∃ window, j.closedWindow = .ok window ∧ j.intervalPlan window = .ok out := by
  unfold intervalJoin? at h
  split at h
  · rename_i window hwindow
    obtain ⟨plan, hplan, h⟩ := map_eq_ok.1 h
    cases h
    exact ⟨window, hwindow, hplan⟩
  · split at h <;> cases h
  · cases h

variable {c : Converter}

/-- One more right level is unrolled below the level that its parent stands for. -/
theorem mergeLevel_eq_ok {state next : Merged} {level : Level} {position : Nat}
    (h : mergeLevel c state level position = .ok (some next)) :
    ∃ p parent view q column above, level.parent = some p ∧
      state.matching.lookup p = some parent ∧ c.catalog.views[level.view]? = some view ∧
      view.place = .child q column ∧ state.lineage[parent]? = some above ∧
      next.rel = .unnest state.rel (above.offset + column) false view.levelFields ∧
      next.lineage = state.lineage ++ [⟨level.view, some parent, .inner, state.rel.width,
        view.levelFields.length, view.ownKeys⟩] ∧
      next.matching = state.matching ++ [(position, state.lineage.length)] ∧
      next.added = state.added ++ List.range' state.rel.width view.ownKeys ∧
      state.needs.require .denormalize = .ok next.needs := by
  unfold mergeLevel at h
  split at h
  · cases h
  · rename_i parent hparent
    obtain ⟨p, hp, hlookup⟩ := Option.bind_eq_some_iff.1 hparent
    obtain ⟨view, hview, h⟩ := bind_eq_ok.1 h
    split at h
    · cases h
    · rename_i q column hplace
      obtain ⟨needs, hneeds, h⟩ := bind_eq_ok.1 h
      obtain ⟨above, habove, h⟩ := bind_eq_ok.1 h
      obtain ⟨lineage, hlineage, h⟩ := bind_eq_ok.1 h
      cases h
      have hlineage := lift_eq_ok.1 hlineage
      unfold Lineage.addLevel at hlineage
      split at hlineage
      · cases hlineage
        exact ⟨p, parent, view, q, column, above, hp, hlookup, itemAt_eq_ok.1 (lift_eq_ok.1 hview),
          hplace, itemAt_eq_ok.1 (orFault_eq_ok.1 habove), rfl, rfl, rfl, rfl, needing_eq_ok.1 hneeds⟩
      · cases hlineage

/-- The level that is unrolled stands for the right one. -/
theorem mergeLevel_stands {right : Lineage} {state next : Merged} {level : Level} {position : Nat}
    (hat : right[position]? = some level)
    (hstands : ∀ pair ∈ state.matching, Lineage.Stands state.lineage right pair)
    (h : mergeLevel c state level position = .ok (some next)) :
    ∀ pair ∈ next.matching, Lineage.Stands next.lineage right pair := by
  obtain ⟨_, _, _, _, _, _, -, -, -, -, -, -, hlineage, hmatching, -, -⟩ := mergeLevel_eq_ok h
  intro pair hpair
  rw [hmatching] at hpair
  rw [hlineage]
  rcases List.mem_append.1 hpair with hpair | hpair
  · obtain ⟨l, r, hr, hl, hview⟩ := hstands pair hpair
    exact ⟨l, r, hr, by rw [List.getElem?_append_left (List.getElem?_eq_some_iff.1 hl).1, hl], hview⟩
  · rw [List.mem_singleton.1 hpair]
    exact ⟨_, level, hat, List.getElem?_concat_length, rfl⟩

/-- What every right level keeps, all of them keep. -/
theorem mergeLevels_keeps {I : Merged → Prop} {levels : List (Level × Nat)}
    (hstep : ∀ state next, ∀ level ∈ levels, I state →
      mergeLevel c state level.1 level.2 = .ok (some next) → I next) :
    ∀ {state merged : Merged}, I state → mergeLevels c state levels = .ok (some merged) →
      I merged := by
  induction levels with
  | nil =>
    intro state merged h hm
    cases hm
    exact h
  | cons level levels ih =>
    intro state merged h hm
    unfold mergeLevels at hm
    obtain ⟨o, ho, hm⟩ := bind_eq_ok.1 hm
    rcases o with _ | next
    · cases hm
    · exact ih (fun state next k hk => hstep state next k (List.mem_cons_of_mem _ hk))
        (hstep _ _ level List.mem_cons_self h ho) hm

/-- The right levels, with their positions from a first one on, that no left level
stands for. -/
def lackingLevels (matching : Lineage.Matching) (position : Nat) (right : Lineage) :
    List (Level × Nat) :=
  (right.zipIdx position).filter fun (_, i) => (matching.lookup i).isNone

theorem mem_lackingLevels {right : Lineage} {matching : Lineage.Matching} {level : Level × Nat} :
    level ∈ lackingLevels matching 0 right ↔
      right[level.2]? = some level.1 ∧ matching.lookup level.2 = none := by
  rw [lackingLevels, List.mem_filter, List.mem_zipIdx_iff_getElem?, Option.isNone_iff_eq_none]

/-- **The plan of an entity joined with itself** is the left plan over the
merged row. A left join lacks no right level. -/
theorem mergedPlan_eq_ok {left right : Lineage} {matching : Lineage.Matching}
    (h : j.mergedPlan c left right matching = .ok (some out)) :
    ∃ merged shown select key, (j.kind = .left → lackingLevels matching 0 right = []) ∧
      mergeLevels c ⟨j.left.rel, left, matching, j.needs, []⟩ (lackingLevels matching 0 right)
        = .ok (some merged) ∧
      j.right.select.targets.mapM (mergedColumn merged right) = some shown ∧
      select.targets = j.left.select.targets ++ shown ∧
      key.targets = j.left.key.targets ++ merged.added ∧
      out = { j.left with
        rel := merged.rel, needs := merged.needs, lineage := some merged.lineage, select, key } := by
  unfold mergedPlan at h
  simp only at h
  split at h
  · cases h
  · rename_i hkind
    obtain ⟨o, hmerged, h⟩ := bind_eq_ok.1 h
    rcases o with _ | merged
    · cases h
    · obtain ⟨o, hshown, h⟩ := bind_eq_ok.1 h
      rcases o with _ | shown
      · cases h
      · obtain ⟨select, hselect, h⟩ := bind_eq_ok.1 h
        obtain ⟨key, hkey, h⟩ := bind_eq_ok.1 h
        cases h
        refine ⟨merged, shown.targets, select, key, fun hl => ?_, hmerged,
          (ColumnMap.tryRemap_targets (orFault_eq_ok.1 hshown)).1,
          (ColumnMap.extend_targets (lift_eq_ok.1 hselect)).1,
          (ColumnMap.extend_targets (lift_eq_ok.1 hkey)).1, rfl⟩
        simpa [lackingLevels, hl] using hkind

/-- An entity is joined with itself on keys alone, and only where nothing is pending. -/
theorem settled_of_mayMerge (h : j.mayMerge = true) :
    (j.left.nowFilter = none ∧ j.left.topN.isEmpty = true) ∧
      (j.right.nowFilter = none ∧ j.right.topN.isEmpty = true) ∧ j.parts.isEquiJoin = true := by
  simpa [mayMerge, Plan.hasPending, and_assoc] using h

theorem selfJoin?_eq_ok (h : j.selfJoin? c = .ok (some out)) :
    ∃ left right matching, j.left.lineage = some left ∧ j.right.lineage = some right ∧
      j.mayMerge = true ∧ Lineage.match? left right j.parts.equalities = some matching ∧
      j.mergedPlan c left right matching = .ok (some out) := by
  unfold selfJoin? at h
  split at h
  · rename_i left right hl hr
    split at h
    · rename_i hmay
      split at h
      · rename_i matching hm
        exact ⟨left, right, matching, hl, hr, hmay, hm, h⟩
      · cases h
    · cases h
  · cases h

end JoinInputs

namespace Converter

variable {c : Converter} {j : JoinInputs} {out : Plan}

theorem attempt_eq_ok {kinds : List JoinKind} {rule : Planning (Option Plan)}
    (h : attempt j kinds rule = .ok (some out)) : rule = .ok (some out) := by
  unfold attempt at h
  split at h
  · exact h
  · cases h

/-- **The plan of a join comes from one of four rules.** -/
theorem joined_eq_ok (h : c.joined j = .ok out) :
    attempt j [.auto, .inner, .left] (j.selfJoin? c) = .ok (some out) ∨
      attempt j [.auto, .temporal, .left] j.temporalJoin? = .ok (some out) ∨
      attempt j [.auto, .inner, .interval, .left] j.intervalJoin? = .ok (some out) ∨
      j.statePlan = .ok out := by
  unfold joined at h
  obtain ⟨o, hself, h⟩ := bind_eq_ok.1 h
  rcases o with _ | plan
  · obtain ⟨o, htemporal, h⟩ := bind_eq_ok.1 h
    rcases o with _ | plan
    · obtain ⟨o, hinterval, h⟩ := bind_eq_ok.1 h
      rcases o with _ | plan
      · exact .inr (.inr (.inr h))
      · cases h
        exact .inr (.inr (.inl hinterval))
    · cases h
      exact .inr (.inl htemporal)
  · cases h
    exact .inl hself

end Converter

end StreamPlan
