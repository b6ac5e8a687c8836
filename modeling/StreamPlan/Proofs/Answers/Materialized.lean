import StreamPlan.Proofs.Answers.Aligned
import StreamPlan.Proofs.Rows.Shape
import StreamPlan.Proofs.Safety.Convert

/-!
# Final results of sound plans

What a plan gives as a final result, whichever rules it came from.

* `Plan.ReadsAs`: a row has, where the final plan reads, what the plan reads of
  another row.
* `Plan.Finished`: what a plan and its manifest as a final result are.
* `Plan.materialize_ends`: **a sound plan with distinct ranks is finished**, or a
  capability was missing.
* `Plan.stale_ranking_is_kept`: a ranking without effect keeps its columns even
  where these are gone.
-/

namespace StreamPlan.Plan

variable {plan out : Plan} {fixture : Fixture}

/-- An aligned plan is the plan with nothing pending, if its columns are in line,
or has them arranged. -/
theorem align_cases (h : plan.align = .ok out) :
    ∃ base, plan.withoutPending = .ok base ∧
      (plan.alignedColumns = List.range plan.width ∧ out = base ∨
        base.keepColumns plan.alignedColumns plan.select.sources = .ok out) := by
  unfold align at h
  obtain ⟨base, hbase, h⟩ := bind_eq_ok.1 h
  have hs := (withoutPending_settled hbase).1
  refine ⟨base, hbase, ?_⟩
  simp only at h
  rw [alignedColumns_settled hs, show base.width = plan.width from hs.width, hs.select] at h
  split at h
  · rename_i hrange
    cases h
    exact .inl ⟨hrange, rfl⟩
  · exact .inr (lift_eq_ok.1 h)

/-- Nothing is pending in an aligned plan. -/
theorem align_settles (h : plan.align = .ok out) :
    out.nowFilter = none ∧ out.topN.isEmpty = true ∧ (out.topN = .none ∨ out.topN = plan.topN) := by
  obtain ⟨base, hbase, hout⟩ := align_cases h
  obtain ⟨hs, hnone, he⟩ := withoutPending_settled hbase
  rcases hout with ⟨-, rfl⟩ | hout
  · exact ⟨hnone, he, hs.topN⟩
  · obtain ⟨outputs, key, select, -, -, -, rfl⟩ := keepColumns_eq_ok hout
    exact ⟨hnone, he, hs.topN⟩

/-- An aligned plan is built above the tree. -/
theorem within_align (h : plan.align = .ok out) : plan.rel.Within out.rel := by
  obtain ⟨base, hbase, hout⟩ := align_cases h
  refine (within_withoutPending hbase).trans ?_
  rcases hout with ⟨-, rfl⟩ | hout
  · exact .refl _
  · obtain ⟨outputs, key, select, -, -, -, rfl⟩ := keepColumns_eq_ok hout
    exact .below List.mem_cons_self

/-- The key moves with its columns. -/
theorem key_of_align (hs : plan.Sound) (h : plan.align = .ok out) :
    List.Forall₂ (MovedTo plan.alignedColumns) plan.key.targets out.key.targets := by
  obtain ⟨base, hbase, hout⟩ := align_cases h
  have hset := (withoutPending_settled hbase).1
  rw [← hset.key]
  rcases hout with ⟨hrange, rfl⟩ | hout
  · rw [hrange]
    exact forall₂_movedTo_range fun c hc => hs.key_lt c (hset.key ▸ hc)
  · obtain ⟨outputs, key, select, -, hkey, -, rfl⟩ := keepColumns_eq_ok hout
    exact hkey

/-- The order moves with its columns. -/
theorem sort_of_align (hs : plan.Sound) (h : plan.align = .ok out) :
    List.Forall₂ (SortKey.MovedTo plan.alignedColumns) plan.sort out.sort := by
  obtain ⟨base, hbase, hout⟩ := align_cases h
  have hset := (withoutPending_settled hbase).1
  rw [← hset.sort]
  rcases hout with ⟨hrange, rfl⟩ | hout
  · rw [hrange]
    exact forall₂_keyMovedTo_range fun c hc => hs.sort c (hset.sort ▸ hc)
  · obtain ⟨outputs, key, select, -, -, -, rfl⟩ := keepColumns_eq_ok hout
    exact forall₂_keyMovedTo fun c hc =>
      mem_alignedColumns.2 (.inr (.inr (.inl (hset.sort ▸ hc))))

/-- The best timestamp moves with its column. -/
theorem best_of_align (hs : plan.Sound) (hr : plan.time.Ranked) (h : plan.align = .ok out) :
    List.Forall₂ (MovedTo plan.alignedColumns) plan.time.bestColumn?.toList
      out.time.bestColumn?.toList := by
  have ha := arrangedAs_of_align hs h
  have hbest := ha.time.best? hr ha.best_position
  rw [EventTime.bestColumn?, EventTime.bestColumn?, hbest]
  cases hb : plan.time.best? with
  | none => exact .nil
  | some k =>
    obtain ⟨i, hi⟩ := ha.best_position k.column (by rw [EventTime.bestColumn?, hb]; rfl)
    simp only [Option.bind_some, hi, Option.map_some, Option.toList_some]
    exact .cons hi .nil

/-- **The columns of an aligned plan are in line.** -/
theorem alignedColumns_of_align (hs : plan.Sound) (hr : plan.time.Ranked) (h : plan.align = .ok out) :
    out.alignedColumns = List.range out.width := by
  have ha := arrangedAs_of_align hs h
  rw [← ha.width, alignedColumns, ha.select]
  exact Selection.append_range (List.rel_append
    (List.rel_append (key_of_align hs h) (columns_of_keyMovedTo (sort_of_align hs h))) (best_of_align hs hr h))

/-- To align a plan with its columns in line is to apply what is pending. -/
theorem align_of_range (hrange : plan.alignedColumns = List.range plan.width) :
    plan.align = plan.withoutPending := by
  rw [align]
  cases hbase : plan.withoutPending with
  | error e => rfl
  | ok base =>
    have hset := (withoutPending_settled hbase).1
    rw [ok_bind]
    simp only [alignedColumns_settled hset, hrange, show base.width = plan.width from hset.width, if_true]
    rfl

/-- A plan with nothing pending and its columns in line is aligned. -/
theorem align_eq_self (hnone : plan.nowFilter = none) (he : plan.topN.isEmpty = true)
    (hrange : plan.alignedColumns = List.range plan.width) : plan.align = .ok plan := by
  rw [align_of_range hrange, withoutPending_of_idle hnone he]

/-- A plan that is sound but for a ranking without effect fails the check over
the columns of that ranking alone. -/
theorem check_or_stale (hbare : Sound { plan with topN := .none }) (he : plan.topN.isEmpty = true) :
    plan.check = .ok () ∨ plan.topN.Stale ∧ plan.check = .error (.topNOutside plan.width) := by
  rw [check_eq_topN, check_eq_ok_iff.2 hbare, ok_bind]
  by_cases ho : plan.topN.order = []
  · left
    have hp : plan.topN.partition = [] := by
      simp only [TopN.isEmpty, Bool.and_eq_true, List.isEmpty_iff] at he
      exact he.1.1
    simp [TopN.columns, SortOrder.columns, hp, ho, expect]
  · unfold expect
    split
    · exact .inl rfl
    · exact .inr ⟨⟨he, ho⟩, rfl⟩

/-- **An aligned plan** is sound but for a ranking without effect. -/
theorem check_of_align (hs : plan.Sound) (h : plan.align = .ok out) :
    out.check = .ok () ∨ plan.topN.Stale ∧ out.check = .error (.topNOutside out.width) := by
  obtain ⟨-, he, htop⟩ := align_settles h
  have hbare : Sound { out with topN := .none } := by
    obtain ⟨base, hbase, hout⟩ := align_cases h
    obtain ⟨hset, hnone, -⟩ := withoutPending_settled hbase
    have hb := hset.sound hs
    rcases hout with ⟨-, rfl⟩ | hout
    · exact ⟨hb.key, hb.select, hb.stateTime, hb.stateNowFilter, hb.time, hb.nowFilter, hb.sort,
        fun i hi => by cases hi⟩
    · refine keepColumns_sound hb hnone (fun c hc => ?_) hout
      exact mem_alignedColumns.2 (.inr (.inr (.inl (hset.sort ▸ hc))))
  rcases check_or_stale hbare he with hok | ⟨hstale, herror⟩
  · exact .inl hok
  · rcases htop with htop | htop
    · rw [htop] at hstale
      exact absurd rfl hstale.2
    · exact .inr ⟨htop ▸ hstale, herror⟩

/-- Key and visible columns of an aligned plan leave no gap. -/
theorem isContinuous_of_align (h : plan.align = .ok out) : out.isContinuous = true := by
  obtain ⟨added, others, hlayout⟩ := plan.alignedColumns_layout
  obtain ⟨base, hbase, hout⟩ := align_cases h
  obtain ⟨hset, -, -⟩ := withoutPending_settled hbase
  rcases hout with ⟨hrange, rfl⟩ | hout
  · have hdense := isContinuous_of_range hlayout hrange
    rwa [isContinuous, hset.key, hset.select]
  · obtain ⟨outputs, key, select, -, hkey, hselect, rfl⟩ := keepColumns_eq_ok hout
    rw [hset.key] at hkey
    rw [isContinuous, hselect]
    exact hlayout.isDense hkey

/-- A row has, where the final plan reads, what the plan reads of another row:
the visible values, the key, the best timestamp and the values sorted by. -/
structure ReadsAs (plan final : Plan) (row above : Row) : Prop where
  visible : above.at final.select.targets = row.at plan.select.targets
  key : above.at final.key.targets = row.at plan.key.targets
  best : (final.time.bestColumn?.map fun c => above[c]?) = plan.time.bestColumn?.map fun c => row[c]?
  sort : above.at (SortOrder.columns final.sort) = row.at (SortOrder.columns plan.sort)

/-- Columns that moved are read where they moved to. -/
theorem at_of_moved {row above : Row} {columns front moved : List Nat}
    (hkeeps : row.Keeps columns above)
    (h : List.Forall₂ (MovedTo columns) front moved) :
    above.at moved = row.at front := by
  refine (mapM_congr (h.imp fun c i hi => ?_)).symm
  rw [itemAt, itemAt, hkeeps i c (find_position hi)]

/-- What an aligned plan shows of a row that has the columns as aligned. -/
theorem visible_of_align (hs : plan.Sound) (h : plan.align = .ok out) {row above : Row}
    (hkeeps : row.Keeps plan.alignedColumns above) :
    above.at out.select.targets = row.at plan.select.targets := by
  have ha := arrangedAs_of_align hs h
  obtain ⟨added, hadded⟩ := ha.front
  refine (mapM_congr ?_).symm
  rw [ha.select]
  refine (forall₂_range plan.select.targets added).imp fun c i hi => ?_
  rw [itemAt, itemAt, hkeeps i c (hadded ▸ hi)]

/-- What an aligned plan reads of a row that has the columns as aligned. -/
theorem readsAs_of_align (hs : plan.Sound) (hr : plan.time.Ranked) (h : plan.align = .ok out)
    {row above : Row} (hkeeps : row.Keeps plan.alignedColumns above) : plan.ReadsAs out row above where
  visible := visible_of_align hs h hkeeps
  key := at_of_moved hkeeps (key_of_align hs h)
  best := by
    have hbest := best_of_align hs hr h
    cases hp : plan.time.bestColumn? <;> cases ho : out.time.bestColumn? <;> rw [hp, ho] at hbest
    · rfl
    · cases hbest
    · cases hbest
    · obtain _ | ⟨hi, -⟩ := hbest
      rw [Option.map_some, Option.map_some, hkeeps _ _ (find_position hi)]
  sort := at_of_moved hkeeps (columns_of_keyMovedTo (sort_of_align hs h))

/-- A row that reads as another one shows the same. -/
theorem ReadsAs.shown {final : Plan} {row above : Row} (h : plan.ReadsAs final row above)
    (hs : plan.Sound) (hlength : row.length = plan.width) : final.shown above = plan.shown row := by
  have hvisible := h.visible.trans (Row.at_of_inside fun c hc => hlength ▸ hs.select_lt c hc)
  have hkey := h.key.trans (Row.at_of_inside fun c hc => hlength ▸ hs.key_lt c hc)
  rw [Plan.shown, Plan.shown, eq_pick_of_at hvisible, eq_pick_of_at hkey]

/-- It has the same best time. -/
theorem ReadsAs.bestTime {final : Plan} {row above : Row} (h : plan.ReadsAs final row above) :
    final.bestTime above = plan.bestTime row := by
  have hbest := h.best
  rw [Plan.bestTime, Plan.bestTime]
  cases hf : final.time.bestColumn? <;> cases hp : plan.time.bestColumn? <;> rw [hf, hp] at hbest
  · rfl
  · cases hbest
  · cases hbest
  · rw [Option.map_some, Option.map_some] at hbest
    rw [Option.bind_some, Option.bind_some, Row.timeAt, Row.timeAt, Option.some.inj hbest]

/-- **The rows of an aligned plan** are those of the settled tree, one by one, with
the columns as aligned. -/
theorem evaluate_of_align (hs : plan.Sound) (hshaped : plan.settledRel.Shaped fixture)
    (h : plan.align = .ok out) :
    evaluate fixture out.rel
      = List.map (Row.pick · plan.alignedColumns) <$> evaluate fixture plan.settledRel := by
  have hwidth : plan.settledRel.width = plan.width := (settledRel_restricted plan).width
  obtain ⟨base, hbase, hout⟩ := align_cases h
  rw [← rel_of_withoutPending hbase] at hshaped hwidth ⊢
  -- the aligned tree is the settled one or a projection of it, and both pass its faults on
  cases hbelow : evaluate fixture base.rel with
  | error e =>
    rcases hout with ⟨-, rfl⟩ | hout
    · rw [hbelow]
      rfl
    · obtain ⟨outputs, key, select, -, -, -, rfl⟩ := keepColumns_eq_ok hout
      rw [evaluate, hbelow]
      rfl
  | ok rows =>
    have hat : ∀ row ∈ rows, row.at plan.alignedColumns = .ok (row.pick plan.alignedColumns) :=
      fun row hrow => Row.at_of_inside fun c hc => by
        rw [hshaped rows hbelow row hrow, hwidth]
        exact hs.alignedColumns_lt c hc
    rcases hout with ⟨hrange, rfl⟩ | hout
    · have hsame : ∀ row ∈ rows, row.pick plan.alignedColumns = row := fun row hrow => by
        have hself := at_range row
        rw [hshaped rows hbelow row hrow, hwidth, ← hrange, hat row hrow] at hself
        exact Except.ok.inj hself
      rw [hbelow, map_eq_ok.2 ⟨rows, rfl, rfl⟩, List.map_congr_left hsame, List.map_id']
    · obtain ⟨outputs, key, select, houtputs, -, -, rfl⟩ := keepColumns_eq_ok hout
      rw [evaluate, hbelow, ok_bind, map_eq_ok.2 ⟨rows, rfl, rfl⟩]
      exact (projectRows_columns houtputs).2
        (List.forall₂_map_right_iff.2 (List.forall₂_same.2 hat))

/-- **The rows of an aligned plan** show what those of the settled tree do, at their best
times. -/
theorem shown_of_align (hs : plan.Sound) (hr : plan.time.Ranked)
    (hshaped : plan.settledRel.Shaped fixture) (h : plan.align = .ok out)
    (hrows : evaluate fixture plan.settledRel = .ok rows) :
    ∃ reread : Row → Row, evaluate fixture out.rel = .ok (rows.map reread) ∧
      ∀ row ∈ rows, out.shown (reread row) = plan.shown row ∧
        out.bestTime (reread row) = plan.bestTime row := by
  refine ⟨(Row.pick · plan.alignedColumns), ?_, fun row hrow => ?_⟩
  · rw [evaluate_of_align hs hshaped h, hrows]
    rfl
  · have hlength : row.length = plan.width :=
      (hshaped rows hrows row hrow).trans (settledRel_restricted plan).width
    have hreads := readsAs_of_align hs hr h (Row.keeps_of_at (Row.at_of_inside fun c hc =>
      hlength ▸ hs.alignedColumns_lt c hc))
    exact ⟨hreads.shown hs hlength, hreads.bestTime⟩

/-- **A final result has an answer** if the settled tree has rows. -/
theorem answer_of_settled (hs : plan.Sound) (hshaped : plan.rel.Shaped fixture)
    (h : plan.align = .ok out) (hrows : evaluate fixture plan.settledRel = .ok rows) :
    out.answer fixture = .ok (rows.map plan.shown) := by
  have hbelow := (settledRel_restricted plan).shaped hshaped
  rw [answer, evaluate_of_align hs hbelow h, hrows, map_eq_ok.2 ⟨rows, rfl, rfl⟩, ok_bind]
  refine mapM_eq_ok.2 (List.forall₂_map_left_iff.2 (List.forall₂_map_right_iff.2
    (List.forall₂_same.2 fun row hrow => ?_)))
  have hlength : row.length = plan.width :=
    (hbelow rows hrows row hrow).trans (settledRel_restricted plan).width
  have hkeeps : row.Keeps plan.alignedColumns (row.pick plan.alignedColumns) :=
    Row.keeps_of_at (Row.at_of_inside fun c hc => hlength ▸ hs.alignedColumns_lt c hc)
  rw [view, visible_of_align hs h hkeeps, at_of_moved hkeeps (key_of_align hs h),
    Row.at_of_inside fun c hc => hlength ▸ hs.select_lt c hc,
    Row.at_of_inside fun c hc => hlength ▸ hs.key_lt c hc]
  rfl

/-- What a plan and a manifest are as the final result of a plan. -/
structure Finished (plan final : Plan) (manifest : Manifest) : Prop where
  settled : final.hasPending = false
  /-- Of the structure of a plan only a ranking without effect can be out of place. -/
  checked : final.check = .ok () ∨
    plan.topN.Stale ∧ final.check = .error (.topNOutside final.width)
  front : final.select.targets = List.range plan.select.sources
  /-- Key and visible columns are the first columns, without a gap. -/
  dense : ∃ k, ∀ c, c ∈ final.key.targets ++ final.select.targets ↔ c < k
  directions : final.sort.map SortKey.direction = plan.sort.map SortKey.direction
  /-- The rows are those of the tree with nothing pending, one by one, and read alike. -/
  rows : ∀ fixture, plan.rel.Conforms fixture → ∃ reread : Row → Row,
    evaluate fixture final.rel = List.map reread <$> evaluate fixture plan.settledRel ∧
      ∀ below, evaluate fixture plan.settledRel = .ok below →
        ∀ row ∈ below, plan.ReadsAs final row (reread row)
  described : Manifest.ofPlan final = .ok manifest
  /-- The manifest lists the columns, the first ones as visible. -/
  columns : ∃ fields, final.rel.fields = .ok fields ∧
    manifest.columns = fields.zipIdx.map fun (field, i) =>
      ⟨field.name, field.dataType.display, field.nullable, decide (i < final.select.sources)⟩
  again : final.materialize = .ok (final, manifest)

/-- The columns that a manifest lists. -/
theorem manifest_columns {visible : Nat} {manifest : Manifest}
    (hselect : plan.select.targets = List.range visible) (h : Manifest.ofPlan plan = .ok manifest) :
    ∃ fields, plan.rel.fields = .ok fields ∧
      manifest.columns = fields.zipIdx.map fun (field, i) =>
        ⟨field.name, field.dataType.display, field.nullable, decide (i < plan.select.sources)⟩ := by
  unfold Manifest.ofPlan at h
  obtain ⟨fields, hfields, h⟩ := bind_eq_ok.1 h
  cases h
  refine ⟨fields, hfields, List.map_congr_left fun ⟨field, i⟩ _ => ?_⟩
  have hvisible : plan.select.containsTarget i = decide (i < plan.select.sources) := by
    rw [ColumnMap.containsTarget, ColumnMap.sources, hselect, List.length_range, Bool.eq_iff_iff,
      List.contains_iff_mem, List.mem_range, decide_eq_true_iff]
  simp only [hvisible]

/-- A manifest lists the hints of the tree. -/
theorem mem_hints {manifest : Manifest} {op : Rel} {hint : ManifestHint}
    (h : Manifest.ofPlan plan = .ok manifest) (hop : op ∈ plan.rel.preorder)
    (hhint : ManifestHint.ofRoot? op = some hint) : hint ∈ manifest.hints := by
  unfold Manifest.ofPlan at h
  obtain ⟨fields, -, h⟩ := bind_eq_ok.1 h
  cases h
  exact List.mem_filterMap.2 ⟨op, hop, hhint⟩

/-- A final result is an aligned plan with its manifest. -/
theorem materialize_eq_ok {final : Plan} {manifest : Manifest} :
    plan.materialize = .ok (final, manifest) ↔
      plan.align = .ok final ∧ final.isContinuous = true ∧ Manifest.ofPlan final = .ok manifest := by
  unfold materialize
  simp only [bind_eq_ok, lift_eq_ok, expect_eq_ok, pure_eq_ok, Prod.mk.injEq]
  constructor
  · rintro ⟨_, halign, -, hcontinuous, _, hmanifest, rfl, rfl⟩
    exact ⟨halign, hcontinuous, hmanifest⟩
  · rintro ⟨halign, hcontinuous, hmanifest⟩
    exact ⟨final, halign, (), hcontinuous, manifest, hmanifest, rfl, rfl⟩

/-- **A final result is finished.** -/
theorem finished_of_materialize {final : Plan} {manifest : Manifest} (hs : plan.Sound)
    (hw : plan.rel.WellFormed) (hr : plan.time.Ranked)
    (h : plan.materialize = .ok (final, manifest)) : plan.Finished final manifest := by
  obtain ⟨halign, hcontinuous, hmanifest⟩ := materialize_eq_ok.1 h
  obtain ⟨hnone, he, -⟩ := align_settles halign
  have hselect := (arrangedAs_of_align hs halign).select
  exact {
    settled := by rw [hasPending, hnone, he]; rfl
    checked := check_of_align hs halign
    front := hselect
    dense := mem_iff_of_isDenseRange hcontinuous
    directions := (map_eq_map_of_forall₂ (sort_of_align hs halign) fun _ _ _ _ hk => hk.2.symm).symm
    rows := fun fixture hfits => by
      have hshaped := (settledRel_restricted plan).shaped (Rel.shaped_of_conforms hw hfits)
      refine ⟨(Row.pick · plan.alignedColumns), evaluate_of_align hs hshaped halign,
        fun below hbelow row hrow => readsAs_of_align hs hr halign (Row.keeps_of_at ?_)⟩
      refine Row.at_of_inside fun c hc => ?_
      rw [hshaped below hbelow row hrow, (settledRel_restricted plan).width]
      exact hs.alignedColumns_lt c hc
    described := hmanifest
    columns := manifest_columns hselect hmanifest
    again := materialize_eq_ok.2
      ⟨align_eq_self hnone he (alignedColumns_of_align hs hr halign), hcontinuous, hmanifest⟩ }

/-- The stage of a plan lacks a capability that a pending constraint needs. -/
structure Lacks (plan : Plan) (missing : MissingCapability) : Prop where
  stage : missing.stage = plan.needs.stage.name
  unsupported : plan.needs.supports missing.capability = false
  needed : missing.capability = .nowFunction ∧ plan.nowFilter ≠ none ∨
    missing.capability = .sort ∧ plan.topN.isEmpty = false

theorem require_eq_error {needs : Requirements} {cap : Capability} {missing : MissingCapability}
    (h : needs.require cap = .error missing) :
    missing = ⟨needs.stage.name, cap⟩ ∧ needs.supports cap = false := by
  unfold Requirements.require at h
  split at h
  · cases h
  · rename_i hno
    cases h
    exact ⟨rfl, Bool.eq_false_iff.2 hno⟩

theorem inlineTopN_missing {missing : MissingCapability} (h : plan.inlineTopN.2 = some missing) :
    plan.Lacks missing ∧ missing.capability = .sort := by
  unfold inlineTopN at h
  split at h
  · cases h
  · rename_i hne
    split at h
    · cases h
    · rename_i lacking hreq
      cases h
      obtain ⟨rfl, hno⟩ := require_eq_error hreq
      exact ⟨⟨rfl, hno, .inr ⟨rfl, Bool.eq_false_iff.2 hne⟩⟩, rfl⟩

/-- What is pending applies unless a capability is missing. -/
theorem withoutPending_fails {e : Failure PlanError} (h : plan.withoutPending = .error e) :
    ∃ missing, e = .refused (.capability missing) ∧ plan.Lacks missing := by
  have hmissing : ∀ x : Plan × Option MissingCapability, needing (Requirements.complete x) = .error e →
      ∃ missing, x.2 = some missing ∧ e = .refused (.capability missing) := by
    rintro ⟨out, _ | missing⟩ hx
    · cases hx
    · cases hx
      exact ⟨missing, rfl, rfl⟩
  obtain ⟨missing, hall, rfl⟩ := hmissing _ h
  refine ⟨missing, rfl, ?_⟩
  unfold inlineAll inlineNowFilter at hall
  cases hn : plan.nowFilter with
  | none =>
    simp only [hn] at hall
    exact (inlineTopN_missing hall).1
  | some filter =>
    simp only [hn] at hall
    cases hreq : plan.needs.require .nowFunction with
    | ok needs =>
      -- recording a capability leaves the stage as it is
      simp only [hreq] at hall
      obtain ⟨hlacks, hcap⟩ := inlineTopN_missing hall
      have hstage := Requirements.require_stage hreq
      refine ⟨hstage ▸ hlacks.stage, ?_, .inr ⟨hcap, ?_⟩⟩
      · have hno := hlacks.unsupported
        rwa [Requirements.supports, hstage] at hno
      · rcases hlacks.needed with ⟨hnow, -⟩ | ⟨-, hne⟩
        · rw [hcap] at hnow
          cases hnow
        · exact hne
    | error lacking =>
      simp only [hreq] at hall
      cases hall
      obtain ⟨rfl, hno⟩ := require_eq_error hreq
      exact ⟨rfl, hno, .inl ⟨rfl, by rw [hn]; rintro ⟨⟩⟩⟩

/-- A sound plan can be aligned unless a capability is missing, or it shows more
columns than can be listed. -/
theorem align_fails (hs : plan.Sound) (hf : ∃ fs, plan.rel.fields = .ok fs) {e : Failure PlanError}
    (h : plan.align = .error e) :
    (∃ missing, e = .refused (.capability missing) ∧ plan.Lacks missing) ∨
      e = .fault .tooManyItems ∧ Position.countLimit ≤ plan.select.sources := by
  unfold align at h
  cases hbase : plan.withoutPending with
  | error failure =>
    rw [hbase] at h
    cases h
    exact .inl (withoutPending_fails hbase)
  | ok base =>
    obtain ⟨hset, -, -⟩ := withoutPending_settled hbase
    have hb := hset.sound hs
    rw [hbase, ok_bind] at h
    simp only at h
    split at h
    · cases h
    · right
      obtain ⟨added, hadded, -⟩ := Selection.append_eq base.select.targets
        (base.key.targets ++ SortOrder.columns base.sort ++ base.time.bestColumn?.toList)
      have hle : base.select.sources ≤ base.alignedColumns.length := by
        rw [alignedColumns, hadded, List.length_append]
        exact Nat.le_add_right _ _
      have hbounded := keepColumns_bounded (hset.fields ▸ hf) hb.alignedColumns_lt
        (fun c hc => mem_alignedColumns.2 (.inr (.inl hc))) hle
      cases hkeep : base.keepColumns base.alignedColumns base.select.sources with
      | ok out => rw [hkeep] at h; cases h
      | error fault =>
        rw [hkeep] at h
        cases h
        obtain ⟨rfl, hmany⟩ := hbounded.1 fault hkeep
        exact ⟨rfl, hset.select ▸ hmany⟩

/-- A sound plan is a final result unless a capability is missing, or it shows more
columns than can be listed. -/
theorem materialize_fails (hs : plan.Sound) (hf : ∃ fs, plan.rel.fields = .ok fs)
    {e : Failure PlanError} (h : plan.materialize = .error e) :
    (∃ missing, e = .refused (.capability missing) ∧ plan.Lacks missing) ∨
      e = .fault .tooManyItems ∧ Position.countLimit ≤ plan.select.sources := by
  unfold materialize at h
  cases halign : plan.align with
  | error failure =>
    rw [halign] at h
    cases h
    exact align_fails hs hf halign
  | ok out =>
    -- the columns are in one range, and the tree has a row type
    have hfields : ∃ fs, out.rel.fields = .ok fs := by
      obtain ⟨base, hbase, hout⟩ := align_cases halign
      rcases hout with ⟨-, rfl⟩ | hout
      · exact (withoutPending_settled hbase).1.fields ▸ hf
      · obtain ⟨outputs, key, select, -, -, -, rfl⟩ := keepColumns_eq_ok hout
        exact ⟨_, by rw [Rel.fields]⟩
    obtain ⟨fs, hfs⟩ := hfields
    rw [halign, ok_bind, isContinuous_of_align halign] at h
    simp only [Manifest.ofPlan, hfs] at h
    cases h

/-- **A sound plan with distinct ranks** is finished as a final result, or a
capability was missing. The only fault is a list of visible columns that is too long. -/
theorem materialize_ends (hc : plan.check = .ok ()) (hw : plan.rel.WellFormed)
    (hr : plan.time.Ranked) :
    (∀ final manifest, plan.materialize = .ok (final, manifest) → plan.Finished final manifest) ∧
      ∀ e, plan.materialize = .error e →
        (∃ missing, e = .refused (.capability missing) ∧ plan.Lacks missing) ∨
          e = .fault .tooManyItems ∧ Position.countLimit ≤ plan.select.sources := by
  have hs := check_eq_ok_iff.1 hc
  exact ⟨fun final manifest h => finished_of_materialize hs hw hr h,
    fun e h => materialize_fails hs hw.fields h⟩

/-- Events of which the payload is visible, twice, the latest first; of the others
a now-filter is still pending. -/
def payloads : Plan where
  rel := .scan (.base 0) "events"
    [⟨"id", .int64, false⟩, ⟨"at", .timestamp, true⟩, ⟨"payload", .utf8, true⟩]
  kind := .stream
  key := ⟨[0], 3, by decide⟩
  time := .single 1 .source
  select := ⟨[2, 2], 3, by decide⟩
  needs := .start (.database "database")
  lineage := none
  nowFilter := some ⟨1, .gt, 100⟩
  topN := .none
  sort := [⟨1, .descending⟩]
  rootKeys := some 1

/-- The key and the time of an event stand behind its payloads. -/
theorem payloads_finish :
    payloads.check = .ok () ∧ payloads.rel.WellFormed ∧ payloads.time.Ranked ∧
      ∃ final manifest, payloads.materialize = .ok (final, manifest) ∧
        final.key.targets = [2] ∧ SortOrder.columns final.sort = [3] ∧
        payloads.Finished final manifest := by
  have hw : payloads.rel.WellFormed := by
    rw [payloads, Rel.WellFormed]
    trivial
  have hr : payloads.time.Ranked := List.pairwise_singleton _ _
  exact ⟨rfl, hw, hr, _, _, rfl, rfl, rfl, (materialize_ends rfl hw hr).1 _ _ rfl⟩

/-- **A ranking without effect is kept** where its columns are gone, and then the
final result fails the check. -/
theorem stale_ranking_is_kept :
    let c := Converter.overRankedTable ⟨[], false, [⟨2, .descending⟩], none, .stream⟩
    ∃ plan final manifest,
      c.convert (.project (.scan (.view 0) "t"
        [⟨"k", .int64, false⟩, ⟨"a", .int64, true⟩, ⟨"s", .int64, true⟩])
        [⟨.column 0, "k", .int64, false⟩] none) = .ok plan ∧
      plan.check = .ok () ∧ plan.rel.WellFormed ∧ plan.time.Ranked ∧
      plan.materialize = .ok (final, manifest) ∧ final.check = .error (.topNOutside 1) := by
  refine ⟨_, _, _, rfl, rfl, ?_, .nil, rfl, rfl⟩
  change Rel.WellFormed (.scan ..)
  rw [Rel.WellFormed]
  trivial

end StreamPlan.Plan
