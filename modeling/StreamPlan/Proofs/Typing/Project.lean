import StreamPlan.Plan.Convert
import StreamPlan.Proofs.Plan.Columns
import StreamPlan.Proofs.Typing.Plan

/-!
# Projections of regular plans

* `Expr.TimeOver`: an expression whose values are times on rows with times in
  some columns.
* `Plan.Regular.project`: outputs over a regular plan, with such outputs as
  timestamps.
* `Plan.Regular.projected`, `keepColumns`, `align`: the plans of projections and
  aligned plans are regular.
-/

namespace StreamPlan

variable {now : Int} {row : Row}

/-- A timestamp column, or a function that keeps the time of one. -/
inductive Expr.TimeOver (times : List Nat) : Expr → Prop
  | column {i : Nat} : i ∈ times → TimeOver times (.column i)
  | call {function : ScalarFunction} {args : List Expr} {i : Nat} :
      function.preservesTime = true → args.head? = some (.column i) → i ∈ times →
      TimeOver times (.call function args)

theorem Expr.TimeOver.isWindow {times : List Nat} {e : Expr} (h : e.TimeOver times) :
    e.isWindow = false := by
  cases h <;> rfl

/-- The only argument of a function that has a value on a row. -/
theorem evalOnly_eq_ok {args : List Expr} {e : Expr} {v : Value} (ha : args.head? = some e)
    (h : evalOnly now row args = .ok v) : args = [e] ∧ evalExpr now row e = .ok v := by
  match args, ha, h with
  | [_], ha, h =>
    cases ha
    rw [evalOnly] at h
    exact ⟨rfl, h⟩
  | _ :: _ :: _, _, h => simp [evalOnly, refuse] at h

/-- The end of a bucket is a time. -/
theorem Bucket.isTime_of_apply {bucket : Bucket} {v w : Value} (h : bucket.apply v = .ok w) :
    w.IsTime := by
  unfold Bucket.apply at h
  split at h
  · obtain ⟨t, -, h⟩ := bind_eq_ok.1 h
    cases h
    exact .inr ⟨t, rfl⟩
  · cases h
    exact .inl rfl

/-- **What keeps a time** has times as values. -/
theorem Expr.TimeOver.isTime {times : List Nat} {e : Expr} {v : Value} (h : e.TimeOver times)
    (ht : ∀ i ∈ times, row.Timed i) (hv : evalExpr now row e = .ok v) : v.IsTime := by
  have hcolumn : ∀ i ∈ times, ∀ w, evalExpr now row (.column i) = .ok w → w.IsTime := by
    intro i hi w hw
    obtain ⟨u, hu, hut⟩ := ht i hi
    rw [evalExpr, hu] at hw
    cases hw
    exact hut
  cases h with
  | column hi => exact hcolumn _ hi v hv
  | @call function args i hp ha hi =>
    rw [evalExpr] at hv
    unfold ScalarFunction.preservesTime at hp
    split at hp
    · rename_i bucket hrole
      rw [hrole] at hv
      obtain ⟨w, -, hv⟩ := bind_eq_ok.1 hv
      exact Bucket.isTime_of_apply hv
    · rename_i hrole
      rw [hrole] at hv
      exact hcolumn i hi v (evalOnly_eq_ok ha hv).2
    · cases hp

variable {catalog : Catalog} {fixture : Fixture} {rel : Rel} {above : List Row}

/-- The rows of a projected tree come from the rows below. -/
theorem rows_of_project {outputs : List Output} {hint : Option RankingHint}
    (h : evaluate fixture (.project rel outputs hint) = .ok above) :
    ∃ rows, evaluate fixture rel = .ok rows ∧
      List.Forall₂ (Projects fixture.now outputs) rows above := by
  rw [evaluate] at h
  obtain ⟨rows, hrows, h⟩ := bind_eq_ok.1 h
  exact ⟨rows, hrows, projects_of_projectRows h⟩

theorem mem_of_project {outputs : List Output} {hint : Option RankingHint}
    (h : evaluate fixture (.project rel outputs hint) = .ok above) (hr : row ∈ above) :
    ∃ rows, evaluate fixture rel = .ok rows ∧ ∃ base ∈ rows, Projects fixture.now outputs base row := by
  obtain ⟨rows, hrows, hf⟩ := rows_of_project h
  obtain ⟨i, hi, rfl⟩ := List.getElem_of_mem hr
  have hi' : i < rows.length := hf.length_eq ▸ hi
  exact ⟨rows, hrows, rows[i], List.getElem_mem hi', (List.forall₂_iff_get.1 hf).2 i hi' hi⟩

/-- A projected row has a value per output. -/
theorem Rel.shaped_project (outputs : List Output) (hint : Option RankingHint) :
    Rel.Shaped fixture (.project rel outputs hint) := by
  intro above ha row hr
  obtain ⟨rows, -, base, -, hp⟩ := mem_of_project ha hr
  rw [hp.length, Rel.width]

/-- A projected row has times where an output keeps one. -/
theorem Projects.timed {outputs : List Output} {out : Row} {times : List Nat} {i : Nat} {o : Output}
    (h : Projects now outputs row out) (ht : ∀ c ∈ times, row.Timed c) (ho : outputs[i]? = some o)
    (he : o.expr.TimeOver times) : out.Timed i := by
  obtain ⟨v, hv, hval⟩ := h.value i o ho he.isWindow
  exact ⟨v, hv, he.isTime ht hval⟩

namespace Plan

variable {plan out : Plan}

/-- **Outputs over a regular plan**, with outputs as timestamps that keep times. -/
theorem Regular.project {outputs : List Output} {hint : Option RankingHint}
    (h : plan.Regular catalog fixture) (hrel : out.rel = .project plan.rel outputs hint)
    (ht : ∀ i ∈ out.time.columns, ∃ o, outputs[i]? = some o ∧ o.expr.TimeOver plan.time.columns)
    (hl : out.lineage = none) (hc : out.time.Coherent)
    (hs : catalog.PullsOne → out.nowFilter = none ∨ out.topN.isEmpty = true) :
    out.Regular catalog fixture := by
  refine ⟨hrel ▸ Rel.shaped_project outputs hint, ?_, ?_, hc, hs⟩
  · intro above ha row hr i hi
    rw [hrel] at ha
    obtain ⟨rows, hrows, base, hbase, hp⟩ := mem_of_project ha hr
    obtain ⟨o, ho, he⟩ := ht i hi
    exact hp.timed (h.timed rows hrows base hbase) ho he
  · intro l hsome
    rw [hl] at hsome
    cases hsome

theorem Regular.picked {columns : List Nat} {outputs : List Output}
    (h : plan.Regular catalog fixture) (ho : plan.picked? columns outputs = .ok (some out)) :
    out.Regular catalog fixture := by
  obtain ⟨targets, rel, select, -, hr, -, rfl⟩ := picked?_eq_ok ho
  exact h.narrow (Rel.Restricted.same.renames (renamed?_renames hr)) (fun _ hi => hi) h.coherent (.inr rfl) h.single

theorem Carries.restricted {moved : Option KeptTime} {below : Plan} {carried : Option NowFilter}
    (h : plan.Carries moved below carried) : plan.rel.Restricted below.rel := by
  cases h with
  | applied _ _ _ hb => exact withoutNowFilter_restricted hb
  | _ => exact .same

/-- A kept time is the output of a function that keeps it. -/
theorem timeOver_of_keptTimes {time : EventTime} {outputs : List Output} {k : KeptTime}
    (h : k ∈ keptTimes time (outputs.map Output.expr)) (appended : List Output) :
    ∃ o, (outputs ++ appended)[k.output]? = some o ∧ o.expr.TimeOver time.columns := by
  obtain ⟨function, args, he, hp, ha, hin, -⟩ := mem_keptTimes h
  rw [List.getElem?_map, Option.map_eq_some_iff] at he
  obtain ⟨o, ho, he⟩ := he
  refine ⟨o, Catalog.getElem?_append_some ho, ?_⟩
  rw [he]
  exact .call hp ha hin

theorem coherent_projectedTime {time out : EventTime} {moved : Option KeptTime}
    {kept : List KeptTime} {position : Nat → Option Nat} (h : time.Coherent)
    (ho : projectedTime time moved kept position = .ok out) : out.Coherent := by
  unfold projectedTime at ho
  split at ho
  · cases ho
    exact EventTime.coherent_single _ _
  · simp only at ho
    split at ho
    · cases ho
      exact h.remap _
    · exact EventTime.coherent_of_addAll (h.remap _) ho

/-- The columns of the event time above a projection. -/
theorem columns_projectedTime {time out : EventTime} {moved : Option KeptTime}
    {kept : List KeptTime} {position : Nat → Option Nat}
    (ho : projectedTime time moved kept position = .ok out) :
    ∀ i ∈ out.columns, (∃ c ∈ time.columns, position c = some i) ∨
      ∃ k, (k ∈ kept ∨ moved = some k) ∧ k.output = i := by
  unfold projectedTime at ho
  intro i hi
  split at ho
  · rename_i k
    cases ho
    rw [EventTime.columns_single, List.mem_singleton] at hi
    exact .inr ⟨k, .inr rfl, hi.symm⟩
  · simp only at ho
    split at ho
    · cases ho
      rw [EventTime.columns_remap, List.mem_filterMap] at hi
      exact .inl hi
    · rcases ((EventTime.addAll_columns ho).1 i).1 hi with hi | hi
      · rw [EventTime.columns_remap, List.mem_filterMap] at hi
        exact .inl hi
      · rw [List.map_map, List.mem_map] at hi
        obtain ⟨k, hk, rfl⟩ := hi
        exact .inr ⟨k, .inl hk, rfl⟩

/-- Outputs above a plan whose ranking applies. -/
theorem Regular.projectedTo {outputs : List Output} (h : plan.Regular catalog fixture)
    (hempty : plan.topN.isEmpty = true) (ho : plan.projectedTo outputs = .ok out) :
    out.Regular catalog fixture := by
  unfold Plan.projectedTo at ho
  simp only at ho
  generalize hmoved : movedTime? plan.time (keptTimes plan.time (outputs.map Output.expr)) = moved
    at ho
  obtain ⟨⟨below, carried⟩, hcarry, ho⟩ := bind_eq_ok.1 ho
  have hcarry := carryNowFilter_eq_ok hcarry
  obtain ⟨hs, htopN, -⟩ := hcarry.settled
  have hb := h.settled hs hcarry.restricted
  have hkept : ∀ k, (k ∈ keptTimes plan.time (outputs.map Output.expr) ∨ moved = some k) →
      k ∈ keptTimes below.time (outputs.map Output.expr) := by
    intro k hk
    rw [hs.time]
    rcases hk with hk | rfl
    · exact hk
    · exact (movedTime?_eq_some hmoved).2.1
  obtain ⟨appended, time, key, select, happended, htime, -, -, rfl⟩ := withOutputs_eq_ok ho
  refine hb.project rfl ?_ rfl (coherent_projectedTime hb.coherent htime) fun _ => .inr (htopN ▸ hempty)
  intro i hi
  rcases columns_projectedTime htime i hi with ⟨c, hc, hplace⟩ | ⟨k, hk, rfl⟩
  · obtain ⟨o, hoi, he⟩ := expr_of_placeOf happended hplace
    exact ⟨o, hoi, he ▸ .column hc⟩
  · exact timeOver_of_keptTimes (hkept k hk) appended

theorem Regular.computed {outputs : List Output} (h : plan.Regular catalog fixture)
    (ho : plan.computed outputs = .ok out) : out.Regular catalog fixture := by
  unfold Plan.computed at ho
  obtain ⟨base, hbase, ho⟩ := bind_eq_ok.1 ho
  obtain ⟨moved, -, ho⟩ := bind_eq_ok.1 ho
  obtain ⟨needs, -, ho⟩ := bind_eq_ok.1 ho
  have hb := h.withoutTopN hbase
  have hneeds : Regular catalog fixture { base with needs } :=
    hb.narrow .same (fun _ hi => hi) hb.coherent (.inr rfl) hb.single
  exact hneeds.projectedTo (withoutTopN_settled hbase).2.1 ho

/-- **The plan of a projection** is regular. -/
theorem Regular.projected {bare : Option (List Nat)} {outputs : List Output}
    (h : plan.Regular catalog fixture) (ho : Converter.projected plan bare outputs = .ok out) :
    out.Regular catalog fixture := by
  unfold Converter.projected at ho
  split at ho
  · exact h.computed ho
  · obtain ⟨picked, hpicked, ho⟩ := bind_eq_ok.1 ho
    rcases picked with _ | picked
    · exact h.computed ho
    · cases ho
      exact h.picked (lift_eq_ok.1 hpicked)

/-- An output at the position of a kept column is that column. -/
theorem expr_of_position {outputs : List Output} {columns : List Nat} {c j : Nat}
    (ho : outputs.map Output.expr = columns.map Expr.column)
    (h : Selection.position? columns c = some j) :
    ∃ o, outputs[j]? = some o ∧ o.expr = .column c := by
  have hc := find_position h
  have he : (outputs.map Output.expr)[j]? = some (.column c) := by
    rw [ho, List.getElem?_map, hc]
    rfl
  rwa [List.getElem?_map, Option.map_eq_some_iff] at he

theorem Regular.keepColumns {columns : List Nat} {visible : Nat} (h : plan.Regular catalog fixture)
    (ho : plan.keepColumns columns visible = .ok out) : out.Regular catalog fixture := by
  obtain ⟨outputs, key, select, houtputs, -, -, rfl⟩ := keepColumns_eq_ok ho
  refine h.project rfl ?_ rfl (h.coherent.remap _) h.single
  intro i hi
  change i ∈ (plan.time.remap _).columns at hi
  rw [EventTime.columns_remap, List.mem_filterMap] at hi
  obtain ⟨c, hc, hp⟩ := hi
  obtain ⟨o, hoi, he⟩ := expr_of_position houtputs hp
  exact ⟨o, hoi, he ▸ .column hc⟩

/-- **An aligned plan** is regular. -/
theorem Regular.align (h : plan.Regular catalog fixture) (ho : plan.align = .ok out) :
    out.Regular catalog fixture := by
  unfold Plan.align at ho
  obtain ⟨base, hbase, ho⟩ := bind_eq_ok.1 ho
  have hb := h.settle hbase
  simp only at ho
  split at ho
  · cases ho
    exact hb
  · exact hb.keepColumns (lift_eq_ok.1 ho)

end Plan

end StreamPlan
