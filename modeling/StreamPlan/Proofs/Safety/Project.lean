import StreamPlan.Plan.Convert
import StreamPlan.Proofs.Plan.Project
import StreamPlan.Proofs.Safety.WellFormed

/-!
# Projections do not fault

Over a well-formed plan and columns that exist, the plan of a projection of
bare columns (`Plan.picked?_gives`) is well formed, and that of any other is a
draft: a stale ranking stays as it was (`Plan.computed_safe`).
-/

namespace StreamPlan

namespace Plan

variable {catalog : Catalog} {n : Nat} {allowed : Fault → Prop} {plan : Plan}

/-- Visible columns stand for columns of the tree. -/
theorem WellFormed.columns_gives (h : plan.WellFormed catalog n) {columns : List Nat}
    (hc : ∀ c ∈ columns, c < plan.select.sources) :
    Gives (columns.mapM plan.select.apply) fun targets =>
      (∀ t ∈ targets, t < plan.width) ∧ targets.length = columns.length :=
  StreamPlan.columns_gives fun c hcol => h.apply_gives (hc c hcol)

/-- The same plan over a tree with other column names is as well formed. -/
theorem WellFormed.renamed (h : plan.WellFormed catalog n) {rel : Rel} (hr : Renames plan.rel rel) :
    ({ plan with rel } : Plan).WellFormed catalog n := by
  have hw : ({ plan with rel } : Plan).width = plan.width := hr.width
  refine ⟨⟨?_, ?_, h.stateTime, h.stateNowFilter, ?_, h.nowFilter, ?_, ?_⟩, hr.fields h.fields,
    h.rootKeys, ?_, h.interval, h.stale⟩
  · rw [hw]; exact h.key
  · rw [hw]; exact h.select
  · rw [hw]; exact h.time
  · rw [hw]; exact h.sort
  · rw [hw]; exact h.topN
  · rw [hw]; exact h.lineage

/-- The same plan showing other columns is as well formed. -/
theorem WellFormed.withSelect (h : plan.WellFormed catalog n) {select : ColumnMap}
    (hs : select.width = plan.width) : ({ plan with select } : Plan).WellFormed catalog n :=
  ⟨⟨h.key, hs, h.stateTime, h.stateNowFilter, h.time, h.nowFilter, h.sort, h.topN⟩, h.fields,
    h.rootKeys, h.lineage, h.interval, h.stale⟩

/-- **The plan of a projection of bare columns**, unless one gets two names. -/
theorem picked?_gives {columns : List Nat} {outputs : List Output} (h : plan.WellFormed catalog n)
    (hc : ∀ c ∈ columns, c < plan.select.sources) :
    Gives (plan.picked? columns outputs) fun o => ∀ out, o = some out →
      out.WellFormed catalog n ∧ out.select.sources = columns.length := by
  unfold picked?
  refine (h.columns_gives hc).bind fun targets ⟨hlt, hlen⟩ => ?_
  refine (renamed?_gives h.fields hlt).bind fun o ho => ?_
  rcases o with _ | rel
  · exact .ok (by rintro _ ⟨⟩)
  · refine (ColumnMap.of_gives hlt).bind fun select ⟨hts, hw⟩ => ?_
    refine .ok ?_
    rintro out ⟨⟩
    have hr := ho rel rfl
    refine ⟨(h.renamed hr).withSelect (hw.trans hr.width.symm), ?_⟩
    rw [ColumnMap.sources, hts, hlen]

/-- What is carried over a projection that moves the timestamp to an output. -/
theorem carryNowFilter_safe {moved : Option KeptTime} {m : Nat} (h : plan.WellFormed catalog n)
    (hm : ∀ k bucket, moved = some k → k.bucket = some bucket → n + bucket.width.natAbs ≤ m)
    (hn : n ≤ m) (hl : Millis.greatest < m → allowed .arithmeticOverflow) :
    Safe allowed (plan.carryNowFilter moved) fun out =>
      plan.Settled out.1 ∧ out.1.topN = plan.topN ∧ out.1.nowFilter = none ∧
        ∀ f, out.2 = some f → f.interval.natAbs ≤ m ∧
          (moved = none → plan.nowFilter = some f) ∧ ∀ k, moved = some k → f.timestamp = k.output := by
  have hnone : plan.Settled { plan with nowFilter := none } :=
    ⟨rfl, rfl, rfl, rfl, rfl, rfl, rfl, rfl, rfl, rfl, .inl rfl, .inr rfl⟩
  unfold carryNowFilter
  split
  · rename_i kept filter hf
    split
    · rename_i bucket hb
      have hi := h.interval filter hf
      have hspan := hm kept bucket rfl hb
      have hwide : Bounded allowed
          (NowFilter.widen { filter with timestamp := kept.output } bucket.width) fun out =>
            out.timestamp = kept.output ∧ out.interval.natAbs ≤ m :=
        NowFilter.widen_bounded (by simp only; omega) hl
      refine (Safe.lift hwide).bind fun wide ⟨hts, hw⟩ => ?_
      refine .ok ⟨hnone, rfl, rfl, ?_⟩
      rintro f ⟨⟩
      refine ⟨hw, by rintro ⟨⟩, ?_⟩
      rintro k ⟨⟩
      exact hts
    · refine plan.withoutNowFilter_safe.bind fun out ⟨hs, hnf, htn⟩ => ?_
      exact .ok ⟨hs, htn, hnf, by rintro f ⟨⟩⟩
  · rename_i hne
    refine .ok ⟨hnone, rfl, rfl, fun f hf => ⟨Nat.le_trans (h.interval f hf) hn, fun _ => hf, ?_⟩⟩
    rintro k rfl
    exact absurd hf (hne k f rfl)

theorem projectedTime_columns {time out : EventTime} {moved : Option KeptTime}
    {kept : List KeptTime} {position : Nat → Option Nat}
    (h : projectedTime time moved kept position = .ok out) :
    (∀ k, moved = some k → out.columns = [k.output]) ∧
      (moved = none → (∀ x ∈ time.columns.filterMap position, x ∈ out.columns) ∧
        ∀ x ∈ out.columns, x ∈ time.columns.filterMap position ∨ x ∈ kept.map KeptTime.output) := by
  unfold projectedTime at h
  split at h
  · rename_i k
    cases h
    exact ⟨by rintro _ ⟨⟩; rfl, by rintro ⟨⟩⟩
  · refine ⟨by rintro _ ⟨⟩, fun _ => ?_⟩
    simp only at h
    split at h
    · cases h
      rw [EventTime.columns_remap]
      exact ⟨fun x hx => hx, fun x hx => .inl hx⟩
    · obtain ⟨hmem, -⟩ := EventTime.addAll_columns h
      rw [EventTime.columns_remap, List.map_map] at hmem
      exact ⟨fun x hx => (hmem x).2 (.inl hx), fun x hx => (hmem x).1 hx⟩

theorem projectedTime_gives (time : EventTime) (moved : Option KeptTime) (kept : List KeptTime)
    (position : Nat → Option Nat) : Gives (projectedTime time moved kept position) fun _ => True := by
  unfold projectedTime
  split
  · exact .ok trivial
  · simp only
    split
    · exact .ok trivial
    · rename_i hf
      exact (EventTime.addAll_gives (by simpa using hf)).mono fun _ _ => trivial

/-- The widths of the buckets that outputs make are among what the outputs mention. -/
theorem width_le_span {exprs : List Expr} {time : EventTime} {k : KeptTime} {bucket : Bucket}
    (h : k ∈ keptTimes time exprs) (hb : k.bucket = some bucket) :
    bucket.width.natAbs ≤ Expr.spanOfAll exprs := by
  obtain ⟨function, args, he, -, -, -, hbucket⟩ := mem_keptTimes h
  have h1 := Expr.span_le_spanOfAll (List.mem_of_getElem? he)
  have h2 : function.span = bucket.width.natAbs := by
    rw [ScalarFunction.span, ← hbucket, hb]
  rw [Expr.span] at h1
  omega

/-- Outputs over columns that exist, moved to the columns of the tree. -/
theorem outputs_gives {outputs : List Output} (h : plan.WellFormed catalog n)
    (ho : ∀ o ∈ outputs, ∀ i ∈ o.expr.references, i < plan.select.sources) :
    Gives (outputs.mapM (·.remap plan.select.apply)) fun moved =>
      moved.length = outputs.length ∧
        Expr.spanOfAll (moved.map Output.expr) = Expr.spanOfAll (outputs.map Output.expr) := by
  have hstep : Gives (outputs.mapM (·.remap plan.select.apply))
      (List.Forall₂ (fun (o m : Output) => m.expr.span = o.expr.span) outputs) := by
    refine Gives.mapM fun o hmem => ?_
    refine Gives.bind (Expr.remap_gives (P := (· < plan.width)) fun i hi => ?_) fun e he => .ok he.2
    exact h.apply_gives (ho o hmem i hi)
  refine hstep.mono fun moved hf => ⟨hf.length_eq.symm, ?_⟩
  clear hstep ho
  induction hf with
  | nil => rfl
  | cons hom _ ih => simp only [List.map_cons, Expr.spanOfAll, hom, ih]

/-- The columns that a projection keeps are columns of the tree. -/
theorem WellFormed.hiddenColumns_lt (h : plan.WellFormed catalog n) {moved : Option KeptTime} :
    ∀ c ∈ plan.hiddenColumns moved, c < plan.width := by
  intro c hc
  rcases List.mem_append.1 hc with hc | hc
  · rcases List.mem_append.1 hc with hc | hc
    · exact h.key_lt c hc
    · split at hc
      · exact h.time c hc
      · cases hc
  · exact h.sort c hc

/-- The columns to append are there. -/
theorem WellFormed.appended_gives (h : plan.WellFormed catalog n) {moved : Option KeptTime}
    {shown : List (Nat × Nat)} {fields : Fields} (hf : fields.length = plan.width) :
    Gives ((missingColumns shown (plan.hiddenColumns moved)).mapM (Output.column · fields))
      fun out => out.length = (missingColumns shown (plan.hiddenColumns moved)).length := by
  refine (Gives.mapM (R := fun _ _ => True) fun c hc => ?_).mono fun out hall =>
    hall.length_eq.symm
  have hlt := h.hiddenColumns_lt c (mem_missingColumns.1 hc).1
  exact (Gives.itemAt (hf ▸ hlt)).bind fun _ _ => .ok trivial

/-- A kept time is at an output and comes from a candidate. -/
theorem lt_of_mem_keptTimes {time : EventTime} {exprs : List Expr} {k : KeptTime}
    (h : k ∈ keptTimes time exprs) : k.output < exprs.length ∧ k.input ∈ time.columns := by
  obtain ⟨function, args, he, -, -, hin, -⟩ := mem_keptTimes h
  exact ⟨(List.getElem?_eq_some_iff.1 he).1, hin⟩

/-- Columns of a plan above a projection: whatever the projection keeps has a place,
and every place is in the row. -/
structure Placed (plan : Plan) (moved : Option KeptTime) (width : Nat)
    (position : Nat → Option Nat) : Prop where
  hidden : ∀ c ∈ plan.hiddenColumns moved, ∃ j, position c = some j
  lt : ∀ c j, position c = some j → j < width

/-- The outputs and the columns appended to them place what the projection keeps. -/
theorem placed_places {exprs : List Expr} {moved : Option KeptTime} {missing : List Nat}
    (hm : missingColumns (shownColumns exprs) (plan.hiddenColumns moved) = missing) :
    plan.Placed moved (exprs.length + missing.length) fun column =>
      (places (shownColumns exprs) missing exprs.length).lookup column where
  hidden _ hc := hm ▸ lookup_places_of_hidden hc
  lt _ _ hj := lookup_places_lt hj

section Carried

variable {moved : Option KeptTime} {kept : List KeptTime} {width : Nat}
  {position : Nat → Option Nat} {time : EventTime}

/-- The key moves with its columns. -/
theorem Placed.key (hp : plan.Placed moved width position) :
    ∀ i ∈ plan.key.targets, ∃ j, position i = some j ∧ j < width := by
  intro i hi
  obtain ⟨j, hj⟩ := hp.hidden i (List.mem_append_left _ (List.mem_append_left _ hi))
  exact ⟨j, hj, hp.lt i j hj⟩

/-- The sort order moves with its columns. -/
theorem Placed.sort_lt (hp : plan.Placed moved width position) :
    ∀ i ∈ SortOrder.columns (SortOrder.moved plan.sort position), i < width := by
  intro i hi
  rw [SortOrder.columns_moved] at hi
  obtain ⟨c, hc, rfl⟩ := List.mem_map.1 hi
  obtain ⟨j, hj⟩ := hp.hidden c (List.mem_append_right _ hc)
  rw [hj]
  exact hp.lt c j hj

/-- Where the candidates above a projection come from: the timestamp that moved, a
candidate in its place, or an output that keeps a time. -/
theorem mem_projectedTime (h : projectedTime plan.time moved kept position = .ok time) {x : Nat}
    (hx : x ∈ time.columns) (hmoved : ∀ k, moved = some k → k ∈ kept) :
    (∃ c ∈ plan.time.columns, position c = some x) ∨ ∃ k ∈ kept, k.output = x := by
  obtain ⟨hsome, hnone⟩ := projectedTime_columns h
  cases hm : moved with
  | some k =>
    rw [hsome k hm, List.mem_singleton] at hx
    exact .inr ⟨k, hmoved k hm, hx.symm⟩
  | none =>
    rcases (hnone hm).2 x hx with hx | hx
    · exact .inl (List.mem_filterMap.1 hx)
    · exact .inr (List.mem_map.1 hx)

/-- **A now-filter above a projection** stays on a candidate, and its interval within
what the query mentions. -/
theorem carried_nowFilter {nowFilter : Option NowFilter}
    (h : projectedTime plan.time moved kept position = .ok time)
    (hfilter : ∀ f, nowFilter = some f → f.interval.natAbs ≤ n ∧
      (moved = none → f.timestamp ∈ plan.time.columns) ∧ ∀ k, moved = some k → f.timestamp = k.output)
    {f : NowFilter}
    (hf : (if moved.isSome then nowFilter else nowFilter.bind (·.remap position)) = some f) :
    f.interval.natAbs ≤ n ∧ f.timestamp ∈ time.columns := by
  obtain ⟨hsome, hnone⟩ := projectedTime_columns h
  cases hm : moved with
  | some k =>
    rw [hm] at hf
    obtain ⟨hi, -, hts⟩ := hfilter f hf
    rw [hsome k hm, hts k hm]
    exact ⟨hi, List.mem_cons_self⟩
  | none =>
    rw [hm] at hf
    obtain ⟨g, hg, hf⟩ := Option.bind_eq_some_iff.1 hf
    obtain ⟨p, hp, rfl⟩ := Option.map_eq_some_iff.1 hf
    obtain ⟨hi, hts, -⟩ := hfilter g hg
    exact ⟨hi, (hnone hm).1 p (List.mem_filterMap.2 ⟨_, hts hm, hp⟩)⟩

end Carried

/-- Outputs above a plan whose now-filter is carried over them. -/
theorem withOutputs_safe {outputs : List Output} {moved : Option KeptTime}
    {nowFilter : Option NowFilter} (h : plan.WellFormed catalog n)
    (htopN : plan.topN.isEmpty = true) (hc : outputs.length < Position.countLimit)
    (hmoved : ∀ k, moved = some k → k ∈ keptTimes plan.time (outputs.map Output.expr))
    (hfilter : ∀ f, nowFilter = some f → f.interval.natAbs ≤ n ∧
      (moved = none → f.timestamp ∈ plan.time.columns) ∧ ∀ k, moved = some k → f.timestamp = k.output) :
    Safe allowed (plan.withOutputs outputs (keptTimes plan.time (outputs.map Output.expr)) moved
      nowFilter) fun out => out.Draft catalog n ∧ out.select.sources = outputs.length := by
  unfold withOutputs
  generalize hexprs : outputs.map Output.expr = exprs at hmoved ⊢
  have hlen : exprs.length = outputs.length := by rw [← hexprs, List.length_map]
  refine (Safe.lift h.fields_gives.bounded).bind fun fields hfields => ?_
  refine (Safe.orFault (h.appended_gives hfields).bounded).bind fun appended happended => ?_
  generalize hmissing : missingColumns (shownColumns exprs) (plan.hiddenColumns moved) = missing
    at happended ⊢
  have hwidth : (Rel.project plan.rel (outputs ++ appended) none).width
      = outputs.length + missing.length := by
    rw [Rel.width, List.length_append, happended]
  have hplaced := placed_places hmissing
  rw [hlen] at hplaced
  simp only
  generalize (fun column => (places (shownColumns exprs) missing outputs.length).lookup column)
    = position at hplaced ⊢
  obtain ⟨time, htime, -⟩ := projectedTime_gives plan.time moved (keptTimes plan.time exprs) position
  rw [htime, lift_ok, ok_bind]
  refine (Safe.lift (movedKey_gives hplaced.key).bounded).bind fun key ⟨hkey, hkw⟩ => ?_
  refine (Safe.lift (ColumnMap.identityInto_gives (Nat.le_add_right _ _) hc).bounded).bind
    fun select ⟨hsts, hsw⟩ => ?_
  have hcandidates : ∀ x ∈ time.columns, x < outputs.length + missing.length := by
    intro x hx
    rcases mem_projectedTime htime hx hmoved with ⟨c, -, hc⟩ | ⟨k, hk, rfl⟩
    · exact hplaced.lt c x hc
    · have := (lt_of_mem_keptTimes hk).1
      omega
  -- without candidates below, no output keeps the time of one
  have hstate : plan.kind = .state → time.columns = [] := by
    intro hk
    refine List.eq_nil_iff_forall_not_mem.2 fun x hx => ?_
    have hno : ∀ c, c ∉ plan.time.columns := by simp [h.stateTime hk]
    rcases mem_projectedTime htime hx hmoved with ⟨c, hc, -⟩ | ⟨k, hk, -⟩
    · exact hno c hc
    · exact hno _ (lt_of_mem_keptTimes hk).2
  have hnow := fun f => carried_nowFilter (f := f) htime hfilter
  refine .ok ⟨⟨⟨⟨?_, ?_, ?_, ?_, ?_, ?_, ?_, ?_⟩, ?_, ?_, ?_, ?_, ?_⟩, h.stale⟩, ?_⟩
  · exact hkw.trans hwidth.symm
  · exact hsw.trans hwidth.symm
  · exact hstate
  · intro hk
    refine Option.eq_none_iff_forall_ne_some.2 fun f hf => ?_
    have hts := (hnow f hf).2
    rw [hstate hk] at hts
    cases hts
  · exact fun i hi => Nat.lt_of_lt_of_eq (hcandidates i hi) hwidth.symm
  · exact fun f hf => (hnow f hf).2
  · exact fun i hi => Nat.lt_of_lt_of_eq (hplaced.sort_lt i hi) hwidth.symm
  · intro i hi
    simp only [cleared, htopN, if_true] at hi
    cases hi
  · exact ⟨_, by rw [cleared, Rel.fields]⟩
  · intro hk k hr
    change k ≤ key.sources
    rw [ColumnMap.sources, ← hkey.length_eq]
    exact h.rootKeys hk k hr
  · rintro l ⟨⟩
  · exact fun f hf => (hnow f hf).1
  · intro hst
    simp only [cleared, htopN, if_true] at hst
    exact absurd rfl hst.2
  · change select.sources = outputs.length
    rw [ColumnMap.sources, hsts, List.length_range]

/-- The timestamp that outputs move, if they move one. -/
def movedBy (plan : Plan) (outputs : List Output) : Option KeptTime :=
  movedTime? plan.time (keptTimes plan.time (outputs.map Output.expr))

/-- A bucket that outputs move the timestamp to is among what they mention. -/
theorem width_le_of_movedBy {outputs : List Output} {k : KeptTime} {bucket : Bucket}
    (hk : plan.movedBy outputs = some k) (hb : k.bucket = some bucket) :
    bucket.width.natAbs ≤ Expr.spanOfAll (outputs.map Output.expr) :=
  width_le_span (movedTime?_eq_some hk).2.1 hb

/-- Outputs above a plan whose ranking applies, once its now-filter is carried over them. -/
theorem withOutputs_carried_safe {outputs : List Output} {m : Nat} {below : Plan}
    {nowFilter : Option NowFilter} (h : plan.WellFormed catalog n) (hn : n ≤ m)
    (htopN : plan.topN.isEmpty = true) (hc : outputs.length < Position.countLimit)
    (hs : plan.Settled below) (ht : below.topN = plan.topN)
    (hfilter : ∀ f, nowFilter = some f → f.interval.natAbs ≤ m ∧
      (plan.movedBy outputs = none → plan.nowFilter = some f) ∧
        ∀ k, plan.movedBy outputs = some k → f.timestamp = k.output) :
    Safe allowed (below.withOutputs outputs (keptTimes plan.time (outputs.map Output.expr))
      (plan.movedBy outputs) nowFilter) fun out =>
        out.Draft catalog m ∧ out.select.sources = outputs.length := by
  have hb := hs.wellFormed (h.mono hn)
  have hmem : ∀ k, plan.movedBy outputs = some k →
      k ∈ keptTimes below.time (outputs.map Output.expr) :=
    fun k hk => hs.time ▸ (movedTime?_eq_some hk).2.1
  rw [show plan.time = below.time from hs.time.symm]
  refine withOutputs_safe hb (ht ▸ htopN) hc hmem fun f hf => ?_
  obtain ⟨hi, hfn, hfs⟩ := hfilter f hf
  exact ⟨hi, fun hmn => hs.time ▸ h.nowFilter f (hfn hmn), hfs⟩

/-- Outputs above a plan whose ranking applies. -/
theorem projectedTo_safe {outputs : List Output} {m : Nat} (h : plan.WellFormed catalog n)
    (htopN : plan.topN.isEmpty = true) (hc : outputs.length < Position.countLimit)
    (hm : n + Expr.spanOfAll (outputs.map Output.expr) ≤ m)
    (hl : Millis.greatest < m → allowed .arithmeticOverflow) :
    Safe allowed (plan.projectedTo outputs) fun out =>
      out.Draft catalog m ∧ out.select.sources = outputs.length := by
  have hbucket : ∀ k bucket, plan.movedBy outputs = some k → k.bucket = some bucket →
      n + bucket.width.natAbs ≤ m := by
    intro k bucket hk hb
    have := width_le_of_movedBy hk hb
    omega
  have hn : n ≤ m := by omega
  refine (carryNowFilter_safe h hbucket hn hl).bind fun ⟨below, nowFilter⟩ hcarried => ?_
  obtain ⟨hs, ht, -, hfilter⟩ := hcarried
  exact withOutputs_carried_safe h hn htopN hc hs ht hfilter

/-- **The plan of a computed projection** over columns that exist. -/
theorem computed_safe {outputs : List Output} (h : plan.WellFormed catalog n)
    (ho : ∀ o ∈ outputs, ∀ i ∈ o.expr.references, i < plan.select.sources)
    (hc : outputs.length < Position.countLimit)
    (hl : Millis.greatest < n + Expr.spanOfAll (outputs.map Output.expr) →
      allowed .arithmeticOverflow) :
    Safe allowed (plan.computed outputs) fun out =>
      out.Draft catalog (n + Expr.spanOfAll (outputs.map Output.expr)) ∧
        out.select.sources = outputs.length := by
  unfold computed
  refine plan.withoutTopN_safe.bind fun base ⟨hs, hempty, hnow⟩ => ?_
  have hb := hs.wellFormed h
  have hobase : ∀ o ∈ outputs, ∀ i ∈ o.expr.references, i < base.select.sources := by
    rw [hs.select]; exact ho
  refine (Safe.orFault (outputs_gives hb hobase).bounded).bind fun moved ⟨hlen, hspan⟩ => ?_
  refine (Safe.needing fun needs _ => trivial).bind fun needs _ => ?_
  rw [← hlen]
  exact projectedTo_safe (hb.withNeeds needs) hempty (hlen ▸ hc) (by omega) hl

end Plan

/-- **The plan of a projection** over columns that exist, of which `bare` are
the columns it shows if it shows nothing else. -/
theorem Converter.projected_safe {catalog : Catalog} {n : Nat} {allowed : Fault → Prop} {plan : Plan}
    {outputs : List Output} {bare : Option (List Nat)} (h : plan.WellFormed catalog n)
    (hb : ∀ columns, bare = some columns →
      columns.length = outputs.length ∧ ∀ c ∈ columns, c < plan.select.sources)
    (ho : ∀ o ∈ outputs, ∀ i ∈ o.expr.references, i < plan.select.sources)
    (hc : outputs.length < Position.countLimit)
    (hl : Millis.greatest < n + Expr.spanOfAll (outputs.map Output.expr) →
      allowed .arithmeticOverflow) :
    Safe allowed (Converter.projected plan bare outputs) fun out =>
      out.Draft catalog (n + Expr.spanOfAll (outputs.map Output.expr)) ∧
        out.select.sources = outputs.length := by
  unfold Converter.projected
  split
  · exact Plan.computed_safe h ho hc hl
  · rename_i columns
    obtain ⟨hlen, hlt⟩ := hb columns rfl
    refine (Safe.lift (Plan.picked?_gives h hlt).bounded).bind fun o hpicked => ?_
    rcases o with _ | picked
    · exact Plan.computed_safe h ho hc hl
    · obtain ⟨hw, hsel⟩ := hpicked picked rfl
      exact .ok ⟨(hw.mono (Nat.le_add_right _ _)).draft, hsel.trans hlen⟩

end StreamPlan
