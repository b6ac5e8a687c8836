import StreamPlan.Plan.Project
import StreamPlan.Proofs.Lineage
import StreamPlan.Proofs.Plan.Sound
import StreamPlan.Proofs.Query.Rel

/-!
# What projections are made of

* `Renames`: a tree with some of its columns under other names
  (`renamed?_renames`).
* `GivenNames`, `namesGiven_given`: the names that outputs give, one to each column
  that is shown.
* `lookup_places`: a column that has a place above a projection is shown there.
* `lookup_places_of_hidden`: every column that a projection keeps has a place.
* `mem_keptTimes`, `movedTime?_eq_some`: outputs that keep the time of a
  candidate.
* `picked?_eq_ok`, `carryNowFilter_eq_ok`, `withOutputs_eq_ok`, `computed_eq_ok`: the
  plans that the steps of a projection give.
-/

namespace StreamPlan

namespace Output

variable {position : Nat} {name : String} {fields : Fields} {output : Output}

theorem expr_of_column (h : column position fields = .ok output) :
    output.expr = .column position := by
  obtain ⟨field, -, h⟩ := bind_eq_ok.1 h
  cases h; rfl

theorem expr_of_renamed (h : renamed position name fields = .ok output) :
    output.expr = .column position := by
  obtain ⟨field, -, h⟩ := bind_eq_ok.1 h
  cases h; rfl

theorem field_of_column (h : column position fields = .ok output) :
    fields[position]? = some output.field := by
  obtain ⟨field, hfield, h⟩ := bind_eq_ok.1 h
  cases h
  exact itemAt_eq_ok.1 hfield

theorem field_of_renamed (h : renamed position name fields = .ok output) :
    ∃ field, fields[position]? = some field ∧ output.field = field.withName name := by
  obtain ⟨field, hfield, h⟩ := bind_eq_ok.1 h
  cases h
  exact ⟨field, itemAt_eq_ok.1 hfield, rfl⟩

end Output

namespace Plan

theorem bareColumns_eq_some {width : Nat} {outputs : List Output} {columns : List Nat} :
    bareColumns width outputs = some columns ↔
      List.Forall₂ (fun o c => o.expr = .column c ∧ c < width) outputs columns := by
  unfold bareColumns
  rw [mapM_eq_some]
  constructor <;> intro h <;> refine h.imp fun o c hc => ?_
  · obtain ⟨hcol, hlt⟩ := Option.filter_eq_some_iff.1 hc
    cases he : o.expr with
    | column i =>
      rw [he] at hcol
      cases hcol
      exact ⟨rfl, by simpa using hlt⟩
    | _ => rw [he] at hcol; cases hcol
  · rw [hc.1]
    exact Option.filter_eq_some_iff.2 ⟨rfl, by simpa using hc.2⟩

/-- A tree under other column names: every column is where it was. -/
inductive Renames (rel : Rel) : Rel → Prop
  | same : Renames rel rel
  | project {outputs : List Output} :
      outputs.map Output.expr = (List.range rel.width).map Expr.column →
      Renames rel (.project rel outputs none)

theorem Renames.width {rel out : Rel} (h : Renames rel out) : out.width = rel.width := by
  cases h with
  | same => rfl
  | project ho =>
    rw [Rel.width]
    simpa using congrArg List.length ho

theorem Renames.fields {rel out : Rel} (h : Renames rel out) (hf : ∃ fs, rel.fields = .ok fs) :
    ∃ fs, out.fields = .ok fs := by
  cases h with
  | same => exact hf
  | project => exact ⟨_, by rw [Rel.fields]⟩

theorem renameColumns_renames {rel out : Rel} {names : List (Nat × String)}
    (h : renameColumns rel names = .ok out) : Renames rel out := by
  unfold renameColumns at h
  split at h
  · cases h; exact .same
  · obtain ⟨fields, hf, h⟩ := bind_eq_ok.1 h
    obtain ⟨outputs, ho, h⟩ := bind_eq_ok.1 h
    cases h
    refine .project ?_
    rw [← Rel.length_of_fields hf]
    refine map_of_mapM_eq_ok (fun column output hout => ?_) ho
    split at hout
    · exact Output.expr_of_renamed hout
    · exact Output.expr_of_column hout

theorem renamed?_renames {rel out : Rel} {columns : List Nat} {outputs : List Output}
    (h : renamed? rel columns outputs = .ok (some out)) : Renames rel out := by
  unfold renamed? at h
  obtain ⟨fields, -, h⟩ := bind_eq_ok.1 h
  split at h
  · cases h
  · obtain ⟨names, -, h⟩ := bind_eq_ok.1 h
    obtain ⟨r, hr, h⟩ := bind_eq_ok.1 h
    cases h
    exact renameColumns_renames hr

/-- The names that outputs give to columns: one to each, and to no other column. -/
structure GivenNames (pairs : List (Nat × Output)) (names : List (Nat × String)) : Prop where
  lookup : ∀ pair ∈ pairs, names.lookup pair.1 = some pair.2.field.name
  once : ∀ p ∈ names, names.lookup p.1 = some p.2
  given : ∀ p ∈ names, ∃ pair ∈ pairs, pair.1 = p.1 ∧ pair.2.field.name = p.2

/-- One more output gives its name, or has the name that its column was given. -/
theorem GivenNames.addName {pairs : List (Nat × Output)} {pair : Nat × Output}
    {names next : List (Nat × String)}
    (h : GivenNames pairs names) (hadd : Plan.addName names pair.1 pair.2.field.name = some next) :
    GivenNames (pairs ++ [pair]) next := by
  have hmore : ∀ p ∈ names, ∃ q ∈ pairs ++ [pair], q.1 = p.1 ∧ q.2.field.name = p.2 := by
    intro p hp
    obtain ⟨q, hq, hqp⟩ := h.given p hp
    exact ⟨q, List.mem_append_left _ hq, hqp⟩
  unfold Plan.addName at hadd
  split at hadd
  · rename_i hnew
    cases hadd
    have hlast := lookup_concat (b := pair.2.field.name) hnew
    refine ⟨fun q hq => ?_, fun p hp => ?_, fun p hp => ?_⟩
    · rcases List.mem_append.1 hq with hq | hq
      · exact lookup_append_some (h.lookup q hq)
      · rw [List.mem_singleton.1 hq]
        exact hlast
    · rcases List.mem_append.1 hp with hp | hp
      · exact lookup_append_some (h.once p hp)
      · rw [List.mem_singleton.1 hp]
        exact hlast
    · rcases List.mem_append.1 hp with hp | hp
      · exact hmore p hp
      · rw [List.mem_singleton.1 hp]
        exact ⟨pair, List.mem_append_right _ List.mem_cons_self, rfl, rfl⟩
  · rename_i other hother
    split at hadd
    · rename_i hsame
      cases hadd
      refine ⟨fun q hq => ?_, h.once, hmore⟩
      rcases List.mem_append.1 hq with hq | hq
      · exact h.lookup q hq
      · rw [List.mem_singleton.1 hq, hother, hsame]
    · cases hadd

/-- **The names that outputs give** to the columns they show. -/
theorem namesGiven_given {columns : List Nat} {outputs : List Output} {names : List (Nat × String)}
    (h : namesGiven columns outputs = some names) :
    GivenNames (columns.zip outputs) names := by
  have hrun : ∀ (pairs done : List (Nat × Output)) (acc : List (Nat × String)),
      GivenNames done acc →
      pairs.foldlM (fun names (p : Nat × Output) => addName names p.1 p.2.field.name) acc = some names →
      GivenNames (done ++ pairs) names := by
    intro pairs
    induction pairs with
    | nil =>
      intro done acc hacc hout
      cases hout
      rwa [List.append_nil]
    | cons pair pairs ih =>
      intro done acc hacc hout
      rw [List.foldlM_cons] at hout
      obtain ⟨mid, hmid, hout⟩ := Option.bind_eq_some_iff.1 hout
      have hall := ih (done ++ [pair]) mid (hacc.addName hmid) hout
      rwa [List.append_assoc] at hall
  exact hrun _ [] [] ⟨by simp, by simp, by simp⟩ h

/-- Names given to columns are given to columns that are shown. -/
theorem mem_of_namesGiven {columns : List Nat} {outputs : List Output}
    {names : List (Nat × String)} (h : namesGiven columns outputs = some names) :
    ∀ p ∈ names, p.1 ∈ columns := by
  intro p hp
  obtain ⟨pair, hpair, hcolumn, -⟩ := (namesGiven_given h).given p hp
  exact hcolumn ▸ (List.of_mem_zip hpair).1

theorem renameColumns_gives {rel : Rel} {names : List (Nat × String)}
    (hf : ∃ fs, rel.fields = .ok fs) : Gives (renameColumns rel names) (Renames rel) := by
  have hok : Gives (renameColumns rel names) fun _ => True := by
    unfold renameColumns
    split
    · exact .ok trivial
    · refine (Rel.fields_gives hf).bind fun fields _ => ?_
      refine Gives.bind (Gives.mapM (R := fun _ _ => True) fun column hc => ?_) fun outputs _ => .ok trivial
      have hlt := List.mem_range.1 hc
      split
      · exact (Gives.itemAt hlt).bind fun _ _ => .ok trivial
      · exact (Gives.itemAt hlt).bind fun _ _ => .ok trivial
  obtain ⟨out, hout, -⟩ := hok
  exact ⟨out, hout, renameColumns_renames hout⟩

/-- Columns of a tree can be given names, unless one is given two. -/
theorem renamed?_gives {rel : Rel} {columns : List Nat} {outputs : List Output}
    (hf : ∃ fs, rel.fields = .ok fs) (hc : ∀ c ∈ columns, c < rel.width) :
    Gives (renamed? rel columns outputs) fun o => ∀ out, o = some out → Renames rel out := by
  unfold renamed?
  refine (Rel.fields_gives hf).bind fun fields hlen => ?_
  split
  · exact .ok (by rintro _ ⟨⟩)
  · rename_i names hn
    have hnew : Gives (newNames fields names) fun _ => True := by
      refine Gives.filterM fun p hp => ?_
      refine (Gives.itemAt (hlen ▸ hc _ (mem_of_namesGiven hn p hp))).bind fun _ _ => .ok trivial
    refine hnew.bind fun names' _ => ?_
    refine (renameColumns_gives hf).bind fun r hr => ?_
    exact .ok (by rintro _ ⟨⟩; exact hr)

theorem mem_shownColumns {exprs : List Expr} {c i : Nat} :
    (c, i) ∈ shownColumns exprs ↔ exprs[i]? = some (.column c) := by
  unfold shownColumns
  simp only [List.mem_filterMap, Prod.exists, Option.map_eq_some_iff, Prod.mk.injEq,
    List.mem_zipIdx_iff_getElem?]
  constructor
  · rintro ⟨e, j, he, a, hcol, rfl, rfl⟩
    cases e with
    | column k => cases hcol; exact he
    | _ => cases hcol
  · intro h
    exact ⟨.column c, i, h, c, rfl, rfl, rfl⟩

theorem mem_missingColumns {shown : List (Nat × Nat)} {hidden : List Nat} {c : Nat} :
    c ∈ missingColumns shown hidden ↔ c ∈ hidden ∧ shown.lookup c = none := by
  unfold missingColumns
  rw [List.mem_filter, Selection.mem_append]
  simp

/-- A column with a place is shown there, or appended there. -/
theorem lookup_places {shown : List (Nat × Nat)} {missing : List Nat} {count c j : Nat}
    (h : (places shown missing count).lookup c = some j) :
    (c, j) ∈ shown ∨ ∃ i, missing[i]? = some c ∧ j = count + i := by
  have hmem := mem_of_lookup h
  rcases List.mem_append.1 hmem with hmem | hmem
  · exact .inl hmem
  · obtain ⟨⟨m, i⟩, hm, he⟩ := List.mem_map.1 hmem
    cases he
    exact .inr ⟨i, List.mem_zipIdx_iff_getElem?.1 hm, rfl⟩

/-- Every column that a projection keeps has a place. -/
theorem lookup_places_of_hidden {shown : List (Nat × Nat)} {hidden : List Nat} {count c : Nat}
    (h : c ∈ hidden) :
    ∃ j, (places shown (missingColumns shown hidden) count).lookup c = some j := by
  refine Option.isSome_iff_exists.1 (List.lookup_isSome_iff.2 ?_)
  cases hs : shown.lookup c with
  | some i => exact ⟨(c, i), List.mem_append_left _ (mem_of_lookup hs), by simp⟩
  | none =>
    obtain ⟨i, hi⟩ := List.getElem?_of_mem (mem_missingColumns.2 ⟨h, hs⟩)
    refine ⟨(c, count + i), List.mem_append_right _ ?_, by simp⟩
    exact List.mem_map.2 ⟨(c, i), List.mem_zipIdx_iff_getElem?.2 hi, rfl⟩

theorem lookup_places_lt {exprs : List Expr} {missing : List Nat} {c j : Nat}
    (h : (places (shownColumns exprs) missing exprs.length).lookup c = some j) :
    j < exprs.length + missing.length := by
  rcases lookup_places h with h | ⟨i, hi, rfl⟩
  · have := (List.getElem?_eq_some_iff.1 (mem_shownColumns.1 h)).1
    omega
  · have := (List.getElem?_eq_some_iff.1 hi).1
    omega

theorem keptTime?_eq_some {time : EventTime} {e : Expr} {i : Nat} {k : KeptTime}
    (h : keptTime? time (e, i) = some k) :
    ∃ function args, e = .call function args ∧ function.preservesTime = true ∧
      args.head? = some (.column k.input) ∧ k.input ∈ time.columns ∧ k.output = i ∧
      k.bucket = function.bucket? := by
  unfold keptTime? at h
  split at h
  · rename_i function args he
    simp only at he
    subst he
    split at h
    · rename_i hp
      split at h
      · rename_i input hin
        split at h
        · rename_i hc
          cases h
          obtain ⟨a, ha, hcol⟩ := Option.bind_eq_some_iff.1 hin
          cases a with
          | column c => cases hcol; exact ⟨function, args, rfl, hp, ha, EventTime.isCandidate_iff.1 hc, rfl, rfl⟩
          | _ => cases hcol
        · cases h
      · cases h
    · cases h
  · cases h

/-- A kept time stands where its output does. -/
theorem mem_keptTimes {time : EventTime} {exprs : List Expr} {k : KeptTime}
    (h : k ∈ keptTimes time exprs) :
    ∃ function args, exprs[k.output]? = some (.call function args) ∧
      function.preservesTime = true ∧ args.head? = some (.column k.input) ∧
      k.input ∈ time.columns ∧ k.bucket = function.bucket? := by
  obtain ⟨⟨e, i⟩, hmem, hk⟩ := List.mem_filterMap.1 h
  obtain ⟨function, args, rfl, hp, ha, hin, rfl, hb⟩ := keptTime?_eq_some hk
  exact ⟨function, args, List.mem_zipIdx_iff_getElem?.1 hmem, hp, ha, hin, hb⟩

theorem movedTime?_eq_some {time : EventTime} {kept : List KeptTime} {k : KeptTime}
    (h : movedTime? time kept = some k) :
    time.fixed = true ∧ k ∈ kept ∧ time.bestColumn? = some k.input := by
  unfold movedTime? at h
  split at h
  · rename_i hf
    exact ⟨hf, List.mem_of_find?_eq_some h, by simpa using List.find?_some h⟩
  · cases h

variable {plan out : Plan}

/-- A projection of bare columns shows other columns, maybe under other names. -/
theorem picked?_eq_ok {columns : List Nat} {outputs : List Output}
    (h : plan.picked? columns outputs = .ok (some out)) :
    ∃ targets rel select, columns.mapM plan.select.apply = .ok targets ∧
      renamed? plan.rel targets outputs = .ok (some rel) ∧
      ColumnMap.of targets plan.width = .ok select ∧ out = { plan with rel, select } := by
  unfold picked? at h
  obtain ⟨targets, htargets, h⟩ := bind_eq_ok.1 h
  obtain ⟨renamed, hrenamed, h⟩ := bind_eq_ok.1 h
  rcases renamed with _ | rel
  · cases h
  · obtain ⟨select, hselect, h⟩ := bind_eq_ok.1 h
    cases h
    exact ⟨targets, rel, select, htargets, hrenamed, hselect, rfl⟩

/-- How a now-filter gets over a projection: as it is, widened by the bucket of
the output that the timestamp moves to, or not at all. -/
inductive Carries (plan : Plan) (moved : Option KeptTime) : Plan → Option NowFilter → Prop
  | same (h : moved = none ∨ plan.nowFilter = none) :
      Carries plan moved { plan with nowFilter := none } plan.nowFilter
  | widened {kept : KeptTime} {filter wide : NowFilter} {bucket : Bucket} :
      moved = some kept → plan.nowFilter = some filter → kept.bucket = some bucket →
      NowFilter.widen { filter with timestamp := kept.output } bucket.width = .ok wide →
      Carries plan moved { plan with nowFilter := none } (some wide)
  | applied {kept : KeptTime} {filter : NowFilter} {below : Plan} :
      moved = some kept → plan.nowFilter = some filter → kept.bucket = none →
      plan.withoutNowFilter = .ok below → Carries plan moved below none

theorem carryNowFilter_eq_ok {moved : Option KeptTime} {below : Plan} {carried : Option NowFilter}
    (h : plan.carryNowFilter moved = .ok (below, carried)) : plan.Carries moved below carried := by
  rcases moved with _ | kept
  · cases h
    exact .same (.inl rfl)
  · unfold carryNowFilter at h
    cases hf : plan.nowFilter with
    | none =>
      rw [hf] at h
      cases h
      have hsame : plan.Carries (some kept) { plan with nowFilter := none } plan.nowFilter :=
        .same (.inr hf)
      rwa [hf] at hsame
    | some filter =>
      rw [hf] at h
      simp only at h
      split at h
      · rename_i bucket hb
        obtain ⟨wide, hwide, h⟩ := bind_eq_ok.1 h
        cases h
        exact .widened rfl hf hb (lift_eq_ok.1 hwide)
      · rename_i hb
        obtain ⟨next, hnext, h⟩ := bind_eq_ok.1 h
        cases h
        exact .applied rfl hf hb hnext

theorem Carries.settled {moved : Option KeptTime} {below : Plan} {carried : Option NowFilter}
    (h : plan.Carries moved below carried) :
    plan.Settled below ∧ below.topN = plan.topN ∧ below.nowFilter = none := by
  cases h with
  | same => exact ⟨⟨rfl, rfl, rfl, rfl, rfl, rfl, rfl, rfl, rfl, rfl, .inl rfl, .inr rfl⟩, rfl, rfl⟩
  | widened =>
    exact ⟨⟨rfl, rfl, rfl, rfl, rfl, rfl, rfl, rfl, rfl, rfl, .inl rfl, .inr rfl⟩, rfl, rfl⟩
  | applied _ _ _ hb =>
    obtain ⟨hs, hn, ht⟩ := withoutNowFilter_settled hb
    exact ⟨hs, ht, hn⟩

/-- The columns that a projection keeps behind its outputs. -/
def appendedColumns (plan : Plan) (outputs : List Output) (moved : Option KeptTime) : List Nat :=
  missingColumns (shownColumns (outputs.map Output.expr)) (plan.hiddenColumns moved)

/-- Where a column of the tree stands above a projection. -/
def placeOf (plan : Plan) (outputs : List Output) (moved : Option KeptTime) (column : Nat) :
    Option Nat :=
  (places (shownColumns (outputs.map Output.expr)) (plan.appendedColumns outputs moved)
    outputs.length).lookup column

/-- **The plan of outputs** over a tree, and of the columns kept behind them. -/
theorem withOutputs_eq_ok {outputs : List Output} {kept : List KeptTime} {moved : Option KeptTime}
    {nowFilter : Option NowFilter} (h : plan.withOutputs outputs kept moved nowFilter = .ok out) :
    ∃ appended time key select,
      appended.map Output.expr = (plan.appendedColumns outputs moved).map Expr.column ∧
      projectedTime plan.time moved kept (plan.placeOf outputs moved) = .ok time ∧
      List.Forall₂ (fun i j => plan.placeOf outputs moved i = some j) plan.key.targets key.targets ∧
      select.targets = List.range outputs.length ∧
      out = { plan with
        rel := .project plan.rel (outputs ++ appended) none
        key, time, select
        nowFilter := if moved.isSome then nowFilter
          else nowFilter.bind (·.remap (plan.placeOf outputs moved))
        sort := SortOrder.moved plan.sort (plan.placeOf outputs moved)
        lineage := none } := by
  unfold withOutputs at h
  obtain ⟨fields, -, h⟩ := bind_eq_ok.1 h
  obtain ⟨appended, happended, h⟩ := bind_eq_ok.1 h
  obtain ⟨time, htime, h⟩ := bind_eq_ok.1 h
  obtain ⟨key, hkey, h⟩ := bind_eq_ok.1 h
  obtain ⟨select, hselect, h⟩ := bind_eq_ok.1 h
  cases h
  refine ⟨appended, time, key, select, ?_, lift_eq_ok.1 htime,
    (movedKey_eq_ok (lift_eq_ok.1 hkey)).1, ?_, rfl⟩
  · exact map_of_mapM_eq_ok (fun _ _ ho => Output.expr_of_column ho) (orFault_eq_ok.1 happended)
  · exact (ColumnMap.identityInto_targets (lift_eq_ok.1 hselect)).1

/-- A projection to outputs takes the now-filter off and puts the outputs over the tree. -/
theorem projectedTo_eq_ok {outputs : List Output} (h : plan.projectedTo outputs = .ok out) :
    ∃ below carried,
      plan.Carries (movedTime? plan.time (keptTimes plan.time (outputs.map Output.expr))) below
        carried ∧
      below.withOutputs outputs (keptTimes plan.time (outputs.map Output.expr))
        (movedTime? plan.time (keptTimes plan.time (outputs.map Output.expr))) carried = .ok out := by
  unfold projectedTo at h
  obtain ⟨⟨below, carried⟩, hcarry, h⟩ := bind_eq_ok.1 h
  exact ⟨below, carried, carryNowFilter_eq_ok hcarry, h⟩

/-- **A computed projection** applies the ranking and requires what its outputs need. -/
theorem computed_eq_ok {outputs : List Output} (h : plan.computed outputs = .ok out) :
    ∃ base needs moved, plan.withoutTopN = .ok base ∧
      outputs.mapM (·.remap plan.select.apply) = .ok moved ∧
      base.needs.requireExprs (moved.map Output.expr) = .ok needs ∧
      projectedTo { base with needs } moved = .ok out := by
  unfold computed at h
  obtain ⟨base, hbase, h⟩ := bind_eq_ok.1 h
  obtain ⟨moved, hmoved, h⟩ := bind_eq_ok.1 h
  obtain ⟨needs, hneeds, h⟩ := bind_eq_ok.1 h
  rw [(withoutTopN_settled hbase).1.select] at hmoved
  exact ⟨base, needs, moved, hbase, orFault_eq_ok.1 hmoved, needing_eq_ok.1 hneeds, h⟩

/-- A column that has a place above a projection is an output there. -/
theorem expr_of_placeOf {outputs appended : List Output} {moved : Option KeptTime} {c j : Nat}
    (ha : appended.map Output.expr = (plan.appendedColumns outputs moved).map Expr.column)
    (h : plan.placeOf outputs moved c = some j) :
    ∃ o, (outputs ++ appended)[j]? = some o ∧ o.expr = .column c := by
  rcases lookup_places h with h | ⟨i, hi, rfl⟩
  · have he := mem_shownColumns.1 h
    rw [List.getElem?_map, Option.map_eq_some_iff] at he
    obtain ⟨o, ho, he⟩ := he
    refine ⟨o, ?_, he⟩
    rw [List.getElem?_append_left (List.getElem?_eq_some_iff.1 ho).1, ho]
  · have he : (appended.map Output.expr)[i]? = some (.column c) := by
      rw [ha, List.getElem?_map, hi]
      rfl
    rw [List.getElem?_map, Option.map_eq_some_iff] at he
    obtain ⟨o, ho, he⟩ := he
    refine ⟨o, ?_, he⟩
    rw [List.getElem?_append_right (Nat.le_add_right _ _), Nat.add_sub_cancel_left, ho]

/-- A now-filter whose timestamp does not move has a place above a projection. -/
theorem nowFilter_of_placed {outputs : List Output} {time : Option KeptTime}
    {pending : Option NowFilter}
    (h : time = none ∨ pending = none)
    (hp : ∀ f, pending = some f → f.timestamp ∈ plan.time.columns) :
    let carried := if time.isSome then pending
      else pending.bind (·.remap (plan.placeOf outputs time))
    (pending = none ∧ carried = none) ∨
      ∃ f j, pending = some f ∧ plan.placeOf outputs time f.timestamp = some j ∧
        carried = some { f with timestamp := j } := by
  intro carried
  cases hf : pending with
  | none =>
    refine .inl ⟨rfl, ?_⟩
    change (if time.isSome then pending else pending.bind _) = none
    rw [hf]
    split <;> rfl
  | some f =>
    obtain rfl : time = none := h.resolve_right (by rw [hf]; rintro ⟨⟩)
    have hmem : f.timestamp ∈ plan.hiddenColumns none :=
      List.mem_append_left _ (List.mem_append_right _ (hp f hf))
    obtain ⟨j, hj⟩ : ∃ j, plan.placeOf outputs none f.timestamp = some j :=
      lookup_places_of_hidden hmem
    refine .inr ⟨f, j, rfl, hj, ?_⟩
    change pending.bind _ = _
    rw [hf, Option.bind_some, NowFilter.remap, hj, Option.map_some]

end Plan

end StreamPlan
