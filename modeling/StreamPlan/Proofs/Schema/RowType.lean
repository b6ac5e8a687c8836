import StreamPlan.Proofs.Schema.Convert

/-!
# Row types of plans

The tree of a plan has a row type, whatever query and catalog the plan comes from: a
tree faults over a group key alone, and plans group by columns of their input.

* `Plan.HasFields`, `Converter.keeps_fields`: every operator keeps that a tree has a
  row type.
-/

namespace StreamPlan

namespace Plan

variable {plan out : Plan}

/-- The tree of a plan has a row type. -/
def HasFields (plan : Plan) : Prop := ∃ fs, plan.rel.fields = .ok fs

theorem Settled.hasFields (h : plan.Settled out) (hf : plan.HasFields) : out.HasFields := by
  rw [HasFields, h.fields]
  exact hf

theorem HasFields.restricted (h : plan.HasFields) (hr : plan.rel.Restricted out.rel) :
    out.HasFields := hr.fields h

/-- **A projection** has the outputs as its row type, or renames its input. -/
theorem HasFields.projected {bare : Option (List Nat)} {outputs : List Output} (h : plan.HasFields)
    (ho : Converter.projected plan bare outputs = .ok out) : out.HasFields := by
  have hcomputed : plan.computed outputs = .ok out → out.HasFields := fun ho => by
    obtain ⟨_, _, _, -, -, -, ho⟩ := computed_eq_ok ho
    obtain ⟨_, _, -, ho⟩ := projectedTo_eq_ok ho
    obtain ⟨_, _, _, _, -, -, -, -, rfl⟩ := withOutputs_eq_ok ho
    exact ⟨_, by rw [Rel.fields]⟩
  unfold Converter.projected at ho
  split at ho
  · exact hcomputed ho
  · obtain ⟨picked, hpicked, ho⟩ := bind_eq_ok.1 ho
    rcases picked with _ | picked
    · exact hcomputed ho
    · cases ho
      obtain ⟨_, rel, _, -, hr, -, rfl⟩ := picked?_eq_ok (lift_eq_ok.1 hpicked)
      exact (renamed?_renames hr).fields h

/-- **An aggregation** groups by columns of its input. -/
theorem HasFields.aggregated {c : Converter} {keys : List Nat} {calls : List AggregateCall}
    (h : plan.HasFields) (hs : plan.Sound) (ho : plan.aggregated c keys calls = .ok out) :
    out.HasFields := by
  obtain ⟨base, needs, columns, moved, hbase, hcolumns, -, -, hout⟩ := aggregated_cases ho
  obtain ⟨hset, -, -⟩ := withoutTopN_settled hbase
  obtain ⟨gs, hgs⟩ := hset.hasFields h
  have hkeys : Gives (columns.mapM (itemAt gs)) fun keyFields => Picks gs columns keyFields := by
    refine (Gives.mapM fun t ht => ?_).mono fun _ hf => hf.imp fun _ _ hi => itemAt_eq_ok.1 hi
    obtain ⟨i, -, hi⟩ := mem_of_mapM_eq_ok hcolumns ht
    have hlt : t < gs.length := by
      rw [Rel.length_of_fields hgs, hset.width]
      exact hs.apply_lt hi
    obtain ⟨field, hfield, -⟩ := Gives.itemAt hlt
    exact ⟨field, hfield, hfield⟩
  obtain ⟨keyFields, -, hpicks⟩ := hkeys
  obtain ⟨next, hnext, -⟩ :=
    Converter.fields_of_aggregated ((hset.sound hs).unsorted needs) hgs hpicks hout
  exact ⟨next, hnext⟩

/-- An aligned plan has the fields that it keeps. -/
theorem HasFields.asBranch {position : Nat} (h : plan.HasFields)
    (ho : plan.asBranch position = .ok out) : out.HasFields := by
  unfold Plan.asBranch at ho
  obtain ⟨base, hbase, ho⟩ := bind_eq_ok.1 ho
  obtain ⟨aligned, haligned, ho⟩ := bind_eq_ok.1 ho
  obtain ⟨gs, hgs⟩ := (withoutPending_settled hbase).1.hasFields h
  obtain ⟨next, hnext, -⟩ := Converter.fields_of_align haligned hgs
  split at ho
  · cases ho
    exact ⟨next, hnext⟩
  · cases ho

end Plan

namespace Converter

variable {c : Converter} {out : Plan}

/-- Levels that are unrolled go behind the columns of the tree. -/
theorem hasFields_of_unrollLevels {path : List Nat} {state final : Unrolled}
    (h : path.foldlM (fun state next => liftM (c.unrollLevel state next)) state
      = (.ok final : Planning Unrolled))
    (hf : ∃ fs, state.rel.fields = .ok fs) : ∃ fs, final.rel.fields = .ok fs := by
  refine unrollLevels_each (I := fun next => ∃ fs, next.rel.fields = .ok fs) hf
    (fun mid _ _ _ view _ ⟨fs, hfs⟩ _ _ => ⟨fs ++ view.levelFields, ?_⟩) h
  rw [Rel.fields, hfs]
  rfl

theorem hasFields_scan (relation : RelationId) (name : String) (fields : Fields) :
    ∃ fs, (Rel.scan relation name fields).fields = .ok fs := ⟨fields, by rw [Rel.fields]⟩

theorem hasFields_of_scanPlan {relation : RelationId} (h : c.scanPlan relation = .ok out) :
    out.HasFields := by
  obtain ⟨table, h⟩ := scanPlan_cases h
  cases h with
  | base | root | nested => exact hasFields_scan _ _ _
  | unrolled _ _ _ _ _ _ _ _ hstart hunrolled =>
    refine hasFields_of_unrollLevels hunrolled ?_
    rw [fields_of_belowLevels hstart]
    exact hasFields_scan _ _ _

/-- Levels of the right side go behind the columns of the left tree. -/
theorem hasFields_of_mergedPlan {j : JoinInputs} {left right : Lineage} {matching : Lineage.Matching}
    (hl : j.left.HasFields) (h : j.mergedPlan c left right matching = .ok (some out)) :
    out.HasFields := by
  obtain ⟨merged, _, _, _, -, hmerged, -, -, -, rfl⟩ := JoinInputs.mergedPlan_eq_ok h
  refine JoinInputs.mergeLevels_keeps (I := fun state => ∃ fs, state.rel.fields = .ok fs) ?_ ?_ hmerged
  swap
  · exact hl
  rintro state next level - ⟨fs, hfs⟩ hnext
  obtain ⟨_, _, view, _, _, _, -, -, -, -, -, hrel, -⟩ := JoinInputs.mergeLevel_eq_ok hnext
  exact ⟨fs ++ view.levelFields, by rw [hrel, Rel.fields, hfs]; rfl⟩

/-- **A join** has the columns of both trees. -/
theorem hasFields_of_joined {j : JoinInputs} (hl : j.left.HasFields) (hr : j.right.HasFields)
    (h : c.joined j = .ok out) : out.HasFields := by
  have hjoin : ∀ {l r : Plan} {kind condition hint}, l.HasFields → r.HasFields →
      out.rel = .join l.rel r.rel kind condition hint → out.HasFields := by
    rintro l r kind condition hint ⟨fl, hfl⟩ ⟨fr, hfr⟩ hrel
    exact ⟨_, by rw [hrel, Rel.fields, hfl, hfr]; rfl⟩
  have hsettled : ∀ {plan base : Plan}, plan.HasFields → plan.withoutPending = .ok base →
      base.HasFields := fun hf hb => (Plan.withoutPending_settled hb).1.hasFields hf
  rcases joined_eq_ok h with h | h | h | h
  · obtain ⟨_, _, _, -, -, -, -, hplan⟩ := JoinInputs.selfJoin?_eq_ok (attempt_eq_ok h)
    exact hasFields_of_mergedPlan hl hplan
  · obtain ⟨sides, hsides, hplan⟩ := JoinInputs.temporalJoin?_eq_ok (attempt_eq_ok h)
    obtain ⟨stream, table, _, hstream, htable, -, -, hrel, -⟩ := JoinInputs.temporalPlan_eq_ok hplan
    obtain ⟨hs, ht⟩ := (JoinInputs.temporalShape_eq_ok hsides).1.both hl hr
    have hready := JoinInputs.readyStream_keeps hs (fun _ => hsettled hs) hstream
    exact hjoin hready (hsettled ht htable) hrel
  · obtain ⟨window, -, hplan⟩ := JoinInputs.intervalJoin?_eq_ok (attempt_eq_ok h)
    obtain ⟨left, right, _, hleft, hright, -, -, hrel, -⟩ := JoinInputs.intervalPlan_eq_ok hplan
    exact hjoin (hsettled hl hleft) (hsettled hr hright) hrel
  · obtain ⟨left, right, _, hleft, hright, -, hrel, -⟩ := JoinInputs.statePlan_eq_ok h
    exact hjoin (hsettled hl hleft) (hsettled hr hright) hrel

/-- **The tree of a plan has a row type.** -/
theorem keeps_fields (c : Converter) : c.Keeps Plan.HasFields where
  scan h := hasFields_of_scanPlan h
  filter _ h ho := h.restricted (Plan.filtered_restricted ho)
  project _ h ho := h.projected ho
  rank _ h ho := h.restricted (Plan.ranked_restricted ho)
  join _ _ hl hr hj ho := by
    obtain ⟨hjl, hjr, -⟩ := JoinInputs.of_eq_ok hj
    exact hasFields_of_joined (hjl ▸ hl) (hjr ▸ hr) ho
  aggregate hs h ho := h.aggregated hs ho
  union {first rest out} hfirst _ ho := by
    obtain ⟨plan, position, -, hplan, hbranch⟩ := hfirst
    obtain ⟨gs, hgs⟩ := hplan.asBranch hbranch
    obtain ⟨-, rels, time, htrees, hrel, -⟩ := Plan.united_eq_ok ho
    obtain ⟨more, hmore⟩ := fields_of_unionTrees hgs htrees
    exact ⟨_, by rw [hrel, Rel.fields, hmore]⟩
  sort _ h ho := h.restricted (Plan.sorted_restricted ho)
  settle h ho := (Plan.withoutPending_settled ho).1.hasFields h

end Converter

end StreamPlan
