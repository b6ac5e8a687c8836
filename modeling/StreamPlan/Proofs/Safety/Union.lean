import StreamPlan.Proofs.Plan.Union
import StreamPlan.Proofs.Safety.Align

/-!
# Unions do not fault

* `Plan.Branch`: an aligned stream, as a union takes it (`Plan.asBranch_safe`).
* `Plan.united_safe`: the plan of a union of branches is well formed.
-/

namespace StreamPlan.Plan

variable {catalog : Catalog} {n : Nat} {allowed : Fault → Prop} {plan first : Plan}
  {rest : List Plan}

/-- An aligned stream with as many visible columns as the query has. -/
structure Branch (catalog : Catalog) (n : Nat) (plan : Plan) : Prop where
  draft : plan.Draft catalog n
  kind : plan.kind = .stream
  select : plan.select.targets = List.range plan.select.sources

theorem Branch.mono {m : Nat} (h : plan.Branch catalog n) (hm : n ≤ m) : plan.Branch catalog m :=
  ⟨⟨h.draft.cleared.mono hm, h.draft.stale⟩, h.kind, h.select⟩

theorem asBranch_safe {position : Nat} (h : plan.WellFormed catalog n)
    (hc : plan.select.sources < Position.countLimit) :
    Safe allowed (plan.asBranch position) fun out =>
      out.Branch catalog n ∧ out.select.sources = plan.select.sources := by
  unfold asBranch
  refine plan.withoutPending_safe.bind fun base ⟨hs, _⟩ => ?_
  have hb := hs.wellFormed h
  rw [← hs.select] at hc ⊢
  have hunsorted : WellFormed catalog n { base with sort := [] } :=
    ⟨⟨hb.key, hb.select, hb.stateTime, hb.stateNowFilter, hb.time, hb.nowFilter,
      fun i hi => (by cases hi), hb.topN⟩, hb.fields, hb.rootKeys, hb.lineage, hb.interval, hb.stale⟩
  refine (align_safe hunsorted hc).bind fun out ⟨hd, hsel, _⟩ => ?_
  have hlen : out.select.sources = base.select.sources := by
    rw [ColumnMap.sources, hsel, List.length_range]
  split
  · rename_i hk
    exact .ok ⟨⟨hd, hk, hlen ▸ hsel⟩, hlen⟩
  · exact .refuse

theorem Branch.fields_gives (h : plan.Branch catalog n) :
    Gives plan.rel.fields fun fs => fs.length = plan.width := Rel.fields_gives h.draft.cleared.fields

theorem Branch.time_lt (h : plan.Branch catalog n) : ∀ i ∈ plan.time.columns, i < plan.width :=
  h.draft.cleared.time

theorem Branch.sources_le (h : plan.Branch catalog n) : plan.select.sources ≤ plan.width := by
  rcases Nat.eq_zero_or_pos plan.select.sources with h0 | hpos
  · rw [h0]; exact Nat.zero_le _
  · have hmem : plan.select.sources - 1 ∈ plan.select.targets := by
      rw [h.select, List.mem_range]
      omega
    have := h.draft.cleared.select_lt _ hmem
    change _ < plan.width at this
    omega

/-- A branch shows its best candidate in a new last column. -/
theorem exposeTime_safe {width position : Nat} (h : plan.Branch catalog n)
    (hw : plan.width = width) : Safe allowed (exposeTime width (plan, position)) fun rel =>
      rel.width = width + 1 ∧ ∃ fs, rel.fields = .ok fs := by
  unfold exposeTime
  split
  · exact .refuse
  · rename_i column hcol
    refine (Safe.lift h.fields_gives.bounded).bind fun fields hlen => ?_
    have hkept : Gives ((List.range width).mapM (Output.column · fields)) fun outs =>
        outs.length = width := by
      refine (Gives.mapM (R := fun _ _ => True) fun i hi => ?_).mono fun outs hf => ?_
      · have hi' : i < fields.length := by
          rw [hlen, hw]
          exact List.mem_range.1 hi
        exact (Gives.itemAt hi').bind fun _ _ => .ok trivial
      · rw [← hf.length_eq, List.length_range]
    refine (Safe.orFault hkept.bounded).bind fun kept hklen => ?_
    have hnew : Gives (Output.renamed column unionTimestampName fields) fun _ => True :=
      (Gives.itemAt (hlen ▸ h.time_lt _ (EventTime.bestColumn?_mem hcol))).bind fun _ _ => .ok trivial
    refine (Safe.lift hnew.bounded).bind fun exposed _ => .ok ⟨?_, _, by rw [Rel.fields]⟩
    rw [Rel.width, List.length_append, hklen]
    rfl

/-- The trees of branches of one width, and the candidates of their union. -/
theorem unionTrees_safe (hf : first.Branch catalog n) (hr : ∀ b ∈ rest, b.Branch catalog n)
    (hw : ∀ b ∈ rest, b.width = first.width) :
    Safe allowed (unionTrees first rest) fun (rels, time) =>
      first.width ≤ Rel.firstWidth rels ∧ (∃ fs, Rel.firstFields rels = .ok fs) ∧
        ∀ i ∈ time.columns, i < Rel.firstWidth rels := by
  unfold unionTrees
  simp only
  split
  · have hall : Safe allowed ((first :: rest).zipIdx.mapM (exposeTime first.width)) fun rels =>
        List.Forall₂ (fun _ rel => rel.width = first.width + 1 ∧ ∃ fs, rel.fields = .ok fs)
          (first :: rest).zipIdx rels := by
      refine Safe.mapM fun b hb => ?_
      have hmem := List.fst_mem_of_mem_zipIdx hb
      rcases List.mem_cons.1 hmem with he | hmem
      · exact exposeTime_safe (he ▸ hf) (he ▸ rfl)
      · exact exposeTime_safe (hr _ hmem) (hw _ hmem)
    refine hall.bind fun rels hrels => ?_
    rw [List.zipIdx_cons] at hrels
    rcases hrels with _ | ⟨⟨hwidth, hfields⟩, -⟩
    refine .ok ⟨?_, by rw [Rel.firstFields]; exact hfields, ?_⟩
    · rw [Rel.firstWidth, hwidth]
      exact Nat.le_succ _
    · intro i hi
      rw [EventTime.columns_single, List.mem_singleton] at hi
      rw [Rel.firstWidth, hwidth, hi]
      exact Nat.lt_succ_self _
  · refine .ok ⟨?_, ?_, fun i hi => ?_⟩
    · rw [List.map_cons, Rel.firstWidth]
      exact Nat.le_refl _
    · rw [List.map_cons, Rel.firstFields]
      exact hf.draft.cleared.fields
    · rw [EventTime.columns_restrictTo, List.mem_filter] at hi
      rw [List.map_cons, Rel.firstWidth]
      exact hf.time_lt i hi.1

/-- **The plan of a union** of branches. -/
theorem united_safe (hf : first.Branch catalog n) (hr : ∀ b ∈ rest, b.Branch catalog n)
    (hc : first.select.sources < Position.countLimit) :
    Safe allowed (united first rest) fun out =>
      out.WellFormed catalog n ∧ out.select.sources = first.select.sources := by
  unfold united
  split
  · exact .refuse
  · rename_i hshape
    have hw : ∀ b ∈ rest, b.width = first.width := fun b hb =>
      width_of_sameShape (sameShape_of_shapeProblem? hshape b hb)
    have hneeds : Safe allowed
        (rest.foldlM (fun needs branch => Converter.combine needs branch.needs) first.needs)
        fun _ => True :=
      Safe.foldlM trivial fun needs b _ _ =>
        (Converter.combine_safe needs b.needs).mono fun _ _ => trivial
    refine hneeds.bind fun needs _ => ?_
    refine (require_safe needs .union).bind fun needs _ => ?_
    refine (unionTrees_safe hf hr hw).bind fun out ⟨hwidth, hfields, htime⟩ => ?_
    obtain ⟨rels, time⟩ := out
    simp only at hwidth hfields htime ⊢
    have hkey : ∀ i ∈ first.key.targets, i < (Rel.union rels true).width := fun i hi => by
      rw [Rel.width]
      exact Nat.lt_of_lt_of_le (hf.draft.cleared.key_lt i hi) hwidth
    refine (Safe.lift (ofRel_gives hkey).bounded).bind fun plan hplan => ?_
    obtain ⟨m, hmts, hmw, rfl⟩ := hplan
    have hsources : first.select.sources ≤ (Rel.union rels true).width := by
      rw [Rel.width]
      exact Nat.le_trans hf.sources_le hwidth
    refine (Safe.lift (ColumnMap.identityInto_gives hsources hc).bounded).bind
      fun select ⟨hsts, hsw⟩ => ?_
    refine .ok ⟨⟨⟨hmw, hsw, (by rintro ⟨⟩), (by rintro ⟨⟩), ?_, (by rintro f ⟨⟩),
      (fun i hi => by cases hi), (fun i hi => by cases hi)⟩, ?_, ?_, (by rintro l ⟨⟩),
      (by rintro f ⟨⟩), (fun hst => absurd rfl hst.2)⟩, ?_⟩
    · intro i hi
      change i < (Rel.union rels true).width
      rw [Rel.width]
      exact htime i hi
    · change ∃ fs, (Rel.union rels true).fields = .ok fs
      rw [Rel.fields]
      exact hfields
    · intro _ k hk
      have hk := Option.eq_some_of_filter_eq_some hk
      change k ≤ m.sources
      rw [ColumnMap.sources, hmts]
      exact hf.draft.cleared.rootKeys hf.kind k hk
    · rw [ColumnMap.sources, hsts, List.length_range]

end StreamPlan.Plan
