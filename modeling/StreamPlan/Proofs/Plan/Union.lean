import StreamPlan.Plan.Union
import StreamPlan.Proofs.Plan.Project

/-!
# What unions are made of

* `Plan.united_eq_ok`: the plan of a union is the union of the trees of its
  branches, which are of one width.
* `Plan.united_columns`: it shows the columns of the first branch.
* `Plan.exposeTime_eq_ok`: a branch that shows its timestamp has it behind its
  columns.
-/

namespace StreamPlan.Plan

variable {plan out first : Plan} {rest : List Plan}

theorem sameShape_of_shapeProblem? (h : shapeProblem? first rest = none) :
    ∀ b ∈ rest, sameShape first b = true := by
  intro b hb
  simp only [shapeProblem?, Option.map_eq_none_iff, List.find?_eq_none] at h
  obtain ⟨i, hi⟩ := List.mem_iff_getElem?.1 hb
  have := h (b, i) (List.mem_zipIdx_iff_getElem?.2 hi)
  simpa using this

theorem width_of_sameShape {b : Plan} (h : sameShape first b = true) : b.width = first.width := by
  simp only [sameShape, Bool.and_eq_true, beq_iff_eq] at h
  exact h.1.1

/-- **The plan of a union** is the union of the trees of its branches. -/
theorem united_eq_ok (h : united first rest = .ok out) :
    (∀ b ∈ rest, b.width = first.width) ∧ ∃ rels time, unionTrees first rest = .ok (rels, time) ∧
      out.rel = .union rels true ∧ out.time = time ∧ out.lineage = none ∧ out.nowFilter = none := by
  unfold united at h
  split at h
  · cases h
  · rename_i hshape
    obtain ⟨needs, -, h⟩ := bind_eq_ok.1 h
    obtain ⟨needs, -, h⟩ := bind_eq_ok.1 h
    obtain ⟨⟨rels, time⟩, htrees, h⟩ := bind_eq_ok.1 h
    obtain ⟨bareUnion, hbare, h⟩ := bind_eq_ok.1 h
    obtain ⟨select, -, h⟩ := bind_eq_ok.1 h
    cases h
    obtain ⟨m, -, rfl⟩ := ofRel_eq_ok.1 (lift_eq_ok.1 hbare)
    exact ⟨fun b hb => width_of_sameShape (sameShape_of_shapeProblem? hshape b hb), rels, time,
      htrees, rfl, rfl, rfl, rfl⟩

/-- The union shows the columns of the first branch, and all branches have as many. -/
theorem united_columns (h : united first rest = .ok out) :
    out.select.targets = List.range first.select.sources ∧ out.topN.isEmpty = true ∧
      ∀ b ∈ rest, b.select.sources = first.select.sources := by
  unfold united at h
  split at h
  · cases h
  · rename_i hshape
    obtain ⟨needs, -, h⟩ := bind_eq_ok.1 h
    obtain ⟨needs, -, h⟩ := bind_eq_ok.1 h
    obtain ⟨⟨rels, time⟩, -, h⟩ := bind_eq_ok.1 h
    obtain ⟨bareUnion, hbare, h⟩ := bind_eq_ok.1 h
    obtain ⟨select, hselect, h⟩ := bind_eq_ok.1 h
    cases h
    obtain ⟨m, -, rfl⟩ := ofRel_eq_ok.1 (lift_eq_ok.1 hbare)
    refine ⟨(ColumnMap.identityInto_targets (lift_eq_ok.1 hselect)).1, rfl, fun b hb => ?_⟩
    have hsame := sameShape_of_shapeProblem? hshape b hb
    simp only [sameShape, Bool.and_eq_true, beq_iff_eq] at hsame
    exact hsame.1.2

/-- A branch that shows its timestamp has it behind its columns. -/
theorem exposeTime_eq_ok {width position : Nat} {rel : Rel}
    (h : exposeTime width (plan, position) = .ok rel) :
    ∃ outputs exposed column, rel = .project plan.rel (outputs ++ [exposed]) none ∧
      outputs.length = width ∧ plan.time.bestColumn? = some column ∧
      exposed.expr = .column column := by
  unfold exposeTime at h
  split at h
  · cases h
  · rename_i column hcolumn
    obtain ⟨fields, -, h⟩ := bind_eq_ok.1 h
    obtain ⟨kept, hkept, h⟩ := bind_eq_ok.1 h
    obtain ⟨exposed, hexposed, h⟩ := bind_eq_ok.1 h
    cases h
    have hlen := length_of_mapM_eq_ok (orFault_eq_ok.1 hkept)
    rw [List.length_range] at hlen
    exact ⟨kept, exposed, column, rfl, hlen, hcolumn, Output.expr_of_renamed (lift_eq_ok.1 hexposed)⟩

end StreamPlan.Plan
