import StreamPlan.Proofs.Answers.Materialized
import StreamPlan.Proofs.Plan.Union
import StreamPlan.Proofs.Schema.RowType

/-!
# Branches of unions

A union aligns its branches one by one, without the order that was asked for, and may
show the timestamp of each in a new column.

* `Plan.materialize_of_asBranch`: a branch is the final result of its plan without the
  order.
* `Plan.arrangedAs_of_asBranch`: a branch has the columns of its plan arranged.
* `Plan.FromBranch`, `Plan.rows_of_united`: the rows of a union come from its
  branches, one branch after another.
* `Plan.BesideBranch`, `PartBeside`: what such rows have beside those of the branch, or
  of the final result of the same plan.
-/

namespace StreamPlan

variable {fixture : Fixture} {rows : List Row}

namespace Plan

variable {plan out first b : Plan} {rest : List Plan} {base row : Row} {position : Nat}

/-- What is pending applies alike under every order. -/
theorem withoutPending_unsorted (plan : Plan) :
    withoutPending { plan with sort := [] }
      = (fun base => { base with sort := [] }) <$> plan.withoutPending := by
  obtain ⟨_, _, _, _, _, needs, _, filter, _, _, _⟩ := plan
  unfold withoutPending inlineAll inlineNowFilter inlineTopN
  cases filter with
  | none =>
    simp only
    split
    · rfl
    · cases needs.require .sort <;> rfl
  | some filter =>
    simp only
    cases needs.require .nowFunction with
    | error missing => rfl
    | ok needs =>
      simp only
      split
      · rfl
      · cases needs.require .sort <;> rfl

/-- A branch is the plan aligned without its order. -/
theorem align_of_asBranch (h : plan.asBranch position = .ok b) :
    align { plan with sort := [] } = .ok b := by
  unfold asBranch at h
  obtain ⟨settled, hsettled, h⟩ := bind_eq_ok.1 h
  obtain ⟨aligned, haligned, h⟩ := bind_eq_ok.1 h
  obtain rfl : aligned = b := by
    split at h
    · exact Except.ok.inj h
    · cases h
  obtain ⟨-, hnone, he⟩ := withoutPending_settled hsettled
  -- what is pending applies before the order goes, so aligning finds nothing pending
  have hidle : withoutPending { settled with sort := [] } = .ok { settled with sort := [] } :=
    withoutPending_of_idle hnone he
  rw [align, hidle] at haligned
  rw [align, withoutPending_unsorted, hsettled]
  exact haligned

/-- **The columns of a branch** are those of its plan arranged, of which it has no more
than the plan has by itself. -/
theorem arrangedAs_of_asBranch (hs : plan.Sound) (h : plan.asBranch position = .ok b) :
    ∃ columns, plan.ArrangedAs b columns ∧ ∀ c ∈ columns, c ∈ plan.alignedColumns := by
  have hunsorted : Sound { plan with sort := [] } := { hs with sort := fun i hi => nomatch hi }
  have harranged := arrangedAs_of_align hunsorted (align_of_asBranch h)
  refine ⟨_, harranged.congr rfl rfl rfl, fun c hc => ?_⟩
  rw [alignedColumns, Selection.mem_append] at hc ⊢
  simp only [SortOrder.columns, List.map_nil, List.append_nil, List.mem_append] at hc ⊢
  tauto

/-- A row that a union takes from a row of a branch: it shows the same, and at
every timestamp candidate of the union it has the value of a candidate that all
branches show, or else of the best candidate of the branch. -/
structure FromBranch (first : Plan) (rest : List Plan) (time : EventTime) (b : Plan)
    (base row : Row) : Prop where
  visible : ∀ i < first.select.sources, row[i]? = base[i]?
  time : ∀ c ∈ time.columns, (c ∈ commonTimes first rest ∧ row[c]? = base[c]?) ∨
    commonTimes first rest = [] ∧ ∃ k, b.time.best? = some k ∧ row[c]? = base[k.column]?

/-- A branch that shows its timestamp has its columns and its best candidate. -/
theorem columns_of_exposeTime {width : Nat} {rel : Rel}
    (h : exposeTime width (b, position) = .ok rel) :
    ∃ outputs k, rel = .project b.rel outputs none ∧ b.time.best? = some k ∧
      outputs.map Output.expr = (List.range width ++ [k.column]).map Expr.column := by
  unfold exposeTime at h
  split at h
  · cases h
  · rename_i column hcolumn
    obtain ⟨k, hk, rfl⟩ := Option.map_eq_some_iff.1 hcolumn
    obtain ⟨fields, -, h⟩ := bind_eq_ok.1 h
    obtain ⟨kept, hkept, h⟩ := bind_eq_ok.1 h
    obtain ⟨exposed, hexposed, h⟩ := bind_eq_ok.1 h
    cases h
    refine ⟨_, k, rfl, hk, ?_⟩
    rw [List.map_append, List.map_append,
      map_of_mapM_eq_ok (fun _ _ ho => Output.expr_of_column ho) (orFault_eq_ok.1 hkept)]
    simp [Output.expr_of_renamed (lift_eq_ok.1 hexposed)]

/-- A candidate that all branches show is one of each. -/
theorem mem_of_commonTimes {i : Nat} (h : i ∈ commonTimes first rest) :
    i < first.select.sources ∧ ∀ b ∈ first :: rest, i ∈ b.time.columns := by
  rw [commonTimes, List.mem_filter, Bool.and_eq_true, decide_eq_true_eq, List.all_eq_true] at h
  obtain ⟨hfirst, hlt, hrest⟩ := h
  refine ⟨hlt, List.forall_mem_cons.2 ⟨hfirst, fun b hb => ?_⟩⟩
  exact EventTime.isCandidate_iff.1 (hrest b hb)

/-- Common candidates stay when the first branch keeps those alone. -/
theorem columns_of_commonTimes (hsome : commonTimes first rest ≠ []) :
    (first.time.restrictTo (commonTimes first rest)).columns ≠ [] := by
  obtain ⟨i, hi⟩ := List.exists_mem_of_ne_nil _ hsome
  rw [EventTime.columns_restrictTo]
  exact List.ne_nil_of_mem (List.mem_filter.2
    ⟨(mem_of_commonTimes hi).2 first List.mem_cons_self, List.contains_iff_mem.2 hi⟩)

/-- A row that a union takes, beside a row of a plan that stands for a branch: it shows
the same, and its times are candidates there, chosen ones if no candidate is common. -/
structure BesideBranch (first : Plan) (rest : List Plan) (time : EventTime) (branch : Plan)
    (chosen : TimeCandidate → Prop) (below row : Row) : Prop where
  visible : ∀ i < first.select.sources, row[i]? = below[i]?
  time : ∀ c ∈ time.columns, ∃ k ∈ branch.time.candidates,
    row[c]? = below[k.column]? ∧ (commonTimes first rest = [] → chosen k)

/-- Beside the branch itself, the best candidate is the chosen one. -/
theorem FromBranch.beside {time : EventTime} (hmem : b ∈ first :: rest)
    (h : FromBranch first rest time b base row) :
    BesideBranch first rest time b (b.time.best? = some ·) base row := by
  refine ⟨h.visible, fun c hc => ?_⟩
  rcases h.time c hc with ⟨hcommon, hvalue⟩ | ⟨-, k, hk, hvalue⟩
  · obtain ⟨k, hk, rfl⟩ := List.mem_map.1 ((mem_of_commonTimes hcommon).2 b hmem)
    exact ⟨k, hk, hvalue, fun hnone => absurd hcommon (hnone ▸ List.not_mem_nil)⟩
  · exact ⟨k, EventTime.best?_mem hk, hvalue, fun _ => hk⟩

/-- Beside the final result, which may hide more columns, that candidate leads. -/
theorem FromBranch.beside_final {final : Plan} {columns fewer : List Nat} {time : EventTime}
    {origin below : Row} (hb : plan.ArrangedAs b fewer) (hf : plan.ArrangedAs final columns)
    (hfewer : ∀ c ∈ fewer, c ∈ columns) (hmem : b ∈ first :: rest)
    (hsources : plan.select.sources = first.select.sources)
    (hbase : origin.Keeps fewer base) (hbelow : origin.Keeps columns below)
    (hrow : FromBranch first rest time b base row) :
    BesideBranch first rest time final (· ∈ final.time.leaders) below row := by
  have hvisible : ∀ i < first.select.sources, row[i]? = below[i]? := by
    intro i hi
    have hget := List.getElem?_eq_getElem (l := plan.select.targets) (hsources ▸ hi)
    rw [hrow.visible i hi, hb.visible hbase hget, hf.visible hbelow hget]
  refine ⟨hvisible, fun c hc => ?_⟩
  rcases hrow.time c hc with ⟨hcommon, -⟩ | ⟨-, k, hk, hvalue⟩
  · obtain ⟨hlt, hall⟩ := mem_of_commonTimes hcommon
    obtain ⟨k, hk, rfl⟩ := List.mem_map.1 ((hf.visible_candidate (hsources ▸ hlt)).2
      ((hb.visible_candidate (hsources ▸ hlt)).1 (hall b hmem)))
    exact ⟨k, hk, hvisible _ hlt, fun hnone => absurd hcommon (hnone ▸ List.not_mem_nil)⟩
  · obtain ⟨d, hd, i, hi, rfl⟩ :=
      hb.time.leader hb.best_position (EventTime.leader_of_best? hk)
    obtain ⟨j, hj⟩ := position_of_mem (hfewer d.column (mem_of_position hi))
    have hlead := hf.time.leads hd hj
    refine ⟨_, EventTime.candidate_of_leader hlead, ?_, fun _ => hlead⟩
    rw [hvalue, ArrangedAs.value hbase hi, ArrangedAs.value hbelow hj]

/-- Rows that a union takes, beside those of a plan that stands for their branch. -/
structure PartBeside (first : Plan) (rest : List Plan) (time : EventTime)
    (chosen : EventTime → TimeCandidate → Prop) (branch : Plan × List Row) (part : List Row) :
    Prop where
  select : branch.1.select.targets = List.range first.select.sources
  rows : List.Forall₂ (BesideBranch first rest time branch.1 (chosen branch.1.time)) branch.2 part

end Plan

end StreamPlan
