import StreamPlan.Proofs.Answers.Pending
import StreamPlan.Proofs.Plan.Intervals
import StreamPlan.Proofs.Safety.Overflow

/-!
# When planning a query overflows

Planning an operator plans its inputs first, from left to right. So the arithmetic of planning a
query is that of the operators it gets to, one after another: planning overflows exactly if a
result of theirs does not fit into 64 bits.

* `Converter.GetsTo`, `Converter.OperatorResult`, `Converter.Result`: the inputs that planning an
  operator gets to, the results of the operator itself, and all results.
* `Converter.computes_and_branches`: these are what planning a query computes.
* `Converter.convert_overflows_iff`: **planning a query overflows exactly if a result does not
  fit**, and never if the lengths of time that the query mentions fit together.
* `Converter.longTimes`: queries that overflow, each in another place.
-/

namespace StreamPlan.Converter

variable {c : Converter} {n : Nat}

/-- Planning the operator at the top of a query gets to an input: nothing is refused before. -/
inductive GetsTo (c : Converter) : Rel → Rel → Prop
  | filter {input predicate} : GetsTo c (.filter input predicate) input
  | project {input outputs bare} (read : bareOf input outputs = .ok bare) :
    GetsTo c (.project input outputs none) input
  | sorted {input order limit outputs hint columns}
      (ranked : rankedColumns input outputs = .ok columns) :
      GetsTo c (.project (.sort input order limit none) outputs (some hint)) input
  | ranked {input outputs hint columns}
      (unsorted : ∀ below order limit offset, input ≠ .sort below order limit offset)
      (ranked : rankedColumns input outputs = .ok columns) :
      GetsTo c (.project input outputs (some hint)) input
  | left {left right kind condition hint} (fits : joinProblem? kind condition = none) :
      GetsTo c (.join left right kind condition hint) left
  | right {left right kind condition hint plan} (fits : joinProblem? kind condition = none)
      (planned : c.convert left = .ok plan) : GetsTo c (.join left right kind condition hint) right
  | aggregate {input keys groupingSets calls hint}
      (fits : Plan.aggregateProblem? groupingSets calls = none) :
      GetsTo c (.aggregate input keys groupingSets calls hint) input
  | branch {before input after plans} (planned : c.convertBranches 0 before = .ok plans) :
      GetsTo c (.union (before ++ input :: after) true) input
  | sort {input order limit} : GetsTo c (.sort input order limit none) input

/-- The results of planning the operator at the top of a query. -/
inductive OperatorResult (c : Converter) : Rel → Int → Prop
  | filter {input predicate plan r} (planned : c.convert input = .ok plan)
      (result : plan.FilterResult predicate r) : OperatorResult c (.filter input predicate) r
  | project {input outputs bare plan r} (read : bareOf input outputs = .ok bare)
      (planned : c.convert input = .ok plan) (result : ProjectedResult plan bare outputs r) :
      OperatorResult c (.project input outputs none) r
  | condition {left right kind condition hint l m r} (fits : joinProblem? kind condition = none)
      (left_planned : c.convert left = .ok l) (right_planned : c.convert right = .ok m)
      (result : JoinInputs.ConditionResult l m condition r) :
      OperatorResult c (.join left right kind condition hint) r
  | window {left right kind condition hint l m j r} (fits : joinProblem? kind condition = none)
      (left_planned : c.convert left = .ok l) (right_planned : c.convert right = .ok m)
      (inputs : JoinInputs.of l m kind condition = .ok j) (result : c.JoinedResult j r) :
      OperatorResult c (.join left right kind condition hint) r

/-- The results of planning a query: of its operator, and of the inputs that planning gets to. -/
inductive Result (c : Converter) : Rel → Int → Prop
  | operator {q r} (result : c.OperatorResult q r) : Result c q r
  | input {q s r} (gets : c.GetsTo q s) (result : Result c s r) : Result c q r

/-- The results of planning the branches of a union. -/
def BranchesResult (c : Converter) (position : Nat) (qs : List Rel) (r : Int) : Prop :=
  ∃ before q after plans, qs = before ++ q :: after ∧
    c.convertBranches position before = .ok plans ∧ c.Result q r

theorem result_iff {q : Rel} {r : Int} :
    c.Result q r ↔ c.OperatorResult q r ∨ ∃ s, c.GetsTo q s ∧ c.Result s r := by
  constructor
  · rintro (hresult | ⟨hgets, hresult⟩)
    · exact .inl hresult
    · exact .inr ⟨_, hgets, hresult⟩
  · rintro (hresult | ⟨s, hgets, hresult⟩)
    · exact .operator hresult
    · exact .input hgets hresult

theorem rejecting_computes {problem : Option PlanError} {f : Unit → Planning Plan} {R : Int → Prop}
    (h : Computes (f ()) R) :
    Computes (rejecting problem >>= f) fun r => problem = none ∧ R r := by
  cases problem with
  | none => exact h.congr fun r => by simp
  | some e => exact (computes_refuse e).congr fun r => by simp

theorem finish_inRange {plan : Plan} (h : plan.WellFormed c.catalog n) :
    Safe IsNoOverflow (c.finish plan) fun _ => True := (finish_safe c h).mono fun _ _ => trivial

/-- The plans of a query are well formed and show its columns. -/
def PlansShow (c : Converter) (q : Rel) : Prop :=
  ∀ plan, c.convert q = .ok plan → Shows c.catalog (q.span c.catalog) q.width plan

/-- Planning a query computes its results. -/
def ComputesResult (c : Converter) (q : Rel) : Prop := Computes (c.convert q) (c.Result q)

/-- Planning the branches of a union from a position on computes their results. -/
def ComputesBranches (c : Converter) (position : Nat) (qs : List Rel) : Prop :=
  Computes (c.convertBranches position qs) (c.BranchesResult position qs)

section Operators

variable {input : Rel}

theorem computes_scan (hl : c.catalog.Linked) (hs : c.catalog.Sane) {relation : RelationId}
    {name : String} {fields : Fields} (hf : c.catalog.fields relation = .ok fields) :
    c.ComputesResult (.scan relation name fields) := by
  have hsafe : Safe IsNoOverflow (c.convert (.scan relation name fields)) fun _ => True := by
    rw [convert]
    exact (scanPlan_safe hl hs hf).bind fun plan hplan => finish_inRange hplan.1
  refine hsafe.computes.congr fun r => iff_of_false id ?_
  rintro (⟨⟨⟩⟩ | ⟨⟨⟩, -⟩)

theorem computes_filter {predicate : Expr} (h : c.ComputesResult input)
    (hplan : c.PlansShow input)
    (hp : ∀ i ∈ predicate.references, i < input.width) :
    c.ComputesResult (.filter input predicate) := by
  unfold ComputesResult at h ⊢
  rw [convert]
  refine (h.bind (S := fun plan => plan.FilterResult predicate) fun plan hok => ?_).congr
    fun r => ?_
  · obtain ⟨hw, hsel⟩ := hplan plan hok
    rw [← hsel] at hp
    refine (Plan.filtered_computes hw hp).bind_safe fun out hout => ?_
    have hfiltered : Safe (fun _ => True) (plan.filtered predicate) _ :=
      Plan.filtered_safe hw hp fun _ => trivial
    exact finish_inRange (hfiltered.2 out hout).1
  · constructor
    · rintro (hr | ⟨plan, hok, hr⟩)
      · exact .input .filter hr
      · exact .operator (.filter hok hr)
    · intro hr
      rcases result_iff.1 hr with hr | ⟨s, hs, hr⟩
      · cases hr with
        | filter hok hr => exact .inr ⟨_, hok, hr⟩
      · cases hs with
        | filter => exact .inl hr

theorem computes_project {outputs : List Output} (h : c.ComputesResult input)
    (hplan : c.PlansShow input)
    (hf : input.Fits c.catalog) (ho : ∀ o ∈ outputs, ∀ i ∈ o.expr.references, i < input.width)
    (hc : outputs.length < Position.countLimit) :
    c.ComputesResult (.project input outputs none) := by
  unfold ComputesResult at h ⊢
  rw [convert]
  have hbare : Safe IsNoOverflow (bareOf input outputs) _ := bareOf_gives hf
  refine (hbare.bind_computes (S := fun bare r => c.Result input r ∨ ∃ plan,
    c.convert input = .ok plan ∧ ProjectedResult plan bare outputs r)
      fun bare _ hcolumns => ?_).congr fun r => ?_
  · refine h.bind fun plan hok => ?_
    obtain ⟨hw, hsel⟩ := hplan plan hok
    rw [← hsel] at ho hcolumns
    refine (projected_computes hw (fun columns hb => (hcolumns columns hb).2) ho hc).bind_safe
      fun out hout => ?_
    have hprojected : Safe (fun _ => True) (projected plan bare outputs) _ :=
      projected_safe hw hcolumns ho hc fun _ => trivial
    exact (finish_draft_safe c (hprojected.2 out hout).1 fun _ _ => by rintro ⟨⟩).mono
      fun _ _ => trivial
  · constructor
    · rintro ⟨bare, hread, hr | ⟨plan, hok, hr⟩⟩
      · exact .input (.project hread) hr
      · exact .operator (.project hread hok hr)
    · intro hr
      rcases result_iff.1 hr with hr | ⟨s, hs, hr⟩
      · cases hr with
        | project hread hok hr => exact ⟨_, hread, .inr ⟨_, hok, hr⟩⟩
      · cases hs with
        | project hread => exact ⟨_, hread, .inl hr⟩

/-- A ranking of a sorted input, or of one that is no sort. -/
theorem computes_ranked {q : Rel} (outputs : List Output) (order : SortOrder) (limit : Option Nat)
    {hint : RankingHint} (h : c.ComputesResult input)
    (hplan : c.PlansShow input)
    (hf : input.Fits c.catalog) (hp : ∀ i ∈ hint.partition, i < input.width)
    (ho : ∀ i ∈ SortOrder.columns order, i < input.width)
    (hq : c.convert q = do
      let columns ← rankedColumns input outputs
      let plan ← c.convert input
      c.finish (← plan.ranked hint columns outputs order limit))
    (hgets : ∀ s, c.GetsTo q s ↔ s = input ∧ ∃ columns, rankedColumns input outputs = .ok columns)
    (hnone : ∀ r, ¬c.OperatorResult q r) : c.ComputesResult q := by
  unfold ComputesResult at h ⊢
  rw [hq]
  have hcolumns : Safe IsNoOverflow (rankedColumns input outputs) fun columns =>
      ∀ i ∈ columns, i < input.width := by
    unfold rankedColumns
    refine (bareOf_gives hf).bind fun bare hbare => ?_
    rcases bare with _ | columns
    · exact .refuse
    · exact .ok (hbare columns rfl).2
  refine (hcolumns.bind_computes (S := fun _ => c.Result input) fun columns _ hlt => ?_).congr
    fun r => ?_
  · refine h.bind_safe fun plan hok => ?_
    obtain ⟨hw, hsel⟩ := hplan plan hok
    rw [← hsel] at hp ho hlt
    exact (Plan.ranked_safe hw hp hlt ho).bind fun out hout => finish_inRange hout.1
  · constructor
    · rintro ⟨columns, hcolumns, hr⟩
      exact .input ((hgets input).2 ⟨rfl, columns, hcolumns⟩) hr
    · intro hr
      obtain ⟨s, hs, hr⟩ := (result_iff.1 hr).resolve_left (hnone r)
      obtain ⟨rfl, columns, hcolumns⟩ := (hgets s).1 hs
      exact ⟨columns, hcolumns, hr⟩

theorem computes_join {left right : Rel} {kind : JoinKind} {condition : Expr}
    {hint : Option JoinHint} (hl : c.ComputesResult left) (hr : c.ComputesResult right)
    (hlinked : c.catalog.Linked) (hleft : c.PlansShow left) (hright : c.PlansShow right)
    (hc : ∀ i ∈ condition.references, i < left.width + right.width) :
    c.ComputesResult (.join left right kind condition hint) := by
  unfold ComputesResult at hl hr ⊢
  rw [convert]
  refine (rejecting_computes (R := fun r => c.Result left r ∨ ∃ l, c.convert left = .ok l ∧
    (c.Result right r ∨ ∃ m, c.convert right = .ok m ∧
      (JoinInputs.ConditionResult l m condition r ∨ ∃ j, JoinInputs.of l m kind condition = .ok j ∧
        c.JoinedResult j r))) ?_).congr fun r => ?_
  · refine hl.bind fun l hlok => hr.bind fun m hmok => ?_
    obtain ⟨hlw, hls⟩ := hleft l hlok
    obtain ⟨hmw, hms⟩ := hright m hmok
    rw [← hls, ← hms] at hc
    refine (JoinInputs.of_computes hlw hmw hc).bind fun j hj => ?_
    have hinputs : Safe (fun _ => True) (JoinInputs.of l m kind condition) _ :=
      JoinInputs.of_safe hlw hmw hc (Nat.le_refl _) fun _ => trivial
    obtain ⟨hfits, -⟩ := hinputs.2 j hj
    refine (joined_computes hfits hlinked).bind_safe fun out hout => ?_
    have hjoined : Safe (fun _ => True) (c.joined j) _ := joined_safe hfits hlinked fun _ => trivial
    exact finish_inRange (hjoined.2 out hout).1
  · constructor
    · rintro ⟨hfits, hr | ⟨l, hlok, hr | ⟨m, hmok, hr | ⟨j, hj, hr⟩⟩⟩⟩
      · exact .input (.left hfits) hr
      · exact .input (.right hfits hlok) hr
      · exact .operator (.condition hfits hlok hmok hr)
      · exact .operator (.window hfits hlok hmok hj hr)
    · intro hr
      rcases result_iff.1 hr with hr | ⟨s, hs, hr⟩
      · cases hr with
        | condition hfits hlok hmok hr => exact ⟨hfits, .inr ⟨_, hlok, .inr ⟨_, hmok, .inl hr⟩⟩⟩
        | window hfits hlok hmok hj hr =>
          exact ⟨hfits, .inr ⟨_, hlok, .inr ⟨_, hmok, .inr ⟨_, hj, hr⟩⟩⟩⟩
      · cases hs with
        | left hfits => exact ⟨hfits, .inl hr⟩
        | right hfits hlok => exact ⟨hfits, .inr ⟨_, hlok, .inl hr⟩⟩

theorem computes_aggregate {keys : List Nat} {groupingSets : List (List Nat)}
    {calls : List AggregateCall} {hint : Option AggregateHint} (h : c.ComputesResult input)
    (hplan : c.PlansShow input)
    (hpending : c.catalog.PendingFits) (hk : ∀ i ∈ keys, i < input.width)
    (hc : ∀ call ∈ calls, ∀ i ∈ call.columns, i < input.width) :
    c.ComputesResult (.aggregate input keys groupingSets calls hint) := by
  unfold ComputesResult at h ⊢
  rw [convert]
  refine (rejecting_computes (h.bind_safe fun plan hok => ?_)).congr fun r => ?_
  · obtain ⟨hw, hsel⟩ := hplan plan hok
    rw [← hsel] at hk hc
    -- the interval that a window slides by fits, since it was pending
    have hslide : ∀ f, plan.nowFilter = some f → ¬Millis.Fits f.interval →
        IsNoOverflow .arithmeticOverflow :=
      fun f hf hfits => absurd (pendingFits_of_convert hpending hok f hf) hfits
    exact (Plan.aggregated_safe hw hk hc hslide).bind fun out hout => finish_inRange hout.1
  · rw [Option.map_eq_none_iff]
    constructor
    · rintro ⟨hfits, hr⟩
      exact .input (.aggregate hfits) hr
    · intro hr
      rcases result_iff.1 hr with ⟨⟨⟩⟩ | ⟨s, hs, hr⟩
      cases hs with
      | aggregate hfits => exact ⟨hfits, hr⟩

theorem computes_sort {order : SortOrder} {limit offset : Option Nat} (h : c.ComputesResult input)
    (hplan : c.PlansShow input)
    (ho : ∀ i ∈ SortOrder.columns order, i < input.width) :
    c.ComputesResult (.sort input order limit offset) := by
  unfold ComputesResult at h ⊢
  rw [convert]
  refine (rejecting_computes (h.bind_safe fun plan hok => ?_)).congr fun r => ?_
  · obtain ⟨hw, hsel⟩ := hplan plan hok
    rw [← hsel] at ho
    exact (Plan.sorted_safe hw ho).bind fun out hout => finish_inRange hout.1
  · constructor
    · rintro ⟨hfits, hr⟩
      cases offset with
      | none => exact .input .sort hr
      | some _ => cases hfits
    · intro hr
      rcases result_iff.1 hr with ⟨⟨⟩⟩ | ⟨s, hs, hr⟩
      cases hs with
      | sort => exact ⟨rfl, hr⟩

theorem result_union_iff {inputs : List Rel} {all : Bool} {r : Int} :
    c.Result (.union inputs all) r ↔ all = true ∧ c.BranchesResult 0 inputs r := by
  constructor
  · intro hr
    rcases result_iff.1 hr with ⟨⟨⟩⟩ | ⟨s, hs, hbelow⟩
    cases hs with
    | branch hplanned => exact ⟨rfl, _, _, _, _, rfl, hplanned, hbelow⟩
  · rintro ⟨rfl, before, q, after, plans, rfl, hplanned, hr⟩
    exact .input (.branch hplanned) hr

theorem branchesResult_nil {position : Nat} {r : Int} : ¬c.BranchesResult position [] r := by
  rintro ⟨before, q, after, plans, he, -⟩
  simp at he

theorem branchesResult_cons {position : Nat} {qs : List Rel} {r : Int} :
    c.BranchesResult position (input :: qs) r ↔ c.Result input r ∨ ∃ plan,
      c.convert input = .ok plan ∧ ∃ b, plan.asBranch position = .ok b ∧
        c.BranchesResult (position + 1) qs r := by
  constructor
  · rintro ⟨before, q, after, plans, he, hplanned, hr⟩
    rcases before with _ | ⟨first, before⟩
    · obtain ⟨rfl, -⟩ := List.cons.inj he
      exact .inl hr
    · obtain ⟨rfl, rfl⟩ := List.cons.inj he
      rw [convertBranches] at hplanned
      obtain ⟨plan, hok, hplanned⟩ := bind_eq_ok.1 hplanned
      obtain ⟨b, hb, hplanned⟩ := bind_eq_ok.1 hplanned
      obtain ⟨rest, hrest, -⟩ := bind_eq_ok.1 hplanned
      exact .inr ⟨plan, hok, b, hb, before, q, after, rest, rfl, hrest, hr⟩
  · rintro (hr | ⟨plan, hok, b, hb, before, q, after, rest, rfl, hrest, hr⟩)
    · exact ⟨[], input, qs, [], rfl, by rw [convertBranches]; rfl, hr⟩
    · refine ⟨input :: before, q, after, b :: rest, rfl, ?_, hr⟩
      rw [convertBranches, hok, ok_bind, hb, ok_bind, hrest]
      rfl

/-- The branches of a union, one after another. -/
theorem computes_branches {position : Nat} {qs : List Rel} (h : c.ComputesResult input)
    (hplan : c.PlansShow input) (hc : input.width < Position.countLimit)
    (hrest : c.ComputesBranches (position + 1) qs) : c.ComputesBranches position (input :: qs) := by
  unfold ComputesBranches ComputesResult at *
  rw [convertBranches]
  refine (h.bind fun plan hok => ?_).congr fun r => branchesResult_cons.symm
  obtain ⟨hw, hsel⟩ := hplan plan hok
  refine (Plan.asBranch_safe hw (hsel ▸ hc)).bind_computes fun b _ _ => ?_
  exact hrest.bind_safe fun _ _ => .ok trivial

theorem computes_no_union {all : Bool} : c.ComputesResult (.union [] all) := by
  unfold ComputesResult
  rw [convert]
  refine (rejecting_computes (computes_refuse _)).congr fun r => iff_of_false And.right ?_
  rw [result_union_iff]
  exact fun hr => branchesResult_nil hr.2

theorem computes_one_branch {all : Bool} (h : c.ComputesResult input) (hplan : c.PlansShow input) :
    c.ComputesResult (.union [input] all) := by
  unfold ComputesResult at h ⊢
  rw [convert]
  refine (rejecting_computes (h.bind_safe fun plan hok => finish_inRange (hplan plan hok).1)).congr
    fun r => ?_
  have hbranch : c.BranchesResult 0 [input] r ↔ c.Result input r := by
    rw [branchesResult_cons, or_iff_left]
    rintro ⟨plan, -, branch, -, hnone⟩
    exact branchesResult_nil hnone
  rw [result_union_iff, hbranch]
  refine and_congr_left fun _ => ?_
  cases all <;> simp

theorem computes_union {first second : Rel} {rest : List Rel} {all : Bool}
    (h : c.ComputesResult first) (hplan : c.PlansShow first) (hc : first.width < Position.countLimit)
    (hrest : c.ComputesBranches 1 (second :: rest))
    (hbranches : ∀ plans, c.convertBranches 1 (second :: rest) = .ok plans →
      ∀ b ∈ plans, b.Branch c.catalog n) :
    c.ComputesResult (.union (first :: second :: rest) all) := by
  unfold ComputesResult ComputesBranches at *
  rw [convert_union]
  refine (rejecting_computes (R := c.BranchesResult 0 (first :: second :: rest)) ?_).congr
    fun r => ?_
  · refine (h.bind fun plan hok => ?_).congr fun r => branchesResult_cons.symm
    obtain ⟨hw, hsel⟩ := hplan plan hok
    -- all branches mention times that are at most this long
    let long := first.span c.catalog + n
    have hw : plan.WellFormed c.catalog long := hw.mono (Nat.le_add_right _ _)
    refine (Plan.asBranch_safe hw (hsel ▸ hc)).bind_computes fun b _ ⟨hb, hbs⟩ => ?_
    refine hrest.bind_safe fun branches hok => ?_
    have hlater : ∀ b ∈ branches, b.Branch c.catalog long :=
      fun b hb => (hbranches branches hok b hb).mono (Nat.le_add_left _ _)
    have hcount : b.select.sources < Position.countLimit := by rw [hbs, hsel]; exact hc
    exact (Plan.united_safe hb hlater hcount).bind fun out hout => finish_inRange hout.1
  · rw [result_union_iff]
    refine and_congr_left fun _ => ?_
    cases all <;> simp

end Operators

/-- Planning queries, alone and as branches, computes their results. -/
theorem computes_and_branches (hl : c.catalog.Linked) (hs : c.catalog.Sane)
    (hpending : c.catalog.PendingFits) :
    (∀ q : Rel, q.Fits c.catalog → q.Narrow → c.ComputesResult q) ∧
      ∀ (position : Nat) (qs : List Rel), Rel.FitsAll c.catalog qs → (∀ q ∈ qs, q.Narrow) →
        c.ComputesBranches position qs := by
  have hplan : ∀ q : Rel, q.Fits c.catalog → q.Narrow → c.PlansShow q :=
    fun q hf hn plan hok => (convert_safe hl hs hf hn).2 plan hok
  refine convert.mutual_induct _ _ ?scan ?filter ?project ?offset ?sorted ?ranked ?join ?aggregate
    ?union ?sort ?unnest ?firstRows ?noBranch ?branch
  case scan =>
    intro relation name fields hf _
    rw [Rel.Fits] at hf
    exact computes_scan hl hs hf
  case filter =>
    intro input predicate ih hf hn
    rw [Rel.Fits] at hf
    have hn : input.Narrow := hn.input (by simp [Rel.inputs])
    exact computes_filter (ih hf.1 hn) (hplan input hf.1 hn) hf.2
  case project =>
    intro input outputs ih hf hn
    rw [Rel.Fits] at hf
    have hwidth := hn.width
    rw [Rel.width] at hwidth
    have hn : input.Narrow := hn.input (by simp [Rel.inputs])
    exact computes_project (ih hf.1 hn) (hplan input hf.1 hn) hf.1 hf.2.1 hwidth
  case sorted =>
    intro input order limit outputs hint ih hf hn
    rw [Rel.Fits, Rel.Fits, Rel.width] at hf
    have hsort : (Rel.sort input order limit none).Narrow := hn.input (by simp [Rel.inputs])
    have hn : input.Narrow := hsort.input (by simp [Rel.inputs])
    refine computes_ranked outputs order limit (ih hf.1.1 hn) (hplan input hf.1.1 hn) hf.1.1
      (hf.2.2 hint rfl) hf.1.2 (by rw [convert]) (fun s => ⟨?_, ?_⟩) (by rintro _ ⟨⟩)
    · intro hgets
      cases hgets with
      | sorted hcolumns => exact ⟨rfl, _, hcolumns⟩
      | ranked hunsorted => exact absurd rfl (hunsorted _ _ _ _)
    · rintro ⟨rfl, columns, hcolumns⟩
      exact .sorted hcolumns
  case ranked =>
    intro input outputs hint hoffset hsort ih hf hn
    rw [Rel.Fits] at hf
    have hn : input.Narrow := hn.input (by simp [Rel.inputs])
    have hno : ∀ i ∈ SortOrder.columns [], i < input.width := fun i hi => by cases hi
    refine computes_ranked outputs [] none (ih hf.1 hn) (hplan input hf.1 hn) hf.1 (hf.2.2 hint rfl)
      hno ?_ (fun s => ⟨?_, ?_⟩) (by rintro _ ⟨⟩)
    · rw [convert]
      · exact hoffset
      · exact hsort
    · intro hgets
      cases hgets with
      | sorted => exact absurd rfl (hsort _ _ _)
      | ranked _ hcolumns => exact ⟨rfl, _, hcolumns⟩
    · rintro ⟨rfl, columns, hcolumns⟩
      refine .ranked (fun below order limit offset he => ?_) hcolumns
      cases offset with
      | none => exact hsort below order limit he
      | some k => exact hoffset below order limit k he
  case join =>
    intro left right kind condition hint ihl ihr hf hn
    rw [Rel.Fits] at hf
    have hln : left.Narrow := hn.input (by simp [Rel.inputs])
    have hrn : right.Narrow := hn.input (by simp [Rel.inputs])
    exact computes_join (ihl hf.1 hln) (ihr hf.2.1 hrn) hl (hplan left hf.1 hln)
      (hplan right hf.2.1 hrn) hf.2.2
  case aggregate =>
    intro input keys groupingSets calls hint ih hf hn
    rw [Rel.Fits] at hf
    have hn : input.Narrow := hn.input (by simp [Rel.inputs])
    exact computes_aggregate (ih hf.1 hn) (hplan input hf.1 hn) hpending hf.2.1 hf.2.2
  case union =>
    intro inputs all ih hf hn
    rw [Rel.Fits] at hf
    have hbelow : ∀ q ∈ inputs, q.Narrow := fun q hq => hn.input hq
    rcases inputs with _ | ⟨first, _ | ⟨second, rest⟩⟩
    · exact computes_no_union
    · rw [Rel.FitsAll] at hf
      exact computes_one_branch (ih hf.1 (hbelow first List.mem_cons_self))
        (hplan first hf.1 (hbelow first List.mem_cons_self))
    · rw [Rel.FitsAll] at hf
      have hfirst := hbelow first List.mem_cons_self
      have hothers : ∀ q ∈ second :: rest, q.Narrow := fun q hq =>
        hbelow q (List.mem_cons_of_mem first hq)
      have hbranches := ((plans_and_branches hl hs).2 1 (second :: rest) hf.2 hothers).2
      exact computes_union (ih.1 hf.1 hfirst) (hplan first hf.1 hfirst) hfirst.width
        (ih.2 hf.2 hothers) hbranches
  case sort =>
    intro input order limit offset ih hf hn
    rw [Rel.Fits] at hf
    have hn : input.Narrow := hn.input (by simp [Rel.inputs])
    exact computes_sort (ih hf.1 hn) (hplan input hf.1 hn) hf.2
  case noBranch =>
    intro position _ _
    unfold ComputesBranches
    rw [convertBranches]
    exact (computes_ok _).congr fun r => iff_of_false id branchesResult_nil
  case branch =>
    intro position q qs ihq ihqs hf hn
    rw [Rel.FitsAll] at hf
    have hq := hn q List.mem_cons_self
    exact computes_branches (ihq hf.1 hq) (hplan q hf.1 hq) hq.width
      (ihqs hf.2 fun r hr => hn r (List.mem_cons_of_mem q hr))
  -- what is refused at once
  case offset =>
    intro input order limit k outputs hint _ _
    unfold ComputesResult
    rw [convert]
    refine (computes_refuse _).congr fun r => iff_of_false id fun hr => ?_
    rcases result_iff.1 hr with ⟨⟨⟩⟩ | ⟨s, hs, -⟩
    cases hs with
    | ranked hunsorted => exact hunsorted _ _ _ _ rfl
  all_goals
    intros
    unfold ComputesResult
    rw [convert]
    refine (computes_refuse _).congr fun r => iff_of_false id ?_
    rintro (⟨⟨⟩⟩ | ⟨⟨⟩, -⟩)

/-- **Planning a query overflows exactly if a result does not fit** into 64 bits. That does not
happen if the lengths of time that the query mentions fit together. -/
theorem convert_overflows_iff {q : Rel} (hb : c.catalog.Built) (hs : c.catalog.Sane)
    (hpending : c.catalog.PendingFits) (hf : q.Fits c.catalog) (hn : q.Narrow) :
    (c.convert q = .error (.fault .arithmeticOverflow) ↔ ∃ r, c.Result q r ∧ ¬Millis.Fits r) ∧
      ((q.span c.catalog : Int) ≤ Millis.greatest → ∀ r, c.Result q r → Millis.Fits r) := by
  have hover : c.ComputesResult q := (computes_and_branches hb.linked hs hpending).1 q hf hn
  refine ⟨hover, fun hspan r hr => ?_⟩
  by_contra hfits
  -- a result that does not fit is an overflow, which takes longer times than those mentioned
  rcases (convert_safe hb.linked hs hf hn).1 _ (hover.2 ⟨r, hr, hfits⟩) with ⟨-, hlong⟩ | ⟨_, hw, -⟩
  · omega
  · cases hw

/-- The longest and the least length of time of 64 bits. -/
def longest : Expr := .interval Millis.greatest

def least : Expr := .interval Millis.least

/-- Events under a condition on their time. -/
def eventsAfter (time : Expr) : Rel := .filter scannedEvents (.binary .gt (.column 1) time)

def eventsBefore (time : Expr) : Rel := .filter scannedEvents (.binary .lt (.column 1) time)

/-- The ends of the minutes of events. -/
def minutesOf (events : Rel) : Rel :=
  .project events
    [⟨.column 0, ⟨"id", .int64, false⟩⟩, ⟨.call .endOfMinute [.column 1], ⟨"at", .timestamp, true⟩⟩]
    none

theorem overPlainEvents_sane (stage : Stage) : (overPlainEvents stage).catalog.Sane := by
  constructor
  · intro table ht
    obtain rfl := List.mem_singleton.1 ht
    refine ⟨plainKeys_one rfl, fun i hi => ?_, (by rintro f ⟨⟩), (fun i hi => by cases hi),
      (fun i hi => by cases hi)⟩
    obtain rfl := List.mem_singleton.1 hi
    exact ⟨_, rfl, rfl⟩
  · intro view hv
    obtain rfl := List.mem_singleton.1 hv
    exact plainKeys_one rfl

theorem overPlainEvents_pendingFits (stage : Stage) :
    (overPlainEvents stage).catalog.PendingFits := by
  intro table ht filter hf
  obtain rfl := List.mem_singleton.1 ht
  cases hf

theorem scannedEvents_width : scannedEvents.width = 2 := rfl

theorem scannedEvents_fits (stage : Stage) :
    scannedEvents.Fits (overPlainEvents stage).catalog := by
  rw [scannedEvents, Rel.Fits]
  rfl

/-- **The longest time fits**, if nothing is added to it. -/
theorem longest_time_fits :
    let c := overPlainEvents (.stream "stream")
    let q := eventsAfter (.binary .minus .now longest)
    c.catalog.Built ∧ c.catalog.Sane ∧ c.catalog.PendingFits ∧ q.Fits c.catalog ∧ q.Narrow ∧
      (q.span c.catalog : Int) ≤ Millis.greatest ∧ ∀ r, c.Result q r → Millis.Fits r := by
  intro c q
  have hf : q.Fits c.catalog := by
    simp only [q, eventsAfter, Rel.Fits]
    exact ⟨scannedEvents_fits _, by decide⟩
  have hn : q.Narrow := by
    simp [q, eventsAfter, scannedEvents, eventsTable, Rel.Narrow, Rel.preorder, Rel.width,
      Position.countLimit]
  have hspan : (q.span c.catalog : Int) ≤ Millis.greatest := by
    simp only [q, eventsAfter, scannedEvents, Rel.span]
    decide
  refine ⟨overPlainEvents_built _, overPlainEvents_sane _, overPlainEvents_pendingFits _, hf, hn,
    hspan, (convert_overflows_iff (overPlainEvents_built _) (overPlainEvents_sane _)
      (overPlainEvents_pendingFits _) hf hn).2 hspan⟩

/-- Queries that mention lengths of time of 64 bits, each with a result that does not fit: a sum on
the way to a time, a length that is taken off, the difference of two times, a bound on old events
that is turned around, the now-filter on the ends of minutes, and a side of a join's window. -/
def longTimes : List Rel :=
  [eventsAfter (.binary .minus (.binary .plus (.binary .plus .now longest) (.interval 1))
      (.interval 2)),
    eventsAfter (.binary .minus .now least),
    eventsAfter (.binary .plus .now least),
    eventsBefore (.binary .plus .now least),
    minutesOf (eventsAfter (.binary .minus .now longest)),
    .join scannedEvents scannedEvents .inner
      (.binary .lt (.column 1) (.binary .plus (.column 3) least)) none]

theorem longTimes_fits (stage : Stage) :
    ∀ q ∈ longTimes, q.Fits (overPlainEvents stage).catalog ∧ q.Narrow := by
  have hf : ∀ q ∈ longTimes, q.Fits (overPlainEvents stage).catalog := by
    simp [longTimes, eventsAfter, eventsBefore, minutesOf, Rel.Fits, Rel.width, scannedEvents_fits,
      scannedEvents_width, Expr.references, Expr.referencesOfAll, Expr.now, longest, least,
      Expr.interval]
  have hn : ∀ q ∈ longTimes, q.Narrow := by
    simp [longTimes, eventsAfter, eventsBefore, minutesOf, scannedEvents, eventsTable, Rel.Narrow,
      Rel.preorder, Rel.width, Position.countLimit]
  exact fun q hq => ⟨hf q hq, hn q hq⟩

/-- **Planning any of them overflows**, although the first says no more than a single length of
time that is planned. -/
theorem long_times_overflow :
    let c := overPlainEvents (.stream "stream")
    c.catalog.Built ∧ c.catalog.Sane ∧ c.catalog.PendingFits ∧
      (∀ q ∈ longTimes, q.Fits c.catalog ∧ q.Narrow ∧
        c.convert q = .error (.fault .arithmeticOverflow)) ∧
      ∃ plan, c.convert (eventsAfter (.binary .plus .now (.interval (Millis.greatest - 1))))
        = .ok plan := by
  intro c
  have hover : ∀ q ∈ longTimes, c.convert q = .error (.fault .arithmeticOverflow) := by
    simp only [longTimes, List.forall_mem_cons]
    exact ⟨rfl, rfl, rfl, rfl, rfl, rfl, by simp⟩
  refine ⟨overPlainEvents_built _, overPlainEvents_sane _, overPlainEvents_pendingFits _,
    fun q hq => ?_, _, rfl⟩
  obtain ⟨hf, hn⟩ := longTimes_fits _ q hq
  exact ⟨hf, hn, hover q hq⟩

end StreamPlan.Converter
