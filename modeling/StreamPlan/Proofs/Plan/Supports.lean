import StreamPlan.Proofs.Plan.Coverage

/-!
# Stages that can run a query

The functions and calls of a query declare capabilities, which the stage of its
plan must support. Conditions on the current time are the exception: a filter
takes them out as a now-filter, which needs the current time only once it is
applied, and which an aggregation may turn into a sliding window before that.

* `Rel.Declares`: what the expressions and calls of an operator need.
* `Plan.MeetsNow`: a now-filter is still pending, or the stage knows the current
  time. Every operator passes that on but a sliding window.
* `Converter.stage_supports_query`: **a stage supports what a query declares**,
  and knows the current time where a now-filter has been applied.
-/

namespace StreamPlan

/-- An operator of a query has a function or an aggregate call that declares a
capability. -/
def Rel.Declares (op : Rel) (cap : Capability) : Prop :=
  match op with
  | .filter _ predicate => cap ∈ predicate.capabilities
  | .project _ outputs _ => ∃ o ∈ outputs, cap ∈ o.expr.capabilities
  | .aggregate _ _ _ calls _ => ∃ call ∈ calls, call.capability = some cap
  | _ => False

namespace Plan

variable {plan out : Plan}

/-- A now-filter is still pending, or the stage knows the current time. -/
def MeetsNow (plan : Plan) : Prop :=
  plan.nowFilter.isSome = true ∨ plan.needs.stage.supports .nowFunction = true

/-- A pending now-filter that is kept, or that has been applied. -/
theorem MeetsNow.of (h : plan.MeetsNow) (hs : out.needs.stage = plan.needs.stage)
    (hn : plan.nowFilter.isSome = true → out.MeetsNow) : out.MeetsNow :=
  h.elim hn fun hnow => .inr (hs ▸ hnow)

/-- An applied now-filter needs a stage that knows the current time. -/
theorem MeetsNow.withoutNowFilter (h : plan.MeetsNow) (ho : plan.withoutNowFilter = .ok out) :
    out.needs.stage.supports .nowFunction = true := by
  rcases withoutNowFilter_eq_ok ho with ⟨hn, rfl⟩ | ⟨f, needs, -, hr, rfl⟩
  · exact h.resolve_left (by rw [hn]; decide)
  · exact Requirements.supports_of_require hr

theorem MeetsNow.withoutTopN (h : plan.MeetsNow) (ho : plan.withoutTopN = .ok out) :
    out.MeetsNow :=
  h.of (builtOn_withoutTopN ho).needs.stage fun hn =>
    .inl (by rw [(withoutTopN_settled ho).2.2]; exact hn)

theorem MeetsNow.withoutPending (h : plan.MeetsNow) (ho : plan.withoutPending = .ok out) :
    out.needs.stage.supports .nowFunction = true := by
  obtain ⟨mid, hmid, ho⟩ := withoutPending_eq_ok.1 ho
  exact (builtOn_withoutTopN ho).needs.stage ▸ h.withoutNowFilter hmid

/-- **A filter** requires what its conditions need, unless it takes them out. -/
theorem filtered_takes {predicate : Expr} (h : plan.filtered predicate = .ok out) :
    (plan.nowFilter.isSome = true → out.nowFilter.isSome = true) ∧
      ∀ k ∈ predicate.conjuncts, (∀ cap ∈ k.capabilities, cap ∈ out.needs.required) ∨
        out.nowFilter.isSome = true ∧ ∃ moved f, k.remap plan.select.apply = .ok moved ∧
          statedNowFilter plan.time moved = .ok (some f) := by
  unfold filtered at h
  obtain ⟨base, hbase, h⟩ := bind_eq_ok.1 h
  obtain ⟨moved, hmoved, h⟩ := bind_eq_ok.1 h
  obtain ⟨⟨next, remaining⟩, hnext, h⟩ := bind_eq_ok.1 h
  obtain ⟨hset, -, hnow⟩ := withoutTopN_settled hbase
  obtain ⟨hpending, htaken⟩ := extractNowFilters_takes hnext
  have hout : out.nowFilter = next.nowFilter ∧
      ∀ k ∈ remaining, ∀ cap ∈ k.capabilities, cap ∈ out.needs.required := by
    simp only at h
    split at h
    · rename_i hnone
      cases h
      rw [List.isEmpty_iff.1 hnone]
      exact ⟨rfl, by simp⟩
    · obtain ⟨needs, hneeds, h⟩ := bind_eq_ok.1 h
      cases h
      exact ⟨rfl, (Requirements.requireExprs_eq_ok (needing_eq_ok.1 hneeds)).2⟩
  rw [hout.1, ← hnow, ← hset.select, ← hset.time]
  refine ⟨hpending, fun k hk => ?_⟩
  -- every written condition is one of the moved ones
  obtain ⟨condition, hmem, hmoves⟩ :=
    exists_of_mem_left (Expr.conjuncts_remap (lift_eq_ok.1 hmoved)) hk
  rcases htaken condition hmem with hremains | ⟨hsome, f, hf⟩
  · refine .inl fun cap hcap => hout.2 _ hremains cap ?_
    rwa [Expr.capabilities_remap hmoves]
  · exact .inr ⟨hsome, condition, f, hmoves, hf⟩

theorem MeetsNow.filtered {predicate : Expr} (h : plan.MeetsNow)
    (ho : plan.filtered predicate = .ok out) : out.MeetsNow :=
  h.of (builtOn_filtered ho).needs.stage fun hn => .inl ((filtered_takes ho).1 hn)

/-- **Computed outputs** require what the functions in them need. -/
theorem computed_requires {outputs : List Output} (h : plan.computed outputs = .ok out) :
    ∀ o ∈ outputs, ∀ cap ∈ o.expr.capabilities, cap ∈ out.needs.required := by
  obtain ⟨base, needs, moved, -, hmoved, hneeds, h⟩ := computed_eq_ok h
  obtain ⟨-, hrequired⟩ := Requirements.requireExprs_eq_ok hneeds
  intro o ho cap hcap
  obtain ⟨o', ho', hremap⟩ := exists_of_mem_left (mapM_eq_ok.1 hmoved) ho
  obtain ⟨e, he, hremap⟩ := bind_eq_ok.1 hremap
  cases hremap
  refine (builtOn_projectedTo h).needs.mem cap (hrequired e (List.mem_map.2 ⟨_, ho', rfl⟩) cap ?_)
  rwa [Expr.capabilities_remap he]

theorem MeetsNow.projectedTo {outputs : List Output} (h : plan.MeetsNow)
    (hn : ∀ f, plan.nowFilter = some f → f.timestamp ∈ plan.time.columns)
    (ho : plan.projectedTo outputs = .ok out) : out.MeetsNow := by
  refine h.of (builtOn_projectedTo ho).needs.stage fun hpending => ?_
  obtain ⟨below, carried, hcarry, ho⟩ := projectedTo_eq_ok ho
  obtain ⟨_, _, _, _, -, -, -, -, rfl⟩ := withOutputs_eq_ok ho
  cases hcarry with
  | same hsame =>
    rcases nowFilter_of_placed hsame hn with ⟨hnone, -⟩ | ⟨f, j, -, -, hcarried⟩
    · rw [hnone] at hpending
      cases hpending
    · exact .inl (congrArg Option.isSome hcarried)
  | widened hmove =>
    refine .inl ?_
    simp only [hmove]
    rfl
  | applied _ _ _ hb =>
    have hnow := MeetsNow.withoutNowFilter (.inl hpending) hb
    exact .inr hnow

theorem MeetsNow.computed {outputs : List Output} (h : plan.MeetsNow) (hs : plan.Sound)
    (ho : plan.computed outputs = .ok out) : out.MeetsNow := by
  obtain ⟨base, needs, moved, hbase, -, hneeds, ho⟩ := computed_eq_ok ho
  have hsb := (withoutTopN_settled hbase).1.sound hs
  have hstage := (Requirements.requireExprs_eq_ok hneeds).1.stage
  have hrecorded : MeetsNow { base with needs } :=
    (h.withoutTopN hbase).of hstage .inl
  exact hrecorded.projectedTo hsb.nowFilter ho

/-- A plan whose input has applied what was pending. -/
theorem MeetsNow.settled {base : Plan} (h : plan.MeetsNow) (hb : plan.withoutPending = .ok base)
    (hs : out.needs.stage = plan.needs.stage) : out.MeetsNow :=
  .inr (by rw [hs, ← (builtOn_withoutPending hb).needs.stage]; exact h.withoutPending hb)

theorem MeetsNow.projected {bare : Option (List Nat)} {outputs : List Output} (h : plan.MeetsNow)
    (hs : plan.Sound) (ho : Converter.projected plan bare outputs = .ok out) : out.MeetsNow := by
  unfold Converter.projected at ho
  split at ho
  · exact h.computed hs ho
  · obtain ⟨picked, hpicked, ho⟩ := bind_eq_ok.1 ho
    rcases picked with _ | picked
    · exact h.computed hs ho
    · cases ho
      obtain ⟨_, rel, _, -, -, -, rfl⟩ := picked?_eq_ok (lift_eq_ok.1 hpicked)
      exact h

theorem MeetsNow.ranked {hint : RankingHint} {columns : List Nat} {outputs : List Output}
    {order : SortOrder} {limit : Option Nat} (h : plan.MeetsNow)
    (ho : plan.ranked hint columns outputs order limit = .ok out) : out.MeetsNow := by
  obtain ⟨base, _, _, _, _, _, _, hbase, -⟩ := ranked_eq_ok ho
  exact h.settled hbase (builtOn_ranked ho).needs.stage

theorem MeetsNow.sorted {order : SortOrder} {limit : Option Nat} (h : plan.MeetsNow)
    (ho : plan.sorted order limit = .ok out) : out.MeetsNow := by
  have hstage := (builtOn_sorted ho).needs.stage
  unfold Plan.sorted at ho
  obtain ⟨moved, -, ho⟩ := bind_eq_ok.1 ho
  rcases limit with _ | n
  · cases ho
    exact h
  · obtain ⟨base, hbase, ho⟩ := bind_eq_ok.1 ho
    exact h.settled hbase hstage

theorem MeetsNow.asBranch {position : Nat} (h : plan.MeetsNow)
    (ho : plan.asBranch position = .ok out) : out.needs.stage.supports .nowFunction = true := by
  have hstage := (builtOn_asBranch ho).needs.stage
  unfold Plan.asBranch at ho
  obtain ⟨base, hbase, -⟩ := bind_eq_ok.1 ho
  rw [hstage, ← (builtOn_withoutPending hbase).needs.stage]
  exact h.withoutPending hbase

/-- A plan of a sliding window. -/
def Slides (plan : Plan) : Prop :=
  ∃ input keys calls timestamp window slide,
    plan.rel = .aggregate input keys [] calls (some (.sliding timestamp window slide))

/-- A now-filter goes on above a group, or it has been applied. -/
theorem MeetsNow.carryOver {timestamp : Nat} {below : Plan} {carried : Option NowFilter}
    (h : plan.MeetsNow) (ho : plan.carryOver timestamp = .ok (below, carried)) :
    (∃ f, carried = some f ∧ f.timestamp = timestamp) ∨
      below.needs.stage.supports .nowFunction = true := by
  unfold Plan.carryOver at ho
  split at ho
  · rename_i hnone
    cases ho
    exact .inr (h.resolve_left (by rw [hnone]; decide))
  · rename_i filter hfilter
    split at ho
    · rename_i htimestamp
      cases ho
      exact .inl ⟨filter, rfl, htimestamp⟩
    · obtain ⟨next, hnext, ho⟩ := bind_eq_ok.1 ho
      cases ho
      exact .inr (h.withoutNowFilter hnext)

/-- Requirements that were added are on the same stage. -/
theorem MeetsNow.withNeeds {needs : Requirements} (h : plan.MeetsNow)
    (hn : plan.needs.Extends needs) : MeetsNow { plan with needs } :=
  h.of hn.stage .inl

/-- **An aggregation** keeps a now-filter, applies it, or slides. -/
theorem MeetsNow.aggregated {c : Converter} {keys : List Nat} {calls : List AggregateCall}
    (h : plan.MeetsNow) (ho : plan.aggregated c keys calls = .ok out) :
    out.MeetsNow ∨ out.Slides := by
  obtain ⟨base, needs, columns, moved, hbase, -, -, hneeds, hout⟩ := aggregated_cases ho
  have hb : MeetsNow { base with sort := [], needs } :=
    (h.withoutTopN hbase).withNeeds (Requirements.requireCalls_eq_ok hneeds).1
  cases hout with
  | @timed _ _ timestamp hidden _ _ _ _ _ _ _ hrequire hcarry hmem _ hgrouped =>
    obtain ⟨_, _, rfl⟩ := groupedAs_eq_ok hgrouped
    rcases (hb.withNeeds (Requirements.require_eq_ok hrequire).1).carryOver hcarry with
      ⟨f, rfl, rfl⟩ | hsupports
    · obtain ⟨p, hp, -⟩ := @GroupLayout.position?_of_mem columns hidden moved.length _ hmem
      refine .inl (.inl ?_)
      simp only [Option.bind_some, NowFilter.remap, hp]
      rfl
    · exact .inl (.inr hsupports)
  -- here the now-filter is gone: it is the window
  | sliding _ _ hgrouped =>
    obtain ⟨_, _, rfl⟩ := groupedAs_eq_ok hgrouped
    exact .inr ⟨_, _, _, _, _, _, rfl⟩
  | running hrun =>
    obtain ⟨_, _, _, _, _, _, _, hrequire, hbelow, -, -, -, rfl⟩ := running_eq_ok hrun
    have hsupports :=
      (hb.withNeeds (Requirements.require_eq_ok hrequire).1).withoutNowFilter hbelow
    exact .inl (.inr hsupports)
  | plain hbelow hgrouped =>
    obtain ⟨_, _, rfl⟩ := groupedAs_eq_ok hgrouped
    have hsupports := hb.withoutPending hbelow
    exact .inl (.inr hsupports)

end Plan

namespace JoinInputs

variable {c : Converter} {j : JoinInputs} {input out : Plan}

/-- **A join** applies the now-filters of its inputs, or keeps that of a stream. -/
theorem meetsNow_joined (hi : input = j.left ∨ input = j.right) (hs : j.needs.stage = input.needs.stage)
    (h : input.MeetsNow) (ho : c.joined j = .ok out) : out.MeetsNow := by
  have hstage : out.needs.stage = input.needs.stage :=
    (Converter.joined_recorded ho).needs.stage.trans hs
  have happlied : ∀ l r, j.left.withoutPending = .ok l → j.right.withoutPending = .ok r →
      out.MeetsNow := by
    intro l r hl hr
    rcases hi with rfl | rfl
    · exact h.settled hl hstage
    · exact h.settled hr hstage
  rcases Converter.joined_eq_ok ho with ho | ho | ho | ho
  · obtain ⟨_, _, _, -, -, hmay, -, -⟩ := selfJoin?_eq_ok (Converter.attempt_eq_ok ho)
    -- entities are joined with themselves only where nothing is pending
    obtain ⟨⟨hleft, -⟩, ⟨hright, -⟩, -⟩ := settled_of_mayMerge hmay
    refine h.of hstage fun hpending => ?_
    rcases hi with rfl | rfl
    · rw [hleft] at hpending
      cases hpending
    · rw [hright] at hpending
      cases hpending
  · obtain ⟨sides, hsides, ho⟩ := temporalJoin?_eq_ok (Converter.attempt_eq_ok ho)
    obtain ⟨stream, table, _, hstream, htable, -, -, -, hnow, -⟩ := temporalPlan_eq_ok ho
    have hroles : input = sides.stream ∨ input = sides.table := by
      rcases (temporalShape_eq_ok hsides).1.roles with ⟨-, h1, h2, -⟩ | ⟨-, -, h1, h2, -⟩
      · rwa [h1, h2]
      · rw [h1, h2]
        exact hi.symm
    rcases hroles with rfl | rfl
    · rcases readyStream_eq_ok hstream with ⟨-, rfl⟩ | hready
      · exact h.of hstage fun hpending => .inl (hnow ▸ hpending)
      · exact h.settled hready hstage
    · exact h.settled htable hstage
  · obtain ⟨window, -, ho⟩ := intervalJoin?_eq_ok (Converter.attempt_eq_ok ho)
    obtain ⟨l, r, _, hl, hr, -⟩ := intervalPlan_eq_ok ho
    exact happlied l r hl hr
  · obtain ⟨l, r, _, hl, hr, -⟩ := statePlan_eq_ok ho
    exact happlied l r hl hr

end JoinInputs

namespace Converter

variable {c : Converter} {q : Rel} {plan out : Plan}

/-- Columns of an input call no functions. -/
theorem capabilities_of_bare {input : Rel} {outputs : List Output} {columns : List Nat}
    (h : bareOf input outputs = .ok (some columns)) : ∀ o ∈ outputs, o.expr.capabilities = [] := by
  obtain ⟨fields, -, h⟩ := bind_eq_ok.1 h
  intro o ho
  obtain ⟨column, -, hcolumn, -⟩ :=
    exists_of_mem_left (Plan.bareColumns_eq_some.1 (pure_eq_ok.1 h)) ho
  rw [hcolumn]
  rfl

/-- **A projection** requires what the functions in its outputs need. -/
theorem projected_requires {input : Rel} {outputs : List Output} {bare : Option (List Nat)}
    (hb : bareOf input outputs = .ok bare) (h : projected plan bare outputs = .ok out) :
    ∀ o ∈ outputs, ∀ cap ∈ o.expr.capabilities, cap ∈ out.needs.required := by
  rcases bare with _ | columns
  · exact Plan.computed_requires h
  · intro o ho cap hcap
    rw [capabilities_of_bare hb o ho] at hcap
    cases hcap

/-- A filter of a query has a condition that declares a capability and that is a
comparison of a timestamp of the input with the current time. -/
def TakesOut (c : Converter) (op : Rel) (cap : Capability) : Prop :=
  ∃ input predicate k plan moved filter, op = .filter input predicate ∧ k ∈ predicate.conjuncts ∧
    cap ∈ k.capabilities ∧ c.convert input = .ok plan ∧ k.remap plan.select.apply = .ok moved ∧
    Plan.statedNowFilter plan.time moved = .ok (some filter)

/-- Above an operator, the query has an aggregation that is planned as a sliding window. -/
def SlidesAbove (c : Converter) (q op : Rel) : Prop :=
  ∃ input keys sets calls hint plan out, .aggregate input keys sets calls hint ∈ q.preorder ∧
    op ∈ input.preorder ∧ c.convert input = .ok plan ∧ plan.aggregated c keys calls = .ok out ∧
    out.Slides

/-- What an operator of a query declares is required, but for conditions that were
taken out. For these, a now-filter is pending, or the stage knows the current
time, or a window slides. -/
structure Serves (c : Converter) (q : Rel) (plan : Plan) (op : Rel) : Prop where
  declared : ∀ cap, op.Declares cap → cap ∈ plan.needs.required ∨ c.TakesOut op cap
  taken : c.TakesOut op .nowFunction → plan.MeetsNow ∨ c.SlidesAbove q op

theorem SlidesAbove.above {input op : Rel} (h : c.SlidesAbove input op) (hi : input ∈ q.inputs) :
    c.SlidesAbove q op := by
  obtain ⟨below, keys, sets, calls, hint, plan, out, hmem, h⟩ := h
  exact ⟨below, keys, sets, calls, hint, plan, out, Rel.preorder_of_inputs hi _ hmem, h⟩

/-- A plan that requires more serves an operator too, above its query as well. -/
theorem Serves.above {input op : Rel} (h : c.Serves input plan op) (hi : input ∈ q.inputs)
    (hneeds : ∀ cap ∈ plan.needs.required, cap ∈ out.needs.required)
    (hnow : plan.MeetsNow → out.MeetsNow ∨ c.SlidesAbove q op) : c.Serves q out op where
  declared cap hcap := (h.declared cap hcap).imp_left (hneeds cap)
  taken htakes := (h.taken htakes).elim hnow fun hslides => .inr (hslides.above hi)

/-- An operator without functions and calls. -/
theorem serves_of_silent {op : Rel} (hd : ∀ cap, ¬op.Declares cap)
    (hf : ∀ input predicate, op ≠ .filter input predicate) : c.Serves q out op where
  declared cap hcap := absurd hcap (hd cap)
  taken := by
    rintro ⟨input, predicate, _, _, _, _, rfl, -⟩
    exact absurd rfl (hf input predicate)

/-- A plan serves the operators of a query, on a stage that the conversion knows. -/
structure ServesAll (c : Converter) (q : Rel) (plan : Plan) : Prop where
  known : c.Known plan.needs
  serves : ∀ op ∈ q.preorder, c.Serves q plan op

/-- An operator over one input, whose plan is built on that of the input. -/
theorem ServesAll.step {input : Rel} (h : c.ServesAll input plan) (hq : q.inputs = [input])
    (hroot : c.Serves q out q) (hneeds : plan.needs.Extends out.needs)
    (hnow : plan.MeetsNow → out.MeetsNow) : c.ServesAll q out := by
  refine ⟨h.known.extends hneeds, fun op hop => ?_⟩
  rcases Rel.mem_preorder hop with rfl | ⟨other, hother, hbelow⟩
  · exact hroot
  · rw [hq, List.mem_singleton] at hother
    subst hother
    exact (h.serves op hbelow).above (hq ▸ List.mem_cons_self) hneeds.mem fun hm => .inl (hnow hm)

/-- The plan of a filter. -/
theorem ServesAll.filter {input : Rel} {predicate : Expr} (hi : c.Input c.ServesAll input plan)
    (ho : plan.filtered predicate = .ok out) : c.ServesAll (.filter input predicate) out := by
  obtain ⟨-, htakes⟩ := Plan.filtered_takes ho
  have hneeds := (Plan.builtOn_filtered ho).needs
  refine hi.holds.step rfl ⟨fun cap hcap => ?_, ?_⟩ hneeds fun h => h.filtered ho
  · obtain ⟨k, hk, hcap⟩ := Expr.mem_capabilities_conjuncts (e := predicate) hcap
    rcases htakes k hk with hrequired | ⟨-, moved, filter, hmoved, hstated⟩
    · exact .inl (hrequired cap hcap)
    · exact .inr ⟨input, predicate, k, plan, moved, filter, rfl, hk, hcap, hi.convert, hmoved, hstated⟩
  · -- a condition that states a now-filter may remain beside another one
    rintro ⟨_, _, k, _, _, _, he, hk, hcap, -⟩
    cases he
    refine .inl ?_
    rcases htakes k hk with hrequired | ⟨hsome, -⟩
    · exact .inr ((hi.holds.known.extends hneeds).supported _ (hrequired _ hcap))
    · exact .inl hsome

/-- The plan of a projection or of a ranking. -/
theorem ServesAll.project {input : Rel} {outputs : List Output} {hint : Option RankingHint}
    (h : c.ServesAll input plan)
    (hrequired : ∀ o ∈ outputs, ∀ cap ∈ o.expr.capabilities, cap ∈ out.needs.required)
    (hneeds : plan.needs.Extends out.needs) (hnow : plan.MeetsNow → out.MeetsNow) :
    c.ServesAll (.project input outputs hint) out := by
  refine h.step rfl ⟨fun cap => ?_, ?_⟩ hneeds hnow
  · rintro ⟨o, ho, hcap⟩
    exact .inl (hrequired o ho cap hcap)
  · rintro ⟨_, _, _, _, _, _, he, -⟩
    cases he

/-- The plan of a ranking, of the rows of a sort maybe. -/
theorem ServesAll.rank {input : Rel} {hint : RankingHint} {columns : List Nat}
    {outputs : List Output} {order : SortOrder} {limit : Option Nat}
    (hq : Ranks input outputs hint order limit q) (h : c.ServesAll input plan)
    (hcolumns : rankedColumns input outputs = .ok columns)
    (ho : plan.ranked hint columns outputs order limit = .ok out) : c.ServesAll q out := by
  have hneeds := (Plan.builtOn_ranked ho).needs
  have hrequired : ∀ o ∈ outputs, ∀ cap ∈ o.expr.capabilities, cap ∈ out.needs.required := by
    obtain ⟨bare, hbare, hcolumns⟩ := bind_eq_ok.1 hcolumns
    rcases bare with _ | bare
    · cases hcolumns
    · intro o ho cap hcap
      rw [capabilities_of_bare hbare o ho] at hcap
      cases hcap
  cases hq with
  | bare => exact h.project hrequired hneeds fun h => h.ranked ho
  | sorted =>
    have hsort : c.ServesAll (.sort input order limit none) plan :=
      h.step rfl (serves_of_silent (fun _ h => h) (by rintro _ _ ⟨⟩)) (.refl _) id
    exact hsort.project hrequired hneeds fun h => h.ranked ho

/-- The plan of a join. -/
theorem ServesAll.join {left right : Rel} {l r : Plan} {kind : JoinKind} {condition : Expr}
    {hint : Option JoinHint} {j : JoinInputs} (hl : c.ServesAll left l) (hr : c.ServesAll right r)
    (hj : JoinInputs.of l r kind condition = .ok j) (ho : c.joined j = .ok out) :
    c.ServesAll (.join left right kind condition hint) out := by
  have hneeds := JoinInputs.needs_of hj
  obtain ⟨hname, hstage⟩ := combine_eq_ok hneeds
  have hsame := hl.known.stage_eq hr.known hname
  obtain ⟨rfl, rfl, -⟩ := JoinInputs.of_eq_ok hj
  have hextends := (joined_recorded ho).needs
  refine ⟨(hl.known.combine hr.known hneeds).extends hextends, fun op hop => ?_⟩
  rcases Rel.mem_preorder hop with rfl | ⟨input, hinput, hbelow⟩
  · exact serves_of_silent (fun _ h => h) (by rintro _ _ ⟨⟩)
  · rcases List.mem_cons.1 hinput with rfl | hinput
    · refine (hl.serves op hbelow).above List.mem_cons_self (fun cap hcap =>
        hextends.mem cap (mem_of_combine hneeds (.inl hcap))) fun h => .inl ?_
      exact JoinInputs.meetsNow_joined (.inl rfl) (by rw [hstage]) h ho
    · obtain rfl := List.mem_singleton.1 hinput
      refine (hr.serves op hbelow).above (List.mem_cons_of_mem _ List.mem_cons_self) (fun cap hcap =>
        hextends.mem cap (mem_of_combine hneeds (.inr hcap))) fun h => .inl ?_
      exact JoinInputs.meetsNow_joined (.inr rfl) (by rw [hstage, hsame]) h ho

/-- The plan of an aggregation. -/
theorem ServesAll.aggregate {input : Rel} {keys : List Nat} {sets : List (List Nat)}
    {calls : List AggregateCall} {hint : Option AggregateHint} (hi : c.Input c.ServesAll input plan)
    (ho : plan.aggregated c keys calls = .ok out) :
    c.ServesAll (.aggregate input keys sets calls hint) out := by
  obtain ⟨hbuilt, hcalls⟩ := Plan.aggregated_requires ho
  refine ⟨hi.holds.known.extends hbuilt.needs, fun op hop => ?_⟩
  rcases Rel.mem_preorder hop with rfl | ⟨other, hother, hbelow⟩
  · refine ⟨fun cap => ?_, ?_⟩
    · rintro ⟨call, hcall, hcap⟩
      exact .inl (hcalls call hcall cap hcap)
    · rintro ⟨_, _, _, _, _, _, he, -⟩
      cases he
  · obtain rfl := List.mem_singleton.1 hother
    refine (hi.holds.serves op hbelow).above List.mem_cons_self hbuilt.needs.mem fun h => ?_
    refine (h.aggregated ho).imp_right fun hslides => ?_
    exact ⟨_, keys, sets, calls, hint, plan, out, Rel.self_mem_preorder _, hbelow, hi.convert,
      ho, hslides⟩

/-- The plan of a union. Its branches have applied what was pending. -/
theorem ServesAll.union {inputs : List Rel} {first : Plan} {rest : List Plan} {all : Bool}
    (h : List.Forall₂ (fun q => BranchOf (c.ServesAll q)) inputs (first :: rest))
    (ho : Plan.united first rest = .ok out) : c.ServesAll (.union inputs all) out := by
  obtain ⟨hneeds, hknown, -⟩ := united_recorded (c := c) ho
  have hbranches : ∀ b ∈ first :: rest, c.Known b.needs := by
    intro b hb
    obtain ⟨_, -, plan, position, -, hplan, hbranch⟩ := exists_of_mem_right h hb
    exact hplan.known.extends (Plan.builtOn_asBranch hbranch).needs
  obtain ⟨hout, hstages⟩ := hknown hbranches
  refine ⟨hout, fun op hop => ?_⟩
  rcases Rel.mem_preorder hop with rfl | ⟨input, hinput, hbelow⟩
  · exact serves_of_silent (fun _ h => h) (by rintro _ _ ⟨⟩)
  · obtain ⟨b, hb, plan, position, -, hplan, hbranch⟩ := exists_of_mem_left h hinput
    have hextends := (Plan.builtOn_asBranch hbranch).needs
    refine (hplan.serves op hbelow).above hinput
      (fun cap hcap => hneeds b hb cap (hextends.mem cap hcap)) fun hm => .inl (.inr ?_)
    rw [← hstages b hb]
    exact hm.asBranch hbranch

/-- Every operator of a query passes on what its plan supports. -/
theorem follows_servesAll (c : Converter) : c.Follows c.ServesAll where
  scan h := ⟨(scanPlan_covers h).1, fun op hop => by
    obtain rfl := List.mem_singleton.1 hop
    exact serves_of_silent (fun _ h => h) (by rintro _ _ ⟨⟩)⟩
  filter hi ho := ServesAll.filter hi ho
  project hi hbare ho := hi.holds.project (projected_requires hbare ho)
    (Plan.builtOn_projected ho).needs fun h => h.projected hi.sound ho
  rank hq hi hcolumns ho := hi.holds.rank hq hcolumns ho
  join hl hr hj ho := hl.holds.join hr.holds hj ho
  aggregate hi ho := ServesAll.aggregate hi ho
  single h := h.step rfl (serves_of_silent (fun _ h => h) (by rintro _ _ ⟨⟩)) (.refl _) id
  union hfirst hrest ho := ServesAll.union (.cons hfirst hrest) ho
  sort hi ho := hi.holds.step rfl (serves_of_silent (fun _ h => h) (by rintro _ _ ⟨⟩))
    (Plan.builtOn_sorted ho).needs fun h => h.sorted ho
  settle h ho := by
    have hneeds := (Plan.builtOn_withoutPending ho).needs
    refine ⟨h.known.extends hneeds, fun op hop => ?_⟩
    obtain ⟨hdeclared, htaken⟩ := h.serves op hop
    exact ⟨fun cap hcap => (hdeclared cap hcap).imp_left (hneeds.mem cap),
      fun htakes => (htaken htakes).imp_left fun hm => .inr (hm.withoutPending ho)⟩

/-- **A stage supports what a query declares**: every capability of a function or
an aggregate call in its filters, projections and aggregations, except in a
filter's condition that compares a timestamp with the current time. Such a
condition is taken out as a now-filter. Then the stage knows the current time,
or the now-filter is still pending, or a window slides in its place; only the
first and the last remain in a final plan. -/
theorem stage_supports_query (h : c.convert q = .ok plan) :
    (∀ op ∈ q.preorder, ∀ cap, op.Declares cap →
      plan.needs.stage.supports cap = true ∨ c.TakesOut op cap) ∧
    (∀ op ∈ q.preorder, c.TakesOut op .nowFunction →
      plan.needs.stage.supports .nowFunction = true ∨ plan.nowFilter.isSome = true ∨
        c.SlidesAbove q op) ∧
    ∀ final manifest, plan.materialize = .ok (final, manifest) →
      final.needs.stage = plan.needs.stage ∧
      ∀ op ∈ q.preorder, c.TakesOut op .nowFunction →
        plan.needs.stage.supports .nowFunction = true ∨ c.SlidesAbove q op := by
  obtain ⟨-, hplan⟩ := (follows_servesAll c).convert h
  refine ⟨fun op hop cap hcap => ?_, fun op hop htakes => ?_, fun final manifest hfinal => ?_⟩
  · exact ((hplan.serves op hop).declared cap hcap).imp_left (hplan.known.supported cap)
  · rcases (hplan.serves op hop).taken htakes with (hpending | hsupports) | hslides
    · exact .inr (.inl hpending)
    · exact .inl hsupports
    · exact .inr (.inr hslides)
  · obtain ⟨aligned, haligned, hfinal⟩ := bind_eq_ok.1 hfinal
    obtain ⟨_, -, hfinal⟩ := bind_eq_ok.1 hfinal
    obtain ⟨_, -, hfinal⟩ := bind_eq_ok.1 hfinal
    cases hfinal
    have hstage := (Plan.builtOn_align haligned).needs.stage
    refine ⟨hstage, fun op hop htakes => ?_⟩
    refine ((hplan.serves op hop).taken htakes).imp_left fun hm => ?_
    -- a final plan has applied what was pending
    unfold Plan.align at haligned
    obtain ⟨base, hbase, -⟩ := bind_eq_ok.1 haligned
    rw [← (Plan.builtOn_withoutPending hbase).needs.stage]
    exact hm.withoutPending hbase

/-- The recent events of each number, counted. -/
def recentCounts : Rel := .aggregate latestEvents [0] [] [.countRows "count"] none

/-- The rank of a column, for which a stage has to sort. -/
def rankOf (column : Nat) : Expr :=
  .call ⟨"rank_of", .none, .int64, some .sort⟩ [.column column]

/-- Events beside those whose number is their rank. -/
def rankedPairs : Rel :=
  .join scannedEvents scannedEvents .inner (.binary .eq (rankOf 0) (.column 2)) none

/-- A running count, for which a stage has to sort. -/
def sortedCount : AggregateCall := { AggregateCall.countRows "n" with capability := some .sort }

/-- Events with the number of those up to each of them. -/
def runningCounts : Rel :=
  .project scannedEvents
    [⟨.column 0, "id", .int64, false⟩, ⟨.window sortedCount [] [⟨1, .ascending⟩], "n", .int64, true⟩]
    none

/-- **Queries that convert on stages without what they declare.** Without the current
time, recent events are counted in a sliding window, to the end: nothing refuses the
condition that asks for the current time. Without sorting, neither the condition of a
join nor a window is refused, though a filter by the same function is. -/
theorem unsupported_queries_convert :
    (let converter := overPlainEvents ((Stage.stream "stream").without .nowFunction);
      latestEvents ∈ recentCounts.preorder ∧ latestEvents.Declares .nowFunction ∧
        ∃ plan final manifest, converter.convert recentCounts = .ok plan ∧
          plan.materialize = .ok (final, manifest) ∧ plan.Slides ∧
          plan.needs.stage.supports .nowFunction = false ∧
          final.needs.stage.supports .nowFunction = false) ∧
    (let converter := overPlainEvents ((Stage.stream "stream").without .sort);
      .sort ∈ (rankOf 0).capabilities ∧ sortedCount.capability = some .sort ∧
        (∃ plan, converter.convert rankedPairs = .ok plan ∧
          plan.needs.stage.supports .sort = false) ∧
        (∃ plan, converter.convert runningCounts = .ok plan ∧
          plan.needs.stage.supports .sort = false) ∧
        ∃ refused, converter.convert (.filter scannedEvents (.binary .eq (rankOf 0) (.column 0))) =
          .error refused) := by
  refine ⟨⟨List.mem_of_getElem? (i := 1) rfl, ?_, _, _, _, rfl, rfl, ⟨_, _, _, _, _, _, rfl⟩,
    rfl, rfl⟩, by decide, rfl, ⟨_, rfl, rfl⟩, ⟨_, rfl, rfl⟩, _, rfl⟩
  exact @Rel.nowFunction_mem_capabilities scannedEvents _ List.mem_cons_self

/-- Events with the time at which they are seen. -/
def seenEvents : Rel :=
  .project scannedEvents [⟨.column 0, "id", .int64, false⟩, ⟨.now, "seen", .timestamp, true⟩] none

/-- Computed outputs are not taken out: the stage has to know the current time. -/
theorem seen_events_need_now :
    ∃ plan, (overPlainEvents (.stream "stream")).convert seenEvents = .ok plan ∧
      plan.needs.stage.supports .nowFunction = true ∧
      ∃ refused, (overPlainEvents ((Stage.stream "stream").without .nowFunction)).convert seenEvents
        = .error refused := by
  obtain ⟨plan, hplan⟩ : ∃ plan, (overPlainEvents (.stream "stream")).convert seenEvents = .ok plan :=
    ⟨_, rfl⟩
  obtain ⟨hdeclared, -⟩ := stage_supports_query hplan
  have hseen : seenEvents.Declares .nowFunction :=
    ⟨_, List.mem_cons_of_mem _ List.mem_cons_self, by decide⟩
  refine ⟨plan, hplan, (hdeclared _ (Rel.self_mem_preorder _) _ hseen).resolve_right ?_, _, rfl⟩
  rintro ⟨_, _, _, _, _, _, he, -⟩
  cases he

end Converter

end StreamPlan
