import StreamPlan.Proofs.Answers.Pending
import StreamPlan.Proofs.Plan.Join
import StreamPlan.Proofs.Plan.Keeps
import StreamPlan.Proofs.Plan.Requirements
import StreamPlan.Proofs.Plan.Scan

/-!
# Requirements cover the plan

The operators of a plan need capabilities of its stage, which the plan records.

* `JoinInputs.Recorded`: a plan of a join records what its inputs do and what its
  further operators need. It misses constraints that an input left pending: they
  are applied to copies of the inputs, and what that needs is recorded there.
* `Converter.requirements_cover_plan`: **what the operators of a plan need is
  recorded**, except for such constraints.
-/

namespace StreamPlan

namespace JoinInputs

variable {c : Converter} {j : JoinInputs} {out l r : Plan}

/-- A join has applied a constraint that an input left pending and that needs a capability. -/
def Applies (j : JoinInputs) (out : Plan) (cap : Capability) : Prop :=
  (cap ∈ j.left.pendingCapabilities ∨ cap ∈ j.right.pendingCapabilities) ∧
    cap ∉ out.pendingCapabilities

/-- An operator of an input, or one whose needs are recorded unless they are those
of a constraint that the join has applied. -/
def Accounts (j : JoinInputs) (out : Plan) (op : Rel) : Prop :=
  op ∈ j.left.rel.preorder ∨ op ∈ j.right.rel.preorder ∨
    ∀ cap ∈ op.capabilities, cap ∈ out.needs.required ∨ j.Applies out cap

/-- A plan of a join that records what its inputs require and, but for constraints
that it has applied, what its further operators need. -/
structure Recorded (j : JoinInputs) (out : Plan) : Prop where
  needs : j.needs.Extends out.needs
  rel : ∀ op ∈ out.rel.preorder, j.Accounts out op

/-- A join of trees whose operators are accounted for. -/
theorem recorded_join {kind : JoinKind} {condition : Expr} {hint : Option JoinHint}
    (hneeds : j.needs.Extends out.needs)
    (hroot : ∀ cap ∈ out.rel.capabilities, cap ∈ out.needs.required)
    (hrel : out.rel = .join l.rel r.rel kind condition hint)
    (hl : ∀ op ∈ l.rel.preorder, j.Accounts out op) (hr : ∀ op ∈ r.rel.preorder, j.Accounts out op) :
    j.Recorded out := by
  refine ⟨hneeds, fun op hop => ?_⟩
  have hpre : out.rel.preorder = out.rel :: (l.rel.preorder ++ r.rel.preorder) := by
    rw [hrel, Rel.preorder]
  rw [hpre] at hop
  rcases List.mem_cons.1 hop with rfl | hop
  · exact .inr (.inr fun cap hcap => .inl (hroot cap hcap))
  · rcases List.mem_append.1 hop with hop | hop
    · exact hl op hop
    · exact hr op hop

/-- The operators of an input with its pending constraints applied. -/
theorem accounts_withoutPending {input : Plan} (hi : input = j.left ∨ input = j.right)
    (hp : ∀ cap ∈ input.pendingCapabilities, cap ∉ out.pendingCapabilities)
    (h : input.withoutPending = .ok l) : ∀ op ∈ l.rel.preorder, j.Accounts out op := by
  intro op hop
  rcases Plan.adds_withoutPending h op hop with hop | hneeds
  · rcases hi with rfl | rfl
    · exact .inl hop
    · exact .inr (.inl hop)
  · refine .inr (.inr fun cap hcap => .inr ⟨?_, hp cap (hneeds cap hcap)⟩)
    rcases hi with rfl | rfl
    · exact .inl (hneeds cap hcap)
    · exact .inr (hneeds cap hcap)

theorem statePlan_needs (h : j.statePlan = .ok out) :
    j.needs.Extends out.needs ∧ ∀ cap ∈ out.rel.capabilities, cap ∈ out.needs.required := by
  unfold statePlan at h
  obtain ⟨left, -, h⟩ := bind_eq_ok.1 h
  obtain ⟨right, -, h⟩ := bind_eq_ok.1 h
  obtain ⟨key, -, h⟩ := bind_eq_ok.1 h
  obtain ⟨select, -, h⟩ := bind_eq_ok.1 h
  obtain ⟨plan, hplan, h⟩ := bind_eq_ok.1 h
  cases h
  obtain ⟨m, -, rfl⟩ := Plan.ofRel_eq_ok.1 (lift_eq_ok.1 hplan)
  exact ⟨.refl _, by rintro _ ⟨⟩⟩

/-- **A join of current values** needs nothing itself. -/
theorem recorded_statePlan (h : j.statePlan = .ok out) : j.Recorded out := by
  obtain ⟨hneeds, hroot⟩ := statePlan_needs h
  obtain ⟨left, right, hint, hl, hr, -, hrel, -, hnow, htop, -⟩ := statePlan_eq_ok h
  have hnone := Plan.pendingCapabilities_eq_nil hnow (by rw [htop]; rfl)
  refine recorded_join hneeds hroot hrel (accounts_withoutPending (.inl rfl) ?_ hl)
    (accounts_withoutPending (.inr rfl) ?_ hr) <;>
    simp [hnone]

theorem intervalPlan_needs {window : ClosedWindow} (h : j.intervalPlan window = .ok out) :
    j.needs.Extends out.needs ∧ ∀ cap ∈ out.rel.capabilities, cap ∈ out.needs.required := by
  unfold intervalPlan at h
  obtain ⟨left, -, h⟩ := bind_eq_ok.1 h
  obtain ⟨right, -, h⟩ := bind_eq_ok.1 h
  obtain ⟨needs, hneeds, h⟩ := bind_eq_ok.1 h
  obtain ⟨time, -, h⟩ := bind_eq_ok.1 h
  obtain ⟨key, -, h⟩ := bind_eq_ok.1 h
  obtain ⟨plan, hplan, h⟩ := bind_eq_ok.1 h
  obtain ⟨select, -, h⟩ := bind_eq_ok.1 h
  cases h
  obtain ⟨m, -, rfl⟩ := Plan.ofRel_eq_ok.1 (lift_eq_ok.1 hplan)
  obtain ⟨hextends, hjoin⟩ := Requirements.require_eq_ok (needing_eq_ok.1 hneeds)
  exact ⟨hextends, by simpa [Plan.bare, Rel.capabilities] using hjoin⟩

/-- **A join within a bounded time** needs to be one. -/
theorem recorded_intervalPlan {window : ClosedWindow} (h : j.intervalPlan window = .ok out) :
    j.Recorded out := by
  obtain ⟨hneeds, hroot⟩ := intervalPlan_needs h
  obtain ⟨left, right, hint, hl, hr, -, -, hrel, hnow, htop, -⟩ := intervalPlan_eq_ok h
  have hnone := Plan.pendingCapabilities_eq_nil hnow (by rw [htop]; rfl)
  refine recorded_join hneeds hroot hrel (accounts_withoutPending (.inl rfl) ?_ hl)
    (accounts_withoutPending (.inr rfl) ?_ hr) <;>
    simp [hnone]

theorem temporalPlan_needs {sides : TemporalSides} (h : j.temporalPlan sides = .ok out) :
    j.needs.Extends out.needs ∧ ∀ cap ∈ out.rel.capabilities, cap ∈ out.needs.required := by
  unfold temporalPlan at h
  obtain ⟨stream, -, h⟩ := bind_eq_ok.1 h
  obtain ⟨table, -, h⟩ := bind_eq_ok.1 h
  obtain ⟨needs, hneeds, h⟩ := bind_eq_ok.1 h
  obtain ⟨time, -, h⟩ := bind_eq_ok.1 h
  obtain ⟨select, -, h⟩ := bind_eq_ok.1 h
  obtain ⟨plan, hplan, h⟩ := bind_eq_ok.1 h
  cases h
  obtain ⟨m, -, rfl⟩ := Plan.ofRel_eq_ok.1 (lift_eq_ok.1 hplan)
  obtain ⟨hextends, hjoin⟩ := Requirements.require_eq_ok (needing_eq_ok.1 hneeds)
  exact ⟨hextends, by simpa [Plan.bare, Rel.capabilities] using hjoin⟩

/-- The table of a join by time has no now-filter pending. -/
theorem nowFilter_of_temporalProblem? {sides : TemporalSides}
    (h : j.temporalProblem? sides = none) : sides.table.nowFilter = none := by
  unfold temporalProblem? at h
  split at h
  · cases h
  · split at h
    · cases h
    · split at h
      · cases h
      · rename_i hnow
        simpa using hnow

/-- **A join by time** needs to be one. Its stream may keep a now-filter pending. -/
theorem recorded_temporalPlan {sides : TemporalSides} (hs : j.temporalShape = .ok sides)
    (h : j.temporalPlan sides = .ok out) : j.Recorded out := by
  obtain ⟨hneeds, hroot⟩ := temporalPlan_needs h
  obtain ⟨stream, table, hint, hstream, htable, -, -, hrel, hnow, htop, -⟩ := temporalPlan_eq_ok h
  obtain ⟨hof, hproblem⟩ := temporalShape_eq_ok hs
  have hsides := hof.both (I := fun plan => plan = j.left ∨ plan = j.right) (.inl rfl) (.inr rfl)
  have hsort : .sort ∉ out.pendingCapabilities := by
    rw [Plan.pendingCapabilities, htop]
    split <;> decide
  refine recorded_join hneeds hroot hrel ?_ (accounts_withoutPending hsides.2 ?_ htable)
  · rcases readyStream_eq_ok hstream with ⟨-, rfl⟩ | hready
    · intro op hop
      rcases hsides.1 with he | he
      · exact .inl (he ▸ hop)
      · exact .inr (.inl (he ▸ hop))
    · have hnone := Plan.pendingCapabilities_eq_nil
        (hnow.trans (Plan.withoutPending_settled hready).2.1) (by rw [htop]; rfl)
      exact accounts_withoutPending hsides.1 (by simp [hnone]) hready
  · -- only a ranking of the table can have been pending
    intro cap hcap
    obtain ⟨-, rfl⟩ : sides.table.topN.isEmpty = false ∧ cap = .sort := by
      simpa [Plan.pendingCapabilities, nowFilter_of_temporalProblem? hproblem] using hcap
    exact hsort

/-- **An entity joined with itself** needs to unroll the levels that it adds. -/
theorem recorded_mergedPlan {left right : Lineage} {matching : Lineage.Matching}
    (h : j.mergedPlan c left right matching = .ok (some out)) : j.Recorded out := by
  obtain ⟨merged, _, _, _, -, hmerged, -, -, -, rfl⟩ := mergedPlan_eq_ok h
  have hkeeps : j.needs.Extends merged.needs ∧
      j.left.rel.Adds merged.rel merged.needs.required := by
    refine mergeLevels_keeps (I := fun state => j.needs.Extends state.needs ∧
      j.left.rel.Adds state.rel state.needs.required) ?_ ⟨.refl _, .refl _ _⟩ hmerged
    rintro state next level - ⟨hneeds, hrel⟩ hnext
    obtain ⟨_, _, _, _, _, _, -, -, -, -, -, hnextRel, -, -, -, hrequire⟩ := mergeLevel_eq_ok hnext
    obtain ⟨hextends, hdenormalize⟩ := Requirements.require_eq_ok hrequire
    refine ⟨hneeds.trans hextends, ?_⟩
    rw [hnextRel]
    exact (hrel.mono hextends.mem).root rfl (by simpa [Rel.capabilities] using hdenormalize)
  refine ⟨hkeeps.1, fun op hop => ?_⟩
  rcases hkeeps.2 op hop with hop | hneeds
  · exact .inl hop
  · exact .inr (.inr fun cap hcap => .inl (hneeds cap hcap))

end JoinInputs

namespace Converter

variable {c : Converter} {q : Rel} {plan out : Plan}

/-- **A join**, whichever rule its plan comes from. -/
theorem joined_recorded {j : JoinInputs} (h : c.joined j = .ok out) : j.Recorded out := by
  rcases joined_eq_ok h with h | h | h | h
  · obtain ⟨_, _, _, -, -, -, -, hplan⟩ := JoinInputs.selfJoin?_eq_ok (attempt_eq_ok h)
    exact JoinInputs.recorded_mergedPlan hplan
  · obtain ⟨sides, hsides, hplan⟩ := JoinInputs.temporalJoin?_eq_ok (attempt_eq_ok h)
    exact JoinInputs.recorded_temporalPlan hsides hplan
  · obtain ⟨window, -, hplan⟩ := JoinInputs.intervalJoin?_eq_ok (attempt_eq_ok h)
    exact JoinInputs.recorded_intervalPlan hplan
  · exact JoinInputs.recorded_statePlan h

/-- Levels that are unrolled need to be. -/
theorem adds_unrollLevels {path : List Nat} {state final : Unrolled}
    (h : path.foldlM (fun state next => liftM (c.unrollLevel state next)) state
      = (.ok final : Planning Unrolled)) : state.rel.Adds final.rel [.denormalize] :=
  unrollLevels_each (I := fun next => state.rel.Adds next.rel [.denormalize]) (.refl _ _)
    (fun _ _ _ _ _ _ hadds _ _ => hadds.trans ((Rel.Adds.refl _ _).root rfl fun _ hcap => hcap)) h

/-- The plan below levels that are unrolled requires that. -/
theorem builtOn_belowLevels {start : Plan} {path : List Nat}
    (h : belowLevels start path = .ok out) :
    start.BuiltOn out ∧ (path.tail ≠ [] → .denormalize ∈ out.needs.required) := by
  unfold belowLevels at h
  split at h
  · rename_i hshort
    cases h
    refine ⟨.refl _, fun hne => absurd ?_ hne⟩
    exact List.eq_nil_of_length_eq_zero (by rw [List.length_tail]; omega)
  · obtain ⟨needs, hneeds, h⟩ := bind_eq_ok.1 h
    obtain ⟨base, hbase, h⟩ := bind_eq_ok.1 h
    cases h
    have hbelow := Plan.builtOn_withoutTopN hbase
    have hmem := (Requirements.require_eq_ok (needing_eq_ok.1 hneeds)).2
    have hout := (Plan.builtOn_require (needing_eq_ok.1 hneeds)).trans hbelow
    exact ⟨⟨hout.needs, hout.rel⟩, fun _ => hbelow.needs.mem _ hmem⟩

/-- A tree whose operators all have what they need recorded. -/
def Covers (plan : Plan) : Prop :=
  ∀ op ∈ plan.rel.preorder, ∀ cap ∈ op.capabilities, cap ∈ plan.needs.required

/-- A plan over a single scan is covered. -/
theorem covers_of_scan {start : Plan} {relation : RelationId} {name : String} {fields : Fields}
    (hs : start.rel = .scan relation name fields) (h : start.rel.Adds out.rel out.needs.required) :
    Covers out := by
  intro op hop cap hcap
  rcases h op hop with hop | hneeds
  · rw [hs, Rel.preorder, List.mem_singleton] at hop
    subst hop
    cases hcap
  · exact hneeds cap hcap

/-- **A scan** requires what its stage supports, and what unrolling needs. -/
theorem scanPlan_covers {relation : RelationId} (h : c.scanPlan relation = .ok out) :
    c.Known out.needs ∧ Covers out := by
  obtain ⟨table, h⟩ := scanPlan_cases h
  cases h with
  | base _ hneeds | root _ _ _ _ _ hneeds | nested _ _ _ _ _ _ _ hneeds =>
    exact ⟨known_of_scanNeeds hneeds, covers_of_scan rfl (.refl _ _)⟩
  | @unrolled _ _ _ path _ _ _ needs _ _ _ _ _ _ _ _ _ _ _ _ hneeds hstart hunrolled =>
    obtain ⟨hbelow, hlevels⟩ := builtOn_belowLevels hstart
    refine ⟨(known_of_scanNeeds hneeds).extends hbelow.needs,
      @covers_of_scan _ (withPending (.bare _ _ _ needs) _) _ _ _ rfl (hbelow.rel.trans ?_)⟩
    -- without further levels there is nothing to unroll
    rcases hpath : path.tail with _ | ⟨next, rest⟩
    · rw [hpath] at hunrolled
      cases hunrolled
      exact .refl _ _
    · exact (adds_unrollLevels hunrolled).mono (by simpa using hlevels (by rw [hpath]; simp))

/-- A union requires what its branches do, on one stage. -/
theorem foldlM_combine {rest : List Plan} : ∀ {first needs : Requirements},
    rest.foldlM (fun needs branch => combine needs branch.needs) first = .ok needs →
    needs.stage = first.stage ∧ (∀ cap ∈ first.required, cap ∈ needs.required) ∧
      (∀ b ∈ rest, ∀ cap ∈ b.needs.required, cap ∈ needs.required) ∧
      (c.Known first → (∀ b ∈ rest, c.Known b.needs) →
        c.Known needs ∧ ∀ b ∈ rest, b.needs.stage = needs.stage) := by
  induction rest with
  | nil =>
    intro first needs h
    cases h
    exact ⟨rfl, fun _ hcap => hcap, by simp, fun hk _ => ⟨hk, by simp⟩⟩
  | cons b rest ih =>
    intro first needs h
    rw [List.foldlM_cons] at h
    obtain ⟨mid, hmid, h⟩ := bind_eq_ok.1 h
    obtain ⟨hstage, hfirst, hrest, hknown⟩ := ih h
    obtain ⟨hname, hmids⟩ := combine_eq_ok hmid
    have hsame : mid.stage = first.stage := by rw [hmids]
    refine ⟨hstage.trans hsame, fun cap hcap => hfirst cap (mem_of_combine hmid (.inl hcap)),
      List.forall_mem_cons.2 ⟨fun cap hcap => hfirst cap (mem_of_combine hmid (.inr hcap)), hrest⟩,
      fun hk hall => ?_⟩
    obtain ⟨hb, hall⟩ := List.forall_mem_cons.1 hall
    obtain ⟨hneeds, hstages⟩ := hknown (hk.combine hb hmid) hall
    refine ⟨hneeds, List.forall_mem_cons.2 ⟨?_, hstages⟩⟩
    rw [hstage, hsame, hk.stage_eq hb hname]

/-- The tree of a branch, which may show its timestamp once more. -/
theorem adds_unionTrees {first : Plan} {rest : List Plan} {rels : List Rel} {time : EventTime}
    (h : Plan.unionTrees first rest = .ok (rels, time)) :
    ∀ rel ∈ rels, ∃ b ∈ first :: rest, b.rel.Adds rel [] := by
  unfold Plan.unionTrees at h
  simp only at h
  split at h
  · obtain ⟨trees, htrees, h⟩ := bind_eq_ok.1 h
    cases h
    intro rel hrel
    obtain ⟨⟨b, i⟩, hb, hexpose⟩ := mem_of_mapM_eq_ok htrees hrel
    obtain ⟨_, _, _, rfl, -⟩ := Plan.exposeTime_eq_ok hexpose
    exact ⟨b, List.mem_of_getElem? (List.mem_zipIdx_iff_getElem?.1 hb),
      (Rel.Adds.refl _ _).project _ _⟩
  · cases h
    intro rel hrel
    obtain ⟨b, hb, rfl⟩ := List.mem_map.1 hrel
    exact ⟨b, hb, .refl _ _⟩

/-- **A union** requires what its branches do and to be one. -/
theorem united_recorded {first : Plan} {rest : List Plan} (h : Plan.united first rest = .ok out) :
    (∀ b ∈ first :: rest, ∀ cap ∈ b.needs.required, cap ∈ out.needs.required) ∧
      ((∀ b ∈ first :: rest, c.Known b.needs) →
        c.Known out.needs ∧ ∀ b ∈ first :: rest, b.needs.stage = out.needs.stage) ∧
      ∀ op ∈ out.rel.preorder, (∃ b ∈ first :: rest, op ∈ b.rel.preorder) ∨
        ∀ cap ∈ op.capabilities, cap ∈ out.needs.required := by
  unfold Plan.united at h
  split at h
  · cases h
  · obtain ⟨combined, hcombined, h⟩ := bind_eq_ok.1 h
    obtain ⟨needs, hneeds, h⟩ := bind_eq_ok.1 h
    obtain ⟨⟨rels, time⟩, htrees, h⟩ := bind_eq_ok.1 h
    obtain ⟨plan, hplan, h⟩ := bind_eq_ok.1 h
    obtain ⟨select, -, h⟩ := bind_eq_ok.1 h
    cases h
    obtain ⟨m, -, rfl⟩ := Plan.ofRel_eq_ok.1 (lift_eq_ok.1 hplan)
    obtain ⟨hstage, hfirst, hrest, hknown⟩ := foldlM_combine (c := c) hcombined
    obtain ⟨hextends, hunion⟩ := Requirements.require_eq_ok (needing_eq_ok.1 hneeds)
    refine ⟨List.forall_mem_cons.2 ⟨fun cap hcap => hextends.mem cap (hfirst cap hcap),
      fun b hb cap hcap => hextends.mem cap (hrest b hb cap hcap)⟩, fun hall => ?_, fun op hop => ?_⟩
    · obtain ⟨hb, hall⟩ := List.forall_mem_cons.1 hall
      obtain ⟨hcombined, hstages⟩ := hknown hb hall
      exact ⟨hcombined.extends hextends, List.forall_mem_cons.2
        ⟨(hextends.stage.trans hstage).symm, fun b hb => (hstages b hb).trans hextends.stage.symm⟩⟩
    · have hpre : (Rel.union rels true).preorder = .union rels true :: Rel.preorderOfAll rels := by
        rw [Rel.preorder]
      have hop : op ∈ (Rel.union rels true).preorder := hop
      rw [hpre] at hop
      rcases List.mem_cons.1 hop with rfl | hop
      · exact .inr (by simpa [Rel.capabilities, Plan.bare] using hunion)
      · obtain ⟨rel, hrel, hop⟩ := Rel.mem_preorderOfAll.1 hop
        obtain ⟨b, hb, hadds⟩ := adds_unionTrees htrees rel hrel
        rcases hadds op hop with hop | hnone
        · exact .inl ⟨b, hb, hop⟩
        · exact .inr fun cap hcap => by cases hnone cap hcap

/-- A join of the query has applied a constraint that an input left pending and
that needs a capability. -/
def AppliedByJoin (c : Converter) (q : Rel) (cap : Capability) : Prop :=
  ∃ left right kind condition hint l r j out, .join left right kind condition hint ∈ q.preorder ∧
    c.convert left = .ok l ∧ c.convert right = .ok r ∧
    JoinInputs.of l r kind condition = .ok j ∧ c.joined j = .ok out ∧ j.Applies out cap

theorem AppliedByJoin.above {input : Rel} {cap : Capability} (h : c.AppliedByJoin input cap)
    (hi : input ∈ q.inputs) : c.AppliedByJoin q cap := by
  obtain ⟨left, right, kind, condition, hint, l, r, j, out, hmem, h⟩ := h
  exact ⟨left, right, kind, condition, hint, l, r, j, out, Rel.preorder_of_inputs hi _ hmem, h⟩

/-- **What the operators of a plan need is recorded**, but for constraints that a
join of the query has applied. -/
def RequiresOperators (c : Converter) (q : Rel) (plan : Plan) : Prop :=
  ∀ op ∈ plan.rel.preorder, ∀ cap ∈ op.capabilities,
    cap ∈ plan.needs.required ∨ c.AppliedByJoin q cap

theorem RequiresOperators.builtOn (h : c.RequiresOperators q plan) (hb : plan.BuiltOn out) :
    c.RequiresOperators q out := by
  intro op hop cap hcap
  rcases hb.rel op hop with hop | hneeds
  · exact (h op hop cap hcap).imp_left (hb.needs.mem cap)
  · exact .inl (hneeds cap hcap)

theorem RequiresOperators.above {input : Rel} (h : c.RequiresOperators input plan)
    (hi : input ∈ q.inputs) : c.RequiresOperators q plan :=
  fun op hop cap hcap => (h op hop cap hcap).imp_right fun ha => ha.above hi

/-- The plan of a join records what it needs, but for constraints that it has applied. -/
theorem RequiresOperators.joined {left right : Rel} {l r : Plan} {kind : JoinKind}
    {condition : Expr} {hint : Option JoinHint} {j : JoinInputs}
    (hl : c.Input c.RequiresOperators left l) (hr : c.Input c.RequiresOperators right r)
    (hj : JoinInputs.of l r kind condition = .ok j) (ho : c.joined j = .ok out) :
    c.RequiresOperators (.join left right kind condition hint) out := by
  have hneeds := JoinInputs.needs_of hj
  obtain ⟨rfl, rfl, -⟩ := JoinInputs.of_eq_ok hj
  obtain ⟨hextends, hrel⟩ := joined_recorded ho
  intro op hop cap hcap
  rcases hrel op hop with hop | hop | hrecorded
  · rcases hl.holds op hop cap hcap with hmem | happlied
    · exact .inl (hextends.mem cap (mem_of_combine hneeds (.inl hmem)))
    · exact .inr (happlied.above List.mem_cons_self)
  · rcases hr.holds op hop cap hcap with hmem | happlied
    · exact .inl (hextends.mem cap (mem_of_combine hneeds (.inr hmem)))
    · exact .inr (happlied.above (List.mem_cons_of_mem _ List.mem_cons_self))
  · refine (hrecorded cap hcap).imp_right fun happlies => ?_
    exact ⟨left, right, kind, condition, hint, _, _, j, out, Rel.self_mem_preorder _, hl.convert,
      hr.convert, hj, ho, happlies⟩

/-- Every operator of a query passes on what its plan records. -/
theorem follows_requiresOperators (c : Converter) : c.Follows c.RequiresOperators where
  scan h := fun op hop cap hcap => .inl ((scanPlan_covers h).2 op hop cap hcap)
  filter hi ho := (hi.holds.above List.mem_cons_self).builtOn (Plan.builtOn_filtered ho)
  project hi _ ho := (hi.holds.above List.mem_cons_self).builtOn (Plan.builtOn_projected ho)
  rank {q input plan out columns outputs hint order limit} hq hi _ ho := by
    refine RequiresOperators.builtOn ?_ (Plan.builtOn_ranked ho)
    cases hq with
    | bare => exact hi.holds.above List.mem_cons_self
    | sorted order limit =>
      exact (hi.holds.above (q := .sort _ order limit none) List.mem_cons_self).above
        List.mem_cons_self
  join hl hr hj ho := RequiresOperators.joined hl hr hj ho
  aggregate hi ho := (hi.holds.above List.mem_cons_self).builtOn (Plan.aggregated_requires ho).1
  single h := h.above List.mem_cons_self
  union {input inputs first rest out all} hfirst hrest ho := by
    obtain ⟨hneeds, -, hrel⟩ := united_recorded (c := c) ho
    have hbranch : ∀ b ∈ first :: rest, c.RequiresOperators (.union (input :: inputs) all) b := by
      intro b hb
      obtain ⟨q, hq, plan, position, -, hholds, hbranch⟩ := exists_of_mem_right
        (List.Forall₂.cons (R := fun q => BranchOf (c.RequiresOperators q)) hfirst hrest) hb
      exact (hholds.above (q := .union (input :: inputs) all) hq).builtOn
        (Plan.builtOn_asBranch hbranch)
    intro op hop cap hcap
    rcases hrel op hop with ⟨b, hb, hop⟩ | hrecorded
    · exact (hbranch b hb op hop cap hcap).imp_left (hneeds b hb cap)
    · exact .inl (hrecorded cap hcap)
  sort hi ho := (hi.holds.above List.mem_cons_self).builtOn (Plan.builtOn_sorted ho)
  settle h ho := h.builtOn (Plan.builtOn_withoutPending ho)

/-- **Requirements cover the plan**: every operator of the plan of a query, and of
the final plan, has what it needs recorded, and the manifest lists it. The one
exception are constraints that an input of a join left pending and that the join
has applied. -/
theorem requirements_cover_plan (h : c.convert q = .ok plan) :
    c.RequiresOperators q plan ∧ ∀ final manifest, plan.materialize = .ok (final, manifest) →
      c.RequiresOperators q final ∧ manifest.required = final.needs.required := by
  obtain ⟨-, hplan⟩ := (follows_requiresOperators c).convert h
  refine ⟨hplan, fun final manifest hfinal => ?_⟩
  obtain ⟨aligned, haligned, hfinal⟩ := bind_eq_ok.1 hfinal
  obtain ⟨_, -, hfinal⟩ := bind_eq_ok.1 hfinal
  obtain ⟨_, hmanifest, hfinal⟩ := bind_eq_ok.1 hfinal
  cases hfinal
  refine ⟨hplan.builtOn (Plan.builtOn_align haligned), ?_⟩
  obtain ⟨fields, -, hmanifest⟩ := bind_eq_ok.1 (lift_eq_ok.1 hmanifest)
  cases hmanifest
  rfl

/-- Events of the last 100 milliseconds. -/
def latestEvents : Rel :=
  .filter scannedEvents (.binary .gt (.column 1) (.binary .minus .now (.interval 100)))

/-- Such events, beside all events with their number. -/
def joinedEvents : Rel := .join latestEvents scannedEvents .inner (.equate 0 2) none

/-- The join filters its left side by the current time and does not record that it
needs to. The filter by itself is recorded once it is applied. -/
theorem joined_now_filter_is_not_recorded :
    let converter := overPlainEvents (.stream "stream")
    .nowFunction ∈ latestEvents.capabilities ∧
    (∃ plan final manifest, converter.convert latestEvents = .ok plan ∧
      plan.materialize = .ok (final, manifest) ∧ final.rel = latestEvents ∧
      manifest.required = [.nowFunction]) ∧
    ∃ plan final manifest, converter.convert joinedEvents = .ok plan ∧
      plan.materialize = .ok (final, manifest) ∧
      latestEvents ∈ plan.rel.preorder ∧ plan.needs.required = [.intervalJoin] ∧
      latestEvents ∈ final.rel.preorder ∧ manifest.required = [.intervalJoin] :=
  ⟨by decide, ⟨_, _, _, rfl, rfl, rfl, rfl⟩, _, _, _, rfl, rfl,
    List.mem_of_getElem? (i := 1) rfl, rfl, List.mem_of_getElem? (i := 1) rfl, rfl⟩

/-- What the join itself needs is recorded: it is one within a bounded time. -/
theorem joined_events_are_recorded :
    let converter := overPlainEvents (.stream "stream")
    ∃ plan, converter.convert joinedEvents = .ok plan ∧ converter.RequiresOperators joinedEvents plan ∧
      .intervalJoin ∈ plan.rel.capabilities := by
  intro converter
  have hplan : ∃ plan, converter.convert joinedEvents = .ok plan ∧
    .intervalJoin ∈ plan.rel.capabilities := ⟨_, rfl, by decide⟩
  obtain ⟨plan, hplan, hjoin⟩ := hplan
  exact ⟨plan, hplan, (requirements_cover_plan hplan).1, hjoin⟩

end Converter

end StreamPlan
