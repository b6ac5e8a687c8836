import StreamPlan.Proofs.EventTime.Exact
import StreamPlan.Proofs.Safety.Convert

/-!
# When an operator overflows

Planning an operator does arithmetic on lengths of time in few places: it reads time bounds,
takes now-filters out of them, turns bounds around and widens now-filters. Over well-formed plans
nothing else leaves 64 bits, so an operator overflows exactly if a result of this arithmetic over
all integers does not fit.

* `LeavesRange`, `Computes`, `Along`: an overflow, the results that decide about it, and the
  results along a loop.
* `Plan.filtered_computes`: filters, by the conditions they state.
* `Converter.projected_computes`: projections, by the now-filter that moves with its timestamp.
* `JoinInputs.of_computes`, `Converter.joined_computes`: joins, by their conditions and by the
  sides of their time window.
-/

namespace StreamPlan

variable {ε α β : Type} {catalog : Catalog} {n : Nat}

/-- The computation ends because a result leaves 64 bits. -/
def LeavesRange (x : Checked ε α) : Prop := x = .error (.fault .arithmeticOverflow)

/-- The results of a computation over all integers: it leaves 64 bits exactly if one of them
does. -/
def Computes (x : Checked ε α) (results : Int → Prop) : Prop :=
  LeavesRange x ↔ ∃ r, results r ∧ ¬Millis.Fits r

/-- A fault other than an overflow. -/
def IsNoOverflow (fault : Fault) : Prop := fault ≠ .arithmeticOverflow

section Computes

variable {x : Checked ε α} {f : α → Checked ε β} {P : α → Prop} {R : Int → Prop}
  {S : α → Int → Prop}

/-- Either the first computation leaves the range, or the next one, given its result. -/
theorem leavesRange_bind :
    LeavesRange (x >>= f) ↔ LeavesRange x ∨ ∃ a, x = .ok a ∧ LeavesRange (f a) := by
  cases x with
  | ok a => simp [LeavesRange, bind, Except.bind]
  | error e => simp [LeavesRange, bind, Except.bind]

theorem Computes.congr {S : Int → Prop} (h : Computes x R) (hsame : ∀ r, R r ↔ S r) :
    Computes x S := by
  obtain rfl : R = S := funext fun r => propext (hsame r)
  exact h

/-- What cannot overflow has no results. -/
theorem Safe.computes (h : Safe IsNoOverflow x P) : Computes x fun _ => False := by
  refine iff_of_false (fun he => h.1 _ he rfl) ?_
  rintro ⟨_, hr, -⟩
  exact hr

theorem computes_ok (a : α) : Computes (.ok a : Checked ε α) fun _ => False :=
  Safe.computes (P := fun _ => True) (.ok trivial)

theorem computes_refuse (e : ε) : Computes (refuse e : Checked ε α) fun _ => False :=
  Safe.computes (P := fun _ => True) .refuse

/-- **The results of one computation after another.** -/
theorem Computes.bind (hx : Computes x R) (hf : ∀ a, x = .ok a → Computes (f a) (S a)) :
    Computes (x >>= f) fun r => R r ∨ ∃ a, x = .ok a ∧ S a r := by
  unfold Computes at hx ⊢
  rw [leavesRange_bind, hx]
  simp only [or_and_right, exists_or]
  refine or_congr_right ⟨?_, ?_⟩
  · rintro ⟨a, ha, hover⟩
    obtain ⟨r, hr, hfits⟩ := (hf a ha).1 hover
    exact ⟨r, ⟨a, ha, hr⟩, hfits⟩
  · rintro ⟨r, ⟨a, ha, hr⟩, hfits⟩
    exact ⟨a, ha, (hf a ha).2 ⟨r, hr, hfits⟩⟩

/-- A computation after one that cannot overflow. -/
theorem Safe.bind_computes (hx : Safe IsNoOverflow x P)
    (hf : ∀ a, x = .ok a → P a → Computes (f a) (S a)) :
    Computes (x >>= f) fun r => ∃ a, x = .ok a ∧ S a r :=
  (hx.computes.bind fun a ha => hf a ha (hx.2 a ha)).congr fun _ => or_iff_right id

theorem Gives.bind_computes {x : Except Fault α} (hx : Gives x P)
    (hf : ∀ a, x = .ok a → P a → Computes (f a) (S a)) :
    Computes (liftM x >>= f) fun r => ∃ a, x = .ok a ∧ S a r := by
  obtain ⟨a, rfl, hp⟩ := hx
  refine (hf a rfl hp).congr fun r => ⟨fun hr => ⟨a, rfl, hr⟩, ?_⟩
  rintro ⟨b, ⟨⟩, hr⟩
  exact hr

theorem needing_bind_computes {x : Except MissingCapability α} {f : α → Planning β}
    (hf : ∀ a, x = .ok a → Computes (f a) (S a)) :
    Computes (needing x >>= f) fun r => ∃ a, x = .ok a ∧ S a r := by
  have hx : Safe IsNoOverflow (needing x) fun _ => True := Safe.needing fun _ _ => trivial
  refine (hx.bind_computes fun a ha _ => hf a (needing_eq_ok.1 ha)).congr fun r => ?_
  simp only [needing_eq_ok]

/-- A computation before one that cannot overflow. -/
theorem Computes.bind_safe (hx : Computes x R)
    (hf : ∀ a, x = .ok a → Safe IsNoOverflow (f a) fun _ => True) : Computes (x >>= f) R :=
  (hx.bind fun a ha => (hf a ha).computes).congr fun r => by simp

/-- An exact computation. -/
theorem Exactly.computes {x : Except Fault α} {results : List Int} {a : α}
    (h : Exactly x results a) : Computes (liftM x : Checked ε α) (· ∈ results) := by
  unfold Computes
  rw [← h.overflows_iff]
  cases x with
  | ok a => simp [LeavesRange, lift_ok]
  | error e => simp [LeavesRange, liftM, monadLift, MonadLift.monadLift, orFault]

end Computes

/-- The results along a loop: those of the first step, and those of the later ones from where the
first one leads. -/
inductive Along (step : β → α → Checked ε β) (results : β → α → List Int) :
    β → List α → Int → Prop
  | here {b a as r} (mem : r ∈ results b a) : Along step results b (a :: as) r
  | after {b c a as r} (next : step b a = .ok c) (later : Along step results c as r) :
    Along step results b (a :: as) r

section Along

variable {step : β → α → Checked ε β} {results : β → α → List Int} {b : β} {a : α} {as : List α}

theorem along_nil {r : Int} : ¬Along step results b [] r := by rintro ⟨⟩

theorem along_cons {r : Int} : Along step results b (a :: as) r ↔
    r ∈ results b a ∨ ∃ c, step b a = .ok c ∧ Along step results c as r := by
  constructor
  · rintro (hmem | ⟨hnext, hlater⟩)
    · exact .inl hmem
    · exact .inr ⟨_, hnext, hlater⟩
  · rintro (hmem | ⟨c, hnext, hlater⟩)
    · exact .here hmem
    · exact .after hnext hlater

/-- **The results of a loop** are those along it. -/
theorem computes_foldlM (h : ∀ b, ∀ a ∈ as, Computes (step b a) (· ∈ results b a)) :
    ∀ b, Computes (as.foldlM step b) (Along step results b as) := by
  induction as with
  | nil =>
    intro b
    exact (computes_ok b).congr fun r => iff_of_false id along_nil
  | cons a as ih =>
    intro b
    rw [List.foldlM_cons]
    refine ((h b a List.mem_cons_self).bind fun c _ => ?_).congr fun r => along_cons.symm
    exact ih (fun b a ha => h b a (List.mem_cons_of_mem _ ha)) c

end Along

namespace Plan

variable {plan : Plan}

/-- The plan once a condition is looked at: a now-filter that it states is taken out. -/
def afterCondition (plan : Plan) (condition : Expr) : Planning Plan := do
  match ← statedNowFilter plan.time condition with
  | some filter => plan.addNowFilter filter
  | none => return plan

theorem addNowFilter_inRange (plan : Plan) (filter : NowFilter) :
    Safe IsNoOverflow (plan.addNowFilter filter) fun _ => True := by
  have hmerged : Safe IsNoOverflow (plan.mergedWith filter) fun _ => True := by
    unfold mergedWith
    split
    · exact .ok trivial
    · split
      · exact .ok trivial
      · exact .refuse
  have hfix : Bounded IsNoOverflow (plan.time.fix filter.timestamp) fun _ => True := by
    unfold EventTime.fix
    split
    · exact .ok trivial
    · exact ⟨by rintro _ ⟨⟩ ⟨⟩, fun _ _ => trivial⟩
  exact hmerged.bind fun merged _ => (Safe.lift hfix).bind fun time _ => .ok trivial

/-- The results of taking now-filters out of conditions. -/
def ExtractResult : Plan → List Expr → Int → Prop :=
  Along afterCondition fun plan condition => nowResults plan.time condition

theorem extractNowFilters_computes (conditions : List Expr) : ∀ plan : Plan,
    Computes (plan.extractNowFilters conditions) (plan.ExtractResult conditions) := by
  induction conditions with
  | nil =>
    intro plan
    exact (computes_ok _).congr fun r => iff_of_false id along_nil
  | cons condition conditions ih =>
    intro plan
    obtain ⟨stated, hexact, -⟩ := statedNowFilter_exactly plan.time condition
    rw [extractNowFilters]
    refine (hexact.computes.bind (S := fun stated? r => ∃ next : Plan, (match stated? with
      | some filter => plan.addNowFilter filter
      | none => return plan) = .ok next ∧ next.ExtractResult conditions r) ?_).congr fun r => ?_
    · intro stated? _
      cases stated? with
      | some filter =>
        exact (plan.addNowFilter_inRange filter).bind_computes fun next _ _ => ih next
      | none =>
        refine ((ih plan).bind_safe fun _ _ => .ok trivial).congr fun r => ?_
        exact ⟨fun hr => ⟨plan, rfl, hr⟩, by rintro ⟨next, ⟨⟩, hr⟩; exact hr⟩
    · rw [ExtractResult, along_cons]
      refine or_congr_right ⟨?_, ?_⟩
      · rintro ⟨stated?, hstated, next, hnext, hr⟩
        exact ⟨next, bind_eq_ok.2 ⟨stated?, hstated, hnext⟩, hr⟩
      · rintro ⟨next, hnext, hr⟩
        obtain ⟨stated?, hstated, hnext⟩ := bind_eq_ok.1 hnext
        exact ⟨stated?, hstated, next, hnext, hr⟩

/-- The results of planning a filter: those of its conditions, over the columns of a plan whose
ranking applies. -/
def FilterResult (plan : Plan) (predicate : Expr) (r : Int) : Prop :=
  ∃ base, plan.withoutTopN = .ok base ∧ ∃ moved,
    predicate.remap base.select.apply = .ok moved ∧ base.ExtractResult moved.conjuncts r

/-- **The results of planning a filter.** -/
theorem filtered_computes {predicate : Expr} (h : plan.WellFormed catalog n)
    (hp : ∀ i ∈ predicate.references, i < plan.select.sources) :
    Computes (plan.filtered predicate) (plan.FilterResult predicate) := by
  unfold filtered
  refine plan.withoutTopN_safe.bind_computes fun base _ ⟨hs, _⟩ => ?_
  have hmove : Gives (predicate.remap base.select.apply) _ := Expr.remap_gives fun i hi =>
    (hs.wellFormed h).apply_gives (by rw [hs.select]; exact hp i hi)
  refine hmove.bind_computes fun moved _ _ => ?_
  refine (extractNowFilters_computes moved.conjuncts base).bind_safe fun out _ => ?_
  obtain ⟨next, remaining⟩ := out
  simp only
  split
  · exact .ok trivial
  · exact (Safe.needing fun _ _ => trivial).bind fun _ _ => .ok trivial

/-- The result of carrying a now-filter over outputs that move its timestamp to its bucket. -/
def carriedResults (plan : Plan) (moved : Option KeptTime) : List Int :=
  match moved.bind KeptTime.bucket, plan.nowFilter with
  | some bucket, some filter => [filter.widened bucket.width]
  | _, _ => []

theorem carryNowFilter_computes (plan : Plan) (moved : Option KeptTime) :
    Computes (plan.carryNowFilter moved) (· ∈ plan.carriedResults moved) := by
  unfold carryNowFilter carriedResults
  cases moved with
  | none => exact (computes_ok _).congr fun r => by simp
  | some kept =>
    cases plan.nowFilter with
    | none => exact (computes_ok _).congr fun r => by cases kept.bucket <;> simp
    | some filter =>
      cases hbucket : kept.bucket with
      | some bucket =>
        simp only [Option.bind_some, hbucket]
        exact (NowFilter.widen_exactly ..).computes.bind_safe fun _ _ => .ok trivial
      | none =>
        simp only [Option.bind_some, hbucket, List.not_mem_nil]
        have hsafe : Safe IsNoOverflow plan.withoutNowFilter fun _ => True :=
          plan.withoutNowFilter_safe.mono fun _ _ => trivial
        exact hsafe.computes.bind_safe fun _ _ => .ok trivial

theorem projectedTo_computes {outputs : List Output} (h : plan.WellFormed catalog n)
    (htopN : plan.topN.isEmpty = true) (hc : outputs.length < Position.countLimit) :
    Computes (plan.projectedTo outputs) (· ∈ plan.carriedResults (plan.movedBy outputs)) := by
  have hlong : n ≤ n + Expr.spanOfAll (outputs.map Output.expr) := Nat.le_add_right _ _
  have hwidth : ∀ k bucket, plan.movedBy outputs = some k → k.bucket = some bucket →
      n + bucket.width.natAbs ≤ n + Expr.spanOfAll (outputs.map Output.expr) :=
    fun k bucket hk hb => Nat.add_le_add_left (width_le_of_movedBy hk hb) n
  -- how long the carried interval is does not matter any more
  have hcarried : Safe (fun _ => True) (plan.carryNowFilter (plan.movedBy outputs)) _ :=
    carryNowFilter_safe h hwidth hlong fun _ => trivial
  refine (carryNowFilter_computes _ _).bind_safe fun ⟨below, nowFilter⟩ hout => ?_
  obtain ⟨hsettled, htop, -, hfilter⟩ := hcarried.2 _ hout
  exact (withOutputs_carried_safe h hlong htopN hc hsettled htop hfilter).mono fun _ _ => trivial

/-- The results of planning a computed projection: that of its now-filter, over a plan whose
ranking applies. -/
def ComputedResult (plan : Plan) (outputs : List Output) (r : Int) : Prop :=
  ∃ base, plan.withoutTopN = .ok base ∧ ∃ moved,
    outputs.mapM (·.remap base.select.apply) = .ok moved ∧ ∃ needs,
      base.needs.requireExprs (moved.map Output.expr) = .ok needs ∧
        r ∈ base.carriedResults (base.movedBy moved)

/-- **The results of planning a computed projection.** -/
theorem computed_computes {outputs : List Output} (h : plan.WellFormed catalog n)
    (ho : ∀ o ∈ outputs, ∀ i ∈ o.expr.references, i < plan.select.sources)
    (hc : outputs.length < Position.countLimit) :
    Computes (plan.computed outputs) (plan.ComputedResult outputs) := by
  unfold computed
  refine plan.withoutTopN_safe.bind_computes fun base _ ⟨hs, hempty, _⟩ => ?_
  have hb := hs.wellFormed h
  have hobase : ∀ o ∈ outputs, ∀ i ∈ o.expr.references, i < base.select.sources := by
    rw [hs.select]
    exact ho
  refine (outputs_gives hb hobase).bind_computes fun moved _ hmoved => ?_
  obtain ⟨hlen, -⟩ := hmoved
  refine needing_bind_computes fun needs _ => ?_
  exact projectedTo_computes (hb.withNeeds needs) hempty (hlen ▸ hc)

end Plan

namespace Converter

variable {plan : Plan}

/-- The results of planning a projection: those of a computed one, unless it is a pick of columns
that can be named in place. -/
def ProjectedResult (plan : Plan) (bare : Option (List Nat)) (outputs : List Output) (r : Int) :
    Prop :=
  (∀ columns, bare = some columns → plan.picked? columns outputs = .ok none) ∧
    plan.ComputedResult outputs r

/-- **The results of planning a projection.** -/
theorem projected_computes {bare : Option (List Nat)} {outputs : List Output}
    (h : plan.WellFormed catalog n)
    (hb : ∀ columns, bare = some columns → ∀ i ∈ columns, i < plan.select.sources)
    (ho : ∀ o ∈ outputs, ∀ i ∈ o.expr.references, i < plan.select.sources)
    (hc : outputs.length < Position.countLimit) :
    Computes (projected plan bare outputs) (ProjectedResult plan bare outputs) := by
  have hcomputed := Plan.computed_computes h ho hc
  unfold projected ProjectedResult
  cases bare with
  | none => exact hcomputed.congr fun r => by simp
  | some columns =>
    refine ((Plan.picked?_gives h (hb columns rfl)).bind_computes (S := fun picked? r =>
      picked? = none ∧ plan.ComputedResult outputs r) fun picked? hpicked _ => ?_).congr fun r => ?_
    · cases picked? with
      | none => exact hcomputed.congr fun r => by simp
      | some picked => exact (computes_ok picked).congr fun r => by simp
    · simp

end Converter

/-- The results of taking a time bound into a window: one with the left column larger is turned
around, unless it is about other columns than the window. -/
def TimeWindow.sideResults (leftWidth : Nat) (window : TimeWindow) (bound : TimeBound) : List Int :=
  match bound.larger.column?, bound.smaller.column? with
  | some a, some b =>
    if leftWidth ≤ a ∨ window.columns.any (· ≠ (a, b)) then [] else [-bound.millis]
  | _, _ => []

theorem TimeWindow.add_computes (leftWidth : Nat) (window : TimeWindow) (bound : TimeBound) :
    Computes (add leftWidth window bound) (· ∈ sideResults leftWidth window bound) := by
  have hplace : ∀ w rightLarger value,
      Safe IsNoOverflow (orRefuse (place w bound rightLarger value)) fun _ => True :=
    fun _ _ _ => (Safe.orRefuse _).mono fun _ _ => trivial
  have hrefuse : ∀ problem, Computes (refuse problem : Checked IntervalProblem TimeWindow)
      (· ∈ ([] : List Int)) := fun problem => (computes_refuse problem).congr fun r => by simp
  unfold add sideResults
  cases bound.larger.column? with
  | none => exact hrefuse _
  | some a =>
    cases bound.smaller.column? with
    | none => exact hrefuse _
    | some b =>
      obtain ⟨value, hvalue⟩ := boundValue_exactly bound (decide (leftWidth ≤ a))
      by_cases hright : leftWidth ≤ a
      · simp only [hright, decide_true, if_true, true_or] at hvalue ⊢
        split
        · exact hrefuse _
        · exact hvalue.computes.bind_safe fun _ _ => hplace ..
      · simp only [hright, decide_false, Bool.false_eq_true, if_false, false_or] at hvalue ⊢
        split
        · exact hrefuse _
        · exact hvalue.computes.bind_safe fun _ _ => hplace ..

namespace JoinInputs

variable {left right : Plan} {j : JoinInputs} {c : Converter}

/-- The results of taking the condition of a join apart: those of reading each condition over the
joined row as a time bound. -/
def ConditionResult (left right : Plan) (condition : Expr) (r : Int) : Prop :=
  ∃ needs, Converter.combine left.needs right.needs = .ok needs ∧ ∃ moved,
    condition.remap (joinedColumn left right) = .ok moved ∧
      r ∈ moved.conjuncts.flatMap (TimeBound.results (isTimestamp left right))

theorem of_computes {kind : JoinKind} {condition : Expr} {nl nr : Nat}
    (hl : left.WellFormed catalog nl) (hr : right.WellFormed catalog nr)
    (hc : ∀ i ∈ condition.references, i < left.select.sources + right.select.sources) :
    Computes (JoinInputs.of left right kind condition) (ConditionResult left right condition) := by
  unfold JoinInputs.of
  have hneeds : Safe IsNoOverflow (Converter.combine left.needs right.needs) _ :=
    Converter.combine_safe left.needs right.needs
  refine hneeds.bind_computes fun needs _ _ => ?_
  have hmove : ∀ i ∈ condition.references,
      Gives (joinedColumn left right i) (· < left.width + right.width) :=
    fun i hi => joinedColumn_gives (hl.mono (Nat.le_max_left nl nr))
      (hr.mono (Nat.le_max_right nl nr)) (hc i hi)
  refine (Expr.remap_gives hmove).bind_computes fun moved _ _ => ?_
  obtain ⟨parts, hparts⟩ := JoinCondition.ofExpr_exactly moved left.width (isTimestamp left right)
  exact hparts.computes.bind_safe fun _ _ => .ok trivial

/-- The results of the time window of a join: those along its written bounds. -/
def WindowResult (j : JoinInputs) (r : Int) : Prop :=
  ∃ written, j.writtenBounds = .ok written ∧
    Along (TimeWindow.add j.left.width) (TimeWindow.sideResults j.left.width) .none written.1 r

theorem closedWindow_computes (h : j.FitsIn catalog n) :
    Computes j.closedWindow j.WindowResult := by
  unfold closedWindow
  refine (writtenBounds_safe h).bind_computes fun written _ _ => ?_
  have hloop : Computes (written.1.foldlM (TimeWindow.add j.left.width) .none) _ :=
    computes_foldlM (fun window bound _ => TimeWindow.add_computes j.left.width window bound) _
  have hwindow : Computes (TimeWindow.ofBounds written.1 j.left.width) _ :=
    hloop.bind_safe fun window _ => by
      split
      · exact .refuse
      · exact .ok trivial
  exact hwindow.bind_safe fun window _ => close_safe.mono fun _ _ => trivial

theorem intervalJoin?_computes (h : j.FitsIn catalog n) :
    Computes j.intervalJoin? j.WindowResult := by
  have hwindow := closedWindow_computes h
  have hfits : Safe (fun _ => True) j.closedWindow _ := closedWindow_safe h fun _ => trivial
  -- the join leaves the range exactly if its window does
  suffices hsame : LeavesRange j.intervalJoin? ↔ LeavesRange j.closedWindow from hsame.trans hwindow
  unfold intervalJoin?
  split
  · rename_i window hok
    have hplan : Safe IsNoOverflow (some <$> j.intervalPlan window) fun _ => True :=
      (intervalPlan_safe h (hfits.2 window hok)).bind fun plan _ => .ok trivial
    rw [hok]
    exact iff_of_false (fun he => hplan.1 _ he rfl) (by rintro ⟨⟩)
  · rename_i problem hrefused
    rw [hrefused]
    refine iff_of_false ?_ (by rintro ⟨⟩)
    split <;> rintro ⟨⟩
  · rename_i fault hfault
    rw [hfault]
    simp [LeavesRange, Fault.raise]

end JoinInputs

namespace Converter

variable {c : Converter} {j : JoinInputs}

/-- The results of planning a join: those of its time window, unless a rule before that of joins
within a bounded time fits. -/
def JoinedResult (c : Converter) (j : JoinInputs) (r : Int) : Prop :=
  attempt j [.auto, .inner, .left] (j.selfJoin? c) = .ok none ∧
    attempt j [.auto, .temporal, .left] j.temporalJoin? = .ok none ∧
      j.kind ∈ [.auto, .inner, .interval, .left] ∧ j.WindowResult r

/-- **The results of planning a join.** -/
theorem joined_computes (h : j.FitsIn c.catalog n) (hl : c.catalog.Linked) :
    Computes (c.joined j) (c.JoinedResult j) := by
  have hself : Safe IsNoOverflow (attempt j [.auto, .inner, .left] (j.selfJoin? c)) fun _ => True :=
    attempt_safe ((JoinInputs.selfJoin?_safe h hl).mono fun _ _ => trivial) trivial
  have htemporal : Safe IsNoOverflow (attempt j [.auto, .temporal, .left] j.temporalJoin?)
      fun _ => True :=
    attempt_safe ((JoinInputs.temporalJoin?_safe h).mono fun _ _ => trivial) trivial
  have hinterval : Computes (attempt j [.auto, .inner, .interval, .left] j.intervalJoin?) fun r =>
      j.kind ∈ [.auto, .inner, .interval, .left] ∧ j.WindowResult r := by
    unfold attempt
    split
    · rename_i hkind
      exact (JoinInputs.intervalJoin?_computes h).congr fun r => by simp [hkind]
    · rename_i hkind
      exact (computes_ok none).congr fun r => by simp [hkind]
  unfold joined JoinedResult
  refine (hself.bind_computes (S := fun o r => o = none ∧
    attempt j [.auto, .temporal, .left] j.temporalJoin? = .ok none ∧
      j.kind ∈ [.auto, .inner, .interval, .left] ∧ j.WindowResult r) fun o _ _ => ?_).congr
        fun r => by simp
  cases o with
  | some plan => exact (computes_ok plan).congr fun r => by simp
  | none =>
    refine (htemporal.bind_computes (S := fun o r => o = none ∧
      j.kind ∈ [.auto, .inner, .interval, .left] ∧ j.WindowResult r) fun o _ _ => ?_).congr
        fun r => by simp
    cases o with
    | some plan => exact (computes_ok plan).congr fun r => by simp
    | none =>
      refine (hinterval.bind_safe fun o _ => ?_).congr fun r => by simp
      cases o with
      | some plan => exact .ok trivial
      | none => exact (JoinInputs.statePlan_safe h).mono fun _ _ => trivial

end Converter

end StreamPlan
