import StreamPlan.Plan.Filter
import StreamPlan.Plan.IntervalJoin
import StreamPlan.Proofs.Outcome

/-!
# Time bounds in exact integers

What the lengths of time in an expression come to over all integers, with every result on the
way. Reading a bound, taking a now-filter out of it, widening that filter and turning a bound
around are exact as long as these results fit into 64 bits, and overflow as soon as one does not.

* `Exactly`: a computation over 64 bits next to what it comes to over all integers.
* `TimeBound.ofExpr?_exactly`: the bound of an expression is `stated?`, by way of `results`.
* `Plan.statedNowFilter_exactly`: the now-filter of a condition, by way of `nowResults`.
* `NowFilter.widen_exactly`, `TimeWindow.boundValue_exactly`: one result each.
* `JoinCondition.ofExpr_exactly`: the parts of a join condition.
-/

namespace StreamPlan

variable {α β : Type}

/-- A computation over 64 bits that over all integers gives `a`, by way of some results: if one
of them does not fit, it overflows. -/
def Exactly (x : Except Fault α) (results : List Int) (a : α) : Prop :=
  x = if ∀ r ∈ results, Millis.Fits r then .ok a else .error .arithmeticOverflow

namespace Exactly

variable {x : Except Fault α} {results : List Int} {a : α}

theorem ok (a : α) : Exactly (.ok a) [] a := by simp [Exactly]

theorem checked (n : Int) : Exactly (Millis.checked n) [n] n := by
  simp only [Exactly, List.mem_singleton, forall_eq]
  rfl

/-- One computation after another. -/
theorem bind {f : α → Except Fault β} {more : List Int} {b : β} (hx : Exactly x results a)
    (hf : Exactly (f a) more b) : Exactly (x >>= f) (results ++ more) b := by
  unfold Exactly at hx hf ⊢
  rw [hx]
  by_cases hfit : ∀ r ∈ results, Millis.Fits r
  · rw [if_pos hfit, ok_bind, hf]
    refine if_congr ?_ rfl rfl
    rw [List.forall_mem_append, and_iff_right hfit]
  · have hall : ¬∀ r ∈ results ++ more, Millis.Fits r :=
      fun h => hfit fun r hr => h r (List.mem_append_left more hr)
    rw [if_neg hfit, if_neg hall]
    rfl

/-- It overflows exactly if a result does not fit. -/
theorem overflows_iff (h : Exactly x results a) :
    x = .error .arithmeticOverflow ↔ ∃ r ∈ results, ¬Millis.Fits r := by
  rw [h]
  split
  · rename_i hfit
    simpa using hfit
  · rename_i hfit
    simpa using hfit

/-- It gives nothing but the exact outcome, and does so exactly if all results fit. -/
theorem eq_ok_iff (h : Exactly x results a) {b : α} :
    x = .ok b ↔ (∀ r ∈ results, Millis.Fits r) ∧ b = a := by
  rw [h]
  split
  · rename_i hfit
    rw [Except.ok.injEq, and_iff_right hfit, eq_comm]
  · rename_i hfit
    simp only [reduceCtorEq, hfit, false_and]

/-- A loop whose every step has results of its own, whatever was done before. -/
theorem foldlM {f : β → α → Except Fault β} {results : α → List Int} {as : List α}
    (h : ∀ b, ∀ a ∈ as, ∃ c, Exactly (f b a) (results a) c) :
    ∀ b, ∃ c, Exactly (as.foldlM f b) (as.flatMap results) c := by
  induction as with
  | nil => exact fun b => ⟨b, ok b⟩
  | cons a as ih =>
    intro b
    obtain ⟨c, hc⟩ := h b a List.mem_cons_self
    obtain ⟨d, hd⟩ := ih (fun b a ha => h b a (List.mem_cons_of_mem _ ha)) c
    exact ⟨d, by rw [List.foldlM_cons, List.flatMap_cons]; exact hc.bind hd⟩

end Exactly

namespace TimeBound

variable {isCandidate : Nat → Bool}

/-- The candidate column or the current time at the bottom of an expression that adds lengths of
time to it and takes lengths of time off it. -/
def base? (isCandidate : Nat → Bool) : Expr → Option TimeOperand
  | .column i => if isCandidate i then some (.column i) else none
  | .call function _ => if function.isNow then some .now else none
  | .binary .plus left (.literal (.interval _)) => base? isCandidate left
  | .binary .minus left (.literal (.interval _)) => base? isCandidate left
  | _ => none

/-- What these lengths of time come to. -/
def shift : Expr → Int
  | .binary .plus left (.literal (.interval millis)) => shift left + millis
  | .binary .minus left (.literal (.interval millis)) => shift left - millis
  | _ => 0

/-- The sums on the way, from the bottom up. A length of time that is taken off is negated first. -/
def shifts : Expr → List Int
  | .binary .plus left (.literal (.interval millis)) => shifts left ++ [shift left + millis]
  | .binary .minus left (.literal (.interval millis)) =>
    shifts left ++ [-millis, shift left - millis]
  | _ => []

/-- The results of reading an expression as a time operand. -/
def operandResults (isCandidate : Nat → Bool) (e : Expr) : List Int :=
  if (base? isCandidate e).isSome then shifts e else []

/-- **A time operand is read exactly** if every sum on the way fits. -/
theorem operand?_exactly (isCandidate : Nat → Bool) (e : Expr) :
    Exactly (operand? isCandidate e) (operandResults isCandidate e)
      ((base? isCandidate e).map fun operand => (operand, shift e)) := by
  unfold operandResults
  induction e using operand?.induct with
  | case1 i =>
    have hnone : shifts (.column i) = [] := rfl
    rw [operand?, base?, hnone, ite_self]
    split <;> exact .ok _
  | case2 function args =>
    have hnone : shifts (.call function args) = [] := rfl
    rw [operand?, base?, hnone, ite_self]
    split <;> exact .ok _
  | case3 left millis ih =>
    rw [operand?, base?, shifts, shift]
    cases hbase : base? isCandidate left with
    | none =>
      rw [hbase] at ih
      exact ih.bind (.ok none)
    | some operand =>
      rw [hbase] at ih
      exact ih.bind ((Exactly.checked _).bind (.ok _))
  | case4 left millis ih =>
    rw [operand?, base?, shifts, shift]
    cases hbase : base? isCandidate left with
    | none =>
      rw [hbase] at ih
      exact ih.bind (.ok none)
    | some operand =>
      rw [hbase] at ih
      exact ih.bind ((Exactly.checked _).bind ((Exactly.checked _).bind (.ok _)))
  | case5 e h1 h2 h3 h4 =>
    rw [operand?, base?]
    · exact .ok none
    all_goals assumption

/-- The bound that comparing `a + x` with `b + y` states. -/
def compares? (op : BinaryOp) (a : TimeOperand) (x : Int) (b : TimeOperand) (y : Int) :
    Option TimeBound :=
  match op with
  | .lt => some ⟨a, b, .lt, y - x⟩
  | .le => some ⟨a, b, .le, y - x⟩
  | .gt => some ⟨b, a, .lt, x - y⟩
  | .ge => some ⟨b, a, .le, x - y⟩
  | .eq => some ⟨a, b, .eq, y - x⟩
  | _ => none

theorem compared_exactly (op : BinaryOp) (a : TimeOperand) (x : Int) (b : TimeOperand) (y : Int) :
    Exactly (compared op a x b y) ((compares? op a x b y).toList.map millis)
      (compares? op a x b y) := by
  cases op with
  | lt | le | gt | ge | eq => exact (Exactly.checked _).bind (.ok _)
  | _ => exact .ok none

/-- The bound that an expression states. -/
def stated? (isCandidate : Nat → Bool) : Expr → Option TimeBound
  | .binary op left right =>
    match base? isCandidate left, base? isCandidate right with
    | some a, some b =>
      if op.isComparison ∧ a ≠ b then compares? op a (shift left) b (shift right) else none
    | _, _ => none
  | _ => none

/-- The results of reading the bound of an expression: those of the left operand, of the right one
if there is a left one, and the difference of both. -/
def results (isCandidate : Nat → Bool) : Expr → List Int
  | .binary op left right =>
    if op.isComparison then
      operandResults isCandidate left
        ++ (if (base? isCandidate left).isSome then operandResults isCandidate right else [])
        ++ (stated? isCandidate (.binary op left right)).toList.map millis
    else []
  | _ => []

/-- **The bound of an expression is read exactly** if every result on the way fits. -/
theorem ofExpr?_exactly (isCandidate : Nat → Bool) (e : Expr) :
    Exactly (ofExpr? isCandidate e) (results isCandidate e) (stated? isCandidate e) := by
  cases e with
  | binary op left right =>
    have hleft := operand?_exactly isCandidate left
    have hright := operand?_exactly isCandidate right
    rw [ofExpr?, results, stated?]
    by_cases hop : op.isComparison = true
    · rw [if_pos hop, hop, Bool.not_true, if_neg Bool.false_ne_true, List.append_assoc]
      refine hleft.bind ?_
      cases hbase : base? isCandidate left with
      | none => exact .ok none
      | some a =>
        refine hright.bind ?_
        cases hbase' : base? isCandidate right with
        | none => exact .ok none
        | some b =>
          simp only [Option.map_some, true_and]
          by_cases hab : a = b
          · rw [if_pos hab, if_neg (not_not.2 hab)]
            exact .ok none
          · rw [if_neg hab, if_pos hab]
            exact compared_exactly ..
    · rw [if_neg hop, if_pos (by simpa using hop)]
      simp only [hop]
      split
      · exact .ok none
      · exact .ok none
  | _ => exact .ok none

/-- The milliseconds of the bound are the last of these results. -/
theorem mem_results {e : Expr} {bound : TimeBound} (h : stated? isCandidate e = some bound) :
    bound.millis ∈ results isCandidate e := by
  cases e with
  | binary op left right =>
    have hop : op.isComparison = true := by
      rw [stated?] at h
      split at h
      · split at h
        · rename_i hc
          exact hc.1
        · cases h
      · cases h
    rw [results, if_pos hop, h]
    exact List.mem_append_right _ List.mem_cons_self
  | _ => cases h

end TimeBound

namespace NowFilter

/-- The results of taking a now-filter out of a bound: one on old rows is turned around. -/
def negated (bound : TimeBound) : List Int :=
  match bound.comparison, bound.larger, bound.smaller with
  | .lt, .column _, .now | .le, .column _, .now => [-bound.millis]
  | _, _, _ => []

/-- **A now-filter is taken out exactly** if the negated bound fits. -/
theorem ofBound?_exactly (bound : TimeBound) : ∃ out, Exactly (ofBound? bound) (negated bound) out ∧
    ∀ filter, out = some filter → filter.interval ∈ bound.millis :: negated bound := by
  obtain ⟨larger, smaller, comparison, millis⟩ := bound
  have hnone : ∃ out, Exactly (.ok none) [] out ∧
      ∀ filter : NowFilter, out = some filter → filter.interval ∈ [millis] :=
    ⟨none, .ok none, by rintro _ ⟨⟩⟩
  have hsome : ∀ filter : NowFilter, filter.interval = millis → ∃ out,
      Exactly (.ok (some filter)) [] out ∧
        ∀ filter : NowFilter, out = some filter → filter.interval ∈ [millis] :=
    fun filter hf => ⟨some filter, .ok _, by rintro _ ⟨⟩; exact List.mem_singleton.2 hf⟩
  have hnegated : ∀ f : Int → NowFilter, (∀ x, (f x).interval = x) → ∃ out,
      Exactly (do return some (f (← Millis.neg millis))) [-millis] out ∧
        ∀ filter : NowFilter, out = some filter → filter.interval ∈ [millis, -millis] := by
    refine fun f hf => ⟨some (f (-millis)), (Exactly.checked _).bind (.ok _), ?_⟩
    rintro _ ⟨⟩
    rw [hf]
    simp
  cases comparison with
  | eq => exact hnone
  | lt | le =>
    cases larger with
    | now =>
      cases smaller with
      | now => exact hnone
      | column ts => exact hsome _ rfl
    | column ts =>
      cases smaller with
      | now => exact hnegated (fun interval => ⟨ts, _, interval⟩) fun _ => rfl
      | column _ => exact hnone

/-- The interval of a filter that keeps more, by so many milliseconds. -/
def widened (filter : NowFilter) (millis : Int) : Int :=
  if filter.isRecent then filter.interval + millis else filter.interval - millis

/-- **A now-filter is widened exactly** if the new interval fits. -/
theorem widen_exactly (filter : NowFilter) (millis : Int) :
    Exactly (filter.widen millis) [filter.widened millis]
      { filter with interval := filter.widened millis } := by
  unfold widen widened
  split
  · exact (Exactly.checked _).bind (.ok _)
  · exact (Exactly.checked _).bind (.ok _)

end NowFilter

namespace Plan

variable {time : EventTime} {condition : Expr} {filter : NowFilter}

/-- The results of taking a now-filter out of a condition. -/
def nowResults (time : EventTime) (condition : Expr) : List Int :=
  if condition.containsNow then
    TimeBound.results time.isCandidate condition
      ++ (TimeBound.stated? time.isCandidate condition).toList.flatMap NowFilter.negated
  else []

/-- **The now-filter of a condition is exact** if every result on the way fits. Its interval is
one of them. -/
theorem statedNowFilter_exactly (time : EventTime) (condition : Expr) : ∃ out,
    Exactly (statedNowFilter time condition) (nowResults time condition) out ∧
      ∀ filter, out = some filter → filter.interval ∈ nowResults time condition := by
  unfold statedNowFilter nowResults
  split
  · have hbound := TimeBound.ofExpr?_exactly time.isCandidate condition
    cases hstated : TimeBound.stated? time.isCandidate condition with
    | none =>
      rw [hstated] at hbound
      exact ⟨none, hbound.bind (.ok none), by rintro _ ⟨⟩⟩
    | some bound =>
      rw [hstated] at hbound
      obtain ⟨out, hout, hinterval⟩ := NowFilter.ofBound?_exactly bound
      rw [Option.toList_some, List.flatMap_singleton]
      refine ⟨out, hbound.bind hout, fun filter hf => ?_⟩
      rcases List.mem_cons.1 (hinterval filter hf) with he | hmem
      · rw [he]
        exact List.mem_append_left _ (TimeBound.mem_results hstated)
      · exact List.mem_append_right _ hmem
  · exact ⟨none, .ok none, by rintro _ ⟨⟩⟩

/-- A stated now-filter has an interval of 64 bits. -/
theorem fits_of_statedNowFilter (h : statedNowFilter time condition = .ok (some filter)) :
    Millis.Fits filter.interval := by
  obtain ⟨out, hout, hinterval⟩ := statedNowFilter_exactly time condition
  obtain ⟨hfits, hfilter⟩ := hout.eq_ok_iff.1 h
  exact hfits _ (hinterval filter hfilter.symm)

end Plan

/-- **The value that a bound sets is exact** if the negated bound fits. -/
theorem TimeWindow.boundValue_exactly (bound : TimeBound) (rightLarger : Bool) :
    ∃ value, Exactly (boundValue bound rightLarger) (if rightLarger then [] else [-bound.millis])
      value := by
  cases rightLarger with
  | true => exact ⟨_, .ok _⟩
  | false => exact ⟨_, .checked _⟩

namespace JoinCondition

variable {leftWidth : Nat} {isTimestamp : Nat → Bool}

theorem add_exactly (parts : JoinCondition) (condition : Expr) :
    ∃ out, Exactly (add leftWidth isTimestamp parts condition)
      (TimeBound.results isTimestamp condition) out := by
  have hbound := TimeBound.ofExpr?_exactly isTimestamp condition
  -- whatever the condition is, adding it to its part is not arithmetic
  have hadded : ∃ out, Exactly (add leftWidth isTimestamp parts condition)
      (TimeBound.results isTimestamp condition ++ []) out := by
    unfold add
    cases hcross : (TimeBound.stated? isTimestamp condition).filter (crosses leftWidth) with
    | some bound => exact ⟨_, hbound.bind (by simp only [hcross]; exact .ok _)⟩
    | none =>
      cases hpair : equality? leftWidth condition with
      | some pair => exact ⟨_, hbound.bind (by simp only [hcross]; exact .ok _)⟩
      | none => exact ⟨_, hbound.bind (by simp only [hcross]; exact .ok _)⟩
  rwa [List.append_nil] at hadded

/-- **A join condition is taken apart exactly** if the results of reading each of its conditions
fit. -/
theorem ofExpr_exactly (condition : Expr) (leftWidth : Nat) (isTimestamp : Nat → Bool) :
    ∃ parts, Exactly (ofExpr condition leftWidth isTimestamp)
      (condition.conjuncts.flatMap (TimeBound.results isTimestamp)) parts :=
  Exactly.foldlM (fun parts condition _ => add_exactly parts condition) none

end JoinCondition

end StreamPlan
