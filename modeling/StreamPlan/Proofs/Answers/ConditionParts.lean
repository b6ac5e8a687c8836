import StreamPlan.Proofs.Answers.Normalized
import StreamPlan.Proofs.EventTime.Exact
import StreamPlan.Proofs.Rows.JoinCondition

/-!
# A join condition and its parts

On a row whose timestamps are times or null, as far as the row has them, a join condition that
has a value is true exactly if all its parts are, and so is the condition that is put together
from the parts again.

* `JoinCondition.Adds.inside`: only the timestamps that a row has matter for conditions that have
  values on it.
* `JoinCondition.trueOn_iff_parts`: such a condition is true exactly if its parts hold.
* `JoinCondition.condition_is_its_parts`: **a join condition is its parts.**
-/

namespace StreamPlan.JoinCondition

variable {now : Int} {row : Row} {leftWidth : Nat} {isTimestamp : Nat → Bool}
  {parts out : JoinCondition} {conditions : List Expr} {condition : Expr}

/-- **Conditions that have values on a row** have the same parts if only columns of the row count
as timestamps. -/
theorem Adds.inside (h : Adds leftWidth isTimestamp conditions parts out)
    (hok : ∀ k ∈ conditions, ∃ v, evalExpr now row k = .ok v) :
    Adds leftWidth (fun i => isTimestamp i && row[i]?.isSome) conditions parts out := by
  induction h with
  | nil => exact .nil
  | bound hk hcross _ ih =>
    obtain ⟨⟨v, hv⟩, hok⟩ := List.forall_mem_cons.1 hok
    refine .bound (TimeBound.ofExpr?_among hk fun i hi => ?_) hcross (ih hok)
    rw [Bool.and_eq_true, Option.isSome_iff_exists]
    exact ⟨TimeBound.candidate_of_ofExpr? hk i hi, TimeBound.ofExpr?_inside hk hv i hi⟩
  | equality hk _ ih => exact .equality hk (ih (List.forall_mem_cons.1 hok).2)
  | rest _ ih => exact .rest (ih (List.forall_mem_cons.1 hok).2)

/-- The parts that are no time bounds have values where the conditions have. -/
theorem Adds.untimed (h : Adds leftWidth isTimestamp conditions none out)
    (hok : ∀ k ∈ conditions, ∃ v, evalExpr now row k = .ok v) :
    ∀ k ∈ out.untimed leftWidth, ∃ v, evalExpr now row k = .ok v := by
  refine forall_untimed.2 ⟨fun p hp => ?_, fun k hk => ?_⟩
  · rcases h.equalities p hp with hp | ⟨k, hk, he⟩
    · cases hp
    · exact (equality?_means he).1.1 (hok k hk)
  · rcases h.remaining k hk with hk | hk
    · cases hk
    · exact hok k hk

/-- A time bound is between one left and one right timestamp. -/
theorem sides_of_ofExpr (h : ofExpr condition leftWidth isTimestamp = .ok parts) :
    ∀ b ∈ parts.timeBounds, ∃ l r, (b.columns = [l, r] ∨ b.columns = [r, l]) ∧ l < leftWidth ∧
      leftWidth ≤ r ∧ isTimestamp l = true ∧ isTimestamp r = true := by
  intro b hb
  rcases (adds_of_ofExpr h).timeBounds b hb with hb | ⟨hcross, k, -, hk⟩
  · cases hb
  have hcandidate := TimeBound.candidate_of_ofExpr? hk
  rw [crosses] at hcross
  split at hcross
  · rename_i x y hcolumns
    rw [hcolumns, List.forall_mem_cons, List.forall_mem_singleton] at hcandidate
    by_cases hx : x < leftWidth
    · have hy : ¬y < leftWidth := fun hy => by simp [hx, hy] at hcross
      exact ⟨x, y, .inl hcolumns, hx, Nat.not_lt.1 hy, hcandidate.1, hcandidate.2⟩
    · have hy : y < leftWidth := by simpa [hx] using hcross
      exact ⟨y, x, .inr hcolumns, hy, Nat.not_lt.1 hx, hcandidate.2, hcandidate.1⟩
  · cases hcross

variable {v : Value}

theorem timed_inside (hrow : ∀ i time, isTimestamp i = true → row[i]? = some time → time.IsTime) :
    ∀ i, (isTimestamp i && row[i]?.isSome) = true → row.Timed i := by
  intro i hi
  rw [Bool.and_eq_true, Option.isSome_iff_exists] at hi
  obtain ⟨htimestamp, time, htime⟩ := hi
  exact ⟨time, htime, hrow i time htimestamp htime⟩

/-- The expression of a bound says what the bound does where the condition has a value. -/
theorem bound_means (h : ofExpr condition leftWidth isTimestamp = .ok parts)
    (hrow : ∀ i time, isTimestamp i = true → row[i]? = some time → time.IsTime)
    (hv : evalExpr now row condition = .ok v) :
    ∀ b ∈ parts.timeBounds, Means (evalExpr now row b.expr) (b.Holds now row) := by
  intro b hb
  have hadds := (adds_of_ofExpr h).inside (conjuncts_of_evalExpr condition hv)
  rcases hadds.timeBounds b hb with hb | ⟨-, k, -, hk⟩
  · cases hb
  · exact TimeBound.expr_means fun i hi => timed_inside hrow i (TimeBound.candidate_of_ofExpr? hk i hi)

/-- **A condition that has a value** is true exactly if its parts hold. -/
theorem trueOn_iff_parts (h : ofExpr condition leftWidth isTimestamp = .ok parts)
    (hrow : ∀ i time, isTimestamp i = true → row[i]? = some time → time.IsTime)
    (hv : evalExpr now row condition = .ok v) :
    trueOn now condition row = true ↔ parts.Holds now row leftWidth := by
  have hok : ∀ k ∈ condition.conjuncts, ∃ v, evalExpr now row k = .ok v :=
    conjuncts_of_evalExpr condition hv
  have hnone : none.Holds now row leftWidth :=
    holds_iff.2 ⟨⟨by simp [none], by simp [none]⟩, by simp [none]⟩
  have hexact := (((adds_of_ofExpr h).inside hok).splits (timed_inside hrow)).exact hok
  rw [trueOn_iff_conjuncts, hexact, and_iff_right hnone]

/-- **A join condition is its parts.** It has parts unless a length of time in it leaves 64 bits. An
equality pairs a left with a right column, and a time bound is between one left and one right
timestamp. On a row whose timestamps are times or null, a condition that has a value is true exactly
if all pairs of columns compare equal, the expressions of all bounds are true and everything else
is; and so is the conjunction of the condition without its bounds and of their expressions. These
must not leave 64 bits either. -/
theorem condition_is_its_parts (condition : Expr) (leftWidth : Nat) (isTimestamp : Nat → Bool)
    (h : ∀ r ∈ condition.conjuncts.flatMap (TimeBound.results isTimestamp), Millis.Fits r) :
    ∃ parts, ofExpr condition leftWidth isTimestamp = .ok parts ∧
    (∀ p ∈ parts.equalities, p.1 < leftWidth ∧
      (.equate p.1 (p.2 + leftWidth) ∈ condition.conjuncts ∨
        .equate (p.2 + leftWidth) p.1 ∈ condition.conjuncts)) ∧
    (∀ b ∈ parts.timeBounds, ∃ l r, (b.columns = [l, r] ∨ b.columns = [r, l]) ∧ l < leftWidth ∧
      leftWidth ≤ r ∧ isTimestamp l = true ∧ isTimestamp r = true) ∧
    ∀ (now : Int) (row : Row) (v : Value),
      (∀ i time, isTimestamp i = true → row[i]? = some time → time.IsTime) →
      evalExpr now row condition = .ok v →
      (∀ b ∈ parts.timeBounds, ¬Overflows (evalExpr now row b.expr)) →
      (v = .boolean true ↔
        (∀ p ∈ parts.equalities, ∃ x y, row[p.1]? = some x ∧ row[p.2 + leftWidth]? = some y ∧
          x.compare? y = some .eq) ∧
        (∀ b ∈ parts.timeBounds, evalExpr now row b.expr = .ok (.boolean true)) ∧
        ∀ k ∈ parts.remaining, evalExpr now row k = .ok (.boolean true)) ∧
      ∃ w, evalExpr now row (.all (parts.withoutTime leftWidth :: parts.timeBounds.map TimeBound.expr))
          = .ok w ∧ (v = .boolean true ↔ w = .boolean true) := by
  obtain ⟨parts, hparts⟩ := ofExpr_exactly condition leftWidth isTimestamp
  rw [Exactly, if_pos h] at hparts
  refine ⟨parts, hparts, pair_of_ofExpr hparts, sides_of_ofExpr hparts,
    fun now row v hrow hv hbounds => ?_⟩
  have hmeans := bound_means hparts hrow hv
  have hvalues : ∀ b ∈ parts.timeBounds, ∃ w, evalExpr now row b.expr = .ok w :=
    fun b hb => (hmeans b hb).settled.resolve_left (hbounds b hb)
  have hvalue : v = .boolean true ↔
      ((∀ p ∈ parts.equalities, row.equates p.1 (p.2 + leftWidth) = true) ∧
        ∀ k ∈ parts.remaining, trueOn now k row = true) ∧
      ∀ b ∈ parts.timeBounds, trueOn now b.expr row = true := by
    rw [← Value.isTrue_iff, ← trueOn_of_ok hv, trueOn_iff_parts hparts hrow hv, holds_iff]
    exact and_congr_right' (forall₂_congr fun b hb => ((hmeans b hb).trueOn (hbounds b hb)).symm)
  constructor
  · rw [hvalue, and_assoc, and_comm (b := ∀ b ∈ parts.timeBounds, _)]
    simp only [Row.equates_iff, trueOn_eq_true_iff]
  · -- the condition put together has a value, as all that it consists of does
    have hwithout : ∃ w, evalExpr now row (parts.withoutTime leftWidth) = .ok w :=
      evalExpr_all_of_ok ((adds_of_ofExpr hparts).untimed (conjuncts_of_evalExpr condition hv))
    obtain ⟨w, hw⟩ := evalExpr_all_of_ok
      (List.forall_mem_cons.2 ⟨hwithout, List.forall_mem_map.2 hvalues⟩)
    have huntimed : trueOn now (parts.withoutTime leftWidth) row = true ↔
        (∀ p ∈ parts.equalities, row.equates p.1 (p.2 + leftWidth) = true) ∧
          ∀ k ∈ parts.remaining, trueOn now k row = true := trueOn_all.trans forall_untimed_true
    refine ⟨w, hw, ?_⟩
    rw [hvalue, ← Value.isTrue_iff, ← trueOn_of_ok hw, trueOn_all, List.forall_mem_cons,
      List.forall_mem_map, huntimed]

/-- A left row of the same key as the right one, at most 5 ms after it, with a key below ten. -/
def soonAfter : Expr :=
  .binary .and (.binary .and .truth (.equate 2 0))
    (.binary .and (.binary .le (.column 1) (.binary .plus (.column 3) (.interval 5)))
      (.binary .lt (.column 0) (.literal (.int 10))))

def soonAfterParts : JoinCondition :=
  ⟨[(0, 0)], [⟨.column 1, .column 3, .le, 5⟩], [.binary .lt (.column 0) (.literal (.int 10))]⟩

/-- An event 2 ms after the one that it is joined with has all that the condition asks for. -/
theorem soonAfter_is_its_parts :
    ofExpr soonAfter 2 (fun i => i == 1 || i == 3) = .ok soonAfterParts ∧
    evalExpr 0 [.int 7, .timestamp 100, .int 7, .timestamp 98] soonAfter = .ok (.boolean true) ∧
    (∀ b ∈ soonAfterParts.timeBounds,
      evalExpr 0 [.int 7, .timestamp 100, .int 7, .timestamp 98] b.expr = .ok (.boolean true)) ∧
    evalExpr 0 [.int 7, .timestamp 100, .int 7, .timestamp 98]
      (.all (soonAfterParts.withoutTime 2 :: soonAfterParts.timeBounds.map TimeBound.expr)) =
        .ok (.boolean true) := by
  obtain ⟨parts, hparts, -, -, hmeans⟩ :=
    condition_is_its_parts soonAfter 2 (fun i => i == 1 || i == 3) (by decide)
  cases hparts
  have hrow : ∀ i time, (i == 1 || i == 3) = true →
      [Value.int 7, .timestamp 100, .int 7, .timestamp 98][i]? = some time → time.IsTime := by
    intro i time hi htime
    rw [Bool.or_eq_true, beq_iff_eq, beq_iff_eq] at hi
    rcases hi with rfl | rfl
    · exact .inr ⟨100, (Option.some.inj htime).symm⟩
    · exact .inr ⟨98, (Option.some.inj htime).symm⟩
  have htrue : evalExpr 0 [.int 7, .timestamp 100, .int 7, .timestamp 98] soonAfter =
      .ok (.boolean true) := rfl
  obtain ⟨hsame, w, hw, hrebuilt⟩ := hmeans 0 _ _ hrow htrue
    (List.forall_mem_singleton.2 (not_overflows (v := .boolean true) rfl))
  exact ⟨rfl, htrue, (hsame.1 rfl).2.1, hrebuilt.1 rfl ▸ hw⟩

end StreamPlan.JoinCondition
