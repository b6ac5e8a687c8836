import StreamPlan.Plan.Join
import StreamPlan.Proofs.EventTime.Meaning
import StreamPlan.Proofs.Rows.Equality

/-!
# What the parts of a join condition say

* `JoinCondition.Adds`: how conditions are added to parts, one after another.
* `JoinCondition.Holds`: what parts say of a joined row.
* `JoinCondition.Splits`: what adding conditions to parts means on a row.
* `JoinCondition.ofExpr_means`: **a condition means what its parts say**.
* `JoinCondition.trueOn_of_isEquiJoin`: a condition of equalities alone.
* `JoinCondition.equates_of_trueOn`: a condition that is true of a pair equates columns.
-/

namespace StreamPlan.JoinCondition

variable {leftWidth : Nat} {isTimestamp : Nat → Bool} {now : Int} {row : Row}
  {parts out : JoinCondition} {conditions : List Expr}

/-- The equality that a condition is, in either order. -/
theorem equality?_eq_some {k : Expr} {p : Nat × Nat} (h : equality? leftWidth k = some p) :
    p.1 < leftWidth ∧ (k = .equate p.1 (p.2 + leftWidth) ∨ k = .equate (p.2 + leftWidth) p.1) := by
  unfold equality? at h
  split at h
  · rename_i a b
    split at h
    · rename_i ha
      split at h
      · cases h
      · rename_i hb
        cases h
        exact ⟨ha, .inl (by rw [Nat.sub_add_cancel (Nat.not_lt.1 hb)]; rfl)⟩
    · rename_i ha
      split at h
      · rename_i hb
        cases h
        exact ⟨hb, .inr (by rw [Nat.sub_add_cancel (Nat.not_lt.1 ha)]; rfl)⟩
      · cases h
  · cases h

/-- How conditions are added to parts, one after another. -/
inductive Adds (leftWidth : Nat) (isTimestamp : Nat → Bool) :
    List Expr → JoinCondition → JoinCondition → Prop
  | nil {parts : JoinCondition} : Adds leftWidth isTimestamp [] parts parts
  | bound {k : Expr} {b : TimeBound} {ks : List Expr} {parts out : JoinCondition} :
      TimeBound.ofExpr? isTimestamp k = .ok (some b) → crosses leftWidth b = true →
      Adds leftWidth isTimestamp ks { parts with timeBounds := parts.timeBounds ++ [b] } out →
      Adds leftWidth isTimestamp (k :: ks) parts out
  | equality {k : Expr} {p : Nat × Nat} {ks : List Expr} {parts out : JoinCondition} :
      equality? leftWidth k = some p →
      Adds leftWidth isTimestamp ks { parts with equalities := parts.equalities ++ [p] } out →
      Adds leftWidth isTimestamp (k :: ks) parts out
  | rest {k : Expr} {ks : List Expr} {parts out : JoinCondition} :
      Adds leftWidth isTimestamp ks { parts with remaining := parts.remaining ++ [k] } out →
      Adds leftWidth isTimestamp (k :: ks) parts out

theorem adds_of_foldlM (conditions : List Expr) :
    ∀ {parts : JoinCondition}, conditions.foldlM (add leftWidth isTimestamp) parts = .ok out →
      Adds leftWidth isTimestamp conditions parts out := by
  induction conditions with
  | nil =>
    intro parts h
    cases h
    exact .nil
  | cons k ks ih =>
    intro parts h
    rw [List.foldlM_cons] at h
    obtain ⟨next, hnext, h⟩ := bind_eq_ok.1 h
    unfold add at hnext
    obtain ⟨bound, hbound, hnext⟩ := bind_eq_ok.1 hnext
    simp only at hnext
    split at hnext
    · rename_i b hb
      obtain ⟨rfl, hcross⟩ := Option.filter_eq_some_iff.1 hb
      cases hnext
      exact .bound hbound hcross (ih h)
    · rename_i p _ hp
      cases hnext
      exact .equality hp (ih h)
    · cases hnext
      exact .rest (ih h)

/-- The parts of a condition are its conditions, added one after another. -/
theorem adds_of_ofExpr {condition : Expr} (h : ofExpr condition leftWidth isTimestamp = .ok parts) :
    Adds leftWidth isTimestamp condition.conjuncts none parts := adds_of_foldlM _ h

/-- Where equalities come from. -/
theorem Adds.equalities (h : Adds leftWidth isTimestamp conditions parts out) :
    ∀ p ∈ out.equalities, p ∈ parts.equalities ∨ ∃ k ∈ conditions, equality? leftWidth k = some p := by
  induction h with
  | nil => exact fun p hp => .inl hp
  | bound _ _ _ ih | rest _ ih =>
    intro p hp
    rcases ih p hp with hp | ⟨k, hk, he⟩
    · exact .inl hp
    · exact .inr ⟨k, List.mem_cons_of_mem _ hk, he⟩
  | @equality k p _ _ _ hk _ ih =>
    intro p' hp
    rcases ih p' hp with hp | ⟨k, hk, he⟩
    · rcases List.mem_append.1 hp with hp | hp
      · exact .inl hp
      · exact .inr ⟨k, List.mem_cons_self, by rw [List.mem_singleton.1 hp, hk]⟩
    · exact .inr ⟨k, List.mem_cons_of_mem _ hk, he⟩

/-- Time bounds come from conditions and are between timestamps of the two inputs. -/
theorem Adds.timeBounds (h : Adds leftWidth isTimestamp conditions parts out) :
    ∀ b ∈ out.timeBounds, b ∈ parts.timeBounds ∨ crosses leftWidth b = true ∧
      ∃ k ∈ conditions, TimeBound.ofExpr? isTimestamp k = .ok (some b) := by
  induction h with
  | nil => exact fun b hb => .inl hb
  | equality _ _ ih | rest _ ih =>
    intro b hb
    exact (ih b hb).imp_right fun ⟨hcross, k, hk, he⟩ => ⟨hcross, k, List.mem_cons_of_mem _ hk, he⟩
  | bound hk hcross _ ih =>
    intro b' hb
    rcases ih b' hb with hb | ⟨hcross', k, hmem, he⟩
    · rcases List.mem_append.1 hb with hb | hb
      · exact .inl hb
      · rw [List.mem_singleton.1 hb]
        exact .inr ⟨hcross, _, List.mem_cons_self, hk⟩
    · exact .inr ⟨hcross', k, List.mem_cons_of_mem _ hmem, he⟩

/-- What remains are conditions. -/
theorem Adds.remaining (h : Adds leftWidth isTimestamp conditions parts out) :
    ∀ k ∈ out.remaining, k ∈ parts.remaining ∨ k ∈ conditions := by
  induction h with
  | nil => exact fun k hk => .inl hk
  | bound _ _ _ ih | equality _ _ ih =>
    intro k hk
    exact (ih k hk).imp_right (List.mem_cons_of_mem _)
  | rest _ ih =>
    intro k' hk
    rcases ih k' hk with hk | hk
    · rcases List.mem_append.1 hk with hk | hk
      · exact .inl hk
      · exact .inr (List.mem_singleton.1 hk ▸ List.mem_cons_self)
    · exact .inr (List.mem_cons_of_mem _ hk)

/-- What holds of all conditions that are no time bounds. -/
theorem forall_untimed {P : Expr → Prop} : (∀ k ∈ parts.untimed leftWidth, P k) ↔
    (∀ p ∈ parts.equalities, P (.equate p.1 (p.2 + leftWidth))) ∧ ∀ k ∈ parts.remaining, P k := by
  rw [untimed, List.forall_mem_append, List.forall_mem_map]

theorem forall_untimed_true : (∀ k ∈ parts.untimed leftWidth, trueOn now k row = true) ↔
    (∀ p ∈ parts.equalities, row.equates p.1 (p.2 + leftWidth) = true) ∧
      ∀ k ∈ parts.remaining, trueOn now k row = true := by
  rw [forall_untimed]
  simp only [trueOn_equate]

/-- What parts say of a joined row. -/
structure Holds (now : Int) (row : Row) (leftWidth : Nat) (parts : JoinCondition) : Prop where
  untimed : ∀ k ∈ parts.untimed leftWidth, trueOn now k row = true
  timeBounds : ∀ b ∈ parts.timeBounds, b.Holds now row

theorem holds_iff : parts.Holds now row leftWidth ↔
    ((∀ p ∈ parts.equalities, row.equates p.1 (p.2 + leftWidth) = true) ∧
      ∀ k ∈ parts.remaining, trueOn now k row = true) ∧ ∀ b ∈ parts.timeBounds, b.Holds now row :=
  ⟨fun h => ⟨forall_untimed_true.1 h.untimed, h.timeBounds⟩,
    fun h => ⟨forall_untimed_true.2 h.1, h.2⟩⟩

/-- An equality has a value and is true wherever the condition that it comes
from has and is. -/
theorem equality?_means {k : Expr} {p : Nat × Nat} (h : equality? leftWidth k = some p) :
    ((∃ v, evalExpr now row k = .ok v) ↔
      ∃ v, evalExpr now row (.equate p.1 (p.2 + leftWidth)) = .ok v) ∧
      trueOn now k row = row.equates p.1 (p.2 + leftWidth) := by
  rcases (equality?_eq_some h).2 with rfl | rfl
  · exact ⟨Iff.rfl, trueOn_equate _ _⟩
  · rw [evalExpr_equate, evalExpr_equate, trueOn_equate, Row.equates_comm]
    exact ⟨And.comm, rfl⟩

/-- What adding conditions to parts means on a row. -/
structure Splits (now : Int) (row : Row) (leftWidth : Nat) (conditions : List Expr)
    (parts out : JoinCondition) : Prop where
  /-- Where all parts have values but the time bounds, a condition overflows at most. -/
  settled : (∀ k ∈ out.untimed leftWidth, ∃ v, evalExpr now row k = .ok v) →
    (∀ k ∈ parts.untimed leftWidth, ∃ v, evalExpr now row k = .ok v) ∧
      ∀ k ∈ conditions, Means (evalExpr now row k) (trueOn now k row = true)
  /-- No condition is lost or weakened. -/
  exact : (∀ k ∈ conditions, ∃ v, evalExpr now row k = .ok v) →
    (out.Holds now row leftWidth ↔
      parts.Holds now row leftWidth ∧ ∀ k ∈ conditions, trueOn now k row = true)

/-- A condition that has a value means that it is true. -/
theorem means_of_ok {k : Expr} (h : ∃ v, evalExpr now row k = .ok v) :
    Means (evalExpr now row k) (trueOn now k row = true) := by
  obtain ⟨v, hv⟩ := h
  exact .inr ⟨v, hv, by rw [trueOn_of_ok hv]⟩

/-- **Splitting conditions** over a row with times in its timestamps. -/
theorem Adds.splits (hrow : ∀ i, isTimestamp i = true → row.Timed i)
    (h : Adds leftWidth isTimestamp conditions parts out) :
    Splits now row leftWidth conditions parts out := by
  induction h with
  | nil => exact ⟨fun h => ⟨h, by simp⟩, fun _ => by simp⟩
  | @bound k b ks parts out hk _ _ ih =>
    have hmeans : Means (evalExpr now row k) (b.Holds now row) := TimeBound.ofExpr?_means hrow hk
    have hself : Means (evalExpr now row k) (trueOn now k row = true) := by
      rcases hmeans with he | ⟨v, hv, -⟩
      · exact .inl he
      · exact means_of_ok ⟨v, hv⟩
    refine ⟨fun hout => ?_, fun hok => ?_⟩
    · obtain ⟨hparts, hks⟩ := ih.settled hout
      exact ⟨hparts, List.forall_mem_cons.2 ⟨hself, hks⟩⟩
    · obtain ⟨⟨v, hv⟩, hok⟩ := List.forall_mem_cons.1 hok
      have hbound : trueOn now k row = true ↔ b.Holds now row := by
        rw [trueOn_of_ok hv]
        exact hmeans.of_ok hv
      rw [ih.exact hok, List.forall_mem_cons, hbound, holds_iff, holds_iff]
      simp only [List.forall_mem_append, List.forall_mem_singleton]
      tauto
  | @equality k p ks parts out hk _ ih =>
    obtain ⟨hvalue, htrue⟩ := @equality?_means leftWidth now row k p hk
    refine ⟨fun hout => ?_, fun hok => ?_⟩
    · obtain ⟨hnext, hks⟩ := ih.settled hout
      obtain ⟨hequalities, hremaining⟩ := forall_untimed.1 hnext
      obtain ⟨hparts, hpair⟩ := List.forall_mem_append.1 hequalities
      have hself := means_of_ok (hvalue.2 (hpair p (List.mem_singleton.2 rfl)))
      exact ⟨forall_untimed.2 ⟨hparts, hremaining⟩, List.forall_mem_cons.2 ⟨hself, hks⟩⟩
    · obtain ⟨-, hok⟩ := List.forall_mem_cons.1 hok
      rw [ih.exact hok, List.forall_mem_cons, htrue, holds_iff, holds_iff]
      simp only [List.forall_mem_append, List.forall_mem_singleton]
      tauto
  | @rest k ks parts out _ ih =>
    refine ⟨fun hout => ?_, fun hok => ?_⟩
    · obtain ⟨hnext, hks⟩ := ih.settled hout
      obtain ⟨hequalities, hremaining⟩ := forall_untimed.1 hnext
      obtain ⟨hparts, hself⟩ := List.forall_mem_append.1 hremaining
      have hself := means_of_ok (hself k (List.mem_singleton.2 rfl))
      exact ⟨forall_untimed.2 ⟨hequalities, hparts⟩, List.forall_mem_cons.2 ⟨hself, hks⟩⟩
    · obtain ⟨-, hok⟩ := List.forall_mem_cons.1 hok
      rw [ih.exact hok, List.forall_mem_cons, holds_iff, holds_iff]
      simp only [List.forall_mem_append, List.forall_mem_singleton]
      tauto

/-- **A condition means what its parts say**, where they have values. -/
theorem ofExpr_means {condition : Expr} (hrow : ∀ i, isTimestamp i = true → row.Timed i)
    (h : ofExpr condition leftWidth isTimestamp = .ok parts)
    (hok : ∀ k ∈ parts.untimed leftWidth, ∃ v, evalExpr now row k = .ok v) :
    Means (evalExpr now row condition) (parts.Holds now row leftWidth) := by
  have hsplits : Splits now row leftWidth condition.conjuncts none parts :=
    (adds_of_ofExpr h).splits hrow
  have hnone : none.Holds now row leftWidth :=
    holds_iff.2 ⟨⟨by simp [none], by simp [none]⟩, by simp [none]⟩
  obtain ⟨-, hsettled⟩ := hsplits.settled hok
  rcases means_of_conjuncts condition hsettled with he | ⟨v, hv, htrue⟩
  · exact .inl he
  · have hall : ∀ k ∈ condition.conjuncts, ∃ w, evalExpr now row k = .ok w :=
      conjuncts_of_evalExpr condition hv
    exact .inr ⟨v, hv, by rw [htrue, hsplits.exact hall, and_iff_right hnone]⟩

/-- Conditions that are all equalities. -/
theorem Adds.equality?_of_isEquiJoin (h : Adds leftWidth isTimestamp conditions parts out)
    (hequi : out.isEquiJoin = true) :
    parts.isEquiJoin = true ∧ (∀ p ∈ parts.equalities, p ∈ out.equalities) ∧
      ∀ k ∈ conditions, ∃ p ∈ out.equalities, equality? leftWidth k = some p := by
  induction h with
  | nil => exact ⟨hequi, fun _ hp => hp, by simp⟩
  | bound _ _ _ ih | rest _ ih =>
    obtain ⟨hnext, -⟩ := ih hequi
    simp [isEquiJoin] at hnext
  | @equality k p ks parts out hk _ ih =>
    obtain ⟨hnext, hold, hks⟩ := ih hequi
    refine ⟨hnext, fun p hp => hold p (List.mem_append_left _ hp), List.forall_mem_cons.2 ⟨?_, hks⟩⟩
    exact ⟨p, hold p (List.mem_append_right _ (List.mem_singleton.2 rfl)), hk⟩

/-- **The condition of a join on equalities alone** has a value, and is true when
all of them are. -/
theorem trueOn_of_isEquiJoin {condition : Expr}
    (h : ofExpr condition leftWidth isTimestamp = .ok parts) (hequi : parts.isEquiJoin = true)
    (hin : ∀ p ∈ parts.equalities, p.1 < row.length ∧ p.2 + leftWidth < row.length) :
    (∃ v, evalExpr now row condition = .ok v) ∧
      (trueOn now condition row = true ↔
        ∀ p ∈ parts.equalities, row.equates p.1 (p.2 + leftWidth) = true) := by
  have hadds := adds_of_ofExpr h
  obtain ⟨-, -, hall⟩ := hadds.equality?_of_isEquiJoin hequi
  have hvalues : ∀ k ∈ condition.conjuncts, ∃ v, evalExpr now row k = .ok v := by
    intro k hk
    obtain ⟨p, hp, he⟩ := hall k hk
    exact (equality?_means he).1.2 (evalExpr_equate.2 (hin p hp))
  obtain ⟨v, hv, htrue⟩ := evalExpr_of_conjuncts condition hvalues
  refine ⟨⟨v, hv⟩, ?_⟩
  rw [trueOn_of_ok hv, htrue]
  constructor
  · intro hks p hp
    rcases hadds.equalities p hp with hnone | ⟨k, hk, he⟩
    · cases hnone
    · obtain ⟨w, hw⟩ := hvalues k hk
      rw [← (@equality?_means leftWidth now row k p he).2, trueOn_of_ok hw]
      exact hks k hk w hw
  · intro hps k hk w hw
    obtain ⟨p, hp, he⟩ := hall k hk
    rw [← trueOn_of_ok hw, (equality?_means he).2]
    exact hps p hp

/-- An equality pairs a left with a right column that a condition equates, in either order. -/
theorem pair_of_ofExpr {condition : Expr} (h : ofExpr condition leftWidth isTimestamp = .ok parts) :
    ∀ p ∈ parts.equalities, p.1 < leftWidth ∧
      (.equate p.1 (p.2 + leftWidth) ∈ condition.conjuncts ∨
        .equate (p.2 + leftWidth) p.1 ∈ condition.conjuncts) := by
  intro p hp
  rcases (adds_of_ofExpr h).equalities p hp with hp | ⟨k, hk, he⟩
  · cases hp
  · obtain ⟨hlt, rfl | rfl⟩ := equality?_eq_some he
    · exact ⟨hlt, .inl hk⟩
    · exact ⟨hlt, .inr hk⟩

/-- The left column of an equality is one of the left input. -/
theorem left_of_equality {condition : Expr}
    (h : ofExpr condition leftWidth isTimestamp = .ok parts) :
    ∀ p ∈ parts.equalities, p.1 < leftWidth := fun p hp => (pair_of_ofExpr h p hp).1

/-- **A condition that is true of a pair** equates the columns of its equalities. -/
theorem equates_of_trueOn {condition : Expr}
    (h : ofExpr condition leftWidth isTimestamp = .ok parts)
    (htrue : trueOn now condition row = true) :
    ∀ p ∈ parts.equalities, row.equates p.1 (p.2 + leftWidth) = true := by
  intro p hp
  rcases (adds_of_ofExpr h).equalities p hp with hp | ⟨k, hk, he⟩
  · cases hp
  · rw [← (equality?_means he).2]
    exact (trueOn_iff_conjuncts condition).1 htrue k hk

/-- It has all conditions that are no time bounds. -/
theorem untimed_of_trueOn {condition : Expr}
    (h : ofExpr condition leftWidth isTimestamp = .ok parts)
    (htrue : trueOn now condition row = true) :
    ∀ k ∈ parts.untimed leftWidth, trueOn now k row = true := by
  refine forall_untimed.2 ⟨fun p hp => ?_, fun k hk => ?_⟩
  · rw [trueOn_equate]
    exact equates_of_trueOn h htrue p hp
  · rcases (adds_of_ofExpr h).remaining k hk with hk | hk
    · cases hk
    · exact (trueOn_iff_conjuncts condition).1 htrue k hk

/-- The condition without its time bounds equates columns too. -/
theorem equates_of_withoutTime (htrue : trueOn now (parts.withoutTime leftWidth) row = true) :
    ∀ p ∈ parts.equalities, row.equates p.1 (p.2 + leftWidth) = true := by
  intro p hp
  rw [← @trueOn_equate now row]
  exact trueOn_all.1 htrue _ (List.mem_append_left _ (List.mem_map_of_mem hp))

end StreamPlan.JoinCondition
