import StreamPlan.Proofs.Answers.Materialized
import StreamPlan.Proofs.Plan.Columns
import StreamPlan.Proofs.Rows.Sorting

/-!
# Pending constraints over moved columns

A pending constraint reads a row at its columns and nowhere else. Over rows that
have these columns elsewhere, the constraint with its columns moved keeps the
same rows in the same order, and stops for the same reason if it stops.

* `sortRows_moved`, `firstRowsOf_moved`, `filterRows_moved`: each constraint.
* `Rel.Rereads`: a tree has the rows of another with their columns as listed.
* `Plan.PublishedAs.rereads_settled`: **applying what is pending** to a plan and to
  the rows of its published form keeps the same rows.
-/

namespace StreamPlan

variable {columns : List Nat} {rows aboves : List Row} {order moved : SortOrder}

/-- Rows that have the columns of others as listed, one by one. -/
def KeepAll (columns : List Nat) (rows aboves : List Row) : Prop :=
  List.Forall₂ (Row.Keeps columns) rows aboves

theorem itemAt_moved {row above : Row} {c i : Nat} (h : row.Keeps columns above)
    (hm : MovedTo columns c i) : itemAt above i = itemAt row c := by
  rw [itemAt, itemAt, h i c (find_position hm)]

/-- Two rows compare as before by an order that moved with its columns. -/
theorem compareRows_moved {a b a' b' : Row} (ha : a.Keeps columns a') (hb : b.Keeps columns b')
    (ho : List.Forall₂ (SortKey.MovedTo columns) order moved) :
    compareRows a b order = compareRows a' b' moved := by
  induction ho with
  | nil => rfl
  | cons hk _ ih =>
    rw [compareRows, compareRows, itemAt_moved ha hk.1, itemAt_moved hb hk.1, hk.2, ih]

/-- **A sort** by an order that moved with its columns. -/
theorem sortRows_moved (h : KeepAll columns rows aboves)
    (ho : List.Forall₂ (SortKey.MovedTo columns) order moved) :
    Alike (KeepAll columns) (sortRows order rows) (sortRows moved aboves) := by
  refine Sorting.stable_alike (fun a a' ha b b' hb => ?_) h
  rw [precedes, precedes, compareRows_moved ha hb ho]

theorem firstRowsFrom_moved {partition moved : List Nat} {keep : Nat}
    (hp : List.Forall₂ (MovedTo columns) partition moved) (h : KeepAll columns rows aboves) :
    ∀ seen, Alike (KeepAll columns) (firstRowsFrom partition keep seen rows)
      (firstRowsFrom moved keep seen aboves) := by
  induction h with
  | nil =>
    intro seen
    rw [firstRowsFrom, firstRowsFrom]
    exact .ok .nil
  | cons hrow _ ih =>
    intro seen
    rw [firstRowsFrom, firstRowsFrom]
    refine .step (Plan.at_of_moved hrow hp).symm fun group => ?_
    refine (ih _).bind fun _ _ hrest => ?_
    split
    · exact .ok (.cons hrow hrest)
    · exact .ok hrest

/-- **The first rows** of partitions whose columns moved. -/
theorem firstRowsOf_moved {partition moved : List Nat} {limit : Option Nat} {distinct : Bool}
    (hp : List.Forall₂ (MovedTo columns) partition moved) (h : KeepAll columns rows aboves) :
    Alike (KeepAll columns) (firstRowsOf partition limit distinct rows)
      (firstRowsOf moved limit distinct aboves) := by
  unfold firstRowsOf
  split
  · exact .ok h
  · exact firstRowsFrom_moved hp h _

/-- A now-filter that has a value on a row has it where the timestamp moved. -/
theorem NowFilter.evalExpr_moved {now : Int} {filter : NowFilter} {timestamp : Nat} {row above : Row}
    {v : Value} (h : row.Keeps columns above) (hm : MovedTo columns filter.timestamp timestamp)
    (hv : evalExpr now row filter.expr = .ok v) :
    evalExpr now above { filter with timestamp }.expr = .ok v := by
  rw [evalExpr_eq] at hv ⊢
  obtain ⟨time, htime, hv⟩ := bind_eq_ok.1 hv
  refine bind_eq_ok.2 ⟨time, ?_, hv⟩
  rw [evalExpr] at htime ⊢
  rw [h _ _ (find_position hm)]
  cases hc : row[filter.timestamp]? with
  | none =>
    rw [hc] at htime
    exact absurd htime refuse_ne_ok
  | some t => rwa [hc] at htime

/-- **A now-filter** whose timestamp moved, if it can be applied. -/
theorem filterRows_moved {now : Int} {filter : NowFilter} {timestamp : Nat} {out : List Row}
    (hm : MovedTo columns filter.timestamp timestamp) (h : KeepAll columns rows aboves)
    (hrows : filterRows now filter.expr rows = .ok out) :
    ∃ kept, filterRows now { filter with timestamp }.expr aboves = .ok kept ∧
      KeepAll columns out kept := by
  obtain ⟨hvalues, rfl⟩ := filterRows_eq_ok.1 hrows
  have hsame : List.Forall₂ (fun row above => row.Keeps columns above ∧ ∃ v,
      evalExpr now row filter.expr = .ok v ∧
        evalExpr now above { filter with timestamp }.expr = .ok v) rows aboves :=
    ((List.forall₂_and_left ..).2 ⟨hvalues, h⟩).imp fun row above ⟨⟨v, hv⟩, hrow⟩ =>
      ⟨hrow, v, hv, NowFilter.evalExpr_moved hrow hm hv⟩
  refine ⟨_, filterRows_eq_ok.2 ⟨fun above habove => ?_, rfl⟩, ?_⟩
  · obtain ⟨i, hi, rfl⟩ := List.getElem_of_mem habove
    obtain ⟨-, v, -, hv⟩ := (List.forall₂_iff_get.1 hsame).2 i (h.length_eq ▸ hi) hi
    exact ⟨v, hv⟩
  · refine (List.rel_filter (fun row above ⟨_, v, hv, hv'⟩ => ?_) hsame).imp fun _ _ => And.left
    simp only [trueOn_of_ok hv, trueOn_of_ok hv']

/-- Where a tree has rows, another tree has these rows with their columns as listed. -/
def Rel.Rereads (rel : Rel) (before : Fixture) (rel' : Rel) (after : Fixture) (columns : List Nat) :
    Prop :=
  ∀ rows, evaluate before rel = .ok rows →
    ∃ aboves, evaluate after rel' = .ok aboves ∧ KeepAll columns rows aboves

namespace Rel.Rereads

variable {rel rel' : Rel} {before after : Fixture} (h : rel.Rereads before rel' after columns)
include h

/-- **A now-filter** that is applied to both. -/
theorem nowFilter {filter : NowFilter} {timestamp : Nat}
    (hm : MovedTo columns filter.timestamp timestamp) (hnow : after.now = before.now) :
    (filter.onto rel).Rereads before (NowFilter.onto { filter with timestamp } rel') after columns := by
  intro out hout
  rw [NowFilter.onto, evaluate] at hout
  obtain ⟨rows, hrows, hout⟩ := bind_eq_ok.1 hout
  obtain ⟨aboves, haboves, hall⟩ := h rows hrows
  obtain ⟨kept, hkept, hkeep⟩ := filterRows_moved hm hall hout
  rw [NowFilter.onto, evaluate, hnow]
  exact ⟨kept, bind_eq_ok.2 ⟨aboves, haboves, hkept⟩, hkeep⟩

/-- **A ranking** that is applied to both. -/
theorem topN {topN moved : TopN} (hp : List.Forall₂ (MovedTo columns) topN.partition moved.partition)
    (ho : List.Forall₂ (SortKey.MovedTo columns) topN.order moved.order)
    (hdistinct : moved.distinct = topN.distinct) (hlimit : moved.limit = topN.limit) :
    (topN.onto rel).Rereads before (moved.onto rel') after columns := by
  have hempty : moved.isEmpty = topN.isEmpty := by
    rw [TopN.isEmpty, TopN.isEmpty, isEmpty_of_forall₂ hp, hdistinct, hlimit]
  have hsorted : (Rel.sort rel topN.order none none).Rereads before (.sort rel' moved.order none none)
      after columns := by
    intro out hout
    rw [evaluate] at hout
    obtain ⟨rows, hrows, hout⟩ := bind_eq_ok.1 hout
    obtain ⟨sorted, hsort, hout⟩ := bind_eq_ok.1 hout
    cases hout
    obtain ⟨aboves, haboves, hall⟩ := h rows hrows
    obtain ⟨kept, hkept, hkeep⟩ := (sortRows_moved hall ho).of_ok (lift_eq_ok.1 hsort)
    rw [evaluate]
    exact ⟨kept, bind_eq_ok.2 ⟨aboves, haboves, bind_eq_ok.2 ⟨kept, lift_eq_ok.2 hkept, rfl⟩⟩, hkeep⟩
  have hfirst : ∀ {sub sub' : Rel}, sub.Rereads before sub' after columns →
      (Rel.firstRows sub topN.partition topN.limit topN.distinct).Rereads before
        (.firstRows sub' moved.partition topN.limit topN.distinct) after columns := by
    intro sub sub' hsub out hout
    rw [evaluate] at hout
    obtain ⟨rows, hrows, hout⟩ := bind_eq_ok.1 hout
    obtain ⟨aboves, haboves, hall⟩ := hsub rows hrows
    obtain ⟨kept, hkept, hkeep⟩ := (firstRowsOf_moved hp hall).of_ok (lift_eq_ok.1 hout)
    rw [evaluate]
    exact ⟨kept, bind_eq_ok.2 ⟨aboves, haboves, lift_eq_ok.2 hkept⟩, hkeep⟩
  unfold TopN.onto
  rw [hempty, isEmpty_of_forall₂ ho, hdistinct, hlimit]
  split
  · exact h
  · simp only
    split
    · exact hfirst h
    · exact hfirst hsorted

end Rel.Rereads

namespace Plan

variable {plan published scan : Plan} {before after : Fixture}

/-- **Applying what is pending**, to a plan and to one that has the pending constraints
of its published form, keeps the same rows in the same order. -/
theorem PublishedAs.rereads_settled (h : plan.PublishedAs published)
    (hnow : after.now = before.now) (hfilter : scan.nowFilter = published.nowFilter)
    (htopN : scan.topN = published.topN)
    (hrel : plan.rel.Rereads before scan.rel after plan.publishedColumns) :
    plan.settledRel.Rereads before scan.settledRel after plan.publishedColumns := by
  rw [settledRel, settledRel, htopN]
  refine Rel.Rereads.topN ?_ h.partition h.order h.topN.1 h.topN.2.1
  rw [filteredRel, filteredRel, hfilter, h.nowFilter]
  cases hf : plan.nowFilter with
  | none => exact hrel
  | some filter =>
    have hmem : filter.timestamp ∈ plan.publishedColumns :=
      mem_publishedColumns.2 (.inr (.inr (.inr (.inl ⟨filter, hf, rfl⟩))))
    obtain ⟨i, hi⟩ := position_of_mem hmem
    rw [Option.bind_some, NowFilter.remap, show Selection.position? _ _ = some i from hi]
    exact hrel.nowFilter hi hnow

/-- The rows of a published plan are those of the plan, with the columns as published. -/
theorem PublishedAs.keepAll (h : plan.PublishedAs published) {aboves : List Row}
    (hrows : evaluate before published.rel = .ok aboves) :
    ∃ rows, evaluate before plan.rel = .ok rows ∧ KeepAll plan.publishedColumns rows aboves := by
  rcases h.rel with ⟨hrange, hrel⟩ | ⟨outputs, houtputs, hrel⟩
  · rw [hrel] at hrows
    exact ⟨aboves, hrows, hrange ▸ List.forall₂_same.2 fun row _ => row.keeps_range _⟩
  · rw [hrel, evaluate] at hrows
    obtain ⟨rows, hbelow, hrows⟩ := bind_eq_ok.1 hrows
    exact ⟨rows, hbelow, ((projectRows_columns houtputs).1 hrows).imp fun _ _ h => Row.keeps_of_at h⟩

end Plan

end StreamPlan
