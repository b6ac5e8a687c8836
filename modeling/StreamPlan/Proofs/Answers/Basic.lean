import StreamPlan.Plan.Manifest
import StreamPlan.Proofs.Typing.Convert

/-!
# Answers of queries

The answer of a query is what its plan gives as a final result: the rows of
the aligned plan, of each the columns that the query sees and the key.

* `Converter.Answers`: a query has an answer.
* `Plan.settledRel`: the tree of a plan with every pending constraint applied.
* `Converter.answer_settled`: **an answer is read off the rows of that tree**,
  in order; aligning moves columns and nothing else.
-/

namespace StreamPlan

/-- The values of a row in some columns. Outside of the row there are nulls. -/
def Row.pick (row : Row) (columns : List Nat) : Row := columns.map fun c => (row[c]?).getD .null

/-- A row of an answer: the columns that the query sees, and its key. -/
structure AnsweredRow where
  visible : Row
  key : Row

/-- What the query sees of a row of a plan's tree. -/
def Plan.view (plan : Plan) (row : Row) : Except Fault AnsweredRow := do
  let visible ← row.at plan.select.targets
  let key ← row.at plan.key.targets
  return ⟨visible, key⟩

/-- The rows of a plan, as far as the query sees them. -/
def Plan.answer (fixture : Fixture) (plan : Plan) : Eval (List AnsweredRow) := do
  let rows ← evaluate fixture plan.rel
  rows.mapM fun row => orFault (plan.view row)

/-- **The answer of a query**: the query converts, its plan can be given as a
final result, and the tree of that has rows. -/
def Converter.Answers (c : Converter) (fixture : Fixture) (q : Rel)
    (answer : List AnsweredRow) : Prop :=
  ∃ plan final manifest, c.convert q = .ok plan ∧ plan.materialize = .ok (final, manifest) ∧
    final.answer fixture = .ok answer

variable {row values : Row}

theorem Row.length_pick (row : Row) (columns : List Nat) :
    (row.pick columns).length = columns.length := by
  rw [pick, List.length_map]

theorem Row.getElem?_pick {columns : List Nat} {i c : Nat} (h : columns[i]? = some c)
    (hc : c < row.length) : (row.pick columns)[i]? = row[c]? := by
  rw [pick, List.getElem?_map, h, Option.map_some, List.getElem?_eq_getElem hc, Option.getD_some]

/-- Values at columns of a row are the values picked there. -/
theorem eq_pick_of_at {columns : List Nat} (h : Row.at row columns = .ok values) :
    values = row.pick columns := by
  have hf := at_eq_ok.1 h
  clear h
  induction hf with
  | nil => rfl
  | cons hv _ ih => rw [Row.pick, List.map_cons, hv, ih]; rfl

/-- The values of a row at columns of it. -/
theorem Row.at_of_inside {columns : List Nat} (h : ∀ c ∈ columns, c < row.length) :
    row.at columns = .ok (row.pick columns) := by
  obtain ⟨values, hvalues, -⟩ := at_gives h
  rw [hvalues, eq_pick_of_at hvalues]

/-- Columns of which a row has values are columns of it. -/
theorem inside_of_at {columns : List Nat} (h : Row.at row columns = .ok values) :
    ∀ c ∈ columns, c < row.length := by
  intro c hc
  obtain ⟨i, hi, rfl⟩ := List.getElem_of_mem hc
  obtain ⟨v, -, hv⟩ := getElem?_of_mapM_eq_ok h (List.getElem?_eq_getElem hi)
  exact (List.getElem?_eq_some_iff.1 (itemAt_eq_ok.1 hv)).1

/-- The first columns of a row. -/
theorem Row.pick_range {n : Nat} (h : n ≤ row.length) : row.pick (List.range n) = row.take n := by
  refine List.ext_getElem (by simp [length_pick, h]) fun i hi hi' => ?_
  have hlt : i < row.length := Nat.lt_of_lt_of_le hi' (List.length_take_le' n row)
  simp [pick, List.getElem?_eq_getElem hlt]

/-- Rows that agree on columns agree on what is picked there. -/
theorem Row.pick_congr {other : Row} {front back : List Nat}
    (h : List.Forall₂ (fun c i => (other[i]?).getD .null = (row[c]?).getD .null) front back) :
    other.pick back = row.pick front := by
  induction h with
  | nil => rfl
  | cons hi _ ih => exact congrArg₂ List.cons hi ih

/-- Picking among picked values is picking from the row. -/
theorem Row.pick_pick {columns front back : List Nat}
    (h : List.Forall₂ (fun c i => columns[i]? = some c) front back) :
    (row.pick columns).pick back = row.pick front := by
  refine Row.pick_congr (h.imp fun c i hi => ?_)
  rw [pick, List.getElem?_map, hi, Option.map_some, Option.getD_some]

/-- What is picked on the left of a joined row. -/
theorem Row.pick_left {left : Row} (right : Row) {columns : List Nat}
    (h : ∀ c ∈ columns, c < left.length) : (left ++ right).pick columns = left.pick columns :=
  List.map_congr_left fun c hc => by rw [List.getElem?_append_left (h c hc)]

/-- What is picked on the right of a joined row. -/
theorem Row.pick_right (left right : Row) (columns : List Nat) :
    (left ++ right).pick (columns.map (left.length + ·)) = right.pick columns := by
  rw [pick, pick, List.map_map]
  refine List.map_congr_left fun c _ => ?_
  rw [Function.comp_apply, List.getElem?_append_right (Nat.le_add_right _ _), Nat.add_sub_cancel_left]

/-- What is picked in the place of a missing row. -/
theorem Row.pick_padding (width : Nat) (columns : List Nat) :
    (padding width).pick columns = padding columns.length := by
  have hnull : ∀ c : Nat, ((padding width)[c]?).getD .null = .null := by
    intro c
    rw [padding, List.getElem?_replicate]
    split <;> rfl
  rw [pick, List.map_congr_left fun c _ => hnull c, List.map_const', padding]

/-- The first columns of a list stand at the positions of a range. -/
theorem forall₂_range (front rest : List Nat) :
    List.Forall₂ (fun c i => (front ++ rest)[i]? = some c) front (List.range front.length) := by
  refine List.forall₂_iff_get.2 ⟨List.length_range.symm, fun i hi _ => ?_⟩
  simp [List.getElem?_append_left hi]

namespace Plan

variable {plan out : Plan} {catalog : Catalog} {fixture : Fixture} {rows : List Row}

/-- What the query sees of a row of the plan's tree. -/
def shown (plan : Plan) (row : Row) : AnsweredRow :=
  ⟨row.pick plan.select.targets, row.pick plan.key.targets⟩

theorem visible_shown (plan : Plan) (row : Row) :
    (plan.shown row).visible = row.pick plan.select.targets := rfl

theorem key_shown (plan : Plan) (row : Row) : (plan.shown row).key = row.pick plan.key.targets := rfl

/-- The time of a row of the plan's tree, at the best candidate. -/
def bestTime (plan : Plan) (row : Row) : Option Int := plan.time.bestColumn?.bind row.timeAt

theorem eq_shown_of_view {shown : AnsweredRow} (h : plan.view row = .ok shown) :
    shown = plan.shown row := by
  obtain ⟨visible, hv, h⟩ := bind_eq_ok.1 h
  obtain ⟨key, hk, h⟩ := bind_eq_ok.1 h
  cases h
  rw [eq_pick_of_at hv, eq_pick_of_at hk, Plan.shown]

/-- The rows of a plan as the query sees them, in order. -/
theorem answer_eq_ok {answer : List AnsweredRow} (ha : plan.answer fixture = .ok answer) :
    ∃ rows, evaluate fixture plan.rel = .ok rows ∧ answer = rows.map plan.shown := by
  obtain ⟨rows, hrows, ha⟩ := bind_eq_ok.1 ha
  exact ⟨rows, hrows, eq_map_of_forall₂ (mapM_eq_ok.1 ha) fun _ _ h =>
    eq_shown_of_view (orFault_eq_ok.1 h)⟩

/-- The tree with the pending now-filter applied. -/
def filteredRel (plan : Plan) : Rel :=
  match plan.nowFilter with
  | none => plan.rel
  | some filter => filter.onto plan.rel

/-- The tree with every pending constraint applied. -/
def settledRel (plan : Plan) : Rel := plan.topN.onto plan.filteredRel

theorem settledRel_eq_rel (hn : plan.nowFilter = none) (ht : plan.topN.isEmpty = true) :
    plan.settledRel = plan.rel := by
  rw [settledRel, TopN.onto, if_pos ht, filteredRel, hn]

theorem settledRel_restricted (plan : Plan) : plan.rel.Restricted plan.settledRel := by
  refine Rel.Restricted.trans ?_ (restricted_onto plan.topN plan.filteredRel)
  rw [filteredRel]
  cases plan.nowFilter with
  | none => exact .same
  | some filter => exact Rel.Restricted.same.filter

/-- A ranking is applied above the tree. -/
theorem within_onto (topN : TopN) (rel : Rel) : rel.Within (topN.onto rel) := by
  unfold TopN.onto
  split
  · exact .refl _
  · simp only
    split
    · exact .below List.mem_cons_self
    · have hsorted : rel.Within (.sort rel topN.order none none) := .below List.mem_cons_self
      exact hsorted.trans (.below List.mem_cons_self)

/-- What is pending is applied above the tree. -/
theorem within_withoutPending (h : plan.withoutPending = .ok out) : plan.rel.Within out.rel := by
  obtain ⟨mid, hmid, hout⟩ := withoutPending_eq_ok.1 h
  refine (?_ : plan.rel.Within mid.rel).trans ?_
  · rcases withoutNowFilter_eq_ok hmid with ⟨-, rfl⟩ | ⟨f, _, -, -, rfl⟩
    · exact .refl _
    · exact .below List.mem_cons_self
  · rcases withoutTopN_eq_ok hout with ⟨-, rfl⟩ | ⟨_, -, -, rfl⟩
    · exact .refl _
    · exact within_onto _ _

theorem settledRel_eq_filteredRel (ht : plan.topN.isEmpty = true) :
    plan.settledRel = plan.filteredRel := by
  rw [settledRel, TopN.onto, if_pos ht]

theorem rel_of_withoutNowFilter (h : plan.withoutNowFilter = .ok out) :
    out.rel = plan.filteredRel := by
  rw [filteredRel]
  rcases withoutNowFilter_eq_ok h with ⟨hn, rfl⟩ | ⟨f, needs, hf, -, rfl⟩
  · rw [hn]
  · rw [hf]

theorem rel_of_withoutTopN (h : plan.withoutTopN = .ok out) : out.rel = plan.topN.onto plan.rel := by
  rcases withoutTopN_eq_ok h with ⟨he, rfl⟩ | ⟨needs, -, -, rfl⟩
  · rw [TopN.onto, if_pos he]
  · rfl

theorem rel_of_withoutPending (h : plan.withoutPending = .ok out) : out.rel = plan.settledRel := by
  obtain ⟨mid, h1, h2⟩ := withoutPending_eq_ok.1 h
  rw [rel_of_withoutTopN h2, rel_of_withoutNowFilter h1, (withoutNowFilter_settled h1).2.2, settledRel]

/-- Applying what is pending changes nothing about what is shown. -/
theorem shown_settled (h : plan.Settled out) : out.shown = plan.shown := by
  funext row
  rw [shown, shown, h.select, h.key]

/-- Applying what is pending gives the tree with nothing pending. -/
theorem settledRel_of_withoutPending (h : plan.withoutPending = .ok out) :
    out.settledRel = plan.settledRel := by
  obtain ⟨-, hn, ht⟩ := withoutPending_settled h
  rw [settledRel_eq_rel hn ht, rel_of_withoutPending h]

/-- **Aligning** moves columns and nothing else: the rows show what they did. -/
theorem answer_of_align {answer : List AnsweredRow} (ho : plan.align = .ok out)
    (ha : out.answer fixture = .ok answer) :
    ∃ rows, evaluate fixture plan.settledRel = .ok rows ∧ answer = rows.map plan.shown := by
  unfold align at ho
  obtain ⟨base, hbase, ho⟩ := bind_eq_ok.1 ho
  obtain ⟨rows, hrows, rfl⟩ := answer_eq_ok ha
  rw [← rel_of_withoutPending hbase, ← shown_settled (withoutPending_settled hbase).1]
  simp only at ho
  split at ho
  · cases ho
    exact ⟨rows, hrows, rfl⟩
  · obtain ⟨outputs, key, select, houtputs, hkey, hselect, rfl⟩ := keepColumns_eq_ok (lift_eq_ok.1 ho)
    rw [evaluate] at hrows
    obtain ⟨below, hbelow, hrows⟩ := bind_eq_ok.1 hrows
    refine ⟨below, hbelow, ?_⟩
    -- every visible column and every key column has a place among the columns that are kept
    have hpicked : rows = below.map fun row => row.pick base.alignedColumns :=
      eq_map_of_forall₂ ((projectRows_columns houtputs).1 hrows) fun _ _ h => eq_pick_of_at h
    obtain ⟨added, hadded, -⟩ := Selection.append_eq base.select.targets
      (base.key.targets ++ SortOrder.columns base.sort ++ base.time.bestColumn?.toList)
    have hvisible : List.Forall₂ (fun c i => base.alignedColumns[i]? = some c) base.select.targets
        select.targets := by
      rw [hselect, alignedColumns, hadded]
      exact forall₂_range base.select.targets added
    have hkeys : List.Forall₂ (fun c i => base.alignedColumns[i]? = some c) base.key.targets
        key.targets := hkey.imp fun c i hi => find_position hi
    rw [hpicked, List.map_map]
    refine List.map_congr_left fun row _ => ?_
    rw [Function.comp_apply, shown, shown, Row.pick_pick hvisible, Row.pick_pick hkeys]

/-- What a row shows is columns of it. -/
theorem inside_of_view {row : Row} {shown : AnsweredRow} (h : plan.view row = .ok shown) :
    ∀ t ∈ plan.select.targets, t < row.length := by
  obtain ⟨visible, hv, -⟩ := bind_eq_ok.1 h
  exact inside_of_at hv

end Plan

namespace Converter

variable {c : Converter} {fixture : Fixture} {q : Rel} {plan out : Plan} {answer : List AnsweredRow}

/-- The last step of an operator changes nothing about the answer. -/
theorem finish_answers (h : c.finish plan = .ok out) :
    out.settledRel = plan.settledRel ∧ out.shown = plan.shown := by
  obtain ⟨-, hrel, -⟩ := finish_eq_ok.1 h
  split at hrel
  · exact ⟨Plan.settledRel_of_withoutPending hrel,
      Plan.shown_settled (Plan.withoutPending_settled hrel).1⟩
  · rw [hrel]
    exact ⟨rfl, rfl⟩

/-- It is built above the tree. -/
theorem within_finish (h : c.finish plan = .ok out) : plan.rel.Within out.rel := by
  obtain ⟨-, hrel, -⟩ := finish_eq_ok.1 h
  split at hrel
  · exact Plan.within_withoutPending hrel
  · rw [hrel]
    exact .refl _

/-- **The answer of a query** is what its plan shows of the rows of its tree with
every pending constraint applied. -/
theorem answer_settled (h : c.Answers fixture q answer) :
    ∃ plan rows, c.convert q = .ok plan ∧ evaluate fixture plan.settledRel = .ok rows ∧
      answer = rows.map plan.shown := by
  obtain ⟨plan, final, manifest, hplan, hfinal, ha⟩ := h
  obtain ⟨aligned, haligned, hfinal⟩ := bind_eq_ok.1 hfinal
  obtain ⟨_, -, hfinal⟩ := bind_eq_ok.1 hfinal
  obtain ⟨_, -, hfinal⟩ := bind_eq_ok.1 hfinal
  cases hfinal
  obtain ⟨rows, hrows, he⟩ := Plan.answer_of_align haligned ha
  exact ⟨plan, rows, hplan, hrows, he⟩

end Converter

end StreamPlan
