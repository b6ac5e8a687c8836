import StreamPlan.Proofs.Plan.Project
import StreamPlan.Proofs.Rows.Evaluate

/-!
# Trees that give rows of another tree

* `Rel.Restricted`: a tree with filters, sorts, first rows and other column
  names on top. It gives rows of the tree below, and nothing else
  (`Restricted.mem`).
* `Plan.Renames.evaluate`: other column names change no row.
-/

namespace StreamPlan

variable {fixture : Fixture} {now : Int} {rel out : Rel} {rows above : List Row}

/-- Every row of a tree has a value per column. -/
def Rel.Shaped (fixture : Fixture) (rel : Rel) : Prop :=
  ∀ rows, evaluate fixture rel = .ok rows → ∀ row ∈ rows, row.length = rel.width

/-- The values of bare columns are values of the row. -/
theorem outputsOn_columns {outputs : List Output} {columns : List Nat} {row : Row}
    (ho : outputs.map Output.expr = columns.map Expr.column) {values : Row} :
    outputsOn now outputs row = .ok values ↔ Row.at row columns = .ok values := by
  rw [outputsOn_eq, ho, List.mapM_map, mapM_eq_ok, at_eq_ok]
  constructor <;> intro h <;> refine h.imp fun c v hv => ?_
  · rw [Function.comp_apply, evalExpr] at hv
    split at hv
    · rename_i w hw
      cases hv
      exact hw
    · cases hv
  · rw [Function.comp_apply, evalExpr, hv]
    rfl

theorem isWindow_of_columns {outputs : List Output} {columns : List Nat}
    (ho : outputs.map Output.expr = columns.map Expr.column) :
    ∀ o ∈ outputs, o.expr.isWindow = false := by
  intro o hmem
  have : o.expr ∈ columns.map Expr.column := ho ▸ List.mem_map_of_mem hmem
  obtain ⟨c, -, hc⟩ := List.mem_map.1 this
  rw [← hc]
  rfl

/-- The rows of a projection to bare columns. -/
theorem projectRows_columns {outputs : List Output} {columns : List Nat}
    (ho : outputs.map Output.expr = columns.map Expr.column) :
    projectRows now outputs rows = .ok above ↔
      List.Forall₂ (fun row values => Row.at row columns = .ok values) rows above := by
  rw [projectRows_eq (isWindow_of_columns ho), mapM_eq_ok]
  constructor <;> intro h <;> refine h.imp fun row values hv => ?_
  · exact (outputsOn_columns ho).1 hv
  · exact (outputsOn_columns ho).2 hv

/-- All values of a row are the row. -/
theorem at_range (row : Row) : Row.at row (List.range row.length) = .ok row := by
  rw [at_eq_ok, List.forall₂_iff_get]
  refine ⟨List.length_range, fun i _ hi => ?_⟩
  simp [List.getElem?_eq_getElem hi]

/-- **Other column names change no row.** -/
theorem Plan.Renames.evaluate (h : Plan.Renames rel out) (hs : rel.Shaped fixture) :
    StreamPlan.evaluate fixture out = .ok rows ↔ StreamPlan.evaluate fixture rel = .ok rows := by
  cases h with
  | same => rfl
  | @project outputs ho =>
    have hall : ∀ below above : List Row, (∀ row ∈ below, row.length = rel.width) →
        List.Forall₂ (fun row values => Row.at row (List.range rel.width) = .ok values) below above →
        above = below := by
      intro below above hlen hf
      induction hf with
      | nil => rfl
      | @cons row values below above hat _ ih =>
        obtain ⟨hrow, hlen⟩ := List.forall_mem_cons.1 hlen
        rw [← hrow, at_range] at hat
        cases hat
        rw [ih hlen]
    have hself : ∀ below : List Row, (∀ row ∈ below, row.length = rel.width) →
        List.Forall₂ (fun row values => Row.at row (List.range rel.width) = .ok values) below below :=
      fun below hlen => List.forall₂_same.2 fun row hrow => hlen row hrow ▸ at_range row
    rw [StreamPlan.evaluate]
    constructor
    · intro h
      obtain ⟨below, hb, h⟩ := bind_eq_ok.1 h
      rw [hall below rows (hs below hb) ((projectRows_columns ho).1 h)]
      exact hb
    · intro h
      exact bind_eq_ok.2 ⟨rows, h, (projectRows_columns ho).2 (hself rows (hs rows h))⟩

namespace Rel

/-- A tree under filters, sorts, first rows and other column names. -/
inductive Restricted (rel : Rel) : Rel → Prop
  | same : Restricted rel rel
  | filter {out : Rel} {predicate : Expr} : Restricted rel out → Restricted rel (.filter out predicate)
  | sort {out : Rel} {order : SortOrder} {limit offset : Option Nat} :
      Restricted rel out → Restricted rel (.sort out order limit offset)
  | firstRows {out : Rel} {partition : List Nat} {limit : Option Nat} {distinct : Bool} :
      Restricted rel out → Restricted rel (.firstRows out partition limit distinct)
  | renames {out above : Rel} : Restricted rel out → Plan.Renames out above → Restricted rel above

theorem Restricted.trans {mid : Rel} (h : rel.Restricted mid) (h' : mid.Restricted out) :
    rel.Restricted out := by
  induction h' with
  | same => exact h
  | filter _ ih => exact ih.filter
  | sort _ ih => exact ih.sort
  | firstRows _ ih => exact ih.firstRows
  | renames _ hr ih => exact ih.renames hr

theorem Restricted.width (h : rel.Restricted out) : out.width = rel.width := by
  induction h with
  | same => rfl
  | renames _ hr ih => exact hr.width.trans ih
  | _ => rw [Rel.width]; assumption

theorem Restricted.fields (h : rel.Restricted out) (hf : ∃ fs, rel.fields = .ok fs) :
    ∃ fs, out.fields = .ok fs := by
  induction h with
  | same => exact hf
  | renames _ hr ih => exact hr.fields ih
  | _ => rw [Rel.fields]; assumption

/-- **A restricted tree gives rows of the tree.** -/
theorem Restricted.mem (h : rel.Restricted out) (hs : rel.Shaped fixture) :
    ∀ {above : List Row}, evaluate fixture out = .ok above →
      ∃ rows, evaluate fixture rel = .ok rows ∧ ∀ row ∈ above, row ∈ rows := by
  induction h with
  | same => exact fun h => ⟨_, h, fun _ hr => hr⟩
  | filter _ ih =>
    intro above h
    rw [evaluate] at h
    obtain ⟨below, hb, h⟩ := bind_eq_ok.1 h
    obtain ⟨rows, hrows, hsub⟩ := ih hb
    obtain ⟨-, rfl⟩ := filterRows_eq_ok.1 h
    exact ⟨rows, hrows, fun row hr => hsub row (List.mem_filter.1 hr).1⟩
  | sort _ ih =>
    intro above h
    rw [evaluate] at h
    obtain ⟨below, hb, h⟩ := bind_eq_ok.1 h
    obtain ⟨sorted, hsorted, h⟩ := bind_eq_ok.1 h
    cases h
    obtain ⟨rows, hrows, hsub⟩ := ih hb
    exact ⟨rows, hrows, fun row hr =>
      hsub row (mem_of_sortRows (lift_eq_ok.1 hsorted) row (mem_of_rangeOf row hr))⟩
  | firstRows _ ih =>
    intro above h
    rw [evaluate] at h
    obtain ⟨below, hb, h⟩ := bind_eq_ok.1 h
    obtain ⟨rows, hrows, hsub⟩ := ih hb
    exact ⟨rows, hrows, fun row hr => hsub row (mem_of_firstRowsOf (lift_eq_ok.1 h) row hr)⟩
  | @renames out above hout hr ih =>
    intro top h
    refine ih ((hr.evaluate ?_).1 h)
    intro rows' hrows' row hrow
    obtain ⟨rows, hrows, hsub⟩ := ih hrows'
    rw [hout.width]
    exact hs rows hrows row (hsub row hrow)

theorem Restricted.shaped (h : rel.Restricted out) (hs : rel.Shaped fixture) : out.Shaped fixture := by
  intro above ha row hr
  obtain ⟨rows, hrows, hsub⟩ := h.mem hs ha
  rw [h.width]
  exact hs rows hrows row (hsub row hr)

end Rel

end StreamPlan
