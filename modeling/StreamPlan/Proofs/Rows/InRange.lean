import StreamPlan.Proofs.Rows.Running
import StreamPlan.Proofs.Rows.Shape

/-!
# Trees whose columns exist

The operators of a tree refer to columns of their inputs by position. If all positions are
columns of the inputs, and the known rows are as wide as the tree says, then no operator
looks outside a row: whatever goes wrong comes of the values.

* `Failure.IsOfValues`: a failure that is not about a position.
* `evalExpr_bounded`, `projectRows_bounded`, …: **one lemma per kind of operator**, over rows
  that have the columns it refers to.
* `Rel.InRange`: a tree whose columns exist; it has a row type (`Rel.InRange.wellFormed`).
* `Rel.evaluate_in_range`: **over rows of their width such a tree has rows of its width**, or it
  fails over values.
-/

namespace StreamPlan

variable {fixture : Fixture} {now : Int} {row : Row} {rows : List Row}

/-- A failure that comes of the values: a result that leaves 64 bits, a quotient by zero, an
order that contradicts itself, or a refusal that is not about a column. -/
inductive Failure.IsOfValues : Failure EvalError → Prop
  | overflow : IsOfValues (.fault .arithmeticOverflow)
  | division : IsOfValues (.fault .divisionByZero)
  | order : IsOfValues (.fault .inconsistentOrder)
  | refused {e : EvalError} (elsewhere : ∀ column width, e ≠ .columnOutside column width) :
    IsOfValues (.refused e)

open Failure (IsOfValues)

theorem refuse_bounded {α : Type} {P : α → Prop} {e : EvalError}
    (h : ∀ column width, e ≠ .columnOutside column width) :
    Bounded IsOfValues (refuse e : Eval α) P :=
  ⟨fun _ hf => by cases hf; exact .refused h, fun _ ha => absurd ha refuse_ne_ok⟩

/-- Reading what is there does not fail. -/
theorem Gives.ofValues {α : Type} {P : α → Prop} {x : Except Fault α} (h : Gives x P) :
    Bounded IsOfValues (liftM x : Eval α) P := by
  obtain ⟨a, rfl, hp⟩ := h
  exact .ok hp

/-- Faults of integer arithmetic. -/
def Fault.IsOfNumbers (fault : Fault) : Prop :=
  fault = .arithmeticOverflow ∨ fault = .divisionByZero

theorem Fault.IsOfNumbers.ofValues {fault : Fault} (h : fault.IsOfNumbers) :
    IsOfValues (.fault fault) := by
  rcases h with rfl | rfl
  · exact .overflow
  · exact .division

theorem Millis.checked_ofNumbers (x : Int) : Bounded Fault.IsOfNumbers (checked x) fun _ => True :=
  (checked_bounded (Nat.le_refl _) fun _ => .inl rfl).mono fun _ _ => trivial

theorem Bucket.apply_bounded (bucket : Bucket) (value : Value) :
    Bounded IsOfValues (bucket.apply value) fun _ => True := by
  have hcell : ∀ x y : Int, Bounded Fault.IsOfNumbers (Millis.cell x y) fun _ => True := by
    intro x y
    unfold Millis.cell
    split
    · exact ⟨fun _ hf => by cases hf; exact .inr rfl, fun _ ha => by cases ha⟩
    · exact Millis.checked_ofNumbers _
  have hend : ∀ time, Bounded Fault.IsOfNumbers (bucket.endOf time) fun _ => True := by
    intro time
    unfold endOf
    refine (Millis.checked_ofNumbers _).bind fun _ _ => (hcell _ _).bind fun _ _ => ?_
    refine (Millis.checked_ofNumbers _).bind fun _ _ => (Millis.checked_ofNumbers _).bind fun _ _ => ?_
    exact (Millis.checked_ofNumbers _).bind fun _ _ => Millis.checked_ofNumbers _
  unfold apply
  split
  · exact ((hend _).lift fun _ => Fault.IsOfNumbers.ofValues).bind fun _ _ => .ok trivial
  · exact .ok trivial

theorem Value.negate_bounded (value : Value) : Bounded IsOfValues value.negate fun _ => True := by
  unfold negate
  split
  · exact .ok trivial
  · exact .ok trivial
  · exact refuse_bounded nofun

namespace BinaryOp

theorem onInts_bounded (op : BinaryOp) (a b : Int) :
    Bounded Fault.IsOfNumbers (op.onInts a b) fun _ => True := by
  have hsome : ∀ x : Int, Bounded Fault.IsOfNumbers (some <$> Millis.checked x) fun _ => True :=
    fun x => (Millis.checked_ofNumbers x).bind fun _ _ => .ok trivial
  unfold onInts
  split
  · exact hsome _
  · exact hsome _
  · exact hsome _
  · split
    · exact .ok trivial
    · rename_i hb
      rw [Millis.quotient, if_neg hb]
      exact hsome _

theorem apply_bounded (op : BinaryOp) (left right : Value) :
    Bounded IsOfValues (op.apply left right) fun _ => True := by
  have harithmetic : ∀ op : BinaryOp, Bounded IsOfValues (op.arithmetic left right) fun _ => True := by
    intro op
    unfold arithmetic
    split
    · exact .ok trivial
    · split
      · split
        · exact .ok trivial
        · exact refuse_bounded nofun
      · split
        · refine ((op.onInts_bounded _ _).lift fun _ => Fault.IsOfNumbers.ofValues).bind fun n _ => ?_
          cases n <;> exact .ok trivial
        · exact refuse_bounded nofun
  unfold apply
  split
  case h_3 | h_4 | h_5 | h_6 | h_7 | h_8 => split <;> exact .ok trivial
  case h_9 | h_10 | h_11 | h_12 => exact harithmetic _
  all_goals exact .ok trivial

end BinaryOp

mutual

/-- **An expression** over a row that has its columns does not look outside the row. -/
theorem evalExpr_bounded : ∀ {e : Expr}, (∀ i ∈ e.references, i < row.length) →
    Bounded IsOfValues (evalExpr now row e) fun _ => True
  | .column i, h => by
    rw [Expr.references] at h
    rw [evalExpr, List.getElem?_eq_getElem (h i (List.mem_singleton_self i))]
    exact .ok trivial
  | .literal _, _ => by
    rw [evalExpr]
    exact .ok trivial
  | .binary op _ _, h => by
    rw [Expr.references] at h
    obtain ⟨hleft, hright⟩ := List.forall_mem_append.1 h
    rw [evalExpr]
    exact (evalExpr_bounded hleft).bind fun _ _ => (evalExpr_bounded hright).bind fun _ _ =>
      op.apply_bounded _ _
  | .not _, h => by
    rw [Expr.references] at h
    rw [evalExpr]
    exact (evalExpr_bounded h).bind fun value _ => value.negate_bounded
  | .isNull _, h => by
    rw [Expr.references] at h
    rw [evalExpr]
    exact (evalExpr_bounded h).bind fun _ _ => .ok trivial
  | .call function _, h => by
    rw [Expr.references] at h
    rw [evalExpr]
    split
    · exact .ok trivial
    · exact (evalOnly_bounded h).bind fun _ _ => Bucket.apply_bounded _ _
    · exact evalOnly_bounded h
    · exact refuse_bounded nofun
  | .window .., _ => by
    rw [evalExpr]
    exact refuse_bounded nofun

theorem evalOnly_bounded : ∀ {es : List Expr}, (∀ i ∈ Expr.referencesOfAll es, i < row.length) →
    Bounded IsOfValues (evalOnly now row es) fun _ => True
  | [], _ => by
    rw [evalOnly] <;> first | exact refuse_bounded nofun | exact nofun
  | [e], h => by
    rw [Expr.referencesOfAll] at h
    rw [evalOnly]
    exact evalExpr_bounded fun i hi => h i (List.mem_append_left _ hi)
  | _ :: _ :: _, _ => by
    rw [evalOnly] <;> first | exact refuse_bounded nofun | exact nofun

end

theorem filterRows_bounded {predicate : Expr}
    (h : ∀ row ∈ rows, ∀ i ∈ predicate.references, i < row.length) :
    Bounded IsOfValues (filterRows now predicate rows) fun _ => True :=
  .filterM fun row hrow => (evalExpr_bounded (h row hrow)).bind fun _ _ => .ok trivial

/-- The values of a window, if an output is one, are as many as the rows. -/
theorem windowValues_bounded {e : Expr} (h : ∀ row ∈ rows, ∀ i ∈ e.references, i < row.length) :
    Bounded IsOfValues (windowValues rows e) fun window =>
      ∀ values, window = some values → values.length = rows.length := by
  cases e with
  | window call partition order =>
    -- the columns of a window in the order in which a running call reads them
    have hin : ∀ row ∈ rows, ∀ c ∈ partition ++ order.columns ++ call.columns, c < row.length := by
      intro row hrow c hc
      refine h row hrow c ?_
      rw [Expr.references]
      simp only [List.mem_append] at hc ⊢
      tauto
    have hsort : Bounded (fun f => IsOfValues (.fault f)) (sortNumbered order rows) fun _ => True :=
      sortNumbered_bounded (fun row hrow key hk => hin row hrow key.column
        (by simp [SortOrder.columns, List.mem_map_of_mem hk])) .order
    have hvalues := (runningValues_bounded .overflow hsort hin).lift fun _ hf => hf
    rw [windowValues]
    exact hvalues.bind fun values hlength => .ok (by rintro _ ⟨⟩; exact hlength)
  | _ =>
    rw [windowValues] <;> first | rintro _ _ _ ⟨⟩ | exact .ok (by rintro _ ⟨⟩)

/-- An output at a row: its window has a value there, or the row has its columns. -/
def Output.Ready (row : Row) (position : Nat) (output : Output × Option (List Value)) : Prop :=
  match output.2 with
  | some values => position < values.length
  | none => ∀ i ∈ output.1.expr.references, i < row.length

theorem projectRow_bounded {position : Nat} {outputs : List (Output × Option (List Value))}
    (h : ∀ o ∈ outputs, Output.Ready row position o) :
    Bounded IsOfValues (projectRow now row position outputs) fun _ => True := by
  induction outputs with
  | nil => exact .ok trivial
  | cons o outputs ih =>
    obtain ⟨output, window⟩ := o
    obtain ⟨hready, hrest⟩ := List.forall_mem_cons.1 h
    cases window with
    | some values =>
      rw [projectRow]
      exact (Gives.itemAt hready).ofValues.bind fun _ _ => (ih hrest).bind fun _ _ => .ok trivial
    | none =>
      rw [projectRow]
      exact (evalExpr_bounded hready).bind fun _ _ => (ih hrest).bind fun _ _ => .ok trivial

/-- **A projection** of rows that have its columns. -/
theorem projectRows_bounded {outputs : List Output}
    (h : ∀ row ∈ rows, ∀ o ∈ outputs, ∀ i ∈ o.expr.references, i < row.length) :
    Bounded IsOfValues (projectRows now outputs rows) fun _ => True := by
  -- windows are computed in front of all rows and have a value for each
  have hwindows : ∀ o ∈ outputs, Bounded IsOfValues (do
      return (o, ← windowValues rows o.expr) : Eval (Output × Option (List Value))) fun window =>
      ∀ p ∈ rows.zipIdx, Output.Ready p.1 p.2 window := by
    intro o ho
    refine (windowValues_bounded fun row hrow => h row hrow o ho).bind fun window hwindow => .ok ?_
    intro p hp
    cases window with
    | some values =>
      have hposition : p.2 < rows.length := by simpa using List.snd_lt_of_mem_zipIdx hp
      exact hposition.trans_eq (hwindow values rfl).symm
    | none => exact h p.1 (List.fst_mem_of_mem_zipIdx hp) o ho
  rw [projectRows]
  refine (Bounded.mapM_all hwindows).bind fun windows hready => ?_
  exact (Bounded.mapM_all fun p hp => projectRow_bounded fun window hwindow =>
    hready window hwindow p hp).mono fun _ _ => trivial

/-- **A join** of rows that have the columns of its condition side by side. -/
theorem joinRows_bounded {kind : JoinKind} {condition : Expr} {lw rw' : Nat} {left right : List Row}
    (h : ∀ l ∈ left, ∀ r ∈ right, ∀ i ∈ condition.references, i < (l ++ r).length) :
    Bounded IsOfValues (joinRows now kind condition lw rw' left right) fun _ => True := by
  have hfrom : ∀ (left : List Row) (used : List Bool),
      (∀ l ∈ left, ∀ r ∈ right, ∀ i ∈ condition.references, i < (l ++ r).length) →
      Bounded IsOfValues (joinFrom now condition kind rw' right left used) fun _ => True := by
    intro left
    induction left with
    | nil => exact fun _ _ => .ok trivial
    | cons l left ih =>
      intro used h
      obtain ⟨hfirst, hrest⟩ := List.forall_mem_cons.1 h
      have hpartners : Bounded IsOfValues (partners now condition l right) fun _ => True :=
        (Bounded.mapM_all (R := fun _ => True) fun r hr => (evalExpr_bounded (hfirst r hr)).bind
          fun _ _ => .ok trivial).bind fun _ _ => .ok trivial
      rw [joinFrom]
      exact hpartners.bind fun _ _ => (ih _ hrest).bind fun _ _ => .ok trivial
  rw [joinRows]
  exact (hfrom left _ h).bind fun _ _ => .ok trivial

/-- **An unnesting** of rows that have its column. -/
theorem unnestRow_bounded {column w : Nat} {outer : Bool} (h : column < row.length) :
    Bounded IsOfValues (unnestRow column outer w row) fun _ => True := by
  have helements : ∀ value, Bounded IsOfValues (elementsOf value) fun _ => True := by
    intro value
    unfold elementsOf
    split
    · exact .ok trivial
    · exact .ok trivial
    · exact refuse_bounded nofun
  rw [unnestRow, List.getElem?_eq_getElem h]
  exact (helements _).bind fun _ _ => .ok trivial

/-- **The first rows of partitions**, of rows that have their columns. -/
theorem firstRowsOf_gives {partition : List Nat} {limit : Option Nat} {distinct : Bool}
    (h : ∀ row ∈ rows, ∀ c ∈ partition, c < row.length) :
    Gives (firstRowsOf partition limit distinct rows) fun _ => True := by
  have hfrom : ∀ (keep : Nat) (seen : List (Row × List Unit)),
      Gives (firstRowsFrom partition keep seen rows) fun _ => True := by
    intro keep
    induction rows with
    | nil => exact fun _ => .ok trivial
    | cons row rows ih =>
      intro seen
      obtain ⟨hrow, hrest⟩ := List.forall_mem_cons.1 h
      rw [firstRowsFrom, Row.at_of_inside hrow, ok_bind]
      exact (ih hrest _).bind fun _ _ => .ok trivial
  unfold firstRowsOf
  split
  · exact .ok trivial
  · exact hfrom _ _

namespace Rel

/-- The columns that the operator at the top of a tree refers to. -/
def references : Rel → List Nat
  | .scan .. | .union .. => []
  | .filter _ predicate => predicate.references
  | .project _ outputs _ => outputs.flatMap (·.expr.references)
  | .join _ _ _ condition _ => condition.references
  | .aggregate _ keys _ calls _ => keys ++ calls.flatMap AggregateCall.columns
  | .sort _ order _ _ => order.columns
  | .unnest _ column _ _ => [column]
  | .firstRows _ partition _ _ => partition

/-- The number of columns that the operator at the top of a tree can refer to: those of its
inputs side by side. -/
def inputWidth : Rel → Nat
  | .scan .. | .union .. => 0
  | .join left right .. => left.width + right.width
  | .filter input _ | .project input .. | .aggregate input .. | .sort input .. | .unnest input ..
  | .firstRows input .. => input.width

/-- A tree whose columns exist: every operator refers to columns of its inputs, and the inputs
of every union are of one width. -/
structure InRange (rel : Rel) : Prop where
  columns : ∀ op ∈ rel.preorder, ∀ c ∈ op.references, c < op.inputWidth
  widths : ∀ inputs all, .union inputs all ∈ rel.preorder →
    ∀ r ∈ inputs, r.width = firstWidth inputs

variable {rel : Rel}

theorem InRange.input {input : Rel} (h : rel.InRange) (hi : input ∈ rel.inputs) : input.InRange :=
  ⟨fun op hop => h.columns op (preorder_of_inputs hi op hop),
    fun inputs all hop => h.widths inputs all (preorder_of_inputs hi _ hop)⟩

/-- The columns that the operator at the top refers to are columns of its inputs. -/
theorem InRange.top (h : rel.InRange) : ∀ c ∈ rel.references, c < rel.inputWidth :=
  h.columns rel rel.self_mem_preorder

mutual

/-- A tree whose columns exist has a row type. -/
theorem InRange.wellFormed : ∀ {rel : Rel}, rel.InRange → rel.WellFormed
  | .scan .., _ => by
    rw [WellFormed]
    trivial
  | .filter input _, h | .project input _ _, h | .sort input .., h | .unnest input .., h
  | .firstRows input .., h => by
    rw [WellFormed]
    exact (h.input (List.mem_singleton_self input)).wellFormed
  | .join left right .., h => by
    rw [WellFormed]
    exact ⟨(h.input List.mem_cons_self).wellFormed,
      (h.input (List.mem_cons_of_mem left (List.mem_singleton_self right))).wellFormed⟩
  | .aggregate input keys _ _ _, h => by
    rw [WellFormed]
    exact ⟨(h.input (List.mem_singleton_self input)).wellFormed,
      fun i hi => h.top i (List.mem_append_left _ hi)⟩
  | .union inputs all, h => by
    rw [WellFormed]
    -- the first input tells the width of the others
    exact wellFormedAll fun r hr => ⟨h.input hr, h.widths inputs all (self_mem_preorder _) r hr⟩

theorem wellFormedAll {w : Nat} : ∀ {rels : List Rel}, (∀ r ∈ rels, r.InRange ∧ r.width = w) →
    WellFormedAll w rels
  | [], _ => by
    rw [WellFormedAll]
    trivial
  | r :: rs, h => by
    obtain ⟨hfirst, hrest⟩ := List.forall_mem_cons.1 h
    rw [WellFormedAll]
    exact ⟨hfirst.2, hfirst.1.wellFormed, wellFormedAll hrest⟩

end

theorem conformsAll_iff {rels : List Rel} :
    ConformsAll fixture rels ↔ ∀ r ∈ rels, r.Conforms fixture := by
  induction rels with
  | nil => simp [ConformsAll]
  | cons r rels ih => rw [ConformsAll, ih, List.forall_mem_cons]

/-- Known rows are as wide as the inputs say. -/
theorem Conforms.input {input : Rel} (h : rel.Conforms fixture) (hi : input ∈ rel.inputs) :
    input.Conforms fixture := by
  cases rel with
  | scan => cases hi
  | join left right =>
    rw [Conforms] at h
    rcases List.mem_cons.1 hi with rfl | hi
    · exact h.1
    · exact List.mem_singleton.1 hi ▸ h.2
  | union inputs =>
    rw [Conforms] at h
    exact conformsAll_iff.1 h input hi
  | unnest =>
    rw [Conforms] at h
    exact List.mem_singleton.1 hi ▸ h.1
  | _ =>
    rw [Conforms] at h
    exact List.mem_singleton.1 hi ▸ h

/-- If computing rows fails over values at most, the rows are as wide as the tree. -/
theorem rows_bounded (h : rel.InRange) (hc : rel.Conforms fixture)
    (hrows : Bounded IsOfValues (evaluate fixture rel) fun _ => True) :
    Bounded IsOfValues (evaluate fixture rel) fun rows => ∀ row ∈ rows, row.length = rel.width :=
  ⟨hrows.1, shaped_of_conforms h.wellFormed hc⟩

mutual

/-- **The rows of a tree whose columns exist** have its width, over known rows that are as wide
as it says. -/
theorem evaluate_bounded : ∀ {rel : Rel}, rel.InRange → rel.Conforms fixture →
    Bounded IsOfValues (evaluate fixture rel) fun rows => ∀ row ∈ rows, row.length = rel.width
  | .scan relation _ _, h, hc => by
    refine rows_bounded h hc ?_
    rw [evaluate, Fixture.rowsOf]
    split
    · exact .ok trivial
    · exact refuse_bounded nofun
  | .filter input predicate, h, hc => by
    have hi := List.mem_singleton_self input
    refine rows_bounded h hc ?_
    rw [evaluate]
    refine (evaluate_bounded (h.input hi) (hc.input hi)).bind fun rows hrows => ?_
    exact filterRows_bounded fun row hrow i hi => hrows row hrow ▸ h.top i hi
  | .project input outputs _, h, hc => by
    have hi := List.mem_singleton_self input
    refine rows_bounded h hc ?_
    rw [evaluate]
    refine (evaluate_bounded (h.input hi) (hc.input hi)).bind fun rows hrows => ?_
    exact projectRows_bounded fun row hrow o ho i hi =>
      hrows row hrow ▸ h.top i (List.mem_flatMap.2 ⟨o, ho, hi⟩)
  | .join left right kind condition _, h, hc => by
    have hl : left ∈ [left, right] := List.mem_cons_self
    have hr : right ∈ [left, right] := List.mem_cons_of_mem left (List.mem_singleton_self right)
    refine rows_bounded h hc ?_
    rw [evaluate]
    refine (evaluate_bounded (h.input hl) (hc.input hl)).bind fun ls hls => ?_
    refine (evaluate_bounded (h.input hr) (hc.input hr)).bind fun rs hrs => ?_
    refine joinRows_bounded fun l hl r hr i hi => ?_
    rw [List.length_append, hls l hl, hrs r hr]
    exact h.top i hi
  | .aggregate input keys groupingSets calls _, h, hc => by
    have hi := List.mem_singleton_self input
    refine rows_bounded h hc ?_
    rw [evaluate]
    split
    · exact refuse_bounded nofun
    refine (evaluate_bounded (h.input hi) (hc.input hi)).bind fun rows hrows => ?_
    have hkeys : ∀ row ∈ rows, ∀ c ∈ keys, c < row.length := fun row hrow c hk =>
      hrows row hrow ▸ h.top c (List.mem_append_left _ hk)
    have hcalls : ∀ row ∈ rows, ∀ call ∈ calls, ∀ c ∈ call.columns, c < row.length :=
      fun row hrow call hcall c hk => hrows row hrow ▸
        h.top c (List.mem_append_right _ (List.mem_flatMap.2 ⟨call, hcall, hk⟩))
    have haggregate : Bounded (fun f => IsOfValues (.fault f)) (aggregateRows keys calls rows)
        fun _ => True := aggregateRows_bounded .overflow hkeys hcalls
    exact haggregate.lift fun _ hf => hf
  | .union inputs all, h, hc => by
    refine rows_bounded h hc ?_
    rw [evaluate]
    exact (evaluateAll_bounded fun r hr => ⟨h.input hr, hc.input hr⟩).bind fun _ _ => .ok trivial
  | .sort input order _ _, h, hc => by
    have hi := List.mem_singleton_self input
    refine rows_bounded h hc ?_
    rw [evaluate]
    refine (evaluate_bounded (h.input hi) (hc.input hi)).bind fun rows hrows => ?_
    have hsort : Bounded (fun f => IsOfValues (.fault f)) (sortRows order rows) fun _ => True :=
      sortRows_bounded (fun row hrow key hk =>
        hrows row hrow ▸ h.top key.column (List.mem_map_of_mem hk)) .order
    exact (hsort.lift fun _ hf => hf).bind fun _ _ => .ok trivial
  | .unnest input column _ _, h, hc => by
    have hi := List.mem_singleton_self input
    refine rows_bounded h hc ?_
    rw [evaluate]
    refine (evaluate_bounded (h.input hi) (hc.input hi)).bind fun rows hrows => ?_
    refine (Bounded.mapM_all (R := fun _ => True) fun row hrow => unnestRow_bounded ?_).bind
      fun _ _ => .ok trivial
    rw [hrows row hrow]
    exact h.top column (List.mem_singleton_self column)
  | .firstRows input partition _ _, h, hc => by
    have hi := List.mem_singleton_self input
    refine rows_bounded h hc ?_
    rw [evaluate]
    refine (evaluate_bounded (h.input hi) (hc.input hi)).bind fun rows hrows => ?_
    exact (firstRowsOf_gives fun row hrow c hk => hrows row hrow ▸ h.top c hk).ofValues

theorem evaluateAll_bounded : ∀ {rels : List Rel}, (∀ r ∈ rels, r.InRange ∧ r.Conforms fixture) →
    Bounded IsOfValues (evaluateAll fixture rels) fun _ => True
  | [], _ => by
    rw [evaluateAll]
    exact .ok trivial
  | r :: rs, h => by
    obtain ⟨⟨hfirst, hc⟩, hrest⟩ := List.forall_mem_cons.1 h
    rw [evaluateAll]
    exact (evaluate_bounded hfirst hc).bind fun _ _ =>
      (evaluateAll_bounded hrest).bind fun _ _ => .ok trivial

end

end Rel

/-- **A tree whose columns exist**, over known rows that are as wide as it says: computing its
rows faults over arithmetic or an inconsistent order alone, and it is not refused over a column.
Its rows are as wide as the tree, and so is its row type. -/
theorem Rel.evaluate_in_range {rel : Rel} (h : rel.InRange) (hc : rel.Conforms fixture) :
    (∀ fault, evaluate fixture rel = .error (.fault fault) →
      fault = .arithmeticOverflow ∨ fault = .divisionByZero ∨ fault = .inconsistentOrder) ∧
    (∀ column width, evaluate fixture rel ≠ refuse (.columnOutside column width)) ∧
    (∀ rows, evaluate fixture rel = .ok rows → ∀ row ∈ rows, row.length = rel.width) ∧
    ∃ fields, rel.fields = .ok fields ∧ fields.length = rel.width := by
  have hrows := evaluate_bounded h hc
  refine ⟨fun fault hf => ?_, fun column width hf => ?_, hrows.2, fields_gives h.wellFormed.fields⟩
  · cases hrows.1 _ hf with
    | overflow => exact .inl rfl
    | division => exact .inr (.inl rfl)
    | order => exact .inr (.inr rfl)
  · cases hrows.1 _ hf with
    | refused elsewhere => exact elsewhere column width rfl

/-- Two orders, one of them without amounts, and a name for the other one. -/
def orderAmounts : Fixture :=
  ⟨[(.base 0, [[.int 1, .list [[.int 5], [.int 7], [.int 6]]], [.int 2, .list []]]),
    (.base 1, [[.int 1, .text "a"]])], 0⟩

/-- The two largest amounts of every order, with its name. -/
def largestAmounts : Rel :=
  .firstRows
    (.sort
      (.join
        (.unnest (.scan (.base 0) "orders" [⟨"id", .int64, false⟩,
          ⟨"amounts", .nestedOf [⟨"amount", .int64, true⟩], true⟩]) 1 true [⟨"amount", .int64, true⟩])
        (.scan (.base 1) "names" [⟨"id", .int64, false⟩, ⟨"name", .utf8, true⟩])
        .left (.equate 0 3) none)
      [⟨2, .descending⟩] none none)
    [0] (some 2) false

/-- The largest amounts of every order, each twice, counted, with the greatest of their running
sums. -/
def amountSums : Rel :=
  let sums : Rel := .filter
    (.project largestAmounts [⟨.column 0, "id", .int64, false⟩, ⟨.column 2, "amount", .int64, true⟩,
      ⟨.window (.of .sum [2] "sum" .int64) [0] [⟨2, .ascending⟩], "sum", .int64, true⟩] none)
    (.not (.isNull (.column 1)))
  .aggregate (.union [sums, sums] true) [0] [] [.countRows "count", .of .max [2] "sum" .int64] none

/-- The largest amounts of the orders are counted and added up in a row of three columns. -/
theorem amountSums_in_range :
    evaluate orderAmounts amountSums = .ok [[.int 1, .int 4, .int 13]] ∧ amountSums.width = 3 ∧
    (∀ fault, evaluate orderAmounts amountSums = .error (.fault fault) →
      fault = .arithmeticOverflow ∨ fault = .divisionByZero ∨ fault = .inconsistentOrder) ∧
    (∀ column width, evaluate orderAmounts amountSums ≠ refuse (.columnOutside column width)) ∧
    (∀ rows, evaluate orderAmounts amountSums = .ok rows → ∀ row ∈ rows,
      row.length = amountSums.width) ∧
    ∃ fields, amountSums.fields = .ok fields ∧ fields.length = amountSums.width := by
  have hin : amountSums.InRange := by
    refine ⟨?_, ?_⟩
    · simp [amountSums, largestAmounts, Rel.preorder, Rel.preorderOfAll, Rel.references,
        Rel.inputWidth, Rel.width, Rel.firstWidth, Expr.references, Expr.equate, AggregateCall.columns,
        AggregateCall.of, AggregateCall.countRows, SortOrder.columns]
    · simp [amountSums, largestAmounts, Rel.preorder, Rel.preorderOfAll, Rel.width, Rel.firstWidth]
  have hconforms : amountSums.Conforms orderAmounts := by
    have horders : orderAmounts.rowsOf (.base 0)
        = .ok [[.int 1, .list [[.int 5], [.int 7], [.int 6]]], [.int 2, .list []]] := rfl
    have hnames : orderAmounts.rowsOf (.base 1) = .ok [[.int 1, .text "a"]] := rfl
    simp [amountSums, largestAmounts, Rel.Conforms, Rel.ConformsAll, evaluate, horders, hnames]
  exact ⟨rfl, rfl, Rel.evaluate_in_range hin hconforms⟩

end StreamPlan
