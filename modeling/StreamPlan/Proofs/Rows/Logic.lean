import StreamPlan.Proofs.Rows.Evaluate

/-!
# Predicates in three-valued logic

In the query language a comparison with null is unknown, a negation of what is unknown is
unknown, and a conjunction or disjunction is unknown unless its known operands settle it.
The evaluation keeps unknown comparisons and negations apart from false ones, but an unknown
conjunction or disjunction is false. That makes no difference to where it is true; it does
to a negation, a null test or a comparison that looks at it.

* `Truth`: three truth values, with `not`, `and` and `or`.
* `Expr.Denotes`: the value of a predicate over a row by the rules of the query language.
* `Expr.Known`: no conjunction or disjunction that is looked at is unknown.
* `evalExpr_denotes`: then **a predicate is true** where the query language has it true.
* `negated_and`, `negated_or`: a negation may be moved inwards exactly if what it negates is
  not unknown.
-/

namespace StreamPlan

/-- A truth value of the query language. -/
inductive Truth where
  | no
  | unknown
  | yes
  deriving DecidableEq, Repr

namespace Truth

/-- A known truth value. -/
def ofBool : Bool → Truth
  | false => no
  | true => yes

/-- The truth value as a value of a row. -/
def toValue : Truth → Value
  | no => .boolean false
  | unknown => .null
  | yes => .boolean true

/-- The negation: unknown stays unknown. -/
def not : Truth → Truth
  | no => yes
  | unknown => unknown
  | yes => no

/-- The conjunction: one operand that fails settles it. -/
def and : Truth → Truth → Truth
  | no, _ | _, no => no
  | yes, yes => yes
  | _, _ => unknown

/-- The disjunction: one operand that holds settles it. -/
def or : Truth → Truth → Truth
  | yes, _ | _, yes => yes
  | no, no => no
  | _, _ => unknown

/-- A comparison of two values, unknown if they do not compare. -/
def compared (op : BinaryOp) (x y : Value) : Truth :=
  match x.compare? y with
  | none => unknown
  | some order => ofBool (op.holdsOf order)

theorem not_and (s t : Truth) : (s.and t).not = s.not.or t.not := by
  cases s <;> cases t <;> rfl

theorem not_or (s t : Truth) : (s.or t).not = s.not.and t.not := by
  cases s <;> cases t <;> rfl

theorem toValue_ofBool (b : Bool) : (ofBool b).toValue = .boolean b := by
  cases b <;> rfl

theorem toValue_injective {s t : Truth} (h : s.toValue = t.toValue) : s = t := by
  cases s <;> cases t <;> first | rfl | cases h

theorem isTrue_and (s t : Truth) :
    (s.and t).toValue.isTrue = (s.toValue.isTrue && t.toValue.isTrue) := by
  cases s <;> cases t <;> rfl

theorem isTrue_or (s t : Truth) :
    (s.or t).toValue.isTrue = (s.toValue.isTrue || t.toValue.isTrue) := by
  cases s <;> cases t <;> rfl

theorem eq_boolean_of_ne_null {t : Truth} (h : t.toValue ≠ .null) :
    t.toValue = .boolean t.toValue.isTrue := by
  cases t with
  | unknown => exact absurd rfl h
  | _ => rfl

theorem negate_toValue (t : Truth) : t.toValue.negate = .ok t.not.toValue := by
  cases t <;> rfl

theorem apply_comparison {op : BinaryOp} (h : op.isComparison = true) (x y : Value) :
    op.apply x y = .ok (compared op x y).toValue := by
  have hcompare : (match x.compare? y with
      | none => return .null
      | some order => return .boolean (op.holdsOf order) : Eval Value)
      = .ok (compared op x y).toValue := by
    rw [compared]
    cases x.compare? y with
    | none => rfl
    | some order => exact congrArg Except.ok (toValue_ofBool _).symm
  cases op <;> first | exact hcompare | cases h

end Truth

namespace Expr

/-- The value of a predicate over a row by the rules of the query language. Predicates are
made of columns, literals, comparisons, null tests, negations, conjunctions and
disjunctions; what is negated or connected is a truth value. -/
inductive Denotes (row : Row) : Expr → Value → Prop
  | column {i : Nat} {v : Value} : row[i]? = some v → Denotes row (.column i) v
  | literal {v : Value} : Denotes row (.literal v) v
  | comparison {op : BinaryOp} {l r : Expr} {x y : Value} : op.isComparison = true →
      Denotes row l x → Denotes row r y →
      Denotes row (.binary op l r) (Truth.compared op x y).toValue
  | isNull {e : Expr} {v : Value} : Denotes row e v → Denotes row (.isNull e) (.boolean v.isNull)
  | not {e : Expr} {t : Truth} : Denotes row e t.toValue → Denotes row (.not e) t.not.toValue
  | and {l r : Expr} {s t : Truth} : Denotes row l s.toValue → Denotes row r t.toValue →
      Denotes row (.binary .and l r) (s.and t).toValue
  | or {l r : Expr} {s t : Truth} : Denotes row l s.toValue → Denotes row r t.toValue →
      Denotes row (.binary .or l r) (s.or t).toValue

/-- The conjunctions and disjunctions that are looked at: by a negation, a null test or a
comparison, or from outside if the expression is `weighed`. Of an operand of another one it
only counts whether it is true. -/
def junctions (weighed : Bool) : Expr → List Expr
  | .binary op l r =>
    if op.isLogical then
      (if weighed then [.binary op l r] else []) ++ (junctions false l ++ junctions false r)
    else junctions true l ++ junctions true r
  | .not e | .isNull e => junctions true e
  | .column _ | .literal _ | .call .. | .window .. => []

/-- No conjunction or disjunction that is looked at is unknown. -/
def Known (weighed : Bool) (row : Row) (e : Expr) : Prop :=
  ∀ j ∈ e.junctions weighed, ¬ j.Denotes row .null

variable {now : Int} {row : Row} {e l r : Expr} {v w : Value}

/-- A predicate denotes one value. -/
theorem Denotes.unique (h : e.Denotes row v) (h' : e.Denotes row w) : v = w := by
  induction h generalizing w with
  | column hv =>
    cases h' with
    | column hw => exact Option.some.inj (hv.symm.trans hw)
  | literal =>
    cases h' with
    | literal => rfl
  | comparison hop _ _ ihl ihr =>
    cases h' with
    | comparison _ hl hr => rw [ihl hl, ihr hr]
    | and | or => cases hop
  | isNull _ ih =>
    cases h' with
    | isNull he => rw [ih he]
  | not _ ih =>
    cases h' with
    | not he => rw [Truth.toValue_injective (ih he)]
  | and _ _ ihl ihr =>
    cases h' with
    | comparison hop => cases hop
    | and hl hr => rw [Truth.toValue_injective (ihl hl), Truth.toValue_injective (ihr hr)]
  | or _ _ ihl ihr =>
    cases h' with
    | comparison hop => cases hop
    | or hl hr => rw [Truth.toValue_injective (ihl hl), Truth.toValue_injective (ihr hr)]

theorem junctions_comparison {op : BinaryOp} (h : op.isComparison = true) (weighed : Bool) :
    (binary op l r).junctions weighed = l.junctions true ++ r.junctions true := by
  cases op <;> first | rfl | cases h

theorem Known.both {es fs : List Expr} (h : ∀ j ∈ es ++ fs, ¬ j.Denotes row .null) :
    (∀ j ∈ es, ¬ j.Denotes row .null) ∧ ∀ j ∈ fs, ¬ j.Denotes row .null :=
  ⟨fun j hj => h j (List.mem_append_left _ hj), fun j hj => h j (List.mem_append_right _ hj)⟩

end Expr

variable {now : Int} {row : Row} {e l r : Expr} {v : Value} {rows : List Row}

theorem evalExpr_and {x y : Value} (hx : evalExpr now row l = .ok x) (hy : evalExpr now row r = .ok y) :
    evalExpr now row (.binary .and l r) = .ok (.boolean (x.isTrue && y.isTrue)) := by
  rw [evalExpr, hx, ok_bind, hy]
  rfl

theorem evalExpr_or {x y : Value} (hx : evalExpr now row l = .ok x) (hy : evalExpr now row r = .ok y) :
    evalExpr now row (.binary .or l r) = .ok (.boolean (x.isTrue || y.isTrue)) := by
  rw [evalExpr, hx, ok_bind, hy]
  rfl

theorem evalExpr_not {t : Truth} (h : evalExpr now row e = .ok t.toValue) :
    evalExpr now row (.not e) = .ok t.not.toValue := by
  rw [evalExpr, h, ok_bind, Truth.negate_toValue]

/-- **A predicate has a value**, a truth value if it denotes one. -/
theorem evalExpr_truth (now : Int) (h : e.Denotes row v) :
    ∃ w, evalExpr now row e = .ok w ∧ ((∃ t : Truth, v = t.toValue) → ∃ t : Truth, w = t.toValue) := by
  have hboolean : ∀ b : Bool, ∃ t : Truth, Value.boolean b = t.toValue := fun b =>
    ⟨.ofBool b, (Truth.toValue_ofBool b).symm⟩
  induction h with
  | column hv => exact ⟨_, by rw [evalExpr, hv]; rfl, id⟩
  | literal => exact ⟨_, by rw [evalExpr]; rfl, id⟩
  | comparison hop _ _ ihl ihr =>
    obtain ⟨x, hx, -⟩ := ihl
    obtain ⟨y, hy, -⟩ := ihr
    exact ⟨_, by rw [evalExpr, hx, ok_bind, hy, ok_bind, Truth.apply_comparison hop],
      fun _ => ⟨_, rfl⟩⟩
  | isNull _ ih =>
    obtain ⟨x, hx, -⟩ := ih
    exact ⟨.boolean x.isNull, by rw [evalExpr, hx]; rfl, fun _ => hboolean _⟩
  | not _ ih =>
    obtain ⟨x, hx, htruth⟩ := ih
    obtain ⟨t, rfl⟩ := htruth ⟨_, rfl⟩
    exact ⟨t.not.toValue, evalExpr_not hx, fun _ => ⟨_, rfl⟩⟩
  | and _ _ ihl ihr =>
    obtain ⟨x, hx, -⟩ := ihl
    obtain ⟨y, hy, -⟩ := ihr
    exact ⟨_, evalExpr_and hx hy, fun _ => hboolean _⟩
  | or _ _ ihl ihr =>
    obtain ⟨x, hx, -⟩ := ihl
    obtain ⟨y, hy, -⟩ := ihr
    exact ⟨_, evalExpr_or hx hy, fun _ => hboolean _⟩

/-- A junction of two evaluated operands, true as it should be: it has the value that it
should have unless that is null. -/
theorem junction_agrees {op : BinaryOp} {t : Truth} {b : Bool} (hop : op.isLogical = true)
    (hv : evalExpr now row (.binary op l r) = .ok (.boolean b)) (hb : b = t.toValue.isTrue)
    (hden : Expr.Denotes row (.binary op l r) t.toValue) (weighed : Bool)
    (hknown : Expr.Known weighed row (.binary op l r)) :
    ∃ w, evalExpr now row (.binary op l r) = .ok w ∧ w.isTrue = t.toValue.isTrue ∧
      (weighed = true → w = t.toValue) := by
  refine ⟨.boolean b, hv, hb, ?_⟩
  rintro rfl
  have hmem : Expr.binary op l r ∈ (Expr.binary op l r).junctions true := by
    rw [Expr.junctions, if_pos hop, if_pos rfl]
    exact List.mem_append_left _ (List.mem_singleton_self _)
  have hne : t.toValue ≠ .null := fun hnull => hknown _ hmem (hnull ▸ hden)
  rw [hb, ← Truth.eq_boolean_of_ne_null hne]

/-- **A predicate is true** where it denotes true if none of its junctions that are looked at
is unknown; it has the very value it denotes if it is looked at itself. -/
theorem evalExpr_denotes (now : Int) (h : e.Denotes row v) : ∀ weighed : Bool, e.Known weighed row →
    ∃ w, evalExpr now row e = .ok w ∧ w.isTrue = v.isTrue ∧ (weighed = true → w = v) := by
  induction h with
  | column hv =>
    exact fun _ _ => ⟨_, by rw [evalExpr, hv]; rfl, rfl, fun _ => rfl⟩
  | literal => exact fun _ _ => ⟨_, by rw [evalExpr]; rfl, rfl, fun _ => rfl⟩
  | comparison hop _ _ ihl ihr =>
    intro weighed hknown
    rw [Expr.Known, Expr.junctions_comparison hop] at hknown
    obtain ⟨hkl, hkr⟩ := Expr.Known.both hknown
    obtain ⟨x, hx, -, hxv⟩ := ihl true hkl
    obtain ⟨y, hy, -, hyv⟩ := ihr true hkr
    obtain rfl := hxv rfl
    obtain rfl := hyv rfl
    exact ⟨_, by rw [evalExpr, hx, ok_bind, hy, ok_bind, Truth.apply_comparison hop], rfl, fun _ => rfl⟩
  | isNull _ ih =>
    intro weighed hknown
    obtain ⟨x, hx, -, hxv⟩ := ih true hknown
    obtain rfl := hxv rfl
    exact ⟨_, by rw [evalExpr, hx]; rfl, rfl, fun _ => rfl⟩
  | @not _ t _ ih =>
    intro weighed hknown
    obtain ⟨x, hx, -, hxv⟩ := ih true hknown
    obtain rfl := hxv rfl
    exact ⟨_, evalExpr_not hx, rfl, fun _ => rfl⟩
  -- a junction only asks whether its sides are true, so neither need be known
  | and hl hr ihl ihr =>
    intro weighed hknown
    obtain ⟨hkl, hkr⟩ := Expr.Known.both (Expr.Known.both hknown).2
    obtain ⟨x, hx, hxtrue, -⟩ := ihl false hkl
    obtain ⟨y, hy, hytrue, -⟩ := ihr false hkr
    exact junction_agrees rfl (evalExpr_and hx hy) (by rw [hxtrue, hytrue, Truth.isTrue_and])
      (.and hl hr) weighed hknown
  | or hl hr ihl ihr =>
    intro weighed hknown
    obtain ⟨hkl, hkr⟩ := Expr.Known.both (Expr.Known.both hknown).2
    obtain ⟨x, hx, hxtrue, -⟩ := ihl false hkl
    obtain ⟨y, hy, hytrue, -⟩ := ihr false hkr
    exact junction_agrees rfl (evalExpr_or hx hy) (by rw [hxtrue, hytrue, Truth.isTrue_or])
      (.or hl hr) weighed hknown

theorem filterRows_congr_iff {e e' : Expr} (h : ∀ row ∈ rows, ∃ v, evalExpr now row e = .ok v)
    (h' : ∀ row ∈ rows, ∃ v, evalExpr now row e' = .ok v) :
    filterRows now e rows = filterRows now e' rows ↔
      ∀ row ∈ rows, trueOn now e row = trueOn now e' row := by
  rw [filterRows_eq_ok.2 ⟨h, rfl⟩, filterRows_eq_ok.2 ⟨h', rfl⟩, Except.ok.injEq]
  refine ⟨fun he row hrow => ?_, List.filter_congr⟩
  have hmem : row ∈ rows.filter (trueOn now e) ↔ row ∈ rows.filter (trueOn now e') := by rw [he]
  rw [List.mem_filter, List.mem_filter, and_iff_right hrow, and_iff_right hrow] at hmem
  exact Bool.eq_iff_iff.2 hmem

/-- A predicate has a truth value over a row, and nothing that it looks at is unknown. -/
structure Expr.Judges (row : Row) (e : Expr) (t : Truth) : Prop where
  denotes : e.Denotes row t.toValue
  known : e.Known true row

theorem Expr.Judges.evalExpr {t : Truth} (h : e.Judges row t) :
    StreamPlan.evalExpr now row e = .ok t.toValue := by
  obtain ⟨x, hx, -, hxv⟩ := evalExpr_denotes now h.denotes true h.known
  exact hxv rfl ▸ hx

section Negated

variable {s t : Truth} (hl : l.Judges row s) (hr : r.Judges row t)

include hl hr

/-- **The negation of a conjunction** is true with the disjunction of the negations, exactly
if the conjunction is not unknown. -/
theorem negated_and : trueOn now (.not (.binary .and l r)) row
      = trueOn now (.binary .or (.not l) (.not r)) row ↔ s.and t ≠ .unknown := by
  have hboth : evalExpr now row (.binary .and l r) = _ := evalExpr_and hl.evalExpr hr.evalExpr
  rw [← Truth.toValue_ofBool] at hboth
  rw [trueOn_of_ok (evalExpr_not hboth),
    trueOn_of_ok (evalExpr_or (evalExpr_not hl.evalExpr) (evalExpr_not hr.evalExpr))]
  cases s <;> cases t <;> decide

/-- **The negation of a disjunction** is true with the conjunction of the negations, exactly
if the disjunction is not unknown. -/
theorem negated_or : trueOn now (.not (.binary .or l r)) row
      = trueOn now (.binary .and (.not l) (.not r)) row ↔ s.or t ≠ .unknown := by
  have hboth : evalExpr now row (.binary .or l r) = _ := evalExpr_or hl.evalExpr hr.evalExpr
  rw [← Truth.toValue_ofBool] at hboth
  rw [trueOn_of_ok (evalExpr_not hboth),
    trueOn_of_ok (evalExpr_and (evalExpr_not hl.evalExpr) (evalExpr_not hr.evalExpr))]
  cases s <;> cases t <;> decide

end Negated

/-- A negation that is moved inwards denotes the same. -/
theorem Expr.Denotes.inwards {s t : Truth} (hl : l.Denotes row s.toValue)
    (hr : r.Denotes row t.toValue) :
    (Expr.not (.binary .and l r)).Denotes row (s.and t).not.toValue ∧
      (Expr.binary .or (.not l) (.not r)).Denotes row (s.and t).not.toValue ∧
      (Expr.not (.binary .or l r)).Denotes row (s.or t).not.toValue ∧
      (Expr.binary .and (.not l) (.not r)).Denotes row (s.or t).not.toValue := by
  refine ⟨.not (.and hl hr), ?_, .not (.or hl hr), ?_⟩
  · rw [Truth.not_and]
    exact .or (.not hl) (.not hr)
  · rw [Truth.not_or]
    exact .and (.not hl) (.not hr)

/-- **Predicates in three-valued logic.** A predicate has a value. It is true exactly where
it denotes true, unless a negation, a null test or a comparison in it looks at a conjunction
or disjunction that is unknown. So De Morgan's laws, by which a negation that is moved inwards
denotes the same, hold for the rows that a filter keeps exactly if what is negated is unknown
on none of them. -/
theorem three_valued_logic (now : Int) (rows : List Row) :
    (∀ (row : Row) (e : Expr) (v : Value), e.Denotes row v → ∃ w, evalExpr now row e = .ok w ∧
      (e.Known false row → (w = .boolean true ↔ v = .boolean true))) ∧
    ∀ (l r : Expr) (s t : Row → Truth),
      (∀ row ∈ rows, l.Judges row (s row) ∧ r.Judges row (t row)) →
      (∀ row ∈ rows, (Expr.not (.binary .and l r)).Denotes row ((s row).and (t row)).not.toValue ∧
        (Expr.binary .or (.not l) (.not r)).Denotes row ((s row).and (t row)).not.toValue ∧
        (Expr.not (.binary .or l r)).Denotes row ((s row).or (t row)).not.toValue ∧
        (Expr.binary .and (.not l) (.not r)).Denotes row ((s row).or (t row)).not.toValue) ∧
      (filterRows now (.not (.binary .and l r)) rows
          = filterRows now (.binary .or (.not l) (.not r)) rows ↔
        ∀ row ∈ rows, (s row).and (t row) ≠ .unknown) ∧
      (filterRows now (.not (.binary .or l r)) rows
          = filterRows now (.binary .and (.not l) (.not r)) rows ↔
        ∀ row ∈ rows, (s row).or (t row) ≠ .unknown) := by
  refine ⟨fun row e v h => ?_, fun l r s t h => ?_⟩
  · obtain ⟨w, hw, -⟩ := evalExpr_truth now h
    refine ⟨w, hw, fun hknown => ?_⟩
    obtain ⟨x, hx, htrue, -⟩ := evalExpr_denotes now h false hknown
    obtain rfl := Except.ok.inj (hw.symm.trans hx)
    rw [← Value.isTrue_iff, ← Value.isTrue_iff, htrue]
  · have hdenotes := fun row hrow => (h row hrow).1.denotes.inwards (h row hrow).2.denotes
    have hvalue : ∀ {e : Expr} {v : Value} {row : Row}, e.Denotes row v →
        ∃ w, evalExpr now row e = .ok w := fun he => (evalExpr_truth now he).imp fun _ hw => hw.1
    refine ⟨hdenotes, ?_, ?_⟩
    · rw [filterRows_congr_iff (fun row hrow => hvalue (hdenotes row hrow).1)
        fun row hrow => hvalue (hdenotes row hrow).2.1]
      exact forall₂_congr fun row hrow => negated_and (h row hrow).1 (h row hrow).2
    · rw [filterRows_congr_iff (fun row hrow => hvalue (hdenotes row hrow).2.2.1)
        fun row hrow => hvalue (hdenotes row hrow).2.2.2]
      exact forall₂_congr fun row hrow => negated_or (h row hrow).1 (h row hrow).2

/-- Of a row without a first value, it is known that the second one is not below 3, and so
that not both this holds and the first value is 1. The negation of the conjunction may be
moved inwards, that of the disjunction may not. -/
theorem known_conjunction_is_negated :
    let row : Row := [.null, .int 5]
    let small : Expr := .binary .lt (.column 1) (.literal (.int 3))
    let first : Expr := .binary .eq (.column 0) (.literal (.int 1))
    (∃ w, evalExpr 0 row (.not (.binary .and small first)) = .ok w ∧ w = .boolean true) ∧
    filterRows 0 (.not (.binary .and small first)) [row]
      = filterRows 0 (.binary .or (.not small) (.not first)) [row] ∧
    filterRows 0 (.not (.binary .or small first)) [row]
      ≠ filterRows 0 (.binary .and (.not small) (.not first)) [row] := by
  intro row small first
  have hno : Truth.compared .lt (.int 5) (.int 3) = .no := rfl
  have hunknown : Truth.compared .eq .null (.int 1) = .unknown := rfl
  have hsmall : small.Judges row .no :=
    ⟨hno ▸ .comparison rfl (.column rfl) .literal, nofun⟩
  have hfirst : first.Judges row .unknown :=
    ⟨hunknown ▸ .comparison rfl (.column rfl) .literal, nofun⟩
  have hboth := Expr.Denotes.and hsmall.denotes hfirst.denotes
  have hknown : (Expr.not (.binary .and small first)).Known false row := by
    intro j hj hnull
    obtain rfl := List.mem_singleton.1 hj
    cases hboth.unique hnull
  obtain ⟨hvalue, hlaws⟩ := three_valued_logic 0 [row]
  obtain ⟨w, hw, htrue⟩ := hvalue row _ _ (.not hboth)
  obtain ⟨-, hand, hor⟩ := hlaws small first (fun _ => .no) (fun _ => .unknown)
    (List.forall_mem_singleton.2 ⟨hsmall, hfirst⟩)
  refine ⟨⟨w, hw, (htrue hknown).2 rfl⟩, hand.2 ?_, fun he => ?_⟩
  · exact List.forall_mem_singleton.2 nofun
  · exact hor.1 he row (List.mem_singleton_self _) rfl

/-- That a null and true both hold is unknown, and so is its negation; but the negation is
true, and a filter keeps the row unless the negation is moved inwards. -/
theorem unknown_conjunction_is_negated :
    (Expr.not (.binary .and (.column 0) .truth)).Denotes [.null] .null ∧
    evalExpr 0 [.null] (.not (.binary .and (.column 0) .truth)) = .ok (.boolean true) ∧
    filterRows 0 (.not (.binary .and (.column 0) .truth)) [[.null], [.boolean false]]
      = .ok [[.null], [.boolean false]] ∧
    filterRows 0 (.binary .or (.not (.column 0)) (.not .truth)) [[.null], [.boolean false]]
      = .ok [[.boolean false]] := by
  have hnull : (Expr.column 0).Denotes [.null] Truth.unknown.toValue := .column rfl
  have htruth : Expr.truth.Denotes [.null] Truth.yes.toValue := .literal
  exact ⟨.not (.and hnull htruth), rfl, rfl, rfl⟩

end StreamPlan
