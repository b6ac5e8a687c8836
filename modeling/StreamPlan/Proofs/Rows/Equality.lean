import StreamPlan.Proofs.Rows.Evaluate

/-!
# Equality of values

* `Value.compare?_eq_comm`: whether two values compare equal does not depend on
  their order. For floats this is so by the comparison of their bit patterns.
* `Value.compare?_congr`: the same values compare with every value alike.
* `Value.compare?_eq_cases`: so do values that compare equal, unless they are equal as
  floats. Equality is not transitive then: one float is the nearest to many integers.
* `Value.same_symm`, `Value.same_trans`: sameness is symmetric and transitive, but not
  reflexive: a float that is no number is not even the same as itself.
* `Row.equates`, `evalExpr_equate`: what an equality of two columns means.
-/

namespace StreamPlan

namespace Value

/-- Floats that compare equal are one number, or both are zeros. -/
theorem unpacked_eq_cases {x y : Float.Model.UnpackedFloat} (h : x.compare y = some .eq) :
    x = y ∨ ∃ s t, x = .zero s ∧ y = .zero t := by
  cases x with
  | notANumber => cases h
  | infinity s =>
    cases y with
    | infinity t => cases s <;> cases t <;> first | exact .inl rfl | cases h
    | _ => cases s <;> cases h
  | zero s =>
    cases y with
    | zero t => exact .inr ⟨s, t, rfl, rfl⟩
    | infinity t => cases t <;> cases h
    | finite t => cases t <;> cases h
    | _ => cases h
  | finite s m e hm =>
    cases y with
    | finite t m' e' hm' =>
      -- The signs agree; exponents are compared first, mantissas next.
      cases s <;> cases t <;> try cases h
      all_goals
        replace h := Option.some.inj h
        simp only [Ordering.swap_eq_eq, Ordering.then_eq_eq, Std.compare_eq_iff_eq] at h
        obtain ⟨rfl, rfl⟩ := h
        exact .inl rfl
    | infinity t => cases s <;> cases t <;> cases h
    | zero t => cases s <;> cases h
    | notANumber => cases s <;> cases h

/-- Equal floats are equal in either order. -/
theorem unpacked_eq_symm {x y : Float.Model.UnpackedFloat} (h : x.compare y = some .eq) :
    y.compare x = some .eq := by
  rcases unpacked_eq_cases h with rfl | ⟨s, t, rfl, rfl⟩
  · exact h
  · rfl

theorem float_lt_iff {a b : Float} :
    a < b ↔ a.toModel.unpack.compare b.toModel.unpack = some .lt := by
  change (decide (a.toModel < b.toModel)) = true ↔ _
  rw [decide_eq_true_iff]
  exact beq_iff_eq

theorem float_beq_iff {a b : Float} :
    (a == b) = true ↔ a.toModel.unpack.compare b.toModel.unpack = some .eq := by
  change (a.toModel.unpack.compare b.toModel.unpack == some .eq) = true ↔ _
  exact beq_iff_eq

theorem compareFloats_eq_iff {a b : Float} :
    compareFloats a b = some .eq ↔ a.toModel.unpack.compare b.toModel.unpack = some .eq := by
  unfold compareFloats
  by_cases h1 : a < b
  · rw [if_pos h1, float_lt_iff.1 h1]
  · rw [if_neg h1]
    by_cases h2 : (a == b) = true
    · simp [if_pos h2, float_beq_iff.1 h2]
    · rw [if_neg h2]
      constructor
      · intro h
        split at h <;> cases h
      · exact fun h => absurd (float_beq_iff.2 h) h2

theorem compareFloats_eq_symm {a b : Float} (h : compareFloats a b = some .eq) :
    compareFloats b a = some .eq :=
  compareFloats_eq_iff.2 (unpacked_eq_symm (compareFloats_eq_iff.1 h))

theorem compareTexts_eq {a b : String} (h : compareTexts a b = .eq) : a = b := by
  unfold compareTexts at h
  split at h
  · cases h
  · split at h
    · assumption
    · cases h

theorem compareTexts_eq_symm {a b : String} (h : compareTexts a b = .eq) : compareTexts b a = .eq := by
  cases compareTexts_eq h
  exact h

theorem compare?_eq_symm {a b : Value} (h : a.compare? b = some .eq) : b.compare? a = some .eq := by
  cases a <;> cases b
  all_goals
    simp only [compare?, asInt?, asFloat?, Option.map, bind, Option.bind, pure, Option.some.injEq,
      reduceCtorEq] at h ⊢
  all_goals first
    | exact compareFloats_eq_symm h
    | exact congrArg some (compareTexts_eq_symm (Option.some.inj h))
    | exact compareTexts_eq_symm h
    | exact Std.compare_eq_iff_eq.2 (Std.compare_eq_iff_eq.1 h).symm

/-- **Whether values compare equal** does not depend on their order. -/
theorem compare?_eq_comm {a b : Value} : a.compare? b = some .eq ↔ b.compare? a = some .eq :=
  ⟨compare?_eq_symm, compare?_eq_symm⟩

/-- A value that equals another one equals itself. -/
theorem compare?_self {v w : Value} (h : v.compare? w = some .eq) : w.compare? w = some .eq := by
  have hfloat : ∀ x y : Float, compareFloats x y = some .eq → compareFloats y y = some .eq := by
    intro x y hxy
    rw [compareFloats_eq_iff] at hxy ⊢
    rcases unpacked_eq_cases hxy with he | ⟨s, t, -, hy⟩
    · rwa [he] at hxy
    · rw [hy]
      rfl
  cases v <;> cases w
  all_goals
    simp only [compare?, asInt?, asFloat?, Option.map, bind, Option.bind, pure, Option.some.injEq,
      reduceCtorEq] at h ⊢
  all_goals first
    | exact hfloat _ _ h
    | exact congrArg some (Std.compare_eq_iff_eq.2 rfl)
    | exact Std.compare_eq_iff_eq.2 rfl
    | simp [compareTexts]

/-- Equal floats compare with every float alike. -/
theorem compareFloats_congr {a b : Float} (h : (a == b) = true) (z : Float) :
    compareFloats a z = compareFloats b z := by
  have hcompare := float_beq_iff.1 h
  have hcongr : ∀ z : Float.Model.UnpackedFloat, a.toModel.unpack.compare z
      = b.toModel.unpack.compare z ∧ z.compare a.toModel.unpack = z.compare b.toModel.unpack := by
    intro z
    rcases unpacked_eq_cases hcompare with he | ⟨s, t, ha, hb⟩
    · rw [he]
      exact ⟨rfl, rfl⟩
    · rw [ha, hb]
      cases z with
      | notANumber => exact ⟨rfl, rfl⟩
      | zero u => exact ⟨rfl, rfl⟩
      | infinity u => cases u <;> exact ⟨rfl, rfl⟩
      | finite u => cases u <;> exact ⟨rfl, rfl⟩
  obtain ⟨hleft, hright⟩ := hcongr z.toModel.unpack
  simp only [compareFloats, float_lt_iff, float_beq_iff, hleft, hright]

theorem compareFloats_eq_trans {a b c : Float} (h : compareFloats a b = some .eq)
    (h' : compareFloats b c = some .eq) : compareFloats a c = some .eq := by
  rwa [compareFloats_congr (float_beq_iff.2 (compareFloats_eq_iff.1 h))]

/-- A float is compared with the float nearest to a value. -/
theorem compare?_float {x : Float} (v : Value) :
    (Value.float x).compare? v = v.asFloat?.bind (compareFloats x) := by
  cases v <;> rfl

/-- Values that compare equal compare with every value alike, or are equal as floats. -/
theorem compare?_eq_cases {v w : Value} (h : v.compare? w = some .eq) :
    (∀ u : Value, v.compare? u = w.compare? u) ∨
      ∃ a b, v.asFloat? = some a ∧ w.asFloat? = some b ∧ compareFloats a b = some .eq := by
  cases v <;> cases w
  all_goals
    simp only [compare?, asInt?, asFloat?, Option.map, bind, Option.bind, pure, Option.some.injEq,
      reduceCtorEq, Std.compare_eq_iff_eq] at h
  all_goals first
    | exact .inr ⟨_, _, rfl, rfl, h⟩
    | exact .inl fun u => by subst h; cases u <;> rfl
    | exact .inl fun u => by cases compareTexts_eq h; rfl

/-- Values that compare equal compare with every value alike, or one is a float. -/
theorem compare?_eq_alike {v w : Value} (h : v.compare? w = some .eq) :
    (∀ u : Value, v.compare? u = w.compare? u) ∨ (∃ x, v = .float x) ∨ ∃ y, w = .float y := by
  cases v <;> cases w
  all_goals
    simp only [compare?, asInt?, asFloat?, Option.map, bind, Option.bind, pure, Option.some.injEq,
      reduceCtorEq, Std.compare_eq_iff_eq] at h
  all_goals first
    | exact .inr (.inl ⟨_, rfl⟩)
    | exact .inr (.inr ⟨_, rfl⟩)
    | exact .inl fun u => by subst h; cases u <;> rfl
    | exact .inl fun u => by cases compareTexts_eq h; rfl

/-- **Values that equal one value** are equal, unless that value is a float. -/
theorem compare?_eq_of_both {x v w : Value} (hx : ∀ a, x ≠ .float a)
    (hv : x.compare? v = some .eq) (hw : x.compare? w = some .eq) : v.compare? w = some .eq := by
  rcases compare?_eq_alike hv with halike | ⟨a, rfl⟩ | ⟨b, rfl⟩
  · exact halike w ▸ hw
  · exact absurd rfl (hx a)
  · -- a float is compared as a float, and so is the value that equals it
    rcases compare?_eq_cases hv with halike | ⟨a, _, ha, hb, hab⟩
    · exact halike w ▸ hw
    · obtain rfl := Option.some.inj hb
      rcases compare?_eq_cases hw with halike | ⟨a', c, ha', hc, hac⟩
      · exact compare?_eq_symm (halike (.float b) ▸ hv)
      · obtain rfl := Option.some.inj (ha.symm.trans ha')
        rw [compare?_float, hc]
        exact compareFloats_eq_trans (compareFloats_eq_symm hab) hac

/-- **The same values** compare with every value alike. -/
theorem compare?_congr {a b : Value} (h : a.same b = true) (z : Value) :
    a.compare? z = b.compare? z := by
  cases a with
  | float x =>
    cases b with
    | float y =>
      rw [same] at h
      cases z with
      | float w => simp only [compare?, asFloat?, bind, Option.bind, compareFloats_congr h]
      | _ => simp only [compare?, asFloat?, asInt?, Option.map, bind, Option.bind,
          compareFloats_congr h]
    | _ => cases h
  | list rows =>
    cases b with
    | list others => cases z <;> rfl
    | _ => cases h
  | null => cases b <;> first | rfl | cases h
  | _ =>
    cases b <;> try cases h
    all_goals
      simp only [same, beq_iff_eq] at h
      rw [h]

theorem float_beq_symm {a b : Float} (h : (a == b) = true) : (b == a) = true :=
  float_beq_iff.2 (unpacked_eq_symm (float_beq_iff.1 h))

theorem float_beq_trans {a b c : Float} (h : (a == b) = true) (h' : (b == c) = true) :
    (a == c) = true :=
  float_beq_iff.2 (compareFloats_eq_iff.1 (compareFloats_eq_trans
    (compareFloats_eq_iff.2 (float_beq_iff.1 h)) (compareFloats_eq_iff.2 (float_beq_iff.1 h'))))

mutual

/-- A value is the same as any that is the same as it. -/
theorem same_symm : ∀ {a b : Value}, a.same b = true → b.same a = true
  | .float _, .float _, h => by rw [same] at h ⊢; exact float_beq_symm h
  | .list _, .list _, h => by rw [same] at h ⊢; exact sameRows_symm h
  | .null, .null, h => h
  | .boolean _, .boolean _, h | .int _, .int _, h | .text _, .text _, h
  | .timestamp _, .timestamp _, h | .interval _, .interval _, h => by
    rw [same, beq_iff_eq] at h ⊢
    exact h.symm

theorem sameRow_symm : ∀ {a b : List Value}, sameRow a b = true → sameRow b a = true
  | [], [], h => h
  | _ :: _, _ :: _, h => by
    rw [sameRow, Bool.and_eq_true] at h ⊢
    exact ⟨same_symm h.1, sameRow_symm h.2⟩

theorem sameRows_symm : ∀ {a b : List (List Value)}, sameRows a b = true → sameRows b a = true
  | [], [], h => h
  | _ :: _, _ :: _, h => by
    rw [sameRows, Bool.and_eq_true] at h ⊢
    exact ⟨sameRow_symm h.1, sameRows_symm h.2⟩

end

mutual

/-- A value is the same as one that is the same as a third. -/
theorem same_trans : ∀ {a b c : Value}, a.same b = true → b.same c = true → a.same c = true
  | .float _, .float _, .float _, h, h' => by rw [same] at h h' ⊢; exact float_beq_trans h h'
  | .list _, .list _, .list _, h, h' => by rw [same] at h h' ⊢; exact sameRows_trans h h'
  | .null, .null, .null, h, _ => h
  | .boolean _, .boolean _, .boolean _, h, h' | .int _, .int _, .int _, h, h'
  | .text _, .text _, .text _, h, h' | .timestamp _, .timestamp _, .timestamp _, h, h'
  | .interval _, .interval _, .interval _, h, h' => by
    rw [same, beq_iff_eq] at h h' ⊢
    exact h.trans h'

theorem sameRow_trans : ∀ {a b c : List Value},
    sameRow a b = true → sameRow b c = true → sameRow a c = true
  | [], [], [], h, _ => h
  | _ :: _, _ :: _, _ :: _, h, h' => by
    rw [sameRow, Bool.and_eq_true] at h h' ⊢
    exact ⟨same_trans h.1 h'.1, sameRow_trans h.2 h'.2⟩

theorem sameRows_trans : ∀ {a b c : List (List Value)},
    sameRows a b = true → sameRows b c = true → sameRows a c = true
  | [], [], [], h, _ => h
  | _ :: _, _ :: _, _ :: _, h, h' => by
    rw [sameRows, Bool.and_eq_true] at h h' ⊢
    exact ⟨sameRow_trans h.1 h'.1, sameRows_trans h.2 h'.2⟩

end

theorem sameRow_comm (a b : List Value) : sameRow a b = sameRow b a :=
  Bool.eq_iff_iff.2 ⟨sameRow_symm, sameRow_symm⟩

/-- **The same rows** are the same as the same rows. -/
theorem sameRow_congr {a b : List Value} (h : sameRow a b = true) (c : List Value) :
    sameRow a c = sameRow b c :=
  Bool.eq_iff_iff.2 ⟨sameRow_trans (sameRow_symm h), sameRow_trans h⟩

end Value

variable {now : Int} {row : Row}

/-- Whether two columns of a row have equal values. -/
def Row.equates (row : Row) (a b : Nat) : Bool :=
  match row[a]?, row[b]? with
  | some x, some y => x.compare? y = some .eq
  | _, _ => false

theorem Row.equates_iff {a b : Nat} : row.equates a b = true ↔
    ∃ x y, row[a]? = some x ∧ row[b]? = some y ∧ x.compare? y = some .eq := by
  rw [equates]
  cases row[a]? with
  | none => simp
  | some x => cases row[b]? <;> simp

theorem Row.equates_comm (a b : Nat) : row.equates a b = row.equates b a := by
  unfold equates
  cases row[a]? with
  | none => cases row[b]? <;> rfl
  | some x =>
    cases row[b]? with
    | none => rfl
    | some y => exact decide_eq_decide.2 Value.compare?_eq_comm

/-- Where columns have the values of other columns of another row. -/
theorem Row.equates_congr {other : Row} {a b c d : Nat} (ha : other[c]? = row[a]?)
    (hb : other[d]? = row[b]?) : other.equates c d = row.equates a b := by
  rw [equates, equates, ha, hb]

/-- Where a column of the left row of a pair equals one of the right row. -/
theorem Row.equates_append {other : Row} {c d : Nat} (hc : c < row.length) :
    (row ++ other).equates c (d + row.length) = true ↔
      ∃ x y, row[c]? = some x ∧ other[d]? = some y ∧ x.compare? y = some .eq := by
  rw [equates_iff, List.getElem?_append_left hc, List.getElem?_append_right (Nat.le_add_left _ _),
    Nat.add_sub_cancel]

/-- An equality of values is true when they compare equal. -/
theorem BinaryOp.apply_eq (x y : Value) :
    ∃ v, BinaryOp.apply .eq x y = .ok v ∧ v.isTrue = decide (x.compare? y = some .eq) := by
  rw [apply]
  cases x.compare? y with
  | none => exact ⟨.null, rfl, rfl⟩
  | some order => exact ⟨.boolean (BinaryOp.holdsOf .eq order), rfl, by cases order <;> rfl⟩

/-- **An equality of columns** has a value if both are columns of the row. -/
theorem evalExpr_equate {a b : Nat} : (∃ v, evalExpr now row (Expr.equate a b) = .ok v) ↔
    a < row.length ∧ b < row.length := by
  rw [Expr.equate, evalExpr, evalExpr, evalExpr]
  constructor
  · rintro ⟨v, h⟩
    obtain ⟨x, hx, h⟩ := bind_eq_ok.1 h
    obtain ⟨y, hy, -⟩ := bind_eq_ok.1 h
    constructor
    · by_contra hge
      rw [List.getElem?_eq_none (Nat.not_lt.1 hge)] at hx
      cases hx
    · by_contra hge
      rw [List.getElem?_eq_none (Nat.not_lt.1 hge)] at hy
      cases hy
  · rintro ⟨ha, hb⟩
    obtain ⟨v, hv, -⟩ := BinaryOp.apply_eq row[a] row[b]
    rw [List.getElem?_eq_getElem ha, List.getElem?_eq_getElem hb]
    exact ⟨v, hv⟩

/-- It is true if they have equal values. -/
theorem trueOn_equate (a b : Nat) : trueOn now (Expr.equate a b) row = row.equates a b := by
  rw [trueOn, Row.equates, Expr.equate, evalExpr, evalExpr, evalExpr]
  cases row[a]? with
  | none => rfl
  | some x =>
    cases row[b]? with
    | none => rfl
    | some y =>
      obtain ⟨v, hv, htrue⟩ := BinaryOp.apply_eq x y
      simp only [pure_bind, hv, htrue]

end StreamPlan
