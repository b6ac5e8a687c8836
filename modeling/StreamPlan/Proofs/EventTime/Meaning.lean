import StreamPlan.EventTime.NowFilter
import StreamPlan.Proofs.EventTime.Bound
import StreamPlan.Proofs.Rows.Expr

/-!
# What time bounds and now-filters say about a row

A time bound and the expression it stands for are about the same distances of
times, computed exactly; a time that is null satisfies no bound.

* `TimeBound.ofExpr?_means`: the bound that an expression states is what the
  expression means.
* `NowFilter.ofBound?_holds`, `merge?_holds`: a now-filter says what its bound
  says, and two of them in one what both say.
* `NowFilter.expr_means`, `TimeBound.expr_means`: so do their expressions.
-/

namespace StreamPlan

variable {now : Int} {row : Row}

/-- A time or null. -/
def Value.IsTime (v : Value) : Prop := v = .null ∨ ∃ t, v = .timestamp t

/-- A time, or null for none. -/
def Value.ofTime : Option Int → Value
  | some t => .timestamp t
  | none => .null

/-- A row with a time or null at a position. -/
def Row.Timed (row : Row) (i : Nat) : Prop := ∃ v, row[i]? = some v ∧ v.IsTime

/-- The time at a position of a row. -/
def Row.timeAt (row : Row) (i : Nat) : Option Int :=
  match row[i]? with
  | some (.timestamp t) => some t
  | _ => none

theorem Row.timeAt_eq_some {i : Nat} {t : Int} :
    row.timeAt i = some t ↔ row[i]? = some (.timestamp t) := by
  unfold timeAt
  split <;> simp_all

theorem Row.Timed.eq_ofTime {i : Nat} (h : row.Timed i) :
    row[i]? = some (Value.ofTime (row.timeAt i)) := by
  obtain ⟨v, hv, rfl | ⟨t, rfl⟩⟩ := h <;> simp [Row.timeAt, hv, Value.ofTime]

/-- How a comparison operator compares two times. -/
def BinaryOp.OnTimes (op : BinaryOp) (a b : Int) : Prop :=
  match op with
  | .eq => a = b
  | .ne => a ≠ b
  | .lt => a < b
  | .le => a ≤ b
  | .gt => b < a
  | .ge => b ≤ a
  | _ => False

theorem BinaryOp.holdsOf_compare {op : BinaryOp} (h : op.isComparison = true) (a b : Int) :
    op.holdsOf (Ord.compare a b) = true ↔ op.OnTimes a b := by
  have hdef : Ord.compare a b = compareOfLessAndEq a b := rfl
  rw [hdef, compareOfLessAndEq]
  clear hdef
  split
  · rename_i hlt
    cases op <;> simp_all [isComparison, holdsOf, OnTimes] <;> omega
  · split
    · rename_i heq
      cases op <;> simp_all [isComparison, holdsOf, OnTimes]
    · rename_i hge hne
      cases op <;> simp_all [isComparison, holdsOf, OnTimes] <;> omega

/-- A comparison of times, of which none may be missing. -/
theorem BinaryOp.apply_ofTime {op : BinaryOp} (h : op.isComparison = true) (a b : Option Int) :
    ∃ v, op.apply (Value.ofTime a) (Value.ofTime b) = .ok v ∧
      (v.isTrue = true ↔ ∃ x y, a = some x ∧ b = some y ∧ op.OnTimes x y) := by
  have hcompare : ∀ l r : Value, op.apply l r =
      (l.compare? r).elim (.ok .null) fun order => .ok (.boolean (op.holdsOf order)) := by
    intro l r
    cases op <;> first | (rw [apply]; cases l.compare? r <;> rfl) | cases h
  rw [hcompare]
  rcases a with _ | a
  · exact ⟨.null, rfl, by simp [Value.isTrue]⟩
  · rcases b with _ | b
    · exact ⟨.null, rfl, by simp [Value.isTrue]⟩
    · refine ⟨.boolean (op.holdsOf (Ord.compare a b)), rfl, ?_⟩
      change op.holdsOf _ = true ↔ _
      rw [holdsOf_compare h]
      simp

/-- The time of an operand on a row. -/
def TimeOperand.timeOn (now : Int) (row : Row) : TimeOperand → Option Int
  | .column i => row.timeAt i
  | .now => some now

/-- The outcome is a time, or null if there is none, or it leaves 64 bits. -/
def Shows (x : Eval Value) (time : Option Int) : Prop :=
  x = .error (.fault .arithmeticOverflow) ∨ x = .ok (Value.ofTime time)

/-- An interval added to a time. -/
theorem shows_plus {e : Expr} {time : Option Int} (h : Shows (evalExpr now row e) time) (m : Int) :
    Shows (evalExpr now row (.binary .plus e (.interval m))) (time.map (· + m)) := by
  rw [evalExpr, Expr.interval, evalExpr]
  rcases h with h | h <;> rw [h]
  · exact .inl rfl
  · rcases time with _ | t
    · exact .inr rfl
    · change Shows (do
        match ← (liftM (some <$> Millis.add t m) : Eval (Option Int)) with
        | some n => return .timestamp n
        | none => return .null) _
      unfold Millis.add Millis.checked
      split
      · exact .inr rfl
      · exact .inl rfl

/-- An interval taken off a time. -/
theorem shows_minus {e : Expr} {time : Option Int} (h : Shows (evalExpr now row e) time) (m : Int) :
    Shows (evalExpr now row (.binary .minus e (.interval m))) (time.map (· - m)) := by
  rw [evalExpr, Expr.interval, evalExpr]
  rcases h with h | h <;> rw [h]
  · exact .inl rfl
  · rcases time with _ | t
    · exact .inr rfl
    · change Shows (do
        match ← (liftM (some <$> Millis.sub t m) : Eval (Option Int)) with
        | some n => return .timestamp n
        | none => return .null) _
      unfold Millis.sub Millis.checked
      split
      · exact .inr rfl
      · exact .inl rfl

/-- A comparison of two times. -/
theorem Shows.compare {op : BinaryOp} (hop : op.isComparison = true) {l r : Expr} {a b : Option Int}
    (hl : Shows (evalExpr now row l) a) (hr : Shows (evalExpr now row r) b) :
    Means (evalExpr now row (.binary op l r)) (∃ x y, a = some x ∧ b = some y ∧ op.OnTimes x y) := by
  rw [evalExpr]
  rcases hl with hl | hl <;> rw [hl]
  · exact .inl rfl
  · rcases hr with hr | hr <;> rw [hr]
    · exact .inl rfl
    · exact .inr (BinaryOp.apply_ofTime hop a b)

theorem TimeOperand.expr_shows {operand : TimeOperand}
    (h : ∀ i, operand = .column i → row.Timed i) :
    Shows (evalExpr now row operand.expr) (operand.timeOn now row) := by
  cases operand with
  | column i => exact .inr (by rw [expr, evalExpr, (h i rfl).eq_ofTime]; rfl)
  | now => exact .inr (by rw [expr, Expr.now, evalExpr]; rfl)

theorem Millis.eq_of_checked {x y : Int} (h : checked x = .ok y) : y = x :=
  (checked_eq_ok_iff.1 h).2

namespace TimeBound

variable {isCandidate : Nat → Bool}

/-- **The time operand of an expression** with the milliseconds added to it. -/
theorem Reads.shows (hrow : ∀ i, isCandidate i = true → row.Timed i) {e : Expr} {operand : TimeOperand}
    {x : Int} (h : Reads isCandidate e operand x) :
    Shows (evalExpr now row e) ((operand.timeOn now row).map (· + x)) := by
  induction h with
  | column hi =>
    rw [evalExpr, (hrow _ hi).eq_ofTime]
    exact .inr (by simp [TimeOperand.timeOn, pure, Except.pure])
  | @now function _ hnow =>
    have hrole : function.role = .now := by simpa [ScalarFunction.isNow] using hnow
    rw [evalExpr, hrole]
    exact .inr (by simp [TimeOperand.timeOn, pure, Except.pure, Value.ofTime])
  | @plus _ _ _ m _ _ hsum ih =>
    have hplus := shows_plus ih m
    rw [Option.map_map] at hplus
    rw [Millis.eq_of_checked hsum]
    simpa [Function.comp_def, Int.add_assoc] using hplus
  | @minus _ _ _ m _ _ _ hneg hsum ih =>
    have hminus := shows_minus ih m
    rw [Option.map_map] at hminus
    rw [Millis.eq_of_checked hsum, Millis.eq_of_checked hneg]
    simpa [Function.comp_def, Int.sub_eq_add_neg, Int.add_assoc] using hminus

end TimeBound

/-- What a bound says about the distance of two times. -/
def BoundComparison.Holds (comparison : BoundComparison) (distance millis : Int) : Prop :=
  match comparison with
  | .lt => distance < millis
  | .le => distance ≤ millis
  | .eq => distance = millis

namespace TimeBound

variable {isCandidate : Nat → Bool} {bound : TimeBound}

/-- The bound holds of the times of a row. -/
def Holds (now : Int) (row : Row) (bound : TimeBound) : Prop :=
  ∃ a b, bound.larger.timeOn now row = some a ∧ bound.smaller.timeOn now row = some b ∧
    bound.comparison.Holds (a - b) bound.millis

theorem compared_holds {op : BinaryOp} {a b : TimeOperand} {x y : Int}
    (h : compared op a x b y = .ok (some bound)) :
    op.isComparison = true ∧ (bound.Holds now row ↔ ∃ s t, a.timeOn now row = some s ∧
      b.timeOn now row = some t ∧ op.OnTimes (s + x) (t + y)) := by
  unfold compared at h
  split at h <;> try obtain ⟨m, hm, h⟩ := bind_eq_ok.1 h
  all_goals cases h
  all_goals
    rw [Millis.eq_of_checked hm]
    refine ⟨rfl, ?_⟩
    simp only [Holds, BoundComparison.Holds, BinaryOp.OnTimes]
  -- the operands of `>` and `≥` change sides
  case h_1 | h_2 | h_5 =>
    refine exists_congr fun s => exists_congr fun t => and_congr_right fun _ =>
      and_congr_right fun _ => ?_
    omega
  all_goals
    constructor
    · rintro ⟨s, t, hs, ht, hst⟩
      exact ⟨t, s, ht, hs, by omega⟩
    · rintro ⟨s, t, hs, ht, hst⟩
      exact ⟨t, s, ht, hs, by omega⟩

/-- **The bound that an expression states** is what the expression means. -/
theorem ofExpr?_means (hrow : ∀ i, isCandidate i = true → row.Timed i) {e : Expr}
    (h : ofExpr? isCandidate e = .ok (some bound)) :
    Means (evalExpr now row e) (bound.Holds now row) := by
  obtain ⟨op, left, right, a, x, b, y, rfl, -, hl, hr, -, hc⟩ := ofExpr?_eq_ok.1 h
  obtain ⟨hop, hholds⟩ := @compared_holds now row _ _ _ _ _ _ hc
  refine ((hl.shows hrow).compare hop (hr.shows hrow)).congr ?_
  rw [hholds]
  simp only [Option.map_eq_some_iff]
  constructor
  · rintro ⟨_, _, ⟨s, hs, rfl⟩, ⟨t, ht, rfl⟩, hst⟩
    exact ⟨s, t, hs, ht, hst⟩
  · rintro ⟨s, t, hs, ht, hst⟩
    exact ⟨_, _, ⟨s, hs, rfl⟩, ⟨t, ht, rfl⟩, hst⟩

/-- **The expression of a bound** means the bound. -/
theorem expr_means (h : ∀ i ∈ bound.columns, row.Timed i) :
    Means (evalExpr now row bound.expr) (bound.Holds now row) := by
  have hl : Shows (evalExpr now row bound.larger.expr) (bound.larger.timeOn now row) :=
    TimeOperand.expr_shows fun i hi => h i (mem_columns.2 (.inl hi))
  have hs : Shows (evalExpr now row bound.smaller.expr) (bound.smaller.timeOn now row) :=
    TimeOperand.expr_shows fun i hi => h i (mem_columns.2 (.inr hi))
  have hright : Shows (evalExpr now row (if bound.millis = 0 then bound.smaller.expr
      else .binary .plus bound.smaller.expr (.interval bound.millis)))
      ((bound.smaller.timeOn now row).map (· + bound.millis)) := by
    split
    · rename_i h0
      simpa [h0] using hs
    · exact shows_plus hs bound.millis
  have hop : bound.comparison.op.isComparison = true := by cases bound.comparison <;> rfl
  refine (hl.compare hop hright).congr ?_
  simp only [Holds, Option.map_eq_some_iff]
  have hcompare : ∀ s t : Int, bound.comparison.op.OnTimes s (t + bound.millis) ↔
      bound.comparison.Holds (s - t) bound.millis := by
    intro s t
    cases bound.comparison <;> simp only [BoundComparison.op, BinaryOp.OnTimes,
      BoundComparison.Holds] <;> omega
  constructor
  · rintro ⟨s, _, hs, ⟨t, ht, rfl⟩, hst⟩
    exact ⟨s, t, hs, ht, (hcompare s t).1 hst⟩
  · rintro ⟨s, t, hs, ht, hst⟩
    exact ⟨s, _, hs, ⟨t, ht, rfl⟩, (hcompare s t).2 hst⟩

end TimeBound

namespace NowFilter

variable {filter : NowFilter}

/-- The now-filter keeps the row. -/
def Holds (now : Int) (row : Row) (filter : NowFilter) : Prop :=
  ∃ t, row.timeAt filter.timestamp = some t ∧
    filter.comparison.op.OnTimes t (now - filter.interval)

/-- **The now-filter that a bound states** says what the bound says. -/
theorem ofBound?_holds {bound : TimeBound} (h : ofBound? bound = .ok (some filter)) :
    filter.Holds now row ↔ bound.Holds now row := by
  obtain ⟨larger, smaller, comparison, millis⟩ := bound
  unfold ofBound? at h
  split at h <;> try obtain ⟨m, hm, h⟩ := bind_eq_ok.1 h
  all_goals cases h
  all_goals
    simp only at *
    subst_vars
    try rw [Millis.eq_of_checked hm]
    simp only [Holds, TimeBound.Holds, BoundComparison.Holds, NowComparison.op, BinaryOp.OnTimes,
      TimeOperand.timeOn]
    constructor
    · rintro ⟨t, ht, hlt⟩
      first
      | exact ⟨now, t, rfl, ht, by omega⟩
      | exact ⟨t, now, ht, rfl, by omega⟩
    · rintro ⟨a, b, ha, hb, hd⟩
      first
      | obtain rfl := Option.some.inj ha
        exact ⟨b, hb, by omega⟩
      | obtain rfl := Option.some.inj hb
        exact ⟨a, ha, by omega⟩

/-- **Two now-filters in one** say what both say. -/
theorem merge?_holds {a b : NowFilter} (h : a.merge? b = some filter) :
    filter.Holds now row ↔ a.Holds now row ∧ b.Holds now row := by
  obtain ⟨hts, hrec, rfl⟩ := merge?_eq_some h
  obtain ⟨ts, ca, ia⟩ := a
  obtain ⟨_, cb, ib⟩ := b
  cases hts
  have htime : ∀ f g : Int → Prop,
      (∃ t, row.timeAt ts = some t ∧ f t) ∧ (∃ t, row.timeAt ts = some t ∧ g t) ↔
        ∃ t, row.timeAt ts = some t ∧ f t ∧ g t := by
    intro f g
    constructor
    · rintro ⟨⟨t, ht, hf⟩, ⟨s, hs, hg⟩⟩
      rw [ht] at hs
      cases hs
      exact ⟨t, ht, hf, hg⟩
    · rintro ⟨t, ht, hf, hg⟩
      exact ⟨⟨t, ht, hf⟩, ⟨t, ht, hg⟩⟩
  -- of equal intervals the strict comparison is tighter, else the interval decides
  unfold tighter
  simp only [isRecent] at hrec ⊢
  rw [Holds, Holds, Holds, htime]
  split
  · rename_i he
    subst he
    cases ca <;> cases cb <;> simp only [NowComparison.isRecent, reduceCtorEq] at hrec <;>
      simp only [NowComparison.isStrict, NowComparison.op, BinaryOp.OnTimes, if_true,
        Bool.false_eq_true, if_false] <;>
      refine exists_congr fun t => and_congr_right fun _ => ?_ <;> omega
  · split <;> cases ca <;> cases cb <;>
      simp only [NowComparison.isRecent, Bool.true_eq_false, Bool.false_eq_true] at hrec <;>
      simp only [NowComparison.isRecent, NowComparison.op, BinaryOp.OnTimes, if_true,
        Bool.false_eq_true, if_false] <;>
      refine exists_congr fun t => and_congr_right fun _ => ?_ <;> omega

/-- The expression of a now-filter looks at its timestamp alone. -/
theorem evalExpr_eq (now : Int) (filter : NowFilter) (row : Row) :
    evalExpr now row filter.expr = (do
      let time ← evalExpr now row (.column filter.timestamp)
      let bound ← evalExpr now [] (.binary .minus .now (.interval filter.interval))
      filter.comparison.op.apply time bound) := by
  rw [expr, evalExpr]
  rfl

/-- **The expression of a now-filter** means the now-filter. -/
theorem expr_means (h : row.Timed filter.timestamp) :
    Means (evalExpr now row filter.expr) (filter.Holds now row) := by
  have hl : Shows (evalExpr now row (.column filter.timestamp)) (row.timeAt filter.timestamp) :=
    .inr (by rw [evalExpr, h.eq_ofTime]; rfl)
  have hnow : Shows (evalExpr now row .now) (some now) :=
    .inr (by rw [Expr.now, evalExpr]; rfl)
  have hop : filter.comparison.op.isComparison = true := by cases filter.comparison <;> rfl
  refine (hl.compare hop (shows_minus hnow filter.interval)).congr ?_
  simp [Holds]

end NowFilter

end StreamPlan
