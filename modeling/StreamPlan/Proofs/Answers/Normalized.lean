import StreamPlan.Proofs.Answers.Filter

/-!
# Time comparisons in their normal form

A comparison of times is written in many ways: with five operators, and with
lengths of time added and taken off on both sides. It is kept as a time bound,
and a bound to the current time as a now-filter. These are the same condition.

* `TimeBound.expr_inside`, `ofExpr?_inside`: an expression that has a value has
  the columns of its bound in the row.
* `TimeBound.normal_forms_same_rows`: **the normal forms keep the meaning.** A comparison is
  true on a row if its bound is, and if its now-filter is, as long as no
  evaluation leaves 64 bits. A time that is null satisfies none of them.
-/

namespace StreamPlan

variable {now : Int} {row : Row}

/-- A condition that does not leave 64 bits is true where it means to be. -/
theorem Means.trueOn {e : Expr} {p : Prop} (h : Means (evalExpr now row e) p)
    (hfits : ¬Overflows (evalExpr now row e)) : trueOn now e row = true ↔ p := by
  obtain ⟨v, hv, hp⟩ := h.resolve_left hfits
  rw [trueOn_of_ok hv, hp]

/-- Both operands of an operator that has a value have values. -/
theorem operands_of_evalExpr {op : BinaryOp} {left right : Expr} {v : Value}
    (h : evalExpr now row (.binary op left right) = .ok v) :
    (∃ l, evalExpr now row left = .ok l) ∧ ∃ r, evalExpr now row right = .ok r := by
  rw [evalExpr] at h
  obtain ⟨l, hl, h⟩ := bind_eq_ok.1 h
  obtain ⟨r, hr, -⟩ := bind_eq_ok.1 h
  exact ⟨⟨l, hl⟩, ⟨r, hr⟩⟩

theorem inside_of_evalExpr {i : Nat} {v : Value} (h : evalExpr now row (.column i) = .ok v) :
    row[i]? = some v := by
  rw [evalExpr] at h
  split at h
  · cases h
    assumption
  · cases h

namespace TimeBound

variable {isCandidate : Nat → Bool} {bound : TimeBound} {e : Expr} {v : Value}

/-- The row has the column of a time operand that has a value. -/
theorem Reads.inside {operand : TimeOperand} {i : Nat} {x : Int} {v : Value}
    (h : Reads isCandidate e operand x) (hi : operand = .column i) (hv : evalExpr now row e = .ok v) :
    ∃ w, row[i]? = some w := by
  induction h generalizing v with
  | column =>
    cases hi
    exact ⟨v, inside_of_evalExpr hv⟩
  | now => cases hi
  | plus _ _ ih | minus _ _ _ ih =>
    obtain ⟨⟨l, hl⟩, -⟩ := operands_of_evalExpr hv
    exact ih hi hl

/-- The row has the columns of the bound. -/
def Inside (row : Row) (bound : TimeBound) : Prop := ∀ i ∈ bound.columns, ∃ w, row[i]? = some w

/-- The row has the columns of a comparison that has a value. -/
theorem ofExpr?_inside (h : ofExpr? isCandidate e = .ok (some bound))
    (hv : evalExpr now row e = .ok v) : bound.Inside row := by
  obtain ⟨op, left, right, a, x, b, y, rfl, -, hl, hr, -, hc⟩ := ofExpr?_eq_ok.1 h
  obtain ⟨⟨_, hleft⟩, ⟨_, hright⟩⟩ := operands_of_evalExpr hv
  intro i hi
  rcases (mem_columns_of_compared hc).1 hi with rfl | rfl
  · exact hl.inside rfl hleft
  · exact hr.inside rfl hright

/-- The row has the columns of a bound whose expression has a value. -/
theorem expr_inside (hv : evalExpr now row bound.expr = .ok v) : bound.Inside row := by
  obtain ⟨⟨l, hl⟩, ⟨r, hr⟩⟩ := operands_of_evalExpr hv
  have hsmaller : ∃ w, evalExpr now row bound.smaller.expr = .ok w := by
    split at hr
    · exact ⟨r, hr⟩
    · exact (operands_of_evalExpr hr).1
  obtain ⟨w, hw⟩ := hsmaller
  intro i hi
  rcases mem_columns.1 hi with hi | hi
  · rw [hi] at hl
    exact ⟨l, inside_of_evalExpr hl⟩
  · rw [hi] at hw
    exact ⟨w, inside_of_evalExpr hw⟩

/-- The row has the columns of a bound that holds on it. -/
theorem Holds.inside (h : bound.Holds now row) : bound.Inside row := by
  obtain ⟨a, b, hlarger, hsmaller, -⟩ := h
  intro i hi
  rcases mem_columns.1 hi with hi | hi
  · rw [hi] at hlarger
    exact ⟨_, Row.timeAt_eq_some.1 hlarger⟩
  · rw [hi] at hsmaller
    exact ⟨_, Row.timeAt_eq_some.1 hsmaller⟩

/-- A now-filter is on the column of its bound. -/
theorem columns_of_ofBound? {filter : NowFilter} (h : NowFilter.ofBound? bound = .ok (some filter)) :
    bound.columns = [filter.timestamp] := by
  obtain ⟨larger, smaller, comparison, millis⟩ := bound
  unfold NowFilter.ofBound? at h
  split at h <;> try obtain ⟨m, hm, h⟩ := bind_eq_ok.1 h
  all_goals cases h
  all_goals
    simp only at *
    subst_vars
    rfl

/-- The row has the column of a now-filter whose expression has a value. -/
theorem filter_inside {filter : NowFilter} (h : NowFilter.ofBound? bound = .ok (some filter))
    (hv : evalExpr now row filter.expr = .ok v) : bound.Inside row := by
  obtain ⟨⟨t, ht⟩, -⟩ := operands_of_evalExpr hv
  intro i hi
  rw [columns_of_ofBound? h, List.mem_singleton] at hi
  exact ⟨t, hi ▸ inside_of_evalExpr ht⟩

/-- An expression that means a bound wherever the row has its columns is true where
the bound holds, as it has no value elsewhere. -/
theorem trueOn_iff_holds (hin : ∀ v, evalExpr now row e = .ok v → bound.Inside row)
    (hmeans : bound.Inside row → Means (evalExpr now row e) (bound.Holds now row))
    (hfits : ¬Overflows (evalExpr now row e)) :
    trueOn now e row = true ↔ bound.Holds now row := by
  constructor
  · intro htrue
    obtain ⟨v, hv, -⟩ := trueOn_iff.1 htrue
    exact ((hmeans (hin v hv)).trueOn hfits).1 htrue
  · intro hholds
    exact ((hmeans hholds.inside).trueOn hfits).2 hholds

/-- **The normal forms of a time comparison keep its meaning.** Let the candidates
that a row has be times or null. Unless an evaluation leaves 64 bits, the
comparison is true on the row if its bound is, and if its now-filter is. -/
theorem normal_forms_same_rows (h : ofExpr? isCandidate e = .ok (some bound)) (now : Int)
    (hrow : ∀ i v, isCandidate i = true → row[i]? = some v → v.IsTime)
    (hfits : ¬Overflows (evalExpr now row e)) :
    (¬Overflows (evalExpr now row bound.expr) →
      (trueOn now e row = true ↔ trueOn now bound.expr row = true)) ∧
    ∀ filter, NowFilter.ofBound? bound = .ok (some filter) →
      ¬Overflows (evalExpr now row filter.expr) →
      (trueOn now e row = true ↔ trueOn now filter.expr row = true) := by
  have htimed : bound.Inside row → ∀ i ∈ bound.columns, row.Timed i := by
    intro hinside i hi
    obtain ⟨v, hv⟩ := hinside i hi
    exact ⟨v, hv, hrow i v (candidate_of_ofExpr? h i hi) hv⟩
  -- the candidates that matter are the columns of the bound
  have hown : ofExpr? (fun i => decide (i ∈ bound.columns)) e = .ok (some bound) :=
    ofExpr?_among h fun i hi => decide_eq_true hi
  have hwritten : trueOn now e row = true ↔ bound.Holds now row :=
    trueOn_iff_holds (fun v hv => ofExpr?_inside h hv)
      (fun hin => ofExpr?_means (fun i hi => htimed hin i (of_decide_eq_true hi)) hown) hfits
  refine ⟨fun hbound => ?_, fun filter hfilter hnow => ?_⟩
  · rw [hwritten]
    exact (trueOn_iff_holds (fun v hv => expr_inside hv) (fun hin => expr_means (htimed hin))
      hbound).symm
  · rw [hwritten]
    refine (trueOn_iff_holds (fun v hv => filter_inside hfilter hv) (fun hin => ?_) hnow).symm
    have htime : row.Timed filter.timestamp :=
      htimed hin _ (by rw [columns_of_ofBound? hfilter]; exact List.mem_singleton_self _)
    exact (NowFilter.expr_means htime).congr (NowFilter.ofBound?_holds hfilter)

/-- Whether a time, 20 ms later less 5 ms, is later than 10 ms ago. -/
def lateness : Expr :=
  .binary .lt (.binary .minus .now (.interval 10))
    (.binary .minus (.binary .plus (.column 0) (.interval 20)) (.interval 5))

/-- That is whether the time is later than 25 ms ago. -/
theorem lateness_same_rows :
    ofExpr? (· == 0) lateness = .ok (some ⟨.now, .column 0, .lt, 25⟩) ∧
      NowFilter.ofBound? ⟨.now, .column 0, .lt, 25⟩ = .ok (some ⟨0, .gt, 25⟩) ∧
      (trueOn 100 lateness [.timestamp 80] = true ↔
        trueOn 100 (TimeBound.expr ⟨.now, .column 0, .lt, 25⟩) [.timestamp 80] = true) ∧
      (trueOn 100 lateness [.timestamp 80] = true ↔
        trueOn 100 (NowFilter.expr ⟨0, .gt, 25⟩) [.timestamp 80] = true) := by
  have hstated : ofExpr? (· == 0) lateness = .ok (some ⟨.now, .column 0, .lt, 25⟩) := rfl
  have hfilter : NowFilter.ofBound? ⟨.now, .column 0, .lt, 25⟩ = .ok (some ⟨0, .gt, 25⟩) := rfl
  have hrow : ∀ i v, (i == 0) = true → [Value.timestamp 80][i]? = some v → v.IsTime := by
    intro i v hi hv
    rw [beq_iff_eq.1 hi] at hv
    exact .inr ⟨80, (Option.some.inj hv).symm⟩
  obtain ⟨hbound, hnow⟩ := normal_forms_same_rows hstated 100 hrow (not_overflows (v := .boolean true) rfl)
  exact ⟨hstated, hfilter, hbound (not_overflows (v := .boolean true) rfl),
    hnow _ hfilter (not_overflows (v := .boolean true) rfl)⟩

end TimeBound

end StreamPlan
