import StreamPlan.EventTime.NowFilter
import StreamPlan.Proofs.Query.Expr

/-!
# Time bounds without overflow

The milliseconds of a bound are made of the lengths of time that its expression
mentions, so no step leaves 64 bits unless these lengths do so together.

* `Millis.checked_bounded`: an exact result that fits.
* `TimeBound.ofExpr?_bounded`: the bound of an expression is between candidates
  and the current time, and no longer than what the expression mentions.
* `TimeBound.Reads`, `ofExpr?_eq_ok`: which expressions state a bound.
* `TimeBound.ofExpr?_among`, `ofExpr?_mono`: with other candidates, it is the same
  bound, if its own columns are among them.
* `NowFilter.ofBound?_bounded`, `widen_bounded`: the interval of a now-filter.
-/

namespace StreamPlan

variable {allowed : Fault → Prop} {n : Nat}

namespace Millis

/-- An exact result is out of range only if what it is made of can leave 64 bits. -/
theorem checked_bounded {x : Int} (hx : x.natAbs ≤ n)
    (hl : greatest < n → allowed .arithmeticOverflow) :
    Bounded allowed (checked x) fun y => y = x := by
  unfold checked
  split
  · exact .ok rfl
  · rename_i hfit
    refine ⟨fun f hf => ?_, fun a ha => by cases ha⟩
    cases hf
    refine hl ?_
    simp only [Fits, least, greatest] at hfit ⊢
    omega

theorem add_bounded {x y : Int} (h : x.natAbs + y.natAbs ≤ n)
    (hl : greatest < n → allowed .arithmeticOverflow) :
    Bounded allowed (add x y) fun z => z.natAbs ≤ n :=
  (checked_bounded (n := n) (by omega) hl).mono fun z hz => by omega

theorem sub_bounded {x y : Int} (h : x.natAbs + y.natAbs ≤ n)
    (hl : greatest < n → allowed .arithmeticOverflow) :
    Bounded allowed (sub x y) fun z => z.natAbs ≤ n :=
  (checked_bounded (n := n) (by omega) hl).mono fun z hz => by omega

theorem neg_bounded {x : Int} (h : x.natAbs ≤ n)
    (hl : greatest < n → allowed .arithmeticOverflow) :
    Bounded allowed (neg x) fun z => z.natAbs ≤ n :=
  (checked_bounded (n := n) (by omega) hl).mono fun z hz => by omega

end Millis

theorem TimeOperand.mem_column? {operand : TimeOperand} {i : Nat} :
    i ∈ operand.column?.toList ↔ operand = .column i := by
  cases operand <;> simp [column?, eq_comm]

namespace TimeBound

variable {isCandidate : Nat → Bool}

/-- A time operand of an expression with the milliseconds added to it. -/
def IsOperandOf (isCandidate : Nat → Bool) (n : Nat) (operand : TimeOperand) (millis : Int) : Prop :=
  millis.natAbs ≤ n ∧ ∀ i, operand = .column i → isCandidate i = true

theorem operand?_bounded (e : Expr) (hl : Millis.greatest < e.span → allowed .arithmeticOverflow) :
    Bounded allowed (operand? isCandidate e) fun o =>
      ∀ operand millis, o = some (operand, millis) → IsOperandOf isCandidate e.span operand millis := by
  induction e using operand?.induct with
  | case1 i =>
    unfold operand?
    refine .ok ?_
    split
    · rename_i hi
      rintro _ _ ⟨⟩
      exact ⟨by simp, by rintro _ ⟨⟩; exact hi⟩
    · rintro _ _ ⟨⟩
  | case2 function args =>
    unfold operand?
    refine .ok ?_
    split
    · rintro _ _ ⟨⟩
      exact ⟨by simp, by rintro _ ⟨⟩⟩
    · rintro _ _ ⟨⟩
  | case3 left millis ih =>
    have hspan : (Expr.binary .plus left (.literal (.interval millis))).span =
        left.span + millis.natAbs := by simp [Expr.span]
    rw [hspan] at hl ⊢
    unfold operand?
    refine (ih fun h => hl (by omega)).bind fun o ho => ?_
    rcases o with _ | ⟨operand, inner⟩
    · exact .ok (by rintro _ _ ⟨⟩)
    · obtain ⟨hn, hc⟩ := ho _ _ rfl
      refine (Millis.add_bounded (by omega) hl).bind fun z hz => ?_
      exact .ok (by rintro _ _ ⟨⟩; exact ⟨hz, hc⟩)
  | case4 left millis ih =>
    have hspan : (Expr.binary .minus left (.literal (.interval millis))).span =
        left.span + millis.natAbs := by simp [Expr.span]
    rw [hspan] at hl ⊢
    unfold operand?
    refine (ih fun h => hl (by omega)).bind fun o ho => ?_
    rcases o with _ | ⟨operand, inner⟩
    · exact .ok (by rintro _ _ ⟨⟩)
    · obtain ⟨hn, hc⟩ := ho _ _ rfl
      -- the interval is negated before it is added, and either may overflow
      refine (Millis.neg_bounded (n := millis.natAbs) (by omega)
        fun h => hl (by omega)).bind fun m hm => ?_
      refine (Millis.add_bounded (by omega) hl).bind fun z hz => ?_
      exact .ok (by rintro _ _ ⟨⟩; exact ⟨hz, hc⟩)
  | case5 e h1 h2 h3 h4 =>
    unfold operand?
    split
    · exact absurd rfl (h1 _)
    · exact absurd rfl (h2 _ _)
    · exact absurd rfl (h3 _ _)
    · exact absurd rfl (h4 _ _)
    · exact .ok (by rintro _ _ ⟨⟩)

/-- A bound over candidates that is no longer than `n`. -/
def IsBoundOf (isCandidate : Nat → Bool) (n : Nat) (bound : TimeBound) : Prop :=
  bound.millis.natAbs ≤ n ∧ (∀ i, bound.larger = .column i → isCandidate i = true) ∧
    ∀ i, bound.smaller = .column i → isCandidate i = true

theorem compared_bounded {op : BinaryOp} {a b : TimeOperand} {x y : Int}
    (ha : IsOperandOf isCandidate (n - y.natAbs) a x) (hb : ∀ i, b = .column i → isCandidate i = true)
    (hn : x.natAbs + y.natAbs ≤ n) (hl : Millis.greatest < n → allowed .arithmeticOverflow) :
    Bounded allowed (compared op a x b y) fun o =>
      ∀ bound, o = some bound → IsBoundOf isCandidate n bound := by
  have hyx := Millis.sub_bounded (x := y) (y := x) (n := n) (by omega) hl
  have hxy := Millis.sub_bounded (x := x) (y := y) (n := n) (by omega) hl
  unfold compared
  split
  · exact hyx.bind fun z hz => .ok (by rintro _ ⟨⟩; exact ⟨hz, ha.2, hb⟩)
  · exact hyx.bind fun z hz => .ok (by rintro _ ⟨⟩; exact ⟨hz, ha.2, hb⟩)
  · exact hxy.bind fun z hz => .ok (by rintro _ ⟨⟩; exact ⟨hz, hb, ha.2⟩)
  · exact hxy.bind fun z hz => .ok (by rintro _ ⟨⟩; exact ⟨hz, hb, ha.2⟩)
  · exact hyx.bind fun z hz => .ok (by rintro _ ⟨⟩; exact ⟨hz, ha.2, hb⟩)
  · exact .ok (by rintro _ ⟨⟩)

/-- **The bound of an expression** is over candidates and the current time, and
no longer than the lengths of time that the expression mentions. -/
theorem ofExpr?_bounded (e : Expr) (hl : Millis.greatest < e.span → allowed .arithmeticOverflow) :
    Bounded allowed (ofExpr? isCandidate e) fun o =>
      ∀ bound, o = some bound → IsBoundOf isCandidate e.span bound := by
  unfold ofExpr?
  split
  · rename_i op left right
    split
    · exact .ok (by rintro _ ⟨⟩)
    · simp only [Expr.span] at hl ⊢
      refine (operand?_bounded left fun h => hl (by omega)).bind fun o ho => ?_
      rcases o with _ | ⟨a, x⟩
      · exact .ok (by rintro _ ⟨⟩)
      refine (operand?_bounded right fun h => hl (by omega)).bind fun o' ho' => ?_
      rcases o' with _ | ⟨b, y⟩
      · exact .ok (by rintro _ ⟨⟩)
      obtain ⟨hx, hca⟩ := ho _ _ rfl
      obtain ⟨hy, hcb⟩ := ho' _ _ rfl
      simp only
      split
      · exact .ok (by rintro _ ⟨⟩)
      · exact compared_bounded ⟨by omega, hca⟩ hcb (by omega) hl
  · exact .ok (by rintro _ ⟨⟩)

variable {bound : TimeBound} {other : Nat → Bool} {e : Expr} {operand : TimeOperand} {millis : Int}

/-- An expression that reads as a time operand with milliseconds added to it. -/
inductive Reads (isCandidate : Nat → Bool) : Expr → TimeOperand → Int → Prop where
  | column {i : Nat} (candidate : isCandidate i = true) :
      Reads isCandidate (.column i) (.column i) 0
  | now {function : ScalarFunction} {args : List Expr} (isNow : function.isNow = true) :
      Reads isCandidate (.call function args) .now 0
  | plus {left : Expr} {operand : TimeOperand} {inner m sum : Int}
      (left_reads : Reads isCandidate left operand inner) (added : Millis.add inner m = .ok sum) :
      Reads isCandidate (.binary .plus left (.interval m)) operand sum
  | minus {left : Expr} {operand : TimeOperand} {inner m negated sum : Int}
      (left_reads : Reads isCandidate left operand inner) (turned : Millis.neg m = .ok negated)
      (added : Millis.add inner negated = .ok sum) :
      Reads isCandidate (.binary .minus left (.interval m)) operand sum

theorem reads_of_operand? (h : operand? isCandidate e = .ok (some (operand, millis))) :
    Reads isCandidate e operand millis := by
  induction e using operand?.induct generalizing operand millis with
  | case1 i =>
    rw [operand?] at h
    split at h
    · rename_i hi
      cases h
      exact .column hi
    · cases h
  | case2 function args =>
    rw [operand?] at h
    split at h
    · rename_i hnow
      cases h
      exact .now hnow
    · cases h
  | case3 left m ih =>
    rw [operand?] at h
    obtain ⟨o, ho, h⟩ := bind_eq_ok.1 h
    rcases o with _ | ⟨inner, x⟩
    · cases h
    · obtain ⟨sum, hsum, h⟩ := bind_eq_ok.1 h
      cases h
      exact .plus (ih ho) hsum
  | case4 left m ih =>
    rw [operand?] at h
    obtain ⟨o, ho, h⟩ := bind_eq_ok.1 h
    rcases o with _ | ⟨inner, x⟩
    · cases h
    · obtain ⟨negated, hneg, h⟩ := bind_eq_ok.1 h
      obtain ⟨sum, hsum, h⟩ := bind_eq_ok.1 h
      cases h
      exact .minus (ih ho) hneg hsum
  | case5 e h1 h2 h3 h4 =>
    rw [operand?] at h
    · cases h
    all_goals assumption

theorem operand?_of_reads (h : Reads isCandidate e operand millis) :
    operand? isCandidate e = .ok (some (operand, millis)) := by
  induction h with
  | column hi =>
    rw [operand?, if_pos hi]
    rfl
  | now hnow =>
    rw [operand?, if_pos hnow]
    rfl
  | plus _ hsum ih =>
    rw [Expr.interval, operand?, ih, ok_bind]
    simp only [hsum, ok_bind]
    rfl
  | minus _ hneg hsum ih =>
    rw [Expr.interval, operand?, ih, ok_bind]
    simp only [hneg, hsum, ok_bind]
    rfl

/-- An expression states a bound if it compares two different time operands. -/
theorem ofExpr?_eq_ok : ofExpr? isCandidate e = .ok (some bound) ↔
    ∃ op left right a x b y, e = .binary op left right ∧ op.isComparison = true ∧
      Reads isCandidate left a x ∧ Reads isCandidate right b y ∧ a ≠ b ∧
      compared op a x b y = .ok (some bound) := by
  constructor
  · intro h
    cases e with
    | binary op left right =>
      rw [ofExpr?] at h
      split at h
      · cases h
      · rename_i hop
        obtain ⟨l, hl, h⟩ := bind_eq_ok.1 h
        rcases l with _ | ⟨a, x⟩
        · cases h
        · obtain ⟨r, hr, h⟩ := bind_eq_ok.1 h
          rcases r with _ | ⟨b, y⟩
          · cases h
          · simp only at h
            split at h
            · cases h
            · rename_i hne
              exact ⟨op, left, right, a, x, b, y, rfl, by simpa using hop, reads_of_operand? hl,
                reads_of_operand? hr, hne, h⟩
    | _ => rw [ofExpr?] at h <;> cases h
  · rintro ⟨op, left, right, a, x, b, y, rfl, hop, hl, hr, hne, h⟩
    rw [ofExpr?, hop, operand?_of_reads hl, operand?_of_reads hr]
    simp only [Bool.not_true, Bool.false_eq_true, if_false, ok_bind, if_neg hne]
    exact h

theorem compared_operands {op : BinaryOp} {a b : TimeOperand} {x y : Int}
    (h : compared op a x b y = .ok (some bound)) :
    bound.larger = a ∧ bound.smaller = b ∨ bound.larger = b ∧ bound.smaller = a := by
  unfold compared at h
  split at h <;> try obtain ⟨m, -, h⟩ := bind_eq_ok.1 h
  all_goals cases h
  all_goals simp

/-- The columns of a bound are its operands. -/
theorem mem_columns {i : Nat} :
    i ∈ bound.columns ↔ bound.larger = .column i ∨ bound.smaller = .column i := by
  rw [columns, List.mem_append, TimeOperand.mem_column?, TimeOperand.mem_column?]

theorem mem_columns_of_compared {op : BinaryOp} {a b : TimeOperand} {x y : Int}
    (h : compared op a x b y = .ok (some bound)) {i : Nat} :
    i ∈ bound.columns ↔ a = .column i ∨ b = .column i := by
  rw [mem_columns]
  rcases compared_operands h with ⟨rfl, rfl⟩ | ⟨rfl, rfl⟩
  · exact Iff.rfl
  · exact or_comm

/-- The columns of the bound that an expression states are candidates. -/
theorem candidate_of_ofExpr? (h : ofExpr? isCandidate e = .ok (some bound)) :
    ∀ i ∈ bound.columns, isCandidate i = true := by
  have hbounded : Bounded (fun _ => True) (ofExpr? isCandidate e) _ :=
    ofExpr?_bounded e fun _ => trivial
  obtain ⟨-, hlarger, hsmaller⟩ := hbounded.2 _ h bound rfl
  intro i hi
  exact (mem_columns.1 hi).elim (hlarger i) (hsmaller i)

/-- An operand is the same one among any columns with its own. -/
theorem Reads.among (h : Reads isCandidate e operand millis)
    (ho : ∀ i, operand = .column i → other i = true) : Reads other e operand millis := by
  induction h with
  | column _ => exact .column (ho _ rfl)
  | now hnow => exact .now hnow
  | plus _ hsum ih => exact .plus (ih ho) hsum
  | minus _ hneg hsum ih => exact .minus (ih ho) hneg hsum

/-- A bound is the same one among any columns with its own. -/
theorem ofExpr?_among (h : ofExpr? isCandidate e = .ok (some bound))
    (ho : ∀ i ∈ bound.columns, other i = true) : ofExpr? other e = .ok (some bound) := by
  obtain ⟨op, left, right, a, x, b, y, rfl, hop, hl, hr, hne, hc⟩ := ofExpr?_eq_ok.1 h
  have hcolumns : ∀ i, a = .column i ∨ b = .column i → other i = true :=
    fun i hi => ho i ((mem_columns_of_compared hc).2 hi)
  exact ofExpr?_eq_ok.2 ⟨op, left, right, a, x, b, y, rfl, hop,
    hl.among fun i hi => hcolumns i (.inl hi), hr.among fun i hi => hcolumns i (.inr hi), hne, hc⟩

/-- A bound between some columns is one between more columns. -/
theorem ofExpr?_mono {fewer more : Nat → Bool} (hm : ∀ i, fewer i = true → more i = true)
    (h : ofExpr? fewer e = .ok (some bound)) : ofExpr? more e = .ok (some bound) :=
  ofExpr?_among h fun i hi => hm i (candidate_of_ofExpr? h i hi)

end TimeBound

namespace NowFilter

/-- The now-filter of a bound is on the bound's column and as long as the bound. -/
theorem ofBound?_bounded {bound : TimeBound} (hn : bound.millis.natAbs ≤ n)
    (hl : Millis.greatest < n → allowed .arithmeticOverflow) :
    Bounded allowed (ofBound? bound) fun o => ∀ filter, o = some filter →
      filter.interval.natAbs ≤ n ∧
        (bound.larger = .column filter.timestamp ∨ bound.smaller = .column filter.timestamp) := by
  have hneg := Millis.neg_bounded (n := n) hn hl
  unfold ofBound?
  split
  · exact .ok (by rintro _ ⟨⟩)
  · rename_i ts h1 h2 h3
    exact .ok (by rintro _ ⟨⟩; exact ⟨hn, .inr h3⟩)
  · rename_i ts h1 h2 h3
    exact .ok (by rintro _ ⟨⟩; exact ⟨hn, .inr h3⟩)
  · rename_i ts h1 h2 h3
    exact hneg.bind fun z hz => .ok (by rintro _ ⟨⟩; exact ⟨hz, .inl h2⟩)
  · rename_i ts h1 h2 h3
    exact hneg.bind fun z hz => .ok (by rintro _ ⟨⟩; exact ⟨hz, .inl h2⟩)
  · exact .ok (by rintro _ ⟨⟩)

theorem widen_bounded {filter : NowFilter} {millis : Int}
    (hn : filter.interval.natAbs + millis.natAbs ≤ n) (hl : Millis.greatest < n → allowed .arithmeticOverflow) :
    Bounded allowed (filter.widen millis) fun out =>
      out.timestamp = filter.timestamp ∧ out.interval.natAbs ≤ n := by
  unfold widen
  simp only
  split
  · exact (Millis.add_bounded hn hl).bind fun z hz => .ok ⟨rfl, hz⟩
  · exact (Millis.sub_bounded hn hl).bind fun z hz => .ok ⟨rfl, hz⟩

/-- The tighter of two now-filters is one of them. -/
theorem tighter_eq (a b : NowFilter) : a.tighter b = a ∨ a.tighter b = b := by
  unfold tighter
  split
  · split <;> simp
  · split
    · split <;> simp
    · split <;> simp

theorem merge?_eq_some {a b out : NowFilter} (h : a.merge? b = some out) :
    a.timestamp = b.timestamp ∧ a.isRecent = b.isRecent ∧ out = a.tighter b := by
  unfold merge? at h
  split at h
  · rename_i hc
    cases h
    exact ⟨hc.1, hc.2, rfl⟩
  · cases h

end NowFilter

end StreamPlan
