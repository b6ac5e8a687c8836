import StreamPlan.Proofs.Answers.Filter
import StreamPlan.Proofs.Plan.Join
import StreamPlan.Proofs.Rows.JoinCondition

/-!
# Conditions of planned joins

A join by time and a join within a bounded time are planned with conditions of
their own, put together from the parts of the written one.

* `Replaces`: a condition on a row in the place of the written one.
* `JoinInputs.TemporalSides.replaces`, `replaces_swapped`: the equalities of a join
  by time, with the sides as written and swapped.
* `JoinInputs.ClosedWindow.trueOn_condition`, `replaces`: the condition of a join within
  a window. The bound of the open side excludes no pair of times within it.
-/

namespace StreamPlan

variable {now : Int} {row other : Row} {condition rebuilt : Expr}

/-- A condition that has a value on a row is true there where the written one is,
unless that leaves 64 bits. -/
def Replaces (now : Int) (condition : Expr) (row : Row) (rebuilt : Expr) (other : Row) : Prop :=
  Overflows (evalExpr now row condition) ∨
    (∃ v, evalExpr now row condition = .ok v) ∧
      trueOn now condition row = trueOn now rebuilt other

theorem Means.replaces {p : Prop} (h : Means (evalExpr now row condition) p)
    (hp : p ↔ trueOn now rebuilt other = true) : Replaces now condition row rebuilt other := by
  rcases h with he | ⟨v, hv, htrue⟩
  · exact .inl he
  · refine .inr ⟨⟨v, hv⟩, ?_⟩
    rw [trueOn_of_ok hv, Bool.eq_iff_iff, htrue, hp]

/-- A condition that has a value replaces itself. -/
theorem replaces_self (h : ∃ v, evalExpr now row condition = .ok v) :
    Replaces now condition row condition row := .inr ⟨h, rfl⟩

namespace TimeBound

variable {bound : TimeBound} {isCandidate : Nat → Bool}

/-- The column of a moved time operand is a moved column. -/
theorem Reads.of_remap {f : Nat → Except Fault Nat} {e e' : Expr} {operand : TimeOperand} {a : Nat}
    {x : Int} (he : e.remap f = .ok e') (h : Reads isCandidate e' operand x)
    (ha : operand = .column a) : ∃ i, f i = .ok a := by
  induction h generalizing e with
  | column =>
    cases ha
    cases Expr.remap_cases he with
    | column hi => exact ⟨_, hi⟩
  | now => cases ha
  | plus _ _ ih | minus _ _ _ ih =>
    cases Expr.remap_cases he with
    | binary hl _ => exact ih hl ha

/-- The columns of the bound that a moved expression states are moved columns. -/
theorem ofExpr?_of_remap {f : Nat → Except Fault Nat} {e e' : Expr} (he : e.remap f = .ok e')
    (h : ofExpr? isCandidate e' = .ok (some bound)) : ∀ a ∈ bound.columns, ∃ i, f i = .ok a := by
  obtain ⟨op, left, right, p, x, q, y, rfl, -, hl, hr, -, hc⟩ := ofExpr?_eq_ok.1 h
  intro a ha
  cases Expr.remap_cases he with
  | binary hleft hright =>
    rcases (mem_columns_of_compared hc).1 ha with rfl | rfl
    · exact hl.of_remap hleft rfl
    · exact hr.of_remap hright rfl

/-- The two times of a bound are at most `millis` apart, as far as its inverse says. -/
def Within (now : Int) (row : Row) (millis : Int) (bound : TimeBound) : Prop :=
  ∀ s t, bound.larger.timeOn now row = some s → bound.smaller.timeOn now row = some t →
    t - s ≤ millis

/-- The inverse of a bound that holds excludes no times within it. -/
theorem Within.inverse {millis : Int} (h : bound.Within now row millis) (hb : bound.Holds now row) :
    (bound.inverse millis).Holds now row := by
  obtain ⟨s, t, hs, ht, -⟩ := hb
  exact ⟨t, s, ht, hs, h s t hs ht⟩

end TimeBound

namespace TimeWindow

variable {leftWidth : Nat} {window out : TimeWindow} {bounds : List TimeBound}

/-- The sides of a window come from bounds. -/
def From (bounds : List TimeBound) (window : TimeWindow) : Prop :=
  ∀ bound value, window.lower = some (bound, value) ∨ window.upper = some (bound, value) →
    bound ∈ bounds

theorem From.place {bound : TimeBound} {rightLarger : Bool} {value : Int} (hw : window.From bounds)
    (hb : bound ∈ bounds) (h : place window bound rightLarger value = .ok out) : out.From bounds := by
  unfold TimeWindow.place at h
  split at h
  · split at h
    · cases h
    · cases h
      rintro b v (hb' | hb') <;> cases hb' <;> exact hb
  · split at h
    · split at h
      · cases h
      · cases h
        rintro b v (hb' | hb')
        · exact hw b v (.inl hb')
        · cases hb'
          exact hb
    · split at h
      · cases h
      · cases h
        rintro b v (hb' | hb')
        · cases hb'
          exact hb
        · exact hw b v (.inr hb')

theorem From.add {bound : TimeBound} (hw : window.From bounds) (hb : bound ∈ bounds)
    (h : add leftWidth window bound = .ok out) : out.From bounds := by
  unfold TimeWindow.add at h
  split at h
  · rename_i a b _ _
    simp only [decide_eq_true_eq] at h
    generalize (if leftWidth ≤ a then (b, a) else (a, b)) = columns at h
    split at h
    · exact absurd h refuse_ne_ok
    · obtain ⟨value, -, h⟩ := bind_eq_ok.1 h
      refine From.place ?_ hb (orRefuse_eq_ok.1 h)
      exact hw
  · exact absurd h refuse_ne_ok

/-- **The window of bounds** takes its sides from them. -/
theorem from_of_ofBounds (h : ofBounds bounds leftWidth = .ok window) : window.From bounds := by
  unfold ofBounds at h
  obtain ⟨found, hfound, h⟩ := bind_eq_ok.1 h
  have hsafe : Safe (fun _ => True) (bounds.foldlM (TimeWindow.add leftWidth) none) (From bounds) :=
    Safe.foldlM (by rintro b v (hb | hb) <;> cases hb) fun w b hb hw =>
      ⟨fun _ _ => trivial, fun out hout => hw.add hb hout⟩
  split at h
  · exact absurd h refuse_ne_ok
  · cases h
    exact hsafe.2 _ hfound

end TimeWindow

namespace JoinInputs

variable {j : JoinInputs}

/-- **The bounds of a window** are the written ones, maybe with the inverse of one of
them. -/
theorem bounds_of_closedWindow {window : ClosedWindow} (hw : j.parts.timeBounds ≠ [])
    (h : j.closedWindow = .ok window) :
    window.bounds = j.parts.timeBounds ∨ ∃ b ∈ j.parts.timeBounds,
      window.bounds = j.parts.timeBounds ++ [b.inverse unboundedMillis] := by
  unfold closedWindow at h
  obtain ⟨⟨bounds, rootKeys⟩, hwritten, h⟩ := bind_eq_ok.1 h
  obtain ⟨found, hfound, h⟩ := bind_eq_ok.1 h
  obtain rfl : bounds = j.parts.timeBounds := by
    unfold writtenBounds at hwritten
    split at hwritten
    · exact absurd hwritten refuse_ne_ok
    · rw [if_pos (by simpa using hw)] at hwritten
      cases hwritten
      rfl
  have hfrom := TimeWindow.from_of_ofBounds hfound
  unfold close at h
  split at h
  · cases h
    exact .inl rfl
  · rename_i bound lower _ hlower _
    cases h
    exact .inr ⟨bound, hfrom bound lower (.inl hlower), rfl⟩
  · rename_i bound upper _ _ hupper
    cases h
    exact .inr ⟨bound, hfrom bound upper (.inr hupper), rfl⟩
  · exact absurd h refuse_ne_ok

variable {leftWidth : Nat} {isTimestamp : Nat → Bool}

/-- The columns of a written time bound are times. -/
theorem timed_of_bound {parts : JoinCondition} (hrow : ∀ i, isTimestamp i = true → row.Timed i)
    (hparts : JoinCondition.ofExpr condition leftWidth isTimestamp = .ok parts) :
    ∀ b ∈ parts.timeBounds, ∀ i ∈ b.columns, row.Timed i := by
  intro b hb i hi
  rcases (JoinCondition.adds_of_ofExpr hparts).timeBounds b hb with hb | ⟨-, k, -, hk⟩
  · cases hb
  · exact hrow i (TimeBound.candidate_of_ofExpr? hk i hi)

/-- The expression of a bound that has a value is true where the bound holds. -/
theorem trueOn_bound {b : TimeBound} (ht : ∀ i ∈ b.columns, row.Timed i)
    (hv : ∃ v, evalExpr now row b.expr = .ok v) :
    trueOn now b.expr row = true ↔ b.Holds now row := by
  obtain ⟨v, hv⟩ := hv
  rw [trueOn_of_ok hv]
  exact (TimeBound.expr_means ht).of_ok hv

/-- The condition of a join within a window is true where the conditions that are no time
bounds are, and the bounds of the window. -/
theorem ClosedWindow.trueOn_condition (window : ClosedWindow) :
    trueOn now (window.condition j) row = true ↔
      (∀ k ∈ j.parts.untimed j.left.width, trueOn now k row = true) ∧
        ∀ b ∈ window.bounds, trueOn now b.expr row = true := by
  rw [ClosedWindow.condition, trueOn_all, List.forall_mem_append, List.forall_mem_map,
    ← trueOn_iff_conjuncts, JoinCondition.withoutTime, trueOn_all]

/-- **The condition of a join within a window** replaces the written one, if no
times of its bounds are more than 999 years apart. -/
theorem ClosedWindow.replaces {window : ClosedWindow}
    (hparts : JoinCondition.ofExpr j.condition j.left.width isTimestamp = .ok j.parts)
    (hbounds : window.bounds = j.parts.timeBounds ∨ ∃ b ∈ j.parts.timeBounds,
      window.bounds = j.parts.timeBounds ++ [b.inverse unboundedMillis])
    (hrow : ∀ i, isTimestamp i = true → row.Timed i)
    (hnear : ∀ b ∈ j.parts.timeBounds, b.Within now row unboundedMillis)
    (hv : ∃ v, evalExpr now row (window.condition j) = .ok v) :
    Replaces now j.condition row (window.condition j) row := by
  obtain ⟨v, hv⟩ := hv
  have htimed := timed_of_bound hrow hparts
  obtain ⟨hok, -⟩ := evalExpr_all hv
  obtain ⟨huntimed, hexprs⟩ := List.forall_mem_append.1 hok
  obtain ⟨u, hu, -⟩ := evalExpr_of_conjuncts _ huntimed
  -- what the written bounds say is what all bounds of the window say
  have htimes : (∀ b ∈ window.bounds, trueOn now b.expr row = true) ↔
      ∀ b ∈ j.parts.timeBounds, b.Holds now row := by
    have hexpr := List.forall_mem_map.1 hexprs
    rcases hbounds with he | ⟨b, hb, he⟩
    · rw [he] at hexpr ⊢
      exact forall₂_congr fun b hb => trueOn_bound (htimed b hb) (hexpr b hb)
    · rw [he] at hexpr ⊢
      obtain ⟨hexpr, hlast⟩ := List.forall_mem_append.1 hexpr
      have hinverse : ∀ i ∈ (b.inverse unboundedMillis).columns, row.Timed i := fun i hi =>
        htimed b hb i (List.mem_append.2 (List.mem_append.1 hi).symm)
      rw [List.forall_mem_append, List.forall_mem_singleton,
        trueOn_bound hinverse (hlast _ (List.mem_singleton.2 rfl)),
        forall₂_congr fun b hb => trueOn_bound (htimed b hb) (hexpr b hb)]
      exact ⟨And.left, fun h => ⟨h, (hnear b hb).inverse (h b hb)⟩⟩
  refine (JoinCondition.ofExpr_means hrow hparts (evalExpr_all hu).1).replaces ?_
  rw [window.trueOn_condition]
  exact ⟨fun h => ⟨h.untimed, htimes.2 h.timeBounds⟩, fun h => ⟨h.1, htimes.1 h.2⟩⟩

/-- Expressions that are true where the equalities of a condition without other
parts are replace it. -/
theorem replaces_of_equalities {written : Nat × Nat → Expr} {parts : JoinCondition}
    (hparts : JoinCondition.ofExpr condition leftWidth isTimestamp = .ok parts)
    (hequi : parts.isEquiJoin = true) (hrow : ∀ i, isTimestamp i = true → row.Timed i)
    (hsame : ∀ p ∈ parts.equalities, (∃ v, evalExpr now other (written p) = .ok v) →
      (∃ v, evalExpr now row (.equate p.1 (p.2 + leftWidth)) = .ok v) ∧
        trueOn now (written p) other = row.equates p.1 (p.2 + leftWidth))
    (hv : ∃ v, evalExpr now other (.all (parts.equalities.map written)) = .ok v) :
    Replaces now condition row (.all (parts.equalities.map written)) other := by
  obtain ⟨v, hv⟩ := hv
  obtain ⟨htimeBounds, hremaining⟩ : parts.timeBounds = [] ∧ parts.remaining = [] := by
    simpa [JoinCondition.isEquiJoin] using hequi
  obtain ⟨hok, -⟩ := evalExpr_all hv
  have hpairs := fun p hp => hsame p hp (List.forall_mem_map.1 hok p hp)
  have huntimed : ∀ k ∈ parts.untimed leftWidth, ∃ v, evalExpr now row k = .ok v :=
    JoinCondition.forall_untimed.2 ⟨fun p hp => (hpairs p hp).1, by simp [hremaining]⟩
  refine (JoinCondition.ofExpr_means hrow hparts huntimed).replaces ?_
  rw [trueOn_all, List.forall_mem_map, JoinCondition.holds_iff, htimeBounds, hremaining]
  simp only [List.not_mem_nil, false_implies, implies_true, and_true]
  exact forall₂_congr fun p hp => by rw [(hpairs p hp).2]

variable {sides : TemporalSides} {l r : Row}

/-- **The condition of a join by time** replaces a written one of equalities. -/
theorem TemporalSides.replaces
    (hparts : JoinCondition.ofExpr j.condition leftWidth isTimestamp = .ok j.parts)
    (hequi : j.parts.isEquiJoin = true) (hequalities : sides.equalities = j.parts.equalities)
    (hrow : ∀ i, isTimestamp i = true → row.Timed i)
    (hv : ∃ v, evalExpr now row (sides.condition leftWidth) = .ok v) :
    Replaces now j.condition row (sides.condition leftWidth) row := by
  rw [TemporalSides.condition, hequalities] at hv ⊢
  exact replaces_of_equalities hparts hequi hrow (fun p _ hp => ⟨hp, trueOn_equate _ _⟩) hv

/-- So it does with the sides swapped, on the swapped pair. -/
theorem TemporalSides.replaces_swapped
    (hparts : JoinCondition.ofExpr j.condition l.length isTimestamp = .ok j.parts)
    (hequi : j.parts.isEquiJoin = true)
    (hequalities : sides.equalities = j.parts.equalities.map Prod.swap)
    (hinside : ∀ p ∈ j.parts.equalities, p.2 < r.length)
    (hrow : ∀ i, isTimestamp i = true → (l ++ r).Timed i)
    (hv : ∃ v, evalExpr now (r ++ l) (sides.condition r.length) = .ok v) :
    Replaces now j.condition (l ++ r) (sides.condition r.length) (r ++ l) := by
  rw [TemporalSides.condition, hequalities, List.map_map] at hv ⊢
  refine replaces_of_equalities hparts hequi hrow (fun p hp _ => ?_) hv
  have hleft : p.1 < l.length := JoinCondition.left_of_equality hparts p hp
  have hright : p.2 < r.length := hinside p hp
  refine ⟨evalExpr_equate.2 ?_, ?_⟩
  · rw [List.length_append]
    omega
  · change trueOn now (Expr.equate p.2 (p.1 + r.length)) (r ++ l) = _
    rw [trueOn_equate, Row.equates_comm]
    refine Row.equates_congr ?_ ?_
    · rw [List.getElem?_append_left hleft, List.getElem?_append_right (Nat.le_add_left _ _),
        Nat.add_sub_cancel]
    · rw [List.getElem?_append_left hright, List.getElem?_append_right (Nat.le_add_left _ _),
        Nat.add_sub_cancel]

end JoinInputs

end StreamPlan
