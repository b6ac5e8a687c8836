import Mathlib.Algebra.BigOperators.Group.List.Basic
import Mathlib.Algebra.Ring.Int.Defs
import StreamPlan.Proofs.Rows.Group
import StreamPlan.Proofs.Rows.Order

/-!
# Values of calls over rows in another order

What a call makes of the rows of a group does not depend on the order of the rows, if the
values it goes through are of one type and no floats: a sum is exact unless it leaves 64
bits, of tied values there is only one, and distinct ones are the same in any order.

* `Value.Uniform`: values of one type, in which the same values and tied ones are equal.
* `least_perm`, `greatest_perm`, `distinctValues_perm`, `Millis.total_perm`: one lemma per
  way of putting values together.
* `AggregateCall.valueOn_bounded`: **a call faults over a sum alone**.
* `AggregateCall.valueOn_perm`: **a call has one value** over rows in any order.
-/

namespace StreamPlan

/-- Values of one type that is neither that of floats nor that of collections. -/
structure Value.Uniform (type : DataType) (values : List Value) : Prop where
  noFloat : type ≠ .float64
  known : type ≠ .null
  dataType : ∀ v ∈ values, v.dataType = type

namespace Value

variable {type : DataType} {values others : List Value} {a b : Value}

theorem same_iff_of_type (hf : a.dataType ≠ .float64) (hn : a.dataType ≠ .null)
    (hb : b.dataType = a.dataType) : a.same b = true ↔ a = b := by
  cases a with
  | float => exact absurd rfl hf
  | null => exact absurd rfl hn
  | list => exact absurd rfl hn
  | _ =>
    cases b <;> cases hb
    simp [same]

theorem tied_iff_of_type (hf : a.dataType ≠ .float64) (hn : a.dataType ≠ .null)
    (hb : b.dataType = a.dataType) : a.sortOrder b = .eq ↔ a = b := by
  have hself : a.sortOrder a = .eq := Std.ReflCmp.compare_self
  refine ⟨fun h => ?_, fun h => h ▸ hself⟩
  cases a with
  | float => exact absurd rfl hf
  | null => exact absurd rfl hn
  | list => exact absurd rfl hn
  | text x =>
    cases b <;> cases hb
    exact congrArg text (compareTexts_eq h)
  | boolean x =>
    cases b <;> cases hb
    exact congrArg boolean (Std.compare_eq_iff_eq.1 h)
  | _ =>
    cases b <;> cases hb
    rw [Std.compare_eq_iff_eq.1 (show compare _ _ = Ordering.eq from h)]

namespace Uniform

theorem subset (h : Uniform type values) (hs : others ⊆ values) : Uniform type others :=
  ⟨h.noFloat, h.known, fun v hv => h.dataType v (hs hv)⟩

theorem same_iff (h : Uniform type values) (ha : a ∈ values) (hb : b ∈ values) :
    a.same b = true ↔ a = b :=
  same_iff_of_type (h.dataType a ha ▸ h.noFloat) (h.dataType a ha ▸ h.known)
    ((h.dataType b hb).trans (h.dataType a ha).symm)

theorem tied_iff (h : Uniform type values) (ha : a ∈ values) (hb : b ∈ values) :
    a.sortOrder b = .eq ↔ a = b :=
  tied_iff_of_type (h.dataType a ha ▸ h.noFloat) (h.dataType a ha ▸ h.known)
    ((h.dataType b hb).trans (h.dataType a ha).symm)

theorem consistent (h : Uniform type values) : Sorting.Consistent sortOrder values :=
  consistent_of_type h.noFloat fun v hv => .inr (h.dataType v hv)

end Uniform

end Value

/-- Of values that are picked two at a time, one that is in order with both, the last one
picked is in order with all. -/
theorem foldl_pick (le : Value → Value → Prop) {pick : Value → Value → Value}
    (hpick : ∀ x y, (pick x y = x ∨ pick x y = y) ∧ le (pick x y) x ∧ le (pick x y) y)
    {v : Value} {vs : List Value}
    (htrans : ∀ a ∈ v :: vs, ∀ b ∈ v :: vs, ∀ c ∈ v :: vs, le a b → le b c → le a c) :
    vs.foldl pick v ∈ v :: vs ∧ ∀ w ∈ v :: vs, le (vs.foldl pick v) w := by
  induction vs generalizing v with
  | nil =>
    refine ⟨List.mem_singleton_self v, fun w hw => ?_⟩
    obtain rfl := List.mem_singleton.1 hw
    obtain ⟨hor, hle, -⟩ := hpick w w
    have hself : pick w w = w := hor.elim id id
    rwa [hself] at hle
  | cons y ys ih =>
    -- what is picked of the first two stands for both
    obtain ⟨hor, hleft, hright⟩ := hpick v y
    have hmem : pick v y ∈ v :: y :: ys := by
      rcases hor with he | he <;> simp [he]
    have hsub : pick v y :: ys ⊆ v :: y :: ys := fun a ha => by
      rcases List.mem_cons.1 ha with rfl | ha
      · exact hmem
      · simp [ha]
    obtain ⟨hin, hall⟩ := ih fun a ha b hb c hc => htrans a (hsub ha) b (hsub hb) c (hsub hc)
    have hpicked := hall (pick v y) List.mem_cons_self
    refine ⟨hsub hin, fun w hw => ?_⟩
    rcases List.mem_cons.1 hw with rfl | hw
    · exact htrans _ (hsub hin) _ hmem _ List.mem_cons_self hpicked hleft
    · rcases List.mem_cons.1 hw with rfl | hw
      · exact htrans _ (hsub hin) _ hmem _ (by simp) hpicked hright
      · exact hall w (List.mem_cons_of_mem _ hw)

namespace AggregateCall

variable {type : DataType} {values others : List Value}

/-- The least value is one of the values, and in order with all. -/
theorem least_spec (h : Sorting.Consistent Value.sortOrder values) (hne : values ≠ []) :
    least values ∈ values ∧ ∀ w ∈ values, ((least values).sortOrder w).isLE := by
  obtain _ | ⟨v, vs⟩ := values
  · exact absurd rfl hne
  refine foldl_pick (fun a b => (a.sortOrder b).isLE) (fun x y => ?_) h
  split
  · rename_i hgt
    exact ⟨.inr rfl, by rw [y.sortOrder_swap, hgt]; rfl, Value.isLE_self y⟩
  · rename_i hle
    exact ⟨.inl rfl, Value.isLE_self x, Ordering.isLE_iff_ne_gt.2 hle⟩

/-- The greatest value is one of the values, and all are in order with it. -/
theorem greatest_spec (h : Sorting.Consistent Value.sortOrder values) (hne : values ≠ []) :
    greatest values ∈ values ∧ ∀ w ∈ values, (w.sortOrder (greatest values)).isLE := by
  obtain _ | ⟨v, vs⟩ := values
  · exact absurd rfl hne
  refine foldl_pick (fun a b => (b.sortOrder a).isLE) (fun x y => ?_) h.opposite
  split
  · rename_i hgt
    exact ⟨.inl rfl, Value.isLE_self x, by rw [y.sortOrder_swap, hgt]; rfl⟩
  · rename_i hle
    exact ⟨.inr rfl, Ordering.isLE_iff_ne_gt.2 hle, Value.isLE_self y⟩

/-- **The least value** is tied with the one in any other order. -/
theorem least_tied (hc : Sorting.Consistent Value.sortOrder values) (h : values.Perm others) :
    (least values).sortOrder (least others) = .eq := by
  by_cases hne : values = []
  · subst hne
    rw [List.nil_perm.1 h]
    rfl
  obtain ⟨hmem, hall⟩ := least_spec hc hne
  obtain ⟨hmem', hall'⟩ := least_spec (hc.subset h.symm.subset) fun he => hne (he ▸ h).eq_nil
  exact Std.OrientedCmp.isLE_antisymm (hall _ (h.symm.subset hmem')) (hall' _ (h.subset hmem))

/-- **The greatest value** is tied with the one in any other order. -/
theorem greatest_tied (hc : Sorting.Consistent Value.sortOrder values) (h : values.Perm others) :
    (greatest values).sortOrder (greatest others) = .eq := by
  by_cases hne : values = []
  · subst hne
    rw [List.nil_perm.1 h]
    rfl
  obtain ⟨hmem, hall⟩ := greatest_spec hc hne
  obtain ⟨hmem', hall'⟩ := greatest_spec (hc.subset h.symm.subset) fun he => hne (he ▸ h).eq_nil
  exact Std.OrientedCmp.isLE_antisymm (hall' _ (h.subset hmem)) (hall _ (h.symm.subset hmem'))

/-- Of values of one type that are no floats, the least one is the same in any order. -/
theorem least_perm (hu : Value.Uniform type values) (h : values.Perm others) :
    least values = least others := by
  by_cases hne : values = []
  · subst hne
    rw [List.nil_perm.1 h]
  have hmem := (least_spec hu.consistent hne).1
  have hmem' := (least_spec (hu.consistent.subset h.symm.subset) fun he => hne (he ▸ h).eq_nil).1
  exact (hu.tied_iff hmem (h.symm.subset hmem')).1 (least_tied hu.consistent h)

/-- So is the greatest one. -/
theorem greatest_perm (hu : Value.Uniform type values) (h : values.Perm others) :
    greatest values = greatest others := by
  by_cases hne : values = []
  · subst hne
    rw [List.nil_perm.1 h]
  have hmem := (greatest_spec hu.consistent hne).1
  have hmem' := (greatest_spec (hu.consistent.subset h.symm.subset) fun he => hne (he ▸ h).eq_nil).1
  exact (hu.tied_iff hmem (h.symm.subset hmem')).1 (greatest_tied hu.consistent h)

end AggregateCall

/-- The first ones of equal values are each different value once. -/
theorem mem_distinctValues {type : DataType} {values : List Value} (hu : Value.Uniform type values) :
    (distinctValues values).Nodup ∧ ∀ v, v ∈ distinctValues values ↔ v ∈ values := by
  refine foldl_run (I := fun done (kept : List Value) => kept.Nodup ∧ ∀ v, v ∈ kept ↔ v ∈ done)
    ⟨List.nodup_nil, fun _ => Iff.rfl⟩ fun done x kept hbegins ⟨hnodup, hkept⟩ => ?_
  have hdone : ∀ v ∈ done ++ [x], v ∈ values := hbegins.subset
  have hany : kept.any (·.same x) = true ↔ x ∈ done := by
    rw [List.any_eq_true]
    refine ⟨fun ⟨k, hk, hsame⟩ => ?_, fun hx => ⟨x, (hkept x).2 hx, ?_⟩⟩
    · have hk := (hkept k).1 hk
      exact (hu.same_iff (hdone k (by simp [hk])) (hdone x (by simp))).1 hsame ▸ hk
    · exact (hu.same_iff (hdone x (by simp)) (hdone x (by simp))).2 rfl
  by_cases hx : x ∈ done
  · rw [if_pos (hany.2 hx)]
    refine ⟨hnodup, fun v => (hkept v).trans ?_⟩
    rw [List.mem_append, List.mem_singleton]
    exact ⟨.inl, fun h => h.elim id fun h => h ▸ hx⟩
  · rw [if_neg fun h => hx (hany.1 h)]
    refine ⟨?_, fun v => by rw [List.mem_append, List.mem_append, hkept]⟩
    rw [← List.concat_eq_append]
    exact hnodup.concat fun h => hx ((hkept x).1 h)

/-- **Distinct values** are the same in any order, each once. -/
theorem distinctValues_perm {type : DataType} {values others : List Value}
    (hu : Value.Uniform type values) (h : values.Perm others) :
    (distinctValues values).Perm (distinctValues others) := by
  obtain ⟨hnodup, hmem⟩ := mem_distinctValues hu
  obtain ⟨hnodup', hmem'⟩ := mem_distinctValues (hu.subset h.symm.subset)
  exact (List.perm_ext_iff_of_nodup hnodup hnodup').2 fun v =>
    (hmem v).trans (h.mem_iff.trans (hmem' v).symm)

namespace Millis

/-- A sum that stays in 64 bits all the way is exact. -/
theorem total_eq {xs : List Int} {sum : Int} (h : total xs = .ok sum) : sum = xs.sum := by
  refine foldlM_run (I := fun done sum => sum = done.sum) rfl (fun done x sum next _ ih hnext => ?_) h
  obtain ⟨-, rfl⟩ := checked_eq_ok_iff.1 hnext
  rw [List.sum_append, List.sum_singleton, ih]

/-- **A sum** is the same in any order, unless it leaves 64 bits. -/
theorem total_perm {xs ys : List Int} (h : xs.Perm ys) {x y : Int} (hx : total xs = .ok x)
    (hy : total ys = .ok y) : x = y := by
  rw [total_eq hx, total_eq hy, h.sum_eq]

theorem total_bounded {allowed : Fault → Prop} (ha : allowed .arithmeticOverflow) (xs : List Int) :
    Bounded allowed (total xs) fun _ => True :=
  .foldlM trivial fun _ _ _ _ =>
    (checked_bounded (Nat.le_refl _) fun _ => ha).mono fun _ _ => trivial

end Millis

namespace AggregateCall

variable {allowed : Fault → Prop} {call : AggregateCall} {row : Row} {rows others : List Row}
  {type : DataType} {values : List Value}

/-- Whether a row counts. -/
def counts (call : AggregateCall) (row : Row) : Bool :=
  match call.filter with
  | some f => (row.cell f).isTrue
  | none => true

/-- What a row contributes to a call over columns of it. -/
def contributed (call : AggregateCall) (row : Row) : Option Value :=
  if call.counts row then
    match call.args.head? with
    | none => some (.int 1)
    | some a => if (row.cell a).isNull then none else some (row.cell a)
  else none

theorem contribution_of_inside (h : ∀ c ∈ call.columns, c < row.length) :
    call.contribution row = .ok (call.contributed row) := by
  have hfirst : ∀ a, call.args.head? = some a → itemAt row a = .ok (row.cell a) := fun a ha =>
    Row.itemAt_cell (h a (List.mem_append_left _ (List.mem_of_head? ha)))
  have hfilter : ∀ f, call.filter = some f → itemAt row f = .ok (row.cell f) := fun f hf =>
    Row.itemAt_cell (h f (List.mem_append_right _ (by rw [hf]; exact List.mem_singleton_self f)))
  have hvalue : (match call.args.head? with
      | none => return some (.int 1)
      | some a => do
        let v ← itemAt row a
        return if v.isNull then none else some v : Except Fault (Option Value))
      = .ok (match call.args.head? with
        | none => some (.int 1)
        | some a => if (row.cell a).isNull then none else some (row.cell a)) := by
    cases ha : call.args.head? with
    | none => rfl
    | some a => simp only [hfirst a ha, ok_bind]; rfl
  rw [contribution, contributed, counts]
  cases hf : call.filter with
  | none => exact hvalue
  | some f =>
    simp only [hfilter f hf, ok_bind, pure_bind]
    by_cases hcounts : (row.cell f).isTrue = true
    · rw [if_neg (by simp [hcounts]), if_pos hcounts]
      exact hvalue
    · rw [if_pos (by simp [hcounts]), if_neg hcounts]
      rfl

/-- The values that a call goes through. -/
def gathered (call : AggregateCall) (rows : List Row) : List Value :=
  if call.distinct then distinctValues (rows.filterMap call.contributed)
  else rows.filterMap call.contributed

theorem valueOn_of_inside (h : ∀ row ∈ rows, ∀ c ∈ call.columns, c < row.length) :
    call.valueOn rows = combine call.function (call.gathered rows) := by
  rw [valueOn, mapM_eq_ok_map fun row hrow => contribution_of_inside (h row hrow), ok_bind,
    List.filterMap_map]
  rfl

theorem combine_bounded (ha : allowed .arithmeticOverflow) (function : AggregateFunction)
    (values : List Value) : Bounded allowed (combine function values) fun _ => True := by
  cases function with
  | sum =>
    simp only [combine]
    split
    · exact .ok trivial
    · split
      · exact .ok trivial
      · exact (Millis.total_bounded ha _).bind fun _ _ => .ok trivial
  | avg =>
    simp only [combine]
    split <;> exact .ok trivial
  | _ => exact .ok trivial

/-- **A call faults over a sum alone**, over columns of its rows. -/
theorem valueOn_bounded (ha : allowed .arithmeticOverflow)
    (h : ∀ row ∈ rows, ∀ c ∈ call.columns, c < row.length) :
    Bounded allowed (call.valueOn rows) fun _ => True := by
  rw [valueOn_of_inside h]
  exact combine_bounded ha ..

/-- The first argument of a call has nulls and values of one type, no floats and no
collections. -/
structure Typed (call : AggregateCall) (type : DataType) (rows : List Row) : Prop where
  noFloat : type ≠ .float64
  known : type ≠ .null
  values : ∀ a, call.args.head? = some a → ∀ row ∈ rows,
    row.cell a = .null ∨ (row.cell a).dataType = type

theorem Typed.subset (h : call.Typed type rows) (hs : others ⊆ rows) : call.Typed type others :=
  ⟨h.noFloat, h.known, fun a ha row hrow => h.values a ha row (hs hrow)⟩

/-- A call goes through values of one type: ones if it counts rows. -/
theorem Typed.contributed (h : call.Typed type rows) :
    ∃ type, Value.Uniform type (rows.filterMap call.contributed) := by
  cases ha : call.args.head? with
  | none =>
    refine ⟨.int64, nofun, nofun, fun v hv => ?_⟩
    obtain ⟨row, -, hv⟩ := List.mem_filterMap.1 hv
    simp only [AggregateCall.contributed, ha] at hv
    split at hv
    · cases hv
      rfl
    · cases hv
  | some a =>
    refine ⟨type, h.noFloat, h.known, fun v hv => ?_⟩
    obtain ⟨row, hrow, hv⟩ := List.mem_filterMap.1 hv
    simp only [AggregateCall.contributed, ha] at hv
    split at hv
    · split at hv
      · cases hv
      · rename_i hnull
        cases hv
        rcases h.values a ha row hrow with hvalue | hvalue
        · rw [hvalue] at hnull
          exact absurd rfl hnull
        · exact hvalue
    · cases hv

theorem combine_sum (hu : Value.Uniform type values) : combine .sum values
    = if values.isEmpty then .ok .null else (Millis.total (values.filterMap Value.asInt?)).map .int := by
  simp only [combine]
  by_cases hempty : values.isEmpty = true
  · rw [if_pos hempty, if_pos hempty]
    rfl
  · -- none of the values is a float
    rw [if_neg hempty, if_neg hempty, if_neg]
    · cases Millis.total (values.filterMap Value.asInt?) <;> rfl
    · intro hany
      obtain ⟨v, hv, hfloat⟩ := List.any_eq_true.1 hany
      cases v <;> first | exact hu.noFloat (hu.dataType _ hv).symm | cases hfloat

/-- Values put together in another order give the same, if both give something. -/
theorem combine_perm {function : AggregateFunction} {others : List Value} (hf : function ≠ .avg)
    (hu : Value.Uniform type values) (h : values.Perm others) {v w : Value}
    (hv : combine function values = .ok v) (hw : combine function others = .ok w) : v = w := by
  cases function with
  | count =>
    cases hv
    cases hw
    rw [h.length_eq]
  | min =>
    cases hv
    cases hw
    exact least_perm hu h
  | max =>
    cases hv
    cases hw
    exact greatest_perm hu h
  | avg => exact absurd rfl hf
  | sum =>
    rw [combine_sum hu] at hv
    rw [combine_sum (hu.subset h.symm.subset), h.symm.isEmpty_eq] at hw
    split at hv
    · rename_i hempty
      rw [if_pos hempty] at hw
      exact Except.ok.inj (hv.symm.trans hw)
    · rename_i hsome
      rw [if_neg hsome] at hw
      obtain ⟨x, hx, rfl⟩ := map_eq_ok.1 hv
      obtain ⟨y, hy, rfl⟩ := map_eq_ok.1 hw
      rw [Millis.total_perm (h.filterMap Value.asInt?) hx hy]

/-- **A call has one value** over rows in any order, if both give one. -/
theorem valueOn_perm (hf : call.function ≠ .avg) (ht : call.Typed type rows)
    (hin : ∀ row ∈ rows, ∀ c ∈ call.columns, c < row.length) (h : rows.Perm others) {v w : Value}
    (hv : call.valueOn rows = .ok v) (hw : call.valueOn others = .ok w) : v = w := by
  rw [valueOn_of_inside hin] at hv
  rw [valueOn_of_inside fun row hrow => hin row (h.symm.subset hrow)] at hw
  obtain ⟨type, hu⟩ := ht.contributed
  have hcontributed := h.filterMap call.contributed
  unfold gathered at hv hw
  split at hv
  · rename_i hd
    rw [if_pos hd] at hw
    exact combine_perm hf (hu.subset fun v hv => ((mem_distinctValues hu).2 v).1 hv)
      (distinctValues_perm hu hcontributed) hv hw
  · rename_i hd
    rw [if_neg hd] at hw
    exact combine_perm hf hu hcontributed hv hw

end AggregateCall

end StreamPlan
