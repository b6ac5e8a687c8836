import StreamPlan.Proofs.Rows.Accumulate
import StreamPlan.Proofs.Rows.Rounding

/-!
# Ties of the order of sorting

Values that do not compare are tied in the order of sorting, and a tie need not pass on: a text
is tied with every number. Nothing else keeps the order from being transitive, and where ties
pass on, what is sorted does not depend on the order it comes in.

* `Sorting.TiesPass`, `Sorting.consistent_iff_tiesPass`: a comparison whose strict part is
  transitive is transitive where its ties pass on.
* `Sorting.Consistent.arrangements_tied`: two arrangements of the same items are tied, place by
  place, as the numbers of items that come before are the same.
* `Value.sortOrder_lt_trans`: **what is strictly in order** is transitive on all values. Between
  whole numbers and floats this rests on `Value.wholePlace_mono`.
* `Value.consistent_of_numbers`: nulls and values of one type are in order, floats included,
  unless one is no number.
* `sortRows_perm`, `canonical_perm`, `consistent_of_greatest`: rows and values in another order.
* `sorting_is_total_but_for_ties`: **all of it together**; `incomparable_values_are_tied` has
  values for which the ties do not pass on.
-/

namespace StreamPlan

namespace Sorting

variable {α : Type} {cmp : α → α → Ordering} {items out out' : List α}

/-- Of three items, the outer ones are tied if both are tied with the middle one. -/
def TiesPass (cmp : α → α → Ordering) (items : List α) : Prop :=
  ∀ a ∈ items, ∀ b ∈ items, ∀ c ∈ items, cmp a b = .eq → cmp b c = .eq → cmp a c = .eq

section Strict

variable [Std.OrientedCmp cmp] (hlt : ∀ a b c, cmp a b = .lt → cmp b c = .lt → cmp a c = .lt)

include hlt

/-- A cycle has two ties in it. -/
theorem tied_of_cycle {a b c : α} (hab : (cmp a b).isLE) (hbc : (cmp b c).isLE) (hca : cmp c a = .lt) :
    cmp a b = .eq ∧ cmp b c = .eq := by
  refine ⟨(Ordering.isLE_iff_eq_lt_or_eq_eq.1 hab).resolve_left fun h => ?_,
    (Ordering.isLE_iff_eq_lt_or_eq_eq.1 hbc).resolve_left fun h => ?_⟩
  · exact lt_iff_not_isLE.1 (hlt c a b hca h) hbc
  · exact lt_iff_not_isLE.1 (hlt b c a h hca) hab

/-- **Only ties** can keep a comparison from being transitive. -/
theorem consistent_iff_tiesPass : Consistent cmp items ↔ TiesPass cmp items := by
  constructor
  · exact fun h a ha b hb c hc => h.tied ha hb hc
  · intro h a ha b hb c hc hab hbc
    by_contra hac
    have hca : cmp c a = .lt := lt_iff_not_isLE.2 hac
    obtain ⟨hab, hbc⟩ := tied_of_cycle hlt hab hbc hca
    rw [h a ha b hb c hc hab hbc] at hac
    exact hac rfl

end Strict

/-- **Two arrangements** of items that compare consistently are tied, place by place. -/
theorem Consistent.arrangements_tied [Std.OrientedCmp cmp] (h : Consistent cmp items)
    (hp : out.Perm items) (hp' : out'.Perm items) (hs : out.Pairwise fun a b => (cmp a b).isLE)
    (hs' : out'.Pairwise fun a b => (cmp a b).isLE) : List.Forall₂ (fun a b => cmp a b = .eq) out out' := by
  -- In both, the numbers of items that come before go up; they are the same numbers.
  let rank := fun a => items.countP (cmp · a = .lt)
  have hup : ∀ l : List α, l.Perm items → (l.Pairwise fun a b => (cmp a b).isLE) →
      (l.map rank).Pairwise (· ≤ ·) := by
    intro l hl hsorted
    refine List.pairwise_map.2 (hsorted.imp_of_mem fun ha hb hle => Nat.not_lt.1 fun hless => ?_)
    exact lt_iff_not_isLE.1 ((h.count_lt_iff (hl.mem_iff.1 hb) (hl.mem_iff.1 ha)).1 hless) hle
  have hranks : out.map rank = out'.map rank :=
    ((hp.trans hp'.symm).map rank).eq_of_pairwise (fun _ _ _ _ => Nat.le_antisymm) (hup out hp hs)
      (hup out' hp' hs')
  rw [← List.forall₂_eq_eq_eq, List.forall₂_map_left_iff, List.forall₂_map_right_iff,
    List.forall₂_iff_zip] at hranks
  refine List.forall₂_iff_zip.2 ⟨hranks.1, fun {a b} hab => ?_⟩
  obtain ⟨ha, hb⟩ := List.of_mem_zip hab
  have hrank : rank a = rank b := hranks.2 hab
  have hab : cmp a b ≠ .lt := fun hless =>
    hrank.not_lt ((h.count_lt_iff (hp.mem_iff.1 ha) (hp'.mem_iff.1 hb)).2 hless)
  have hba : cmp b a ≠ .lt := fun hless =>
    hrank.not_gt ((h.count_lt_iff (hp'.mem_iff.1 hb) (hp.mem_iff.1 ha)).2 hless)
  rw [Ne, Std.OrientedCmp.gt_iff_lt.symm] at hba
  cases hcmp : cmp a b <;> simp_all

end Sorting

namespace Value

open Float.Model (UnpackedFloat)

/-- The place of a number in the order of floats. -/
def numberPlace? (v : Value) : Option (Int × Int × Int) := v.asFloat?.bind fun x => place? x.toModel.unpack

variable {a b c : Value}

theorem numberPlace?_whole {m : Int} (h : a.asInt? = some m) : numberPlace? a = some (wholePlace m) := by
  have hfloat : a.asFloat? = some (Float.ofInt m) := by
    cases a <;> cases h <;> rfl
  rw [numberPlace?, hfloat, Option.bind_some, place?_ofInt]

theorem compare?_whole {m n : Int} (ha : a.asInt? = some m) (hb : b.asInt? = some n) :
    a.compare? b = some (compare m n) := by
  cases a <;> cases ha <;> cases b <;> cases hb <;> rfl

/-- A float compares with another number as their places do. -/
theorem compare?_places (h : (∃ x, a = .float x) ∨ ∃ y, b = .float y) :
    a.compare? b = (numberPlace? a).bind fun p => (numberPlace? b).map (comparePlaces p) := by
  have hfloat : ∀ x y, compareFloats x y = (place? x.toModel.unpack).bind fun p =>
      (place? y.toModel.unpack).map (comparePlaces p) := fun x y => by
    rw [compareFloats_eq, unpacked_compare]
  rcases h with ⟨x, rfl⟩ | ⟨y, rfl⟩
  · cases b <;> simp [compare?, numberPlace?, asFloat?, asInt?, hfloat]
  · cases a <;> simp [compare?, numberPlace?, asFloat?, asInt?, hfloat]

/-- Which values compare. -/
theorem compare?_cases (h : (a.compare? b).isSome) :
    (∃ x y, a = .boolean x ∧ b = .boolean y) ∨ (∃ x y, a = .text x ∧ b = .text y) ∨
    (∃ m n, a.asInt? = some m ∧ b.asInt? = some n) ∨ (∃ x, a = .float x) ∨ ∃ y, b = .float y := by
  cases a <;> cases b <;> simp_all [compare?, asInt?]

/-- Values in order are two truth values, two texts, or two numbers. Numbers have places in order,
which differ if one of them is a float. -/
theorem lt_cases (h : a.compare? b = some .lt) :
    (∃ x y, a = .boolean x ∧ b = .boolean y) ∨ (∃ x y, a = .text x ∧ b = .text y) ∨
    ∃ p q, numberPlace? a = some p ∧ numberPlace? b = some q ∧ (comparePlaces p q).isLE ∧
      (comparePlaces p q = .lt ∨ ∃ m n, a.asInt? = some m ∧ b.asInt? = some n ∧ m < n) := by
  rcases compare?_cases (Option.isSome_of_eq_some h) with hb | ht | ⟨m, n, hm, hn⟩ | hfloat
  · exact .inl hb
  · exact .inr (.inl ht)
  · rw [compare?_whole hm hn, Option.some_inj, Std.compare_eq_lt] at h
    exact .inr (.inr ⟨_, _, numberPlace?_whole hm, numberPlace?_whole hn, wholePlace_mono h.le,
      .inr ⟨m, n, hm, hn, h⟩⟩)
  · rw [compare?_places hfloat, Option.bind_eq_some_iff] at h
    obtain ⟨p, hp, h⟩ := h
    obtain ⟨q, hq, h⟩ := Option.map_eq_some_iff.1 h
    exact .inr (.inr ⟨p, q, hp, hq, by rw [h]; rfl, .inl h⟩)

/-- Numbers with places in order are in order. -/
theorem lt_of_places {p q : Int × Int × Int} (ha : numberPlace? a = some p)
    (hb : numberPlace? b = some q) (h : comparePlaces p q = .lt) : a.compare? b = some .lt := by
  by_cases hfloat : (∃ x, a = .float x) ∨ ∃ y, b = .float y
  · rw [compare?_places hfloat, ha, hb, Option.bind_some, Option.map_some, h]
  · -- Two whole numbers in another order would have their places in another order too.
    obtain ⟨m, hm⟩ : ∃ m, a.asInt? = some m := by
      cases a <;> first | exact ⟨_, rfl⟩ | cases ha | exact absurd (.inl ⟨_, rfl⟩) hfloat
    obtain ⟨n, hn⟩ : ∃ n, b.asInt? = some n := by
      cases b <;> first | exact ⟨_, rfl⟩ | cases hb | exact absurd (.inr ⟨_, rfl⟩) hfloat
    rw [numberPlace?_whole hm, Option.some_inj] at ha
    rw [numberPlace?_whole hn, Option.some_inj] at hb
    rw [compare?_whole hm hn, Option.some_inj, Std.compare_eq_lt]
    by_contra hle
    have hplaces := wholePlace_mono (Int.not_lt.1 hle)
    rw [ha, hb] at hplaces
    exact Sorting.lt_iff_not_isLE.1 h hplaces

theorem compare?_lt_trans (hab : a.compare? b = some .lt) (hbc : b.compare? c = some .lt) :
    a.compare? c = some .lt := by
  have hbool : ∀ x y z : Bool, compare x y = .lt → compare y z = .lt → compare x z = .lt :=
    fun _ _ _ => Std.TransCmp.lt_trans
  rcases lt_cases hab with ⟨x, y, rfl, rfl⟩ | ⟨x, y, rfl, rfl⟩ | ⟨p, q, hp, hq, hpq, hless⟩
  · rcases lt_cases hbc with ⟨_, z, he, rfl⟩ | ⟨_, z, he, -⟩ | ⟨_, _, hq, -⟩
    · exact congrArg some (hbool x y z (Option.some_inj.1 hab) (Option.some_inj.1 hbc))
    · cases he
    · cases hq
  · rcases lt_cases hbc with ⟨_, z, he, -⟩ | ⟨_, z, he, rfl⟩ | ⟨_, _, hq, -⟩
    · cases he
    · exact congrArg some (Std.TransCmp.lt_trans (Option.some_inj.1 hab) (Option.some_inj.1 hbc))
    · cases hq
  · rcases lt_cases hbc with ⟨_, _, rfl, -⟩ | ⟨_, _, rfl, -⟩ | ⟨q', r, hq', hr, hqr, hless'⟩
    · cases hq
    · cases hq
    obtain rfl := Option.some_inj.1 (hq.symm.trans hq')
    rcases hless with hless | ⟨m, n, hm, hn, hmn⟩
    · exact lt_of_places hp hr (Std.TransCmp.lt_of_lt_of_isLE hless hqr)
    rcases hless' with hless | ⟨n', k, hn', hk, hnk⟩
    · exact lt_of_places hp hr (Std.TransCmp.lt_of_isLE_of_lt hpq hless)
    obtain rfl := Option.some_inj.1 (hn.symm.trans hn')
    rw [compare?_whole hm hk, Option.some_inj, Std.compare_eq_lt]
    exact hmn.trans hnk

theorem sortOrder_eq_lt_iff : a.sortOrder b = .lt ↔
    a.isNull = false ∧ (b.isNull = true ∨ a.compare? b = some .lt) := by
  unfold sortOrder
  cases ha : a.isNull
  · cases hb : b.isNull
    · cases a.compare? b <;> simp
    · simp
  · cases b.isNull <;> simp

/-- **What is strictly in order** is transitive on all values. -/
theorem sortOrder_lt_trans (a b c : Value) (hab : a.sortOrder b = .lt) (hbc : b.sortOrder c = .lt) :
    a.sortOrder c = .lt := by
  rw [sortOrder_eq_lt_iff] at *
  obtain ⟨ha, hab⟩ := hab
  obtain ⟨hb, hbc⟩ := hbc
  refine ⟨ha, hbc.imp_right (compare?_lt_trans (hab.resolve_left ?_))⟩
  rw [hb]
  decide

/-- A float that equals itself has a place. -/
theorem numberPlace?_of_self {x : Float} (h : (x == x) = true) : ∃ p, numberPlace? (.float x) = some p := by
  rw [float_beq_iff, unpacked_compare, Option.bind_eq_some_iff] at h
  obtain ⟨p, hp, -⟩ := h
  exact ⟨p, hp⟩

/-- **Nulls and values of one type** compare consistently, unless one is no number. -/
theorem consistent_of_numbers {values : List Value} {t : DataType}
    (h : ∀ v ∈ values, v = .null ∨ v.dataType = t) (hself : ∀ x, .float x ∈ values → (x == x) = true) :
    Sorting.Consistent sortOrder values := by
  by_cases ht : t = .float64
  · subst ht
    -- what is not null is a float with a place
    have hcases : ∀ v ∈ values, v = .null ∨ ∃ x p, v = .float x ∧ numberPlace? v = some p := by
      intro v hv
      refine (h v hv).imp_right fun htype => ?_
      cases v <;> cases htype
      exact ⟨_, _, rfl, (numberPlace?_of_self (hself _ hv)).choose_spec⟩
    intro a ha b hb c hc hab hbc
    rcases hcases c hc with rfl | ⟨z, r, rfl, hr⟩
    · exact isLE_null a
    rcases hcases b hb with rfl | ⟨y, q, rfl, hq⟩
    · cases eq_null_of_isLE hbc
    rcases hcases a ha with rfl | ⟨x, p, rfl, hp⟩
    · cases eq_null_of_isLE hab
    have horder : ∀ {x y p q}, numberPlace? (.float x) = some p → numberPlace? (.float y) = some q →
        (Value.float x).sortOrder (.float y) = comparePlaces p q := by
      intro x y p q hp hq
      change (compare? (.float x) (.float y)).getD .eq = _
      rw [compare?_places (.inl ⟨x, rfl⟩), hp, hq]
      rfl
    rw [horder hp hq] at hab
    rw [horder hq hr] at hbc
    rw [horder hp hr]
    exact Std.TransCmp.isLE_trans hab hbc
  · exact consistent_of_type ht h

end Value

theorem compareWhole_cons (x y : Value) (xs ys : Row) :
    compareWhole (x :: xs) (y :: ys) = (x.sortOrder y).then (compareWhole xs ys) := by
  rw [compareWhole]
  cases x.sortOrder y <;> rfl

instance : Std.OrientedCmp compareWhole where
  eq_swap {a b} := by
    induction a generalizing b with
    | nil => cases b <;> rfl
    | cons x xs ih =>
      cases b with
      | nil => rfl
      | cons y ys => rw [compareWhole_cons, compareWhole_cons, Ordering.swap_then, ← ih, ← x.sortOrder_swap]

/-- Three rows compare as a whole consistently if their columns do. -/
theorem compareWhole_trans {a b c : Row}
    (h : ∀ column, Sorting.Consistent Value.sortOrder [a.cell column, b.cell column, c.cell column])
    (hab : (compareWhole a b).isLE) (hbc : (compareWhole b c).isLE) : (compareWhole a c).isLE := by
  -- By induction on the rows at once; the shorter of two that agree comes first.
  induction a generalizing b c with
  | nil => cases c <;> rfl
  | cons x xs ih =>
    obtain _ | ⟨y, ys⟩ := b
    · cases hab
    obtain _ | ⟨z, zs⟩ := c
    · cases hbc
    have hfirst : Sorting.Consistent Value.sortOrder [x, y, z] := h 0
    have hx : x ∈ [x, y, z] := by simp
    have hy : y ∈ [x, y, z] := by simp
    have hz : z ∈ [x, y, z] := by simp
    rw [compareWhole_cons, Ordering.isLE_then_iff_and] at hab hbc ⊢
    refine ⟨hfirst x hx y hy z hz hab.1 hbc.1, ?_⟩
    rcases hab.2 with hlt | hab'
    · exact .inl (hfirst.lt_of_lt_of_isLE hx hy hz hlt hbc.1)
    rcases hbc.2 with hlt | hbc'
    · exact .inl (hfirst.lt_of_isLE_of_lt hx hy hz hab.1 hlt)
    · exact .inr (ih (fun column => h (column + 1)) hab' hbc')

variable {rows others : List Row}

theorem compareWhole_consistent
    (h : ∀ column, Sorting.Consistent Value.sortOrder (rows.map (·.cell column))) :
    Sorting.Consistent compareWhole rows := by
  intro a ha b hb c hc
  refine compareWhole_trans fun column => (h column).subset fun v hv => ?_
  simp only [List.mem_cons, List.not_mem_nil, or_false] at hv
  rcases hv with rfl | rfl | rfl
  all_goals exact List.mem_map_of_mem ‹_›

/-- **Sorted rows** do not depend on the order of the rows, but for ties. -/
theorem sortRows_perm {order : SortOrder} (h : order.Sorts rows) (hp : rows.Perm others) :
    ∃ out out', sortRows order rows = .ok out ∧ sortRows order others = .ok out' ∧
      List.Forall₂ (fun a b => order.compare a b = .eq) out out' := by
  obtain ⟨out, hout, hperm, hsorted⟩ := sortRows_ordered h
  obtain ⟨out', hout', hperm', hsorted'⟩ := sortRows_ordered (h.perm hp)
  exact ⟨out, out', hout, hout',
    h.compares.arrangements_tied hperm (hperm'.trans hp.symm) hsorted hsorted'⟩

/-- **The canonical arrangement** of rows does not depend on their order, but for ties. -/
theorem canonical_perm
    (h : ∀ column, Sorting.Consistent Value.sortOrder (rows.map (·.cell column)))
    (hp : rows.Perm others) :
    ∃ out out', canonical rows = .ok out ∧ canonical others = .ok out' ∧
      List.Forall₂ (fun a b => compareWhole a b = .eq) out out' := by
  have hcompares := compareWhole_consistent h
  have hbefore : ∀ items : List Row, ∀ a ∈ items, ∀ b ∈ items,
      (.ok (decide (compareWhole a b = .lt)) : Except Fault Bool)
        = .ok (decide (compareWhole a b = .lt)) := fun _ _ _ _ _ => rfl
  obtain ⟨out, hout, hperm, hsorted⟩ :=
    Sorting.stable_of_consistent false (hbefore rows) hcompares
  obtain ⟨out', hout', hperm', hsorted'⟩ :=
    Sorting.stable_of_consistent false (hbefore others) (hcompares.subset hp.symm.subset)
  exact ⟨out, out', hout, hout',
    hcompares.arrangements_tied hperm (hperm'.trans hp.symm) hsorted hsorted'⟩

open AggregateCall (least greatest)

/-- **The maximum depends on the order** of values whose ties do not pass on: the last one of a
cycle wins. -/
theorem consistent_of_greatest {values : List Value}
    (h : ∀ xs ys, xs ⊆ values → xs.Perm ys → (greatest xs).sortOrder (greatest ys) = .eq) :
    Sorting.Consistent Value.sortOrder values := by
  intro a ha b hb c hc hab hbc
  by_contra hac
  have hca : c.sortOrder a = .lt := Sorting.lt_iff_not_isLE.2 hac
  obtain ⟨hab, hbc⟩ := Sorting.tied_of_cycle Value.sortOrder_lt_trans hab hbc hca
  have hcb : c.sortOrder b = .eq := Std.OrientedCmp.eq_symm hbc
  have hba : b.sortOrder a = .eq := Std.OrientedCmp.eq_symm hab
  have hup : greatest [a, b, c] = c := by simp [greatest, hab, hbc]
  have hdown : greatest [c, b, a] = a := by simp [greatest, hcb, hba]
  have htied := h [a, b, c] [c, b, a] (by simp [ha, hb, hc]) (List.reverse_perm [a, b, c]).symm
  rw [hup, hdown, hca] at htied
  cases htied

/-- **The order of sorting is total but for ties.** Two values are in the same order from either side,
and what is strictly in order is transitive on all values. The order is transitive on values exactly
if their ties pass on, as those of nulls and values of one type do, unless one is no number; and
exactly if the maximum of some of them never depends on their order. Then the minimum does not
either, and neither do rows that are sorted by columns of such values, or arranged by all their
columns: what stands in one place is tied. -/
theorem sorting_is_total_but_for_ties (values : List Value) (order : SortOrder)
    (rows others : List Row) :
    (∀ a b : Value, a.sortOrder b = (b.sortOrder a).swap) ∧
    (∀ a b c : Value, a.sortOrder b = .lt → b.sortOrder c = .lt → a.sortOrder c = .lt) ∧
    (Sorting.Consistent Value.sortOrder values ↔ Sorting.TiesPass Value.sortOrder values) ∧
    (Sorting.TiesPass Value.sortOrder values ↔ ∀ xs ys, xs ⊆ values → xs.Perm ys →
      (greatest xs).sortOrder (greatest ys) = .eq) ∧
    (Sorting.TiesPass Value.sortOrder values → ∀ xs ys, xs ⊆ values → xs.Perm ys →
      (least xs).sortOrder (least ys) = .eq) ∧
    (∀ type : DataType, (∀ v ∈ values, v = .null ∨ v.dataType = type) →
      (∀ x, .float x ∈ values → (x == x) = true) → Sorting.TiesPass Value.sortOrder values) ∧
    (rows.Perm others → (∀ key ∈ order, ∀ row ∈ rows, key.column < row.length) →
      (∀ key ∈ order, Sorting.TiesPass Value.sortOrder (rows.map (·.cell key.column))) →
      ∃ out out', sortRows order rows = .ok out ∧ sortRows order others = .ok out' ∧
        List.Forall₂ (fun a b => order.compare a b = .eq) out out') ∧
    (rows.Perm others → (∀ column, Sorting.TiesPass Value.sortOrder (rows.map (·.cell column))) →
      ∃ out out', canonical rows = .ok out ∧ canonical others = .ok out' ∧
        List.Forall₂ (fun a b => compareWhole a b = .eq) out out') := by
  have hties : ∀ values : List Value,
      Sorting.Consistent Value.sortOrder values ↔ Sorting.TiesPass Value.sortOrder values :=
    fun _ => Sorting.consistent_iff_tiesPass Value.sortOrder_lt_trans
  refine ⟨Value.sortOrder_swap, Value.sortOrder_lt_trans, hties values, ?_, ?_, ?_, ?_, ?_⟩
  · refine ⟨fun h xs ys hxs hp => ?_, fun h => (hties values).1 (consistent_of_greatest h)⟩
    exact AggregateCall.greatest_tied (((hties values).2 h).subset hxs) hp
  · exact fun h xs ys hxs hp => AggregateCall.least_tied (((hties values).2 h).subset hxs) hp
  · exact fun type h hself => (hties values).1 (Value.consistent_of_numbers h hself)
  · exact fun hp hin h => sortRows_perm ⟨hin, fun key hk => (hties _).2 (h key hk)⟩ hp
  · exact fun hp h => canonical_perm (fun column => (hties _).2 (h column)) hp

/-- Whole numbers, a float and a null are put in order from either arrangement. -/
theorem mixed_numbers_are_in_order :
    Sorting.TiesPass Value.sortOrder [.int 2, .float 1.5, .null, .int 1] ∧
    ∃ out out', sortRows [⟨0, .ascending⟩] [[.int 2], [.float 1.5], [.null], [.int 1]] = .ok out ∧
      sortRows [⟨0, .ascending⟩] [[.int 1], [.null], [.float 1.5], [.int 2]] = .ok out' ∧
      List.Forall₂ (fun a b => SortOrder.compare [⟨0, .ascending⟩] a b = .eq) out out' := by
  have hties : Sorting.TiesPass Value.sortOrder [.int 2, .float 1.5, .null, .int 1] := by
    unfold Sorting.TiesPass
    decide +kernel
  refine ⟨hties, (sorting_is_total_but_for_ties [] _ _ _).2.2.2.2.2.2.1 (List.reverse_perm _).symm ?_ ?_⟩
  · simp
  · intro key hk
    obtain rfl := List.mem_singleton.1 hk
    exact hties

/-- **Values that do not compare are tied**, so the order of sorting is not transitive: with a text
or with what is no number between two numbers, or with a float between two numbers it is the nearest
to. What is sorted then depends on the order of the input, and so does a maximum. -/
theorem incomparable_values_are_tied :
    (¬∀ a b c : Value, (a.sortOrder b).isLE → (b.sortOrder c).isLE → (a.sortOrder c).isLE) ∧
    ¬Sorting.TiesPass Value.sortOrder [.int 2, .text "a", .int 1] ∧
    ¬Sorting.TiesPass Value.sortOrder [.float 2.0, .float (0.0 / 0.0), .float 1.0] ∧
    ¬Sorting.TiesPass Value.sortOrder
      [.int 9007199254740993, .float 9007199254740992.0, .int 9007199254740992] ∧
    sortRows [⟨0, .ascending⟩] [[.int 2], [.text "a"], [.int 1]]
      = .ok [[.int 2], [.text "a"], [.int 1]] ∧
    sortRows [⟨0, .ascending⟩] [[.int 1], [.text "a"], [.int 2]]
      = .ok [[.int 1], [.text "a"], [.int 2]] ∧
    canonical [[.int 2], [.text "a"], [.int 1]] = .ok [[.int 2], [.text "a"], [.int 1]] ∧
    canonical [[.int 1], [.text "a"], [.int 2]] = .ok [[.int 1], [.text "a"], [.int 2]] ∧
    greatest [.int 2, .text "a", .int 1] = .int 1 ∧ greatest [.int 1, .text "a", .int 2] = .int 2 := by
  refine ⟨fun h => ?_, ?_, ?_, ?_, by rfl, by rfl, by rfl, by rfl, by rfl, by rfl⟩
  · cases h (.int 2) (.text "a") (.int 1) (by rfl) (by rfl)
  all_goals
    unfold Sorting.TiesPass
    decide +kernel

end StreamPlan
