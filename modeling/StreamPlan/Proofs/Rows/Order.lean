import StreamPlan.Proofs.Answers.Basic
import StreamPlan.Proofs.Rows.Equality
import StreamPlan.Proofs.Rows.Ranks
import StreamPlan.Proofs.Rows.Sortable

/-!
# Orders of values and of rows

The order of sorting is the same read from either side. It is transitive on values of one
type, but not on all values: incomparable ones are tied. Where it is transitive on the
values of every column that is sorted by, rows can be sorted and are in order afterwards.

* `Sorting.Consistent`: a comparison is transitive on some items.
* `Sorting.stable_of_consistent`: items that compare consistently are sorted.
* `Value.consistent_of_type`: nulls and values of one type compare consistently, unless
  they are floats.
* `SortOrder.Sorts`: the columns of a sort order hold values that compare consistently.
* `sortRows_ordered`: **such rows can be sorted** and are in order.
* `sortRows_bounded`, `sortNumbered_bounded`: sorting rows by columns of them faults over an
  inconsistent order alone; `sortNumbered_gives`: it does not fault if the columns compare
  consistently, or if there are up to 20 rows.
-/

namespace StreamPlan

namespace Sorting

variable {α β : Type} {cmp : α → α → Ordering} {items others : List α}

/-- A comparison is transitive on items. -/
def Consistent (cmp : α → α → Ordering) (items : List α) : Prop :=
  ∀ a ∈ items, ∀ b ∈ items, ∀ c ∈ items, (cmp a b).isLE → (cmp b c).isLE → (cmp a c).isLE

theorem lt_iff_not_isLE [Std.OrientedCmp cmp] {a b : α} : cmp a b = .lt ↔ ¬(cmp b a).isLE := by
  rw [Ordering.isLE_iff_ne_gt, not_not, Std.OrientedCmp.gt_iff_lt]

namespace Consistent

theorem subset (h : Consistent cmp items) (hs : others ⊆ items) : Consistent cmp others :=
  fun a ha b hb c hc => h a (hs ha) b (hs hb) c (hs hc)

/-- Items compare consistently if what is compared of them does. -/
theorem of_map {f : α → β} {cmp : β → β → Ordering} (h : Consistent cmp (items.map f)) :
    Consistent (fun a b => cmp (f a) (f b)) items :=
  fun a ha b hb c hc =>
    h (f a) (List.mem_map_of_mem ha) (f b) (List.mem_map_of_mem hb) (f c) (List.mem_map_of_mem hc)

/-- Read from the other side, a comparison is as consistent as it was. -/
theorem opposite (h : Consistent cmp items) : Consistent (fun a b => cmp b a) items :=
  fun a ha b hb c hc hab hbc => h c hc b hb a ha hbc hab

variable [Std.OrientedCmp cmp] {a b c : α}

theorem lt_of_lt_of_isLE (h : Consistent cmp items) (ha : a ∈ items) (hb : b ∈ items)
    (hc : c ∈ items) (hab : cmp a b = .lt) (hbc : (cmp b c).isLE) : cmp a c = .lt :=
  lt_iff_not_isLE.2 fun hca => lt_iff_not_isLE.1 hab (h b hb c hc a ha hbc hca)

theorem lt_of_isLE_of_lt (h : Consistent cmp items) (ha : a ∈ items) (hb : b ∈ items)
    (hc : c ∈ items) (hab : (cmp a b).isLE) (hbc : cmp b c = .lt) : cmp a c = .lt :=
  lt_iff_not_isLE.2 fun hca => lt_iff_not_isLE.1 hbc (h c hc a ha b hb hca hab)

/-- Ties pass on. -/
theorem tied (h : Consistent cmp items) (ha : a ∈ items) (hb : b ∈ items) (hc : c ∈ items)
    (hab : cmp a b = .eq) (hbc : cmp b c = .eq) : cmp a c = .eq := by
  have hba : cmp b a = .eq := Std.OrientedCmp.eq_symm hab
  have hcb : cmp c b = .eq := Std.OrientedCmp.eq_symm hbc
  refine Std.OrientedCmp.isLE_antisymm (h a ha b hb c hc ?_ ?_) (h c hc b hb a ha ?_ ?_)
  all_goals simp [hab, hbc, hba, hcb]

/-- A second comparison breaks the ties of a first one. -/
theorem tiebreak {cmp' : α → α → Ordering} (h : Consistent cmp items) (h' : Consistent cmp' items) :
    Consistent (fun a b => (cmp a b).then (cmp' a b)) items := by
  intro a ha b hb c hc hab hbc
  rw [Ordering.isLE_then_iff_and] at hab hbc ⊢
  obtain ⟨hab, hab'⟩ := hab
  obtain ⟨hbc, hbc'⟩ := hbc
  refine ⟨h a ha b hb c hc hab hbc, ?_⟩
  rcases hab' with hlt | hab'
  · exact .inl (h.lt_of_lt_of_isLE ha hb hc hlt hbc)
  · rcases hbc' with hlt | hbc'
    · exact .inl (h.lt_of_isLE_of_lt ha hb hc hab hlt)
    · exact .inr (h' a ha b hb c hc hab' hbc')

/-- Items are ordered by how many come before them. -/
theorem count_lt_iff (h : Consistent cmp items) (ha : a ∈ items) (hb : b ∈ items) :
    items.countP (cmp · a = .lt) < items.countP (cmp · b = .lt) ↔ cmp a b = .lt := by
  constructor
  · refine fun hless => lt_iff_not_isLE.2 fun hba => Nat.not_le.2 hless ?_
    refine List.countP_mono_left fun x hx hxb => ?_
    exact decide_eq_true (h.lt_of_lt_of_isLE hx hb ha (of_decide_eq_true hxb) hba)
  · intro hab
    -- what comes before `a` comes before `b`, and so does `a`
    have hbefore : items.filter (cmp · a = .lt)
        = (items.filter (cmp · b = .lt)).filter (cmp · a = .lt) := by
      rw [List.filter_filter]
      refine List.filter_congr fun x hx => ?_
      rw [eq_comm, Bool.and_eq_left_iff_imp]
      intro hxa
      have hle : (cmp a b).isLE := by rw [hab]; rfl
      exact decide_eq_true (h.lt_of_lt_of_isLE hx ha hb (of_decide_eq_true hxa) hle)
    rw [List.countP_eq_length_filter, List.countP_eq_length_filter, hbefore,
      List.length_filter_lt_length_iff_exists]
    have hself : cmp a a = .eq := Std.ReflCmp.compare_self
    exact ⟨a, List.mem_filter.2 ⟨ha, decide_eq_true hab⟩, by rw [hself]; decide⟩

end Consistent

/-- **Items that compare consistently** can be sorted and are in order afterwards. -/
theorem stable_of_consistent [Std.OrientedCmp cmp] {before : α → α → Except Fault Bool} (narrow : Bool)
    (hbefore : ∀ a ∈ items, ∀ b ∈ items, before a b = .ok (decide (cmp a b = .lt)))
    (h : Consistent cmp items) :
    ∃ out, stable before narrow items = .ok out ∧ out.Perm items ∧
      out.Pairwise fun a b => (cmp a b).isLE := by
  obtain ⟨out, hout, hperm, hsorted⟩ := stable_of_ranks narrow fun a ha b hb =>
    (hbefore a ha b hb).trans (congrArg _ (decide_eq_decide.2 (h.count_lt_iff ha hb).symm))
  refine ⟨out, hout, hperm, hsorted.imp_of_mem fun ha hb hle => ?_⟩
  rw [Ordering.isLE_iff_ne_gt, Std.OrientedCmp.gt_iff_lt,
    ← h.count_lt_iff (hperm.mem_iff.1 hb) (hperm.mem_iff.1 ha)]
  exact Nat.not_lt.2 hle

end Sorting

namespace Value

theorem unpacked_swap (x y : Float.Model.UnpackedFloat) : x.compare y = (y.compare x).map Ordering.swap := by
  cases x with
  | notANumber => cases y <;> rfl
  | infinity s =>
    cases y with
    | infinity t => cases s <;> cases t <;> rfl
    | finite t => cases s <;> cases t <;> rfl
    | _ => cases s <;> rfl
  | zero s =>
    cases y with
    | infinity t => cases t <;> rfl
    | finite t => cases t <;> rfl
    | _ => rfl
  | finite s m e hm =>
    cases y with
    | notANumber => cases s <;> rfl
    | infinity t => cases s <;> cases t <;> rfl
    | zero t => cases s <;> rfl
    | finite t m' e' hm' =>
      -- of one sign, the exponents are compared first, the mantissas next
      have hswap : (compare e e').then (compare m m') = ((compare e' e).then (compare m' m)).swap := by
        rw [Ordering.swap_then, ← Std.OrientedCmp.eq_swap, ← Std.OrientedCmp.eq_swap]
      cases s <;> cases t
      all_goals first
        | rfl
        | exact congrArg some hswap
        | exact congrArg (some ∘ Ordering.swap) hswap

theorem compareFloats_eq (a b : Float) :
    compareFloats a b = a.toModel.unpack.compare b.toModel.unpack := by
  have hback := unpacked_swap b.toModel.unpack a.toModel.unpack
  simp only [compareFloats, float_lt_iff, float_beq_iff]
  rcases hab : a.toModel.unpack.compare b.toModel.unpack with _ | _ | _ | _
  all_goals
    rw [hab] at hback
    simp [hback]

/-- Texts are ordered as the library orders them. -/
instance : Std.TransCmp compareTexts :=
  inferInstanceAs (Std.TransCmp fun a b : String => compare a b)

/-- The comparison of the query language is the same read from the other side. -/
theorem compare?_swap (a b : Value) : a.compare? b = (b.compare? a).map Ordering.swap := by
  have hint : ∀ m n : Int, compare m n = (compare n m).swap := fun m n => Std.OrientedCmp.eq_swap
  have hfloat : ∀ x y : Float, compareFloats x y = (compareFloats y x).map Ordering.swap :=
    fun x y => by rw [compareFloats_eq, compareFloats_eq, unpacked_swap]
  cases a <;> cases b
  all_goals first
    | rfl
    | exact hfloat _ _
    | exact congrArg some (hint _ _)
    | exact congrArg some Std.OrientedCmp.eq_swap

/-- The order of sorting is the same read from the other side. -/
instance : Std.OrientedCmp sortOrder where
  eq_swap {a b} := by
    unfold sortOrder
    cases a.isNull <;> cases b.isNull
    · rw [compare?_swap]
      cases b.compare? a <;> rfl
    all_goals rfl

theorem sortOrder_swap (a b : Value) : a.sortOrder b = (b.sortOrder a).swap := Std.OrientedCmp.eq_swap

theorem isLE_self (v : Value) : (v.sortOrder v).isLE := by
  have hself : v.sortOrder v = .eq := Std.ReflCmp.compare_self
  rw [hself]
  rfl

/-- Nothing comes behind null. -/
theorem isLE_null (v : Value) : (v.sortOrder .null).isLE := by
  cases v <;> rfl

theorem eq_null_of_isLE {v : Value} (h : (null.sortOrder v).isLE) : v = .null := by
  cases v <;> first | rfl | cases h

/-- Values of one type are in an order, unless they are floats. -/
theorem sortOrder_trans {a b c : Value} (ht : a.dataType ≠ .float64) (hb : b.dataType = a.dataType)
    (hc : c.dataType = a.dataType) (hab : (a.sortOrder b).isLE) (hbc : (b.sortOrder c).isLE) :
    (a.sortOrder c).isLE := by
  have hint : ∀ x y z : Int, (compare x y).isLE → (compare y z).isLE → (compare x z).isLE :=
    fun _ _ _ => Std.TransCmp.isLE_trans
  cases a with
  | boolean x =>
    cases b <;> cases hb
    cases c <;> cases hc
    have hbool : ∀ x y z : Bool, (compare x y).isLE → (compare y z).isLE → (compare x z).isLE :=
      fun _ _ _ => Std.TransCmp.isLE_trans
    exact hbool _ _ _ hab hbc
  | text x =>
    cases b <;> cases hb
    cases c <;> cases hc
    have htext : ∀ x y z : String, (compareTexts x y).isLE → (compareTexts y z).isLE →
        (compareTexts x z).isLE := fun _ _ _ => Std.TransCmp.isLE_trans
    exact htext _ _ _ hab hbc
  | float x => exact absurd rfl ht
  | null =>
    obtain rfl := eq_null_of_isLE hab
    obtain rfl := eq_null_of_isLE hbc
    rfl
  | list x =>
    -- a collection is tied with all others, and null comes last
    cases c <;> rfl
  | _ =>
    cases b <;> cases hb
    cases c <;> cases hc
    exact hint _ _ _ hab hbc

/-- **Nulls and values of one type** compare consistently, unless they are floats. -/
theorem consistent_of_type {values : List Value} {t : DataType} (ht : t ≠ .float64)
    (h : ∀ v ∈ values, v = .null ∨ v.dataType = t) : Sorting.Consistent sortOrder values := by
  intro a ha b hb c hc hab hbc
  rcases h a ha with rfl | hta
  · obtain rfl := eq_null_of_isLE hab
    obtain rfl := eq_null_of_isLE hbc
    rfl
  rcases h b hb with rfl | htb
  · obtain rfl := eq_null_of_isLE hbc
    exact isLE_null a
  rcases h c hc with rfl | htc
  · exact isLE_null a
  subst hta
  exact sortOrder_trans ht htb htc hab hbc

end Value

/-- The value of a row at a column, null outside the row. -/
def Row.cell (row : Row) (column : Nat) : Value := (row[column]?).getD .null

theorem Row.itemAt_cell {row : Row} {column : Nat} (h : column < row.length) :
    itemAt row column = .ok (row.cell column) := by
  rw [itemAt_eq_ok, cell, List.getElem?_eq_getElem h]
  rfl

namespace Direction

variable (direction : Direction)

theorem compare_swap (a b : Value) : direction.compare a b = (direction.compare b a).swap := by
  cases direction with
  | ascending => exact a.sortOrder_swap b
  | descending => exact congrArg Ordering.swap (a.sortOrder_swap b)

/-- In either direction, values compare as consistently. -/
theorem consistent {values : List Value} (h : Sorting.Consistent Value.sortOrder values) :
    Sorting.Consistent direction.compare values := by
  cases direction with
  | ascending => exact h
  | descending =>
    intro a ha b hb c hc
    simp only [compare, ← Value.sortOrder_swap]
    exact h.opposite a ha b hb c hc

end Direction

/-- The order of two rows by one column. -/
def SortKey.compare (key : SortKey) (a b : Row) : Ordering :=
  key.direction.compare (a.cell key.column) (b.cell key.column)

instance (key : SortKey) : Std.OrientedCmp key.compare where
  eq_swap := key.direction.compare_swap _ _

namespace SortOrder

/-- The order of two rows by a sort order. -/
def compare (order : SortOrder) (a b : Row) : Ordering :=
  order.foldr (fun key rest => (key.compare a b).then rest) .eq

/-- Rows that can be sorted: each has a value in the columns of a sort order, and the values
of a column compare consistently. -/
structure Sorts (order : SortOrder) (rows : List Row) : Prop where
  inside : ∀ key ∈ order, ∀ row ∈ rows, key.column < row.length
  consistent : ∀ key ∈ order, Sorting.Consistent Value.sortOrder (rows.map (·.cell key.column))

variable {order : SortOrder} {rows : List Row}

theorem compare_cons (key : SortKey) (keys : SortOrder) (a b : Row) :
    compare (key :: keys) a b = (key.compare a b).then (keys.compare a b) := rfl

theorem compare_append (front back : SortOrder) (a b : Row) :
    compare (front ++ back) a b = (front.compare a b).then (back.compare a b) := by
  induction front with
  | nil => rfl
  | cons key front ih => rw [List.cons_append, compare_cons, compare_cons, ih, Ordering.then_assoc]

instance (order : SortOrder) : Std.OrientedCmp order.compare where
  eq_swap {a b} := by
    induction order with
    | nil => rfl
    | cons key keys ih =>
      rw [compare_cons, compare_cons, Ordering.swap_then, ← ih, ← Std.OrientedCmp.eq_swap]

theorem isLE_self (order : SortOrder) (a : Row) : (order.compare a a).isLE := by
  have hself : order.compare a a = .eq := Std.ReflCmp.compare_self
  rw [hself]
  rfl

theorem Sorts.tail {key : SortKey} (h : Sorts (key :: order) rows) : order.Sorts rows :=
  ⟨fun k hk => h.inside k (List.mem_cons_of_mem key hk),
    fun k hk => h.consistent k (List.mem_cons_of_mem key hk)⟩

theorem Sorts.perm {others : List Row} (h : order.Sorts rows) (hp : rows.Perm others) :
    order.Sorts others :=
  ⟨fun key hk row hrow => h.inside key hk row (hp.symm.subset hrow),
    fun key hk => (h.consistent key hk).subset (hp.map _).symm.subset⟩

/-- Rows that can be sorted compare consistently. -/
theorem Sorts.compares (h : order.Sorts rows) : Sorting.Consistent order.compare rows := by
  induction order with
  | nil => exact fun _ _ _ _ _ _ _ _ => rfl
  | cons key keys ih =>
    have hfirst : Sorting.Consistent key.compare rows :=
      (key.direction.consistent (h.consistent key List.mem_cons_self)).of_map
    exact hfirst.tiebreak (ih h.tail)

end SortOrder

variable {order : SortOrder} {rows : List Row}

theorem compareRows_of_inside {a b : Row} (ha : ∀ key ∈ order, key.column < a.length)
    (hb : ∀ key ∈ order, key.column < b.length) : compareRows a b order = .ok (order.compare a b) := by
  induction order with
  | nil => rfl
  | cons key keys ih =>
    obtain ⟨hka, ha⟩ := List.forall_mem_cons.1 ha
    obtain ⟨hkb, hb⟩ := List.forall_mem_cons.1 hb
    rw [compareRows, Row.itemAt_cell hka, Row.itemAt_cell hkb, ok_bind, ok_bind, ih ha hb,
      SortOrder.compare_cons, SortKey.compare]
    cases key.direction.compare (a.cell key.column) (b.cell key.column) <;> rfl

theorem precedes_of_inside {a b : Row} (ha : ∀ key ∈ order, key.column < a.length)
    (hb : ∀ key ∈ order, key.column < b.length) :
    precedes order a b = .ok (decide (order.compare a b = .lt)) := by
  rw [precedes, compareRows_of_inside ha hb]
  rfl

/-- **Rows with consistent columns can be sorted** and are in order afterwards. -/
theorem sortRows_ordered (h : order.Sorts rows) :
    ∃ out, sortRows order rows = .ok out ∧ out.Perm rows ∧
      out.Pairwise fun a b => (order.compare a b).isLE :=
  Sorting.stable_of_consistent false (fun a ha b hb => precedes_of_inside
    (fun key hk => h.inside key hk a ha) fun key hk => h.inside key hk b hb) h.compares

section Inside

variable {allowed : Fault → Prop} (hin : ∀ row ∈ rows, ∀ key ∈ order, key.column < row.length)

include hin

theorem sortRows_bounded (hi : allowed .inconsistentOrder) :
    Bounded allowed (sortRows order rows) fun _ => True :=
  Sorting.stable_bounded (fun a ha b hb => ⟨_, precedes_of_inside (hin a ha) (hin b hb), trivial⟩) hi
    false

theorem precedes_zipIdx : ∀ p ∈ rows.zipIdx, ∀ q ∈ rows.zipIdx,
    precedes order p.1 q.1 = .ok (decide (order.compare p.1 q.1 = .lt)) := fun _ hp _ hq =>
  precedes_of_inside (hin _ (List.fst_mem_of_mem_zipIdx hp)) (hin _ (List.fst_mem_of_mem_zipIdx hq))

theorem sortNumbered_bounded (hi : allowed .inconsistentOrder) :
    Bounded allowed (sortNumbered order rows) fun _ => True :=
  Sorting.stable_bounded (fun p hp q hq => ⟨_, precedes_zipIdx hin p hp q hq, trivial⟩) hi true

/-- Rows can be numbered in order if their columns compare consistently, or if they are few. -/
theorem sortNumbered_gives (h : rows.length ≤ 20 ∨ order.Sorts rows) :
    Gives (sortNumbered order rows) fun _ => True := by
  have hprecedes := precedes_zipIdx hin
  rcases h with hfew | hsorts
  · exact Sorting.stable_gives (fun p hp q hq => ⟨_, hprecedes p hp q hq, trivial⟩) true (by simpa using hfew)
  · have hcompares : Sorting.Consistent (fun p q : Row × Nat => order.compare p.1 q.1) rows.zipIdx :=
      (hsorts.compares.subset (fun row hrow => by rwa [List.zipIdx_map_fst] at hrow)).of_map
    have : Std.OrientedCmp fun p q : Row × Nat => order.compare p.1 q.1 := ⟨Std.OrientedCmp.eq_swap⟩
    obtain ⟨out, hout, -⟩ := Sorting.stable_of_consistent true hprecedes hcompares
    exact ⟨out, hout, trivial⟩

end Inside

end StreamPlan
