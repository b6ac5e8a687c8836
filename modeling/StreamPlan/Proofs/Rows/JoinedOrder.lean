import StreamPlan.Plan.Join
import StreamPlan.Proofs.Rows.Order

/-!
# Sorting by one order after another

A joined order leaves out the columns that are sorted by already, whatever direction they have
the second time. Rows that are tied on a column once are tied on it again, so the order of two
rows is that of the first order and, where this ties them, that of the second. A stable sort
by the second order and then by the first is therefore one sort by both.

* `Sorting.Arranges`: the stable arrangement of items. There is one (`Arranges.unique`), two of
  them in a row are one by both comparisons (`Arranges.after`), and sorting gives it
  (`Sorting.stable_arranges`).
* `compareRows_join`: **a joined order compares** by its first order, then by its second.
* `sortRows_join`: **a joined order sorts** as its second order followed by its first.
* `SortOrder.join_assoc`: three orders are joined either way.
* `joined_orders_sort_twice`: **all of it together.**
-/

namespace StreamPlan

namespace Sorting

variable {α : Type} {cmp cmp' : α → α → Ordering} {before : α → α → Except Fault Bool}
  {items mid out out' : List α}

/-- The stable arrangement of items: they are in order, and tied ones stand as they did. -/
structure Arranges (cmp : α → α → Ordering) (items out : List α) : Prop where
  perm : out.Perm items
  sorted : out.Pairwise fun a b => (cmp a b).isLE
  ties : ∀ a ∈ items, (out.filter fun b => cmp a b = .eq) = items.filter fun b => cmp a b = .eq

/-- Lists of the same items in order are the same if tied items stand alike in both. -/
theorem eq_of_ties [Std.OrientedCmp cmp] (hp : out.Perm out')
    (hs : out.Pairwise fun a b => (cmp a b).isLE) (hs' : out'.Pairwise fun a b => (cmp a b).isLE)
    (hties : ∀ a ∈ out, (out.filter fun b => cmp a b = .eq) = out'.filter fun b => cmp a b = .eq) :
    out = out' := by
  induction out generalizing out' with
  | nil => exact hp.nil_eq
  | cons x xs ih =>
    obtain _ | ⟨y, ys⟩ := out'
    · exact hp.eq_nil
    obtain ⟨hx, hxs⟩ := List.pairwise_cons.1 hs
    obtain ⟨hy, hys⟩ := List.pairwise_cons.1 hs'
    -- both lists start with a least item, so these are tied and are the first of their ties
    have hself : ∀ a : α, cmp a a = .eq := fun _ => Std.ReflCmp.compare_self
    have hle : (cmp x y).isLE := by
      rcases List.mem_cons.1 (hp.symm.subset List.mem_cons_self) with rfl | hmem
      · simp [hself]
      · exact hx y hmem
    have hge : (cmp y x).isLE := by
      rcases List.mem_cons.1 (hp.subset List.mem_cons_self) with rfl | hmem
      · simp [hself]
      · exact hy x hmem
    have htied : cmp x y = .eq := Std.OrientedCmp.isLE_antisymm hle hge
    obtain rfl : x = y := by
      have hfirst := hties x List.mem_cons_self
      rw [List.filter_cons_of_pos (by simpa using hself x),
        List.filter_cons_of_pos (by simpa using htied)] at hfirst
      exact (List.cons.inj hfirst).1
    rw [ih hp.cons_inv hxs hys fun a ha => ?_]
    have hall := hties a (List.mem_cons_of_mem _ ha)
    rw [List.filter_cons, List.filter_cons] at hall
    split at hall
    · exact (List.cons.inj hall).2
    · exact hall

/-- There is one stable arrangement. -/
theorem Arranges.unique [Std.OrientedCmp cmp] (h : Arranges cmp items out)
    (h' : Arranges cmp items out') : out = out' := by
  refine eq_of_ties (h.perm.trans h'.perm.symm) h.sorted h'.sorted fun a ha => ?_
  have ha := h.perm.subset ha
  rw [h.ties a ha, h'.ties a ha]

/-- **Two stable arrangements in a row** are one by the later comparison and then by the earlier
one. -/
theorem Arranges.after [Std.OrientedCmp cmp] (h : Arranges cmp mid out) (h' : Arranges cmp' items mid) :
    Arranges (compareLex cmp cmp') items out := by
  have hlex : ∀ a b, compareLex cmp cmp' a b = .eq ↔ cmp a b = .eq ∧ cmp' a b = .eq := fun _ _ =>
    Ordering.then_eq_eq
  refine ⟨h.perm.trans h'.perm, List.pairwise_iff_forall_sublist.2 fun {a b} hab => ?_,
    fun a ha => ?_⟩
  · have hle : (cmp a b).isLE := List.pairwise_iff_forall_sublist.1 h.sorted hab
    refine Ordering.isLE_then_iff_and.2 ⟨hle, ?_⟩
    -- of two tied items the first one stood in front before
    rcases hcmp : cmp a b with _ | _ | _
    · exact .inl rfl
    · right
      have htied := hab.filter fun c => decide (cmp a c = .eq)
      have hself : cmp a a = .eq := Std.ReflCmp.compare_self
      rw [List.filter_cons_of_pos (by simpa using hself), List.filter_cons_of_pos (by simpa using hcmp),
        List.filter_nil, h.ties a (h.perm.subset (hab.subset List.mem_cons_self))] at htied
      exact List.pairwise_iff_forall_sublist.1 h'.sorted (htied.trans List.filter_sublist)
    · rw [hcmp] at hle
      cases hle
  · have hboth : ∀ l : List α, (l.filter fun b => compareLex cmp cmp' a b = .eq)
        = (l.filter fun b => cmp a b = .eq).filter fun b => cmp' a b = .eq := fun l => by
      rw [List.filter_filter]
      refine List.filter_congr fun b _ => ?_
      rw [← Bool.decide_and, decide_eq_decide, hlex, and_comm]
    rw [hboth, hboth, h.ties a (h'.perm.mem_iff.2 ha), List.filter_comm, h'.ties a ha, List.filter_comm]

/-- An item that is put behind those it does not precede stays behind its like. -/
theorem filter_insertFromEnd {p : α → Bool} {x : α} {ys : List α}
    (hp : p x = true → ∀ y ∈ ys, p y = true → before x y = .ok false)
    (h : insertFromEnd before x ys = .ok out) : out.filter p = (x :: ys).filter p := by
  induction ys generalizing out with
  | nil =>
    cases h
    rfl
  | cons y ys ih =>
    rw [insertFromEnd] at h
    obtain ⟨passes, hpasses, h⟩ := bind_eq_ok.1 h
    split at h
    · rename_i htrue
      obtain ⟨rest, hrest, h⟩ := bind_eq_ok.1 h
      cases h
      rw [List.filter_cons, ih (fun hx z hz => hp hx z (List.mem_cons_of_mem _ hz)) hrest]
      -- the item passes no item of its like
      cases hx : p x with
      | false => simp [List.filter_cons, hx]
      | true =>
        cases hy : p y with
        | false => simp [hx, hy]
        | true =>
          rw [hp hx y List.mem_cons_self hy] at hpasses
          cases hpasses
          cases htrue
    · cases h
      rfl

/-- Items of which none has to precede another stand as they did. -/
theorem filter_insertion {p : α → Bool}
    (hp : ∀ x ∈ items, ∀ y ∈ items, p x = true → p y = true → before x y = .ok false)
    (h : insertion before items = .ok out) : out.filter p = items.filter p := by
  unfold insertion insertAll at h
  obtain ⟨reversed, hreversed, h⟩ := bind_eq_ok.1 h
  cases h
  have hall : reversed.Perm items ∧ reversed.filter p = items.reverse.filter p := by
    refine foldlM_run
      (I := fun done reversed => reversed.Perm done ∧ reversed.filter p = done.reverse.filter p)
      ⟨.refl _, rfl⟩ (fun done x reversed next hbegins ⟨hperm, hfilter⟩ hnext => ?_) hreversed
    have hdone : ∀ y ∈ done ++ [x], y ∈ items := hbegins.subset
    have hx : x ∈ items := hdone x (by simp)
    refine ⟨(insertFromEnd_perm hnext).trans ((hperm.cons x).trans
      (List.perm_append_singleton x done).symm), ?_⟩
    rw [filter_insertFromEnd (fun hpx y hy => hp x hx y
      (hdone y (List.mem_append_left _ (hperm.subset hy))) hpx) hnext, List.reverse_append,
      List.reverse_singleton, List.singleton_append, List.filter_cons, List.filter_cons, hfilter]
  rw [List.filter_reverse, hall.2, ← List.filter_reverse, List.reverse_reverse]

/-- **Items that compare consistently** are arranged stably when they are sorted. -/
theorem stable_arranges [Std.OrientedCmp cmp] (narrow : Bool)
    (hbefore : ∀ a ∈ items, ∀ b ∈ items, before a b = .ok (decide (cmp a b = .lt)))
    (h : Consistent cmp items) :
    ∃ out, stable before narrow items = .ok out ∧ Arranges cmp items out := by
  obtain ⟨out, hout, hperm, hsorted⟩ := stable_of_consistent narrow hbefore h
  refine ⟨out, hout, hperm, hsorted, fun a ha => ?_⟩
  rw [stable_eq_insertion narrow fun a ha b hb =>
    (hbefore a ha b hb).trans (congrArg _ (decide_eq_decide.2 (h.count_lt_iff ha hb).symm))] at hout
  refine filter_insertion (fun x hx y hy hax hay => ?_) hout
  have hxy : cmp x y = .eq :=
    h.tied hx ha hy (Std.OrientedCmp.eq_symm (of_decide_eq_true hax)) (of_decide_eq_true hay)
  rw [hbefore x hx y hy, hxy]
  rfl

end Sorting

/-- A comparison, and another one where it ties. -/
def breakTies (first second : Except Fault Ordering) : Except Fault Ordering := do
  match ← first with
  | .eq => second
  | other => return other

theorem breakTies_assoc (x y z : Except Fault Ordering) :
    breakTies (breakTies x y) z = breakTies x (breakTies y z) := by
  rcases x with _ | _ | _ | _ <;> rfl

/-- A comparison that ties wherever the first one does adds nothing. -/
theorem breakTies_of_tied {x y : Except Fault Ordering} (h : x = .ok .eq → y = .ok .eq) :
    breakTies x y = x := by
  rcases x with _ | _ | _ | _
  · rfl
  · rfl
  · exact h rfl
  · rfl

section Compare

variable {x y : Row} {order : SortOrder}

theorem compareRows_cons (x y : Row) (key : SortKey) (keys : SortOrder) :
    compareRows x y (key :: keys) = breakTies (compareRows x y [key]) (compareRows x y keys) := by
  simp only [compareRows]
  cases itemAt x key.column with
  | error e => rfl
  | ok u =>
    cases itemAt y key.column with
    | error e => rfl
    | ok v =>
      simp only [ok_bind]
      cases key.direction.compare u v <;> rfl

theorem compareRows_append (x y : Row) (front back : SortOrder) :
    compareRows x y (front ++ back) = breakTies (compareRows x y front) (compareRows x y back) := by
  induction front with
  | nil => rfl
  | cons key front ih =>
    rw [List.cons_append, compareRows_cons, ih, ← breakTies_assoc, ← compareRows_cons]

/-- **A tie on some columns** is one on each of them, in either direction. -/
theorem compareRows_tied {key : SortKey} (h : compareRows x y order = .ok .eq)
    (hk : key.column ∈ order.columns) : compareRows x y [key] = .ok .eq := by
  have hdirection : ∀ (d : Direction) (u v : Value), d.compare u v = .eq ↔ u.sortOrder v = .eq := by
    intro d u v
    cases d
    · exact Iff.rfl
    · exact Ordering.swap_eq_eq
  induction order with
  | nil => cases hk
  | cons first rest ih =>
    rw [compareRows] at h
    obtain ⟨u, hu, h⟩ := bind_eq_ok.1 h
    obtain ⟨v, hv, h⟩ := bind_eq_ok.1 h
    split at h
    · rename_i htied
      rcases List.mem_cons.1 hk with hk | hk
      · rw [compareRows, hk, hu, ok_bind, hv, ok_bind,
          (hdirection key.direction u v).2 ((hdirection first.direction u v).1 htied)]
        rfl
      · exact ih h hk
    · rename_i hne
      exact absurd (pure_eq_ok.1 h) hne

theorem compareRows_extend (x y : Row) (order : SortOrder) (key : SortKey) :
    compareRows x y (order.extend key) = breakTies (compareRows x y order) (compareRows x y [key]) := by
  rw [SortOrder.extend]
  split
  · rename_i hmem
    rw [breakTies_of_tied fun h => compareRows_tied h (List.contains_iff_mem.1 hmem)]
  · exact compareRows_append x y order [key]

/-- **A joined order compares** rows by its first order, and by its second where that ties them.
It faults where these do. -/
theorem compareRows_join (x y : Row) (a b : SortOrder) :
    compareRows x y (a.join b) = breakTies (compareRows x y a) (compareRows x y b) := by
  induction b generalizing a with
  | nil => exact (breakTies_of_tied fun _ => rfl).symm
  | cons key keys ih =>
    rw [show a.join (key :: keys) = (a.extend key).join keys from rfl, ih, compareRows_extend,
      breakTies_assoc, ← compareRows_cons]

end Compare

namespace SortOrder

variable {a b : SortOrder} {rows others : List Row}

theorem extend_join (a b : SortOrder) (key : SortKey) :
    (a.join b).extend key = a.join (b.extend key) := by
  have hpush : a.join (b ++ [key]) = (a.join b).extend key := List.foldl_concat _ _ _ _
  rw [extend, extend]
  by_cases hb : key.column ∈ b.columns
  · rw [if_pos (List.contains_iff_mem.2 (mem_columns_join.2 (.inr hb))),
      if_pos (List.contains_iff_mem.2 hb)]
  · rw [if_neg (mt List.contains_iff_mem.1 hb), hpush]
    rfl

/-- Three orders are joined either way. -/
theorem join_assoc (a b c : SortOrder) : (a.join b).join c = a.join (b.join c) := by
  induction c generalizing b with
  | nil => rfl
  | cons key keys ih =>
    rw [show (a.join b).join (key :: keys) = ((a.join b).extend key).join keys from rfl, extend_join, ih]
    rfl

end SortOrder

/-- **A joined order sorts** rows as its second order does, followed by its first. -/
theorem sortRows_join {a b : SortOrder} {rows : List Row} (ha : a.Sorts rows) (hb : b.Sorts rows) :
    ∃ out, sortRows (a.join b) rows = .ok out ∧ (sortRows b rows >>= sortRows a) = .ok out := by
  have hprecedes : ∀ {order : SortOrder} {rows : List Row}, order.Sorts rows → ∀ x ∈ rows, ∀ y ∈ rows,
      precedes order x y = .ok (decide (order.compare x y = .lt)) := fun h x hx y hy =>
    precedes_of_inside (fun key hk => h.inside key hk x hx) fun key hk => h.inside key hk y hy
  have hjoined : ∀ x ∈ rows, ∀ y ∈ rows,
      precedes (a.join b) x y = .ok (decide (compareLex a.compare b.compare x y = .lt)) := by
    intro x hx y hy
    rw [precedes, compareRows_join,
      compareRows_of_inside (fun key hk => ha.inside key hk x hx) fun key hk => ha.inside key hk y hy,
      compareRows_of_inside (fun key hk => hb.inside key hk x hx) fun key hk => hb.inside key hk y hy,
      compareLex]
    cases a.compare x y <;> rfl
  obtain ⟨mid, hmid, hmids⟩ := Sorting.stable_arranges false (hprecedes hb) hb.compares
  have hamid : a.Sorts mid := ha.perm hmids.perm.symm
  obtain ⟨out, hout, houts⟩ := Sorting.stable_arranges false (hprecedes hamid) hamid.compares
  obtain ⟨both, hboth, hboths⟩ := Sorting.stable_arranges false hjoined (ha.compares.tiebreak hb.compares)
  obtain rfl := hboths.unique (houts.after hmids)
  exact ⟨both, hboth, bind_eq_ok.2 ⟨mid, hmid, hout⟩⟩

/-- Every row has a value in a column, all of which are null or of one type other than that of
floats. -/
def OneType (rows : List Row) (column : Nat) : Prop :=
  ∃ type, type ≠ DataType.float64 ∧
    ∀ row ∈ rows, ∃ v, row[column]? = some v ∧ (v = .null ∨ v.dataType = type)

theorem sorts_of_oneType {order : SortOrder} {rows : List Row}
    (h : ∀ key ∈ order, OneType rows key.column) : order.Sorts rows := by
  refine ⟨fun key hk row hrow => ?_, fun key hk => ?_⟩
  · obtain ⟨_, -, hrows⟩ := h key hk
    obtain ⟨v, hv, -⟩ := hrows row hrow
    exact (List.getElem?_eq_some_iff.1 hv).1
  · obtain ⟨type, hfloat, hrows⟩ := h key hk
    refine Value.consistent_of_type hfloat (List.forall_mem_map.2 fun row hrow => ?_)
    obtain ⟨v, hv, htype⟩ := hrows row hrow
    rwa [Row.cell, hv, Option.getD_some]

/-- **Joined orders.** Any two rows compare by a joined order as by its first order and, where
that ties them, by its second, also where columns repeat in either direction. Rows with nulls and
values of one type in every column that is sorted by come out of one sort by the joined order as
of a sort by the second order followed by one by the first. And three orders may be joined from
either side. -/
theorem joined_orders_sort_twice (a b c : SortOrder) (rows : List Row) :
    (∀ x y : Row, compareRows x y (a.join b) = breakTies (compareRows x y a) (compareRows x y b)) ∧
    ((∀ key ∈ a ++ b, OneType rows key.column) →
      ∃ out, sortRows (a.join b) rows = .ok out ∧ (sortRows b rows >>= sortRows a) = .ok out) ∧
    (a.join b).join c = a.join (b.join c) := by
  refine ⟨fun x y => compareRows_join x y a b, fun h => ?_, SortOrder.join_assoc a b c⟩
  obtain ⟨ha, hb⟩ := List.forall_mem_append.1 h
  exact sortRows_join (sorts_of_oneType ha) (sorts_of_oneType hb)

/-- Names in descending order, those without one first, and then numbers in ascending order. That
names are to ascend as well, and numbers to descend, comes too late. -/
theorem names_descend_then_numbers_ascend :
    let a : SortOrder := [⟨1, .descending⟩]
    let b : SortOrder := [⟨1, .ascending⟩, ⟨0, .ascending⟩, ⟨0, .descending⟩]
    let rows : List Row := [[.int 2, .text "b"], [.null, .text "b"], [.int 1, .text "a"], [.int 3, .null],
      [.int 1, .text "b"]]
    a.join b = [⟨1, .descending⟩, ⟨0, .ascending⟩] ∧
    ∃ out, sortRows (a.join b) rows = .ok out ∧ (sortRows b rows >>= sortRows a) = .ok out := by
  intro a b rows
  refine ⟨rfl, (joined_orders_sort_twice a b [] rows).2.1 fun key hk => ?_⟩
  have hnumbers : OneType rows 0 := ⟨.int64, nofun, by simp [rows, Value.dataType]⟩
  have hnames : OneType rows 1 := ⟨.utf8, nofun, by simp [rows, Value.dataType]⟩
  simp only [a, b, List.cons_append, List.nil_append, List.mem_cons, List.not_mem_nil, or_false] at hk
  rcases hk with rfl | rfl | rfl | rfl
  · exact hnames
  · exact hnames
  · exact hnumbers
  · exact hnumbers

end StreamPlan
