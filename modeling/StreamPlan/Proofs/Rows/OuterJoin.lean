import StreamPlan.Proofs.Query.Expr
import StreamPlan.Proofs.Rows.Join

/-!
# Outer joins

A join goes through the left rows. Whether a left row has a partner is known when
it has been met, whether a right row has one only at the end: the join marks the
right rows on the way.

* `lonelyLeft`, `lonelyRight`: the rows without a partner.
* `joinRows_ok`: the rows of a join of any kind.
* `trueOn_swapped`: a condition over the sides the other way round.
* `outer_joins_mirror`: **a right join is a left join** with its sides swapped, and
  a full join has the rows of the inner one and every lonely row beside nulls.
-/

namespace StreamPlan

variable {now : Int} {kind : JoinKind} {condition swapped : Expr} {lw rw' a b : Nat}
  {left right : List Row}

/-- The left rows without a partner. -/
def lonelyLeft (now : Int) (condition : Expr) (left right : List Row) : List Row :=
  left.filter fun l => !right.any fun r => trueOn now condition (l ++ r)

/-- The right rows without a partner. -/
def lonelyRight (now : Int) (condition : Expr) (left right : List Row) : List Row :=
  right.filter fun r => !left.any fun l => trueOn now condition (l ++ r)

/-- The marks after a walk over the left rows: on right rows marked before, and on partners. -/
theorem foldl_marks (marked : Row → Bool) :
    left.foldl (fun used l => List.zipWith (· || ·) used
        (right.map fun r => trueOn now condition (l ++ r))) (right.map marked)
      = right.map fun r => marked r || left.any fun l => trueOn now condition (l ++ r) := by
  induction left generalizing marked with
  | nil => simp
  | cons l ls ih =>
    have hstep : List.zipWith (· || ·) (right.map marked)
        (right.map fun r => trueOn now condition (l ++ r))
          = right.map fun r => marked r || trueOn now condition (l ++ r) := by
      rw [List.zipWith_map, List.zipWith_self]
    rw [List.foldl_cons, hstep, ih]
    simp only [List.any_cons, Bool.or_assoc]

/-- The rows that are not marked. -/
theorem filterMap_unmarked (marked : Row → Bool) (f : Row → Row) :
    (right.zip (right.map marked)).filterMap (fun (r, u) => if u then none else some (f r))
      = (right.filter fun r => !marked r).map f := by
  induction right with
  | nil => rfl
  | cons r rs ih =>
    rw [List.map_cons, List.zip_cons_cons, List.filterMap_cons, ih, List.filter_cons]
    cases marked r <;> simp

/-- **A join** of any kind: the joined rows of the left rows, then the lonely right
rows beside nulls if these are kept. -/
theorem joinRows_ok (h : ∀ l ∈ left, ∀ r ∈ right, ∃ v, evalExpr now (l ++ r) condition = .ok v) :
    joinRows now kind condition lw rw' left right
      = .ok (left.flatMap (joinedWith now kind condition rw' right) ++
        if kind.keepsRight then (lonelyRight now condition left right).map (padding lw ++ ·)
        else []) := by
  rw [joinRows, joinFrom_ok h, foldl_marks]
  simp only [ok_bind, Bool.false_or, filterMap_unmarked, lonelyRight]
  rfl

/-- **Rows of a join that keeps left rows** are those of an inner join and the lonely
left rows beside nulls. -/
theorem flatMap_joinedWith_keepsLeft (hk : kind.keepsLeft = true) :
    (left.flatMap (joinedWith now kind condition rw' right)).Perm
      (left.flatMap (joinedWith now .inner condition rw' right) ++
        (lonelyLeft now condition left right).map (· ++ padding rw')) := by
  induction left with
  | nil => exact .nil
  | cons l ls ih =>
    rw [List.flatMap_cons, List.flatMap_cons, lonelyLeft, List.filter_cons]
    -- a left row without a partner stands alone, beside nulls
    cases hfound : right.filter fun r => trueOn now condition (l ++ r) with
    | nil =>
      have hlonely : (right.any fun r => trueOn now condition (l ++ r)) = false :=
        List.any_eq_false.2 (List.filter_eq_nil_iff.1 hfound)
      have hpadded : joinedWith now kind condition rw' right l = [l ++ padding rw'] := by
        simp [joinedWith, hfound, hk]
      have hnone : joinedWith now .inner condition rw' right l = [] := by
        rw [joinedWith_inner, hfound, List.map_nil]
      rw [hpadded, hnone, hlonely]
      exact (ih.cons _).trans List.perm_middle.symm
    | cons r rs =>
      have hmem : r ∈ right.filter fun r => trueOn now condition (l ++ r) :=
        hfound ▸ List.mem_cons_self
      have hpartner : (right.any fun r => trueOn now condition (l ++ r)) = true :=
        List.any_eq_true.2 ⟨r, List.mem_filter.1 hmem⟩
      have hsame : joinedWith now kind condition rw' right l
          = joinedWith now .inner condition rw' right l := by
        simp [joinedWith, hfound]
      rw [hsame, hpartner, List.append_assoc]
      exact ih.append_left _

/-- The column of a joined row of widths `a` and `b` when its sides change places. -/
def swappedColumn (a b i : Nat) : Except Fault Nat :=
  .ok (if i < a then b + i else if i < a + b then i - a else i)

/-- A joined row whose left side has `w` columns, with its sides the other way round. -/
def swapSides (w : Nat) (row : Row) : Row := row.drop w ++ row.take w

theorem swapSides_append {r : Row} (hr : r.length = b) (l : Row) : swapSides b (r ++ l) = l ++ r := by
  subst hr
  rw [swapSides, List.drop_left, List.take_left]

/-- A column shows the same on the other side. A column outside is one there too. -/
theorem evalExpr_swappedColumn {l r : Row} (hl : l.length = a) (hr : r.length = b) {i t : Nat}
    (ht : swappedColumn a b i = .ok t) :
    evalExpr now (r ++ l) (.column t) = evalExpr now (l ++ r) (.column i) := by
  subst hl hr
  cases ht
  rw [evalExpr, evalExpr]
  by_cases hleft : i < l.length
  · rw [if_pos hleft, List.getElem?_append_right (Nat.le_add_right _ _), Nat.add_sub_cancel_left,
      List.getElem?_append_left hleft, List.getElem?_eq_getElem hleft]
  have hle := Nat.le_of_not_lt hleft
  rw [if_neg hleft]
  by_cases hright : i < l.length + r.length
  · have hlt : i - l.length < r.length := by omega
    rw [if_pos hright, List.getElem?_append_left hlt, List.getElem?_append_right hle,
      List.getElem?_eq_getElem hlt]
  · have hlen : (r ++ l).length = (l ++ r).length := by
      rw [List.length_append, List.length_append, Nat.add_comm]
    have hout : (l ++ r).length ≤ i := by
      rw [List.length_append]
      omega
    rw [if_neg hright, List.getElem?_eq_none (hlen ▸ hout), List.getElem?_eq_none hout, hlen]

/-- A condition over the sides the other way round. -/
theorem evalExpr_swapped (hs : condition.remap (swappedColumn a b) = .ok swapped) {l r : Row}
    (hl : l.length = a) (hr : r.length = b) :
    evalExpr now (r ++ l) swapped = evalExpr now (l ++ r) condition :=
  evalExpr_remap_of_columns (fun _ _ => evalExpr_swappedColumn hl hr) hs

theorem trueOn_swapped (hs : condition.remap (swappedColumn a b) = .ok swapped) {l r : Row}
    (hl : l.length = a) (hr : r.length = b) :
    trueOn now swapped (r ++ l) = trueOn now condition (l ++ r) := by
  rw [trueOn, trueOn, evalExpr_swapped hs hl hr]

/-- Every condition can be put over the sides the other way round. -/
theorem remap_swappedColumn (a b : Nat) (condition : Expr) :
    ∃ swapped, condition.remap (swappedColumn a b) = .ok swapped := by
  obtain ⟨swapped, hs, -⟩ := Expr.remap_gives (P := fun _ => True) (f := swappedColumn a b)
    (e := condition) fun _ _ => .ok trivial
  exact ⟨swapped, hs⟩

section Swapped

variable (hs : condition.remap (swappedColumn a b) = .ok swapped)
  (ha : ∀ l ∈ left, l.length = a) (hb : ∀ r ∈ right, r.length = b)

include hs ha hb

/-- Rows are lonely on either side. -/
theorem lonelyLeft_swapped :
    lonelyLeft now swapped right left = lonelyRight now condition left right := by
  refine List.filter_congr fun r hr => congrArg (!·) ?_
  rw [Bool.eq_iff_iff, List.any_eq_true, List.any_eq_true]
  refine exists_congr fun l => and_congr_right fun hl => ?_
  rw [trueOn_swapped hs (ha l hl) (hb r hr)]

/-- **A right join mirrors a left join**: the rows of a left join with its sides swapped,
read the other way round, are the inner rows and the lonely right rows. -/
theorem flatMap_joinedWith_mirror :
    ((right.flatMap (joinedWith now .left swapped lw left)).map (swapSides b)).Perm
      (left.flatMap (joinedWith now .inner condition rw' right) ++
        (lonelyRight now condition left right).map (padding lw ++ ·)) := by
  have hinner : ((right.flatMap (joinedWith now .inner swapped lw left)).map (swapSides b)).Perm
      ((left.map id).flatMap (joinedWith now .inner condition rw' (right.map id))) :=
    flatMap_joinedWith_swap (fun l _ r hr => swapSides_append (hb r hr) l)
      fun l hl r hr => (trueOn_swapped hs (ha l hl) (hb r hr)).symm
  rw [List.map_id, List.map_id] at hinner
  have hlonely : ((lonelyLeft now swapped right left).map (· ++ padding lw)).map (swapSides b)
      = (lonelyRight now condition left right).map (padding lw ++ ·) := by
    rw [List.map_map, lonelyLeft_swapped hs ha hb]
    refine List.map_congr_left fun r hr => ?_
    exact swapSides_append (hb r (List.mem_filter.1 hr).1) (padding lw)
  refine ((flatMap_joinedWith_keepsLeft rfl).map (swapSides b)).trans ?_
  rw [List.map_append, hlonely]
  exact hinner.append_right _

end Swapped

section Trees

variable {fixture : Fixture} {left right : Rel} {ls rs : List Row} {hint : Option JoinHint}

theorem evaluate_join (hl : evaluate fixture left = .ok ls) (hr : evaluate fixture right = .ok rs) :
    evaluate fixture (.join left right kind condition hint)
      = joinRows fixture.now kind condition left.width right.width ls rs := by
  rw [evaluate, hl, hr]
  rfl

/-- **Right and full joins mirror left joins.** Over rows of one width on each side, and a condition
that can be evaluated on all their pairs, a right join has the rows of the left join of the
swapped sides, read the other way round. A full join has those of the inner join, every lonely
left row beside nulls and every lonely right row beside nulls. -/
theorem outer_joins_mirror (hl : evaluate fixture left = .ok ls)
    (hr : evaluate fixture right = .ok rs) (ha : ∀ l ∈ ls, l.length = a)
    (hb : ∀ r ∈ rs, r.length = b)
    (hc : ∀ l ∈ ls, ∀ r ∈ rs, ∃ v, evalExpr fixture.now (l ++ r) condition = .ok v) :
    (∃ swapped rows mirrored, condition.remap (swappedColumn a b) = .ok swapped ∧
      evaluate fixture (.join left right .right condition hint) = .ok rows ∧
      evaluate fixture (.join right left .left swapped hint) = .ok mirrored ∧
      rows.Perm (mirrored.map (swapSides b))) ∧
    ∃ rows inner, evaluate fixture (.join left right .full condition hint) = .ok rows ∧
      evaluate fixture (.join left right .inner condition hint) = .ok inner ∧
      rows.Perm (inner ++ (lonelyLeft fixture.now condition ls rs).map (· ++ padding right.width) ++
        (lonelyRight fixture.now condition ls rs).map (padding left.width ++ ·)) := by
  have hjoin : ∀ kind, evaluate fixture (.join left right kind condition hint) = .ok _ :=
    fun kind => (evaluate_join hl hr).trans (joinRows_ok hc)
  constructor
  · obtain ⟨swapped, hs⟩ := remap_swappedColumn a b condition
    have hswapped : ∀ r ∈ rs, ∀ l ∈ ls, ∃ v, evalExpr fixture.now (r ++ l) swapped = .ok v := by
      intro r hrs l hls
      rw [evalExpr_swapped hs (ha l hls) (hb r hrs)]
      exact hc l hls r hrs
    refine ⟨swapped, _, _, hs, hjoin .right,
      (evaluate_join hr hl).trans (joinRows_ok hswapped), ?_⟩
    simp only [JoinKind.keepsRight, if_true, Bool.false_eq_true, if_false, List.append_nil]
    exact (flatMap_joinedWith_mirror hs ha hb).symm
  · refine ⟨_, _, hjoin .full, hjoin .inner, ?_⟩
    simp only [JoinKind.keepsRight, if_true, Bool.false_eq_true, if_false, List.append_nil]
    exact (flatMap_joinedWith_keepsLeft rfl).append_right _

/-- Orders by customer: one of them is paid twice, two that are alike are not paid. -/
def someOrders : List Row := [[.int 1, .text "tea"], [.int 2, .text "ink"], [.int 2, .text "ink"]]

/-- Payments by customer, one of them of nobody. -/
def somePayments : List Row := [[.int 1], [.null], [.int 1]]

def ordersAndPayments : Fixture := ⟨[(.base 0, someOrders), (.base 1, somePayments)], 0⟩

def ordersByCustomer : Rel :=
  .scan (.base 0) "orders" [⟨"customer", .int64, true⟩, ⟨"item", .utf8, true⟩]

def paymentsByCustomer : Rel := .scan (.base 1) "payments" [⟨"customer", .int64, true⟩]

/-- **Orders with payments** are payments with orders, and all of both are kept by the full join. -/
theorem orders_mirror_payments :
    evaluate ordersAndPayments ordersByCustomer = .ok someOrders ∧
    evaluate ordersAndPayments paymentsByCustomer = .ok somePayments ∧
    (∀ l ∈ someOrders, l.length = 2) ∧ (∀ r ∈ somePayments, r.length = 1) ∧
    (∀ l ∈ someOrders, ∀ r ∈ somePayments, ∃ v,
      evalExpr ordersAndPayments.now (l ++ r) (.equate 0 2) = .ok v) ∧
    (∃ rows mirrored,
      evaluate ordersAndPayments (.join ordersByCustomer paymentsByCustomer .right (.equate 0 2) none)
        = .ok rows ∧
      evaluate ordersAndPayments (.join paymentsByCustomer ordersByCustomer .left (.equate 1 0) none)
        = .ok mirrored ∧
      rows.Perm (mirrored.map (swapSides 1)) ∧ rows.length = 3) ∧
    ∃ rows inner,
      evaluate ordersAndPayments (.join ordersByCustomer paymentsByCustomer .full (.equate 0 2) none)
        = .ok rows ∧
      evaluate ordersAndPayments (.join ordersByCustomer paymentsByCustomer .inner (.equate 0 2) none)
        = .ok inner ∧
      rows.Perm (inner ++ [[.int 2, .text "ink", .null], [.int 2, .text "ink", .null]]
        ++ [[.null, .null, .null]]) := by
  have hl : evaluate ordersAndPayments ordersByCustomer = .ok someOrders := rfl
  have hr : evaluate ordersAndPayments paymentsByCustomer = .ok somePayments := rfl
  have ha : ∀ l ∈ someOrders, l.length = 2 := by simp [someOrders]
  have hb : ∀ r ∈ somePayments, r.length = 1 := by simp [somePayments]
  have hc : ∀ l ∈ someOrders, ∀ r ∈ somePayments, ∃ v,
      evalExpr ordersAndPayments.now (l ++ r) (.equate 0 2) = .ok v := by
    simp only [someOrders, somePayments, List.forall_mem_cons, List.not_mem_nil, false_imp_iff,
      implies_true, and_true]
    and_intros <;> exact ⟨_, rfl⟩
  obtain ⟨⟨swapped, rows, mirrored, hs, hright, hleft, hperm⟩, hfull⟩ :=
    @outer_joins_mirror _ _ _ _ _ _ _ _ none hl hr ha hb hc
  cases hs
  refine ⟨hl, hr, ha, hb, hc, ⟨rows, mirrored, hright, hleft, hperm, ?_⟩, hfull⟩
  cases hright
  rfl

end Trees

end StreamPlan
