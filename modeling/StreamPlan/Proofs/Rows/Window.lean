import StreamPlan.Proofs.Query.Expr
import StreamPlan.Proofs.Rows.Evaluate
import StreamPlan.Proofs.Rows.Group

/-!
# Window aggregates over other columns

A window aggregate looks at all rows at once: it sorts them, and every row gets
the value of the call over the rows of its partition so far. Rows that show the
same columns at other places have the same windows.

* `sortNumbered_remap`: such rows are sorted alike.
* `runningValues_remap`: a call has the same running values.
* `projectRows_remap`: **a projection**, with its windows, gives the same rows.
* `projectRows_take`: the first outputs of a projection are one of their own.
-/

namespace StreamPlan

variable {now : Int} {f : Nat → Except Fault Nat} {rows seens : List Row} {row seen : Row}

theorem Expr.Sees.getElem? (h : Expr.Sees f row seen) : ∀ i t, f i = .ok t → seen[i]? = row[t]? := by
  intro i t ht
  obtain ⟨v, hs, hr⟩ := h i t ht
  rw [hs, hr]

theorem Expr.Sees.itemAt (h : Expr.Sees f row seen) {i t : Nat} (ht : f i = .ok t) :
    itemAt seen i = itemAt row t := by
  rw [StreamPlan.itemAt, StreamPlan.itemAt, h.getElem? i t ht]

theorem Expr.Sees.at (h : Expr.Sees f row seen) {columns targets : List Nat}
    (ht : columns.mapM f = .ok targets) : seen.at columns = row.at targets :=
  mapM_congr ((mapM_eq_ok.1 ht).imp fun _ _ hc => h.itemAt hc)

theorem compareRows_remap {other otherSeen : Row} (h : Expr.Sees f row seen)
    (ho : Expr.Sees f other otherSeen) {order moved : SortOrder} (hm : order.remap f = .ok moved) :
    compareRows row other moved = compareRows seen otherSeen order := by
  have hkeys := mapM_eq_ok.1 hm
  clear hm
  induction hkeys with
  | nil => rfl
  | @cons key target keys targets hk _ ih =>
    obtain ⟨t, ht, hk⟩ := bind_eq_ok.1 hk
    cases hk
    rw [compareRows, compareRows, h.itemAt ht, ho.itemAt ht, ih]

/-- Numbered rows that show the same. -/
def SeenAt (f : Nat → Except Fault Nat) (p q : Row × Nat) : Prop :=
  Expr.Sees f p.1 q.1 ∧ p.2 = q.2

/-- **Rows that show the same are sorted alike.** -/
theorem sortNumbered_remap (h : List.Forall₂ (Expr.Sees f) rows seens) {order moved : SortOrder}
    (hm : order.remap f = .ok moved) :
    Alike (List.Forall₂ (SeenAt f)) (sortNumbered moved rows) (sortNumbered order seens) := by
  refine Sorting.stable_alike (fun p q hpq p' q' hpq' => ?_) (forall₂_zipIdx h 0)
  rw [precedes, precedes, compareRows_remap hpq.1 hpq'.1 hm]

/-- Groups of the same keys whose members show the same. -/
def GroupsSeen (f : Nat → Except Fault Nat) : List (Row × List Row) → List (Row × List Row) → Prop :=
  List.Forall₂ fun g h => g.1 = h.1 ∧ List.Forall₂ (Expr.Sees f) g.2 h.2

theorem addToGroup_seen {groups groupsSeen : List (Row × List Row)} (key : Row)
    (hg : GroupsSeen f groups groupsSeen) (h : Expr.Sees f row seen) :
    List.Forall₂ (Expr.Sees f) (addToGroup key row groups).1 (addToGroup key seen groupsSeen).1 ∧
      GroupsSeen f (addToGroup key row groups).2 (addToGroup key seen groupsSeen).2 := by
  induction hg with
  | nil => exact ⟨.cons h .nil, .cons ⟨rfl, .cons h .nil⟩ .nil⟩
  | @cons g g' groups groups' hgg hrest ih =>
    obtain ⟨k, members⟩ := g
    obtain ⟨_, members'⟩ := g'
    obtain ⟨rfl, hmembers⟩ := hgg
    rw [addToGroup, addToGroup]
    split
    · have hmore := List.rel_append hmembers (.cons h .nil)
      exact ⟨hmore, .cons ⟨rfl, hmore⟩ hrest⟩
    · exact ⟨ih.1, .cons ⟨rfl, hmembers⟩ ih.2⟩

variable {call movedCall : AggregateCall} {partition targets : List Nat}

/-- The walk over the rows in window order. What carries it is that the groups of
the rows walked so far show the same. -/
theorem runningFrom_remap (hcall : call.remap f = .ok movedCall) (hp : partition.mapM f = .ok targets)
    {numbered numberedSeen : List (Row × Nat)} (h : List.Forall₂ (SeenAt f) numbered numberedSeen)
    {groups groupsSeen : List (Row × List Row)} (hg : GroupsSeen f groups groupsSeen) :
    runningFrom movedCall targets groups numbered
      = runningFrom call partition groupsSeen numberedSeen := by
  induction h generalizing groups groupsSeen with
  | nil => rfl
  | @cons p q numbered numberedSeen hpq _ ih =>
    obtain ⟨row, i⟩ := p
    obtain ⟨seen, _⟩ := q
    obtain ⟨hsees, rfl⟩ := hpq
    rw [runningFrom, runningFrom, hsees.at hp]
    refine bind_congr fun key => ?_
    obtain ⟨hmembers, hgroups⟩ := addToGroup_seen key hg hsees
    have hvalue := AggregateCall.valueOn_remap (hmembers.imp fun _ _ hs => hs.getElem?) hcall
    simp only [hvalue, ih hgroups]

/-- **A call has the same running values** over rows that show the same. -/
theorem runningValues_remap (h : List.Forall₂ (Expr.Sees f) rows seens)
    (hcall : call.remap f = .ok movedCall) (hp : partition.mapM f = .ok targets)
    {order moved : SortOrder} (hm : order.remap f = .ok moved) :
    runningValues movedCall targets moved rows = runningValues call partition order seens := by
  have hsorted := sortNumbered_remap h hm
  rw [runningValues, runningValues, h.length_eq]
  generalize sortNumbered moved rows = sorted at hsorted
  generalize sortNumbered order seens = sortedSeen at hsorted
  cases hsorted with
  | ok hs => simp only [ok_bind, runningFrom_remap hcall hp hs .nil]
  | error e => rfl

theorem windowValues_remap (h : List.Forall₂ (Expr.Sees f) rows seens) {e moved : Expr}
    (hm : e.remap f = .ok moved) : windowValues rows moved = windowValues seens e := by
  cases e with
  | window call partition order =>
    unfold Expr.remap at hm
    obtain ⟨movedCall, hcall, hm⟩ := bind_eq_ok.1 hm
    obtain ⟨targets, hp, hm⟩ := bind_eq_ok.1 hm
    obtain ⟨movedOrder, ho, hm⟩ := bind_eq_ok.1 hm
    cases hm
    rw [windowValues, windowValues, runningValues_remap h hcall hp ho]
  | _ =>
    cases Expr.remap_cases hm
    rfl

/-- Outputs with their windows that are the same over other columns. -/
def SameOutput (f : Nat → Except Fault Nat) (o moved : Output × Option (List Value)) : Prop :=
  o.1.expr.remap f = .ok moved.1.expr ∧ o.2 = moved.2

theorem projectRow_remap {position : Nat} (h : Expr.Sees f row seen)
    {windows moved : List (Output × Option (List Value))}
    (hm : List.Forall₂ (SameOutput f) windows moved) :
    projectRow now row position moved = projectRow now seen position windows := by
  induction hm with
  | nil => rfl
  | @cons o m windows moved hom _ ih =>
    obtain ⟨output, window⟩ := o
    obtain ⟨target, _⟩ := m
    obtain ⟨hexpr, rfl⟩ := hom
    cases window with
    | none => rw [projectRow, projectRow, ih, evalExpr_remap h hexpr]
    | some values => rw [projectRow, projectRow, ih]

/-- **A projection over other columns** gives the same rows, windows included. -/
theorem projectRows_remap (h : List.Forall₂ (Expr.Sees f) rows seens) {outputs moved : List Output}
    (hm : outputs.mapM (·.remap f) = .ok moved) :
    projectRows now moved rows = projectRows now outputs seens := by
  have hexprs : List.Forall₂ (fun o m : Output => o.expr.remap f = .ok m.expr) outputs moved :=
    (mapM_eq_ok.1 hm).imp fun o m ho => by
      obtain ⟨e, he, ho⟩ := bind_eq_ok.1 ho
      cases ho
      exact he
  have hwindows : Alike (List.Forall₂ (SameOutput f))
      (outputs.mapM fun o => do return (o, ← windowValues seens o.expr) : Eval _)
      (moved.mapM fun o => do return (o, ← windowValues rows o.expr)) :=
    Alike.mapM hexprs fun o m hom =>
      Alike.step (windowValues_remap h hom).symm fun values => .ok ⟨hom, rfl⟩
  rw [projectRows, projectRows]
  generalize (outputs.mapM fun o => do return (o, ← windowValues seens o.expr) : Eval _) = x
    at hwindows ⊢
  generalize (moved.mapM fun o => do return (o, ← windowValues rows o.expr) : Eval _) = y
    at hwindows ⊢
  cases hwindows with
  | ok hws =>
    refine mapM_congr ((forall₂_zipIdx h 0).imp ?_)
    rintro ⟨row, i⟩ ⟨seen, _⟩ ⟨hsees, rfl⟩
    exact projectRow_remap hsees hws
  | error e => rfl

theorem projectRow_take {position : Nat} {windows rest : List (Output × Option (List Value))}
    {out : Row} (h : projectRow now row position (windows ++ rest) = .ok out) :
    projectRow now row position windows = .ok (out.take windows.length) := by
  induction windows generalizing out with
  | nil => rfl
  | cons w windows ih =>
    obtain ⟨output, window⟩ := w
    rw [List.cons_append] at h
    cases window with
    | none =>
      rw [projectRow] at h ⊢
      obtain ⟨value, hvalue, h⟩ := bind_eq_ok.1 h
      obtain ⟨more, hmore, h⟩ := bind_eq_ok.1 h
      cases h
      rw [hvalue, ok_bind, ih hmore]
      rfl
    | some values =>
      rw [projectRow] at h ⊢
      obtain ⟨value, hvalue, h⟩ := bind_eq_ok.1 h
      obtain ⟨more, hmore, h⟩ := bind_eq_ok.1 h
      cases h
      rw [hvalue, ok_bind, ih hmore]
      rfl

/-- **The first outputs of a projection** have the values that they have on their own. -/
theorem projectRows_take {outputs rest : List Output} {out : List Row}
    (h : projectRows now (outputs ++ rest) rows = .ok out) :
    projectRows now outputs rows = .ok (out.map (·.take outputs.length)) := by
  rw [projectRows, List.mapM_append] at h
  obtain ⟨windows, hwindows, h⟩ := bind_eq_ok.1 h
  obtain ⟨front, hfront, hwindows⟩ := bind_eq_ok.1 hwindows
  obtain ⟨back, -, hwindows⟩ := bind_eq_ok.1 hwindows
  cases hwindows
  rw [projectRows, hfront, ok_bind, mapM_eq_ok, List.forall₂_map_right_iff,
    ← length_of_mapM_eq_ok hfront]
  exact (mapM_eq_ok.1 h).imp fun _ _ hrow => projectRow_take hrow

end StreamPlan
