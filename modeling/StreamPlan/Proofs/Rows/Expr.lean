import StreamPlan.Proofs.Query.Expr
import StreamPlan.Rows.Expr

/-!
# Expressions over rows

* `Expr.Sees`, `evalExpr_remap`: an expression over other columns of a row has
  the value of the expression over the row that these columns make up.
* `Means`: a condition is true in a case, or its evaluation leaves 64 bits.
* `means_of_conjuncts`: a conjunction is true when all its conditions are.
* `evalExpr_all`, `means_all`: the conjunction of a list, back from its value and from
  what its conditions mean.
-/

namespace StreamPlan

variable {now : Int} {row seen : Row}

/-- The columns of `row` that `f` gives show what the columns of `seen` do. -/
def Expr.Sees (f : Nat → Except Fault Nat) (row seen : Row) : Prop :=
  ∀ i t, f i = .ok t → ∃ v, seen[i]? = some v ∧ row[t]? = some v

mutual

/-- An expression over other columns evaluates as these columns do. -/
theorem evalExpr_remap_of_columns {f : Nat → Except Fault Nat} (h : ∀ i t, f i = .ok t →
      evalExpr now row (.column t) = evalExpr now seen (.column i)) :
    ∀ {e e' : Expr}, e.remap f = .ok e' → evalExpr now row e' = evalExpr now seen e
  | .column i, _, he => by
    cases Expr.remap_cases he with
    | column ht => exact h i _ ht
  | .literal v, _, he => by
    cases Expr.remap_cases he
    rw [evalExpr, evalExpr]
  | .binary op left right, _, he => by
    cases Expr.remap_cases he with
    | binary hl hr =>
      rw [evalExpr, evalExpr, evalExpr_remap_of_columns h hl, evalExpr_remap_of_columns h hr]
  | .not arg, _, he => by
    cases Expr.remap_cases he with
    | not ha => rw [evalExpr, evalExpr, evalExpr_remap_of_columns h ha]
  | .isNull arg, _, he => by
    cases Expr.remap_cases he with
    | isNull ha => rw [evalExpr, evalExpr, evalExpr_remap_of_columns h ha]
  | .call function args, _, he => by
    cases Expr.remap_cases he with
    | call has =>
      rw [evalExpr, evalExpr]
      -- only a bucket and a function that keeps its time look at their argument
      cases function.role with
      | bucket bucket => simp only [evalOnly_remap_of_columns h has]
      | preserving => simp only [evalOnly_remap_of_columns h has]
      | _ => rfl
  | .window aggregate partition order, _, he => by
    cases Expr.remap_cases he
    rw [evalExpr, evalExpr]

theorem evalOnly_remap_of_columns {f : Nat → Except Fault Nat} (h : ∀ i t, f i = .ok t →
      evalExpr now row (.column t) = evalExpr now seen (.column i)) :
    ∀ {es es' : List Expr}, Expr.remapAll f es = .ok es' → evalOnly now row es' = evalOnly now seen es
  | [], es', he => by
    unfold Expr.remapAll at he
    cases he
    simp [evalOnly]
  | [e], es', he => by
    unfold Expr.remapAll Expr.remapAll at he
    obtain ⟨e', hone, he⟩ := bind_eq_ok.1 he
    cases he
    rw [evalOnly, evalOnly, evalExpr_remap_of_columns h hone]
  | e :: e₂ :: es, es', he => by
    unfold Expr.remapAll Expr.remapAll at he
    obtain ⟨a, -, he⟩ := bind_eq_ok.1 he
    obtain ⟨rest, hrest, he⟩ := bind_eq_ok.1 he
    obtain ⟨b, -, hrest⟩ := bind_eq_ok.1 hrest
    obtain ⟨tail, htail, hrest⟩ := bind_eq_ok.1 hrest
    cases he
    cases hrest
    have hlen := length_of_remapAll htail
    simp [evalOnly, hlen]

theorem length_of_remapAll {f : Nat → Except Fault Nat} :
    ∀ {es es' : List Expr}, Expr.remapAll f es = .ok es' → es'.length = es.length
  | [], es', he => by
    unfold Expr.remapAll at he
    cases he
    rfl
  | e :: es, es', he => by
    unfold Expr.remapAll at he
    obtain ⟨a, -, he⟩ := bind_eq_ok.1 he
    obtain ⟨rest, hrest, he⟩ := bind_eq_ok.1 he
    cases he
    rw [List.length_cons, List.length_cons, length_of_remapAll hrest]

end

/-- **An expression over other columns** has the same value there. -/
theorem evalExpr_remap {f : Nat → Except Fault Nat} (h : Expr.Sees f row seen) {e e' : Expr}
    (he : e.remap f = .ok e') : evalExpr now row e' = evalExpr now seen e := by
  refine evalExpr_remap_of_columns (fun i t ht => ?_) he
  obtain ⟨v, hs, hr⟩ := h i t ht
  rw [evalExpr, evalExpr, hs, hr]

/-- The outcome of a condition is true if and only if `p` holds, or its
evaluation leaves 64 bits. -/
def Means (x : Eval Value) (p : Prop) : Prop :=
  x = .error (.fault .arithmeticOverflow) ∨ ∃ v, x = .ok v ∧ (v.isTrue = true ↔ p)

theorem Means.congr {x : Eval Value} {p q : Prop} (h : Means x p) (hpq : p ↔ q) : Means x q :=
  h.imp_right fun ⟨v, hv, hp⟩ => ⟨v, hv, hp.trans hpq⟩

/-- A condition that has a value says when it is true. -/
theorem Means.of_ok {x : Eval Value} {v : Value} {p : Prop} (h : Means x p) (hv : x = .ok v) :
    v.isTrue = true ↔ p := by
  rcases h with he | ⟨w, hw, hp⟩
  · rw [hv] at he; cases he
  · rw [hv] at hw; cases hw; exact hp

theorem Value.isTrue_iff {v : Value} : v.isTrue = true ↔ v = .boolean true := by
  cases v <;> simp [Value.isTrue]

/-- A condition that holds is true, or its evaluation leaves 64 bits. -/
theorem Means.eq_true {x : Eval Value} {p : Prop} (h : Means x p) (hp : p) :
    x = .error (.fault .arithmeticOverflow) ∨ x = .ok (.boolean true) := by
  rcases h with he | ⟨v, hv, htrue⟩
  · exact .inl he
  · obtain rfl := Value.isTrue_iff.1 (htrue.2 hp)
    exact .inr hv

/-- Both operands of a conjunction are evaluated. -/
theorem Means.and {l r : Expr} {p q : Prop} (hl : Means (evalExpr now row l) p)
    (hr : Means (evalExpr now row r) q) : Means (evalExpr now row (.binary .and l r)) (p ∧ q) := by
  rw [evalExpr]
  rcases hl with hl | ⟨v, hv, hp⟩
  · rw [hl]; exact .inl rfl
  · rw [hv]
    rcases hr with hr | ⟨w, hw, hq⟩
    · rw [hr]; exact .inl rfl
    · rw [hw]
      refine .inr ⟨.boolean (v.isTrue && w.isTrue), rfl, ?_⟩
      change (v.isTrue && w.isTrue) = true ↔ _
      rw [Bool.and_eq_true, hp, hq]

/-- **A conjunction is true when all its conditions are.** -/
theorem means_of_conjuncts {P : Expr → Prop} (e : Expr)
    (h : ∀ k ∈ e.conjuncts, Means (evalExpr now row k) (P k)) :
    Means (evalExpr now row e) (∀ k ∈ e.conjuncts, P k) := by
  induction e using Expr.conjuncts.induct with
  | case1 left right ihl ihr =>
    rw [Expr.conjuncts] at h ⊢
    have hl := ihl fun k hk => h k (List.mem_append_left _ hk)
    have hr := ihr fun k hk => h k (List.mem_append_right _ hk)
    exact (hl.and hr).congr List.forall_mem_append.symm
  | case2 e hne htrue =>
    have hnil : e.conjuncts = [] := by
      rw [Expr.conjuncts, if_pos htrue]
      exact hne
    rw [hnil]
    unfold Expr.isTruth at htrue
    split at htrue
    · exact .inr ⟨.boolean true, by rw [evalExpr]; rfl, by simp [Value.isTrue]⟩
    · cases htrue
  | case3 e hne hfalse =>
    have hself : e.conjuncts = [e] := by
      rw [Expr.conjuncts, if_neg hfalse]
      exact hne
    rw [hself] at h ⊢
    exact (h e (List.mem_singleton.2 rfl)).congr (by simp)

/-- The conditions of a predicate that has a value have values. -/
theorem conjuncts_of_evalExpr (e : Expr) :
    ∀ {v : Value}, evalExpr now row e = .ok v → ∀ k ∈ e.conjuncts, ∃ w, evalExpr now row k = .ok w := by
  induction e using Expr.conjuncts.induct with
  | case1 left right ihl ihr =>
    intro v hv k hk
    rw [evalExpr] at hv
    obtain ⟨l, hl, hv⟩ := bind_eq_ok.1 hv
    obtain ⟨r, hr, -⟩ := bind_eq_ok.1 hv
    rw [Expr.conjuncts] at hk
    rcases List.mem_append.1 hk with hk | hk
    · exact ihl hl k hk
    · exact ihr hr k hk
  | case2 e hne htrue =>
    intro v _ k hk
    rw [Expr.conjuncts, if_pos htrue] at hk
    · cases hk
    · exact hne
  | case3 e hne hfalse =>
    intro v hv k hk
    rw [Expr.conjuncts, if_neg hfalse] at hk
    · rw [List.mem_singleton.1 hk]
      exact ⟨v, hv⟩
    · exact hne

/-- **A conjunction has a value if all its conditions do**, and is true when
they all are. -/
theorem evalExpr_of_conjuncts (e : Expr)
    (h : ∀ k ∈ e.conjuncts, ∃ v, evalExpr now row k = .ok v) :
    ∃ v, evalExpr now row e = .ok v ∧
      (v.isTrue = true ↔ ∀ k ∈ e.conjuncts, ∀ w, evalExpr now row k = .ok w → w.isTrue = true) := by
  induction e using Expr.conjuncts.induct with
  | case1 left right ihl ihr =>
    rw [Expr.conjuncts] at h ⊢
    obtain ⟨l, hl, hltrue⟩ := ihl fun k hk => h k (List.mem_append_left _ hk)
    obtain ⟨r, hr, hrtrue⟩ := ihr fun k hk => h k (List.mem_append_right _ hk)
    refine ⟨.boolean (l.isTrue && r.isTrue), by rw [evalExpr, hl, hr]; rfl, ?_⟩
    have hand : (Value.boolean (l.isTrue && r.isTrue)).isTrue = true ↔
        l.isTrue = true ∧ r.isTrue = true := by simp [Value.isTrue]
    rw [hand, hltrue, hrtrue, List.forall_mem_append]
  | case2 e hne htrue =>
    have hnil : e.conjuncts = [] := by
      rw [Expr.conjuncts, if_pos htrue]
      exact hne
    rw [hnil]
    unfold Expr.isTruth at htrue
    split at htrue
    · exact ⟨.boolean true, by rw [evalExpr]; rfl, by simp [Value.isTrue]⟩
    · cases htrue
  | case3 e hne hfalse =>
    have hself : e.conjuncts = [e] := by
      rw [Expr.conjuncts, if_neg hfalse]
      exact hne
    rw [hself] at h ⊢
    obtain ⟨v, hv⟩ := h e (List.mem_singleton.2 rfl)
    exact ⟨v, hv, by simp [hv]⟩

/-- A conjunction from the left, back from its value. -/
theorem evalExpr_foldl_and {v : Value} : ∀ {es : List Expr} {e : Expr},
    evalExpr now row (es.foldl (.binary .and) e) = .ok v →
    ∃ u, evalExpr now row e = .ok u ∧ (∀ k ∈ es, ∃ w, evalExpr now row k = .ok w) ∧
      (v.isTrue = true ↔ u.isTrue = true ∧ ∀ k ∈ es, ∀ w, evalExpr now row k = .ok w → w.isTrue = true)
  | [], e, h => ⟨v, h, by simp, by simp⟩
  | k :: es, e, h => by
    rw [List.foldl_cons] at h
    obtain ⟨u, hu, hes, hv⟩ := evalExpr_foldl_and h
    rw [evalExpr] at hu
    obtain ⟨l, hl, hu⟩ := bind_eq_ok.1 hu
    obtain ⟨r, hr, hu⟩ := bind_eq_ok.1 hu
    cases hu
    have hand : (Value.boolean (l.isTrue && r.isTrue)).isTrue = true ↔
        l.isTrue = true ∧ r.isTrue = true := by simp [Value.isTrue]
    refine ⟨l, hl, ?_, ?_⟩
    · intro k' hk'
      rcases List.mem_cons.1 hk' with rfl | hk'
      · exact ⟨r, hr⟩
      · exact hes k' hk'
    · rw [hv, hand, and_assoc]
      refine and_congr_right fun _ => ?_
      rw [List.forall_mem_cons, hr]
      simp

/-- **The conjunction of a list** has a value if all its conditions do, and is
true if they all are. -/
theorem evalExpr_all {es : List Expr} {v : Value} (h : evalExpr now row (.all es) = .ok v) :
    (∀ k ∈ es, ∃ w, evalExpr now row k = .ok w) ∧
      (v.isTrue = true ↔ ∀ k ∈ es, ∀ w, evalExpr now row k = .ok w → w.isTrue = true) := by
  cases es with
  | nil =>
    rw [Expr.all, Expr.truth, evalExpr] at h
    cases h
    simp [Value.isTrue]
  | cons e es =>
    rw [Expr.all] at h
    obtain ⟨u, hu, hes, hv⟩ := evalExpr_foldl_and h
    constructor
    · intro k hk
      rcases List.mem_cons.1 hk with rfl | hk
      · exact ⟨u, hu⟩
      · exact hes k hk
    · rw [hv, List.forall_mem_cons, hu]
      simp

theorem evalExpr_foldl_and_of_ok : ∀ {es : List Expr} {e : Expr},
    (∃ v, evalExpr now row e = .ok v) → (∀ k ∈ es, ∃ v, evalExpr now row k = .ok v) →
    ∃ v, evalExpr now row (es.foldl (.binary .and) e) = .ok v
  | [], _, he, _ => he
  | k :: es, e, ⟨u, hu⟩, h => by
    obtain ⟨⟨w, hw⟩, hes⟩ := List.forall_mem_cons.1 h
    rw [List.foldl_cons]
    exact evalExpr_foldl_and_of_ok ⟨.boolean (u.isTrue && w.isTrue), by rw [evalExpr, hu, hw]; rfl⟩ hes

/-- The conjunction of a list has a value if its conditions have. -/
theorem evalExpr_all_of_ok {es : List Expr} (h : ∀ k ∈ es, ∃ v, evalExpr now row k = .ok v) :
    ∃ v, evalExpr now row (.all es) = .ok v := by
  cases es with
  | nil => exact ⟨.boolean true, by rw [Expr.all, Expr.truth, evalExpr]; rfl⟩
  | cons e es =>
    obtain ⟨he, hes⟩ := List.forall_mem_cons.1 h
    exact evalExpr_foldl_and_of_ok he hes

theorem means_foldl_and {P : Expr → Prop} : ∀ {es : List Expr} {e : Expr} {p : Prop},
    Means (evalExpr now row e) p → (∀ k ∈ es, Means (evalExpr now row k) (P k)) →
    Means (evalExpr now row (es.foldl (.binary .and) e)) (p ∧ ∀ k ∈ es, P k)
  | [], _, _, he, _ => he.congr (by simp)
  | k :: es, e, p, he, h => by
    obtain ⟨hk, hes⟩ := List.forall_mem_cons.1 h
    rw [List.foldl_cons]
    refine (means_foldl_and (he.and hk) hes).congr ?_
    rw [List.forall_mem_cons, and_assoc]

/-- **The conjunction of a list** means that all its conditions hold, if they mean that
they do. -/
theorem means_all {P : Expr → Prop} {es : List Expr}
    (h : ∀ k ∈ es, Means (evalExpr now row k) (P k)) :
    Means (evalExpr now row (.all es)) (∀ k ∈ es, P k) := by
  cases es with
  | nil => exact .inr ⟨.boolean true, by rw [Expr.all, Expr.truth, evalExpr]; rfl, by simp [Value.isTrue]⟩
  | cons e es =>
    obtain ⟨he, hes⟩ := List.forall_mem_cons.1 h
    rw [Expr.all]
    exact (means_foldl_and he hes).congr List.forall_mem_cons.symm

end StreamPlan
