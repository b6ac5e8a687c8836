import StreamPlan.Query.Expr
import StreamPlan.Proofs.Columns.Position

/-!
# Expressions over other columns

* `Expr.span`: the lengths of time an expression mentions, added up.
* `Expr.remap_gives`: an expression whose columns all have a new one can be
  moved to them. It mentions the same lengths of time.
* `Expr.remap_cases`: the moved expression has the same outermost operator.
* `Expr.mem_conjuncts`, `Expr.span_conjuncts`: the conditions of a conjunction
  mention what the conjunction mentions.
-/

namespace StreamPlan

/-- The width of the buckets of a function; zero if it makes none. -/
def ScalarFunction.span (f : ScalarFunction) : Nat :=
  match f.bucket? with
  | some bucket => bucket.width.natAbs
  | none => 0

namespace Expr

mutual

/-- The lengths of time that an expression mentions, added up: interval literals
and bucket widths. -/
def span : Expr → Nat
  | .literal (.interval millis) => millis.natAbs
  | .column _ | .literal _ | .window .. => 0
  | .binary _ left right => span left + span right
  | .not arg | .isNull arg => span arg
  | .call function args => function.span + spanOfAll args

/-- The lengths of time that a list of expressions mentions, added up. -/
def spanOfAll : List Expr → Nat
  | [] => 0
  | e :: es => span e + spanOfAll es

end

theorem spanOfAll_append (es fs : List Expr) : spanOfAll (es ++ fs) = spanOfAll es + spanOfAll fs := by
  induction es with
  | nil => rw [List.nil_append, spanOfAll, Nat.zero_add]
  | cons e es ih => rw [List.cons_append, spanOfAll, spanOfAll, ih, Nat.add_assoc]

theorem span_le_spanOfAll {e : Expr} {es : List Expr} (h : e ∈ es) : e.span ≤ spanOfAll es := by
  induction es with
  | nil => cases h
  | cons x xs ih =>
    rw [spanOfAll]
    rcases List.mem_cons.1 h with rfl | h
    · omega
    · have := ih h
      omega

theorem mem_conjuncts {e k : Expr} (h : k ∈ e.conjuncts) : ∀ i ∈ k.references, i ∈ e.references := by
  induction e using conjuncts.induct with
  | case1 left right ihl ihr =>
    intro i hi
    rw [conjuncts] at h
    rcases List.mem_append.1 h with h | h
    · exact List.mem_append_left _ (ihl h i hi)
    · exact List.mem_append_right _ (ihr h i hi)
  | case2 e hne htrue =>
    rw [conjuncts] at h
    · rw [if_pos htrue] at h; cases h
    · exact hne
  | case3 e hne hfalse =>
    rw [conjuncts] at h
    · rw [if_neg hfalse] at h
      rw [List.mem_singleton.1 h]
      exact fun i hi => hi
    · exact hne

theorem span_conjuncts (e : Expr) : spanOfAll e.conjuncts ≤ e.span := by
  induction e using conjuncts.induct with
  | case1 left right ihl ihr =>
    rw [conjuncts, spanOfAll_append, span]
    omega
  | case2 e hne htrue =>
    rw [conjuncts]
    · rw [if_pos htrue]; exact Nat.zero_le _
    · exact hne
  | case3 e hne hfalse =>
    rw [conjuncts]
    · rw [if_neg hfalse]; simp [spanOfAll]
    · exact hne

end Expr

section Remap

variable {f : Nat → Except Fault Nat} {P : Nat → Prop}

/-- A list of columns that all have a new one. -/
theorem columns_gives {is : List Nat} (h : ∀ i ∈ is, Gives (f i) P) :
    Gives (is.mapM f) fun js => (∀ j ∈ js, P j) ∧ js.length = is.length := by
  refine (Gives.mapM h).mono fun js hjs => ⟨fun j hj => ?_, hjs.length_eq.symm⟩
  obtain ⟨n, hn, rfl⟩ := List.getElem_of_mem hj
  exact (List.forall₂_iff_get.1 hjs).2 n (hjs.length_eq ▸ hn) hn

theorem SortOrder.remap_gives {order : SortOrder} (h : ∀ i ∈ SortOrder.columns order, Gives (f i) P) :
    Gives (order.remap f) fun moved => ∀ j ∈ SortOrder.columns moved, P j := by
  have hstep : Gives (order.remap f) (List.Forall₂ (fun (_ new : SortKey) => P new.column) order) := by
    refine Gives.mapM fun key hkey => ?_
    refine (h key.column (List.mem_map_of_mem hkey)).bind fun j hj => ?_
    exact .ok hj
  refine hstep.mono fun moved hmoved j hj => ?_
  obtain ⟨key, hkey, rfl⟩ := List.mem_map.1 hj
  obtain ⟨n, hn, rfl⟩ := List.getElem_of_mem hkey
  exact (List.forall₂_iff_get.1 hmoved).2 n (hmoved.length_eq ▸ hn) hn

theorem AggregateCall.remap_gives {call : AggregateCall} (h : ∀ i ∈ call.columns, Gives (f i) P) :
    Gives (call.remap f) fun moved => ∀ j ∈ moved.columns, P j := by
  unfold AggregateCall.remap
  refine (columns_gives fun i hi => h i (List.mem_append_left _ hi)).bind fun args hargs => ?_
  have hfilter : Gives (call.filter.mapM f) fun o => ∀ j ∈ o.toList, P j := by
    cases hc : call.filter with
    | none => exact .ok (by simp)
    | some i =>
      refine (h i (by simp [AggregateCall.columns, hc])).bind fun j hj => ?_
      exact .ok (by simpa using hj)
  refine hfilter.bind fun o ho => ?_
  refine .ok fun j hj => ?_
  rcases List.mem_append.1 hj with hj | hj
  · exact hargs.1 j hj
  · exact ho j hj

namespace Expr

/-- How an expression moves to other columns, by its outermost operator. -/
inductive Remaps (f : Nat → Except Fault Nat) : Expr → Expr → Prop
  | column {i t : Nat} : f i = .ok t → Remaps f (.column i) (.column t)
  | literal {v : Value} : Remaps f (.literal v) (.literal v)
  | binary {op : BinaryOp} {l r l' r' : Expr} : l.remap f = .ok l' → r.remap f = .ok r' →
      Remaps f (.binary op l r) (.binary op l' r')
  | not {e e' : Expr} : e.remap f = .ok e' → Remaps f (.not e) (.not e')
  | isNull {e e' : Expr} : e.remap f = .ok e' → Remaps f (.isNull e) (.isNull e')
  | call {function : ScalarFunction} {args args' : List Expr} : remapAll f args = .ok args' →
      Remaps f (.call function args) (.call function args')
  | window {a a' : AggregateCall} {p p' : List Nat} {o o' : SortOrder} :
      Remaps f (.window a p o) (.window a' p' o')

theorem remap_cases {e e' : Expr} (h : e.remap f = .ok e') : Remaps f e e' := by
  cases e with
  | literal => cases h; exact .literal
  | column =>
    unfold remap at h
    obtain ⟨_, hf, h⟩ := bind_eq_ok.1 h
    cases h
    exact .column hf
  | not =>
    unfold remap at h
    obtain ⟨_, he, h⟩ := bind_eq_ok.1 h
    cases h
    exact .not he
  | isNull =>
    unfold remap at h
    obtain ⟨_, he, h⟩ := bind_eq_ok.1 h
    cases h
    exact .isNull he
  | call =>
    unfold remap at h
    obtain ⟨_, hargs, h⟩ := bind_eq_ok.1 h
    cases h
    exact .call hargs
  | binary =>
    unfold remap at h
    obtain ⟨_, hl, h⟩ := bind_eq_ok.1 h
    obtain ⟨_, hr, h⟩ := bind_eq_ok.1 h
    cases h
    exact .binary hl hr
  | window =>
    unfold remap at h
    obtain ⟨_, -, h⟩ := bind_eq_ok.1 h
    obtain ⟨_, -, h⟩ := bind_eq_ok.1 h
    obtain ⟨_, -, h⟩ := bind_eq_ok.1 h
    cases h
    exact .window

/-- Every condition of a moved expression is a moved expression. -/
theorem conjunct_of_remap {e e' k : Expr} (h : e.remap f = .ok e') (hk : k ∈ e'.conjuncts) :
    ∃ before : Expr, before.remap f = .ok k := by
  induction e' using conjuncts.induct generalizing e with
  | case1 left right ihl ihr =>
    rw [conjuncts] at hk
    cases remap_cases h with
    | binary hl hr =>
      rcases List.mem_append.1 hk with hk | hk
      · exact ihl hl hk
      · exact ihr hr hk
  | case2 e' hne htrue =>
    rw [conjuncts, if_pos htrue] at hk
    · cases hk
    · exact hne
  | case3 e' hne hfalse =>
    rw [conjuncts, if_neg hfalse] at hk
    · rw [List.mem_singleton.1 hk]
      exact ⟨e, h⟩
    · exact hne

/-- The columns of a moved equality are new columns. -/
theorem columns_of_remap_equate {e : Expr} {a b : Nat} (h : e.remap f = .ok (.equate a b)) :
    (∃ i, f i = .ok a) ∧ ∃ i, f i = .ok b := by
  cases remap_cases h with
  | binary hl hr =>
    cases remap_cases hl with
    | column ha =>
      cases remap_cases hr with
      | column hb => exact ⟨⟨_, ha⟩, _, hb⟩

/-- The first of moved expressions was the first before. -/
theorem head?_of_remapAll {es es' : List Expr} {e' : Expr} (h : remapAll f es = .ok es')
    (he : es'.head? = some e') : ∃ e, es.head? = some e ∧ e.remap f = .ok e' := by
  cases es with
  | nil =>
    cases h
    cases he
  | cons e es =>
    unfold remapAll at h
    obtain ⟨first, hfirst, h⟩ := bind_eq_ok.1 h
    obtain ⟨rest, -, h⟩ := bind_eq_ok.1 h
    cases h
    cases he
    exact ⟨e, rfl, hfirst⟩

mutual

/-- An expression whose columns all have a new one can be moved to them. -/
theorem remap_gives : ∀ {e : Expr}, (∀ i ∈ e.references, Gives (f i) P) →
    Gives (e.remap f) fun e' => (∀ j ∈ e'.references, P j) ∧ e'.span = e.span
  | .column i, h => by
    unfold remap
    refine (h i (by simp [references])).bind fun j hj => ?_
    exact .ok ⟨by simpa [references] using hj, rfl⟩
  | .literal v, _ => by
    unfold remap
    exact .ok ⟨by simp [references], rfl⟩
  | .binary op left right, h => by
    unfold remap
    refine (remap_gives fun i hi => h i (List.mem_append_left _ hi)).bind fun l hl => ?_
    refine (remap_gives fun i hi => h i (List.mem_append_right _ hi)).bind fun r hr => ?_
    refine .ok ⟨fun j hj => ?_, by simp [span, hl.2, hr.2]⟩
    rcases List.mem_append.1 hj with hj | hj
    · exact hl.1 j hj
    · exact hr.1 j hj
  | .not arg, h => by
    unfold remap
    refine (remap_gives (e := arg) h).bind fun a ha => ?_
    exact .ok ⟨ha.1, by simp [span, ha.2]⟩
  | .isNull arg, h => by
    unfold remap
    refine (remap_gives (e := arg) h).bind fun a ha => ?_
    exact .ok ⟨ha.1, by simp [span, ha.2]⟩
  | .call function args, h => by
    unfold remap
    refine Gives.bind (x := remapAll f args) (remapAll_gives h) fun as has => ?_
    exact .ok ⟨has.1, by simp [span, has.2]⟩
  | .window aggregate partition order, h => by
    unfold remap
    have hcall : ∀ i ∈ aggregate.columns, Gives (f i) P :=
      fun i hi => h i (List.mem_append_left _ (List.mem_append_left _ hi))
    have hpart : ∀ i ∈ partition, Gives (f i) P :=
      fun i hi => h i (List.mem_append_left _ (List.mem_append_right _ hi))
    have horder : ∀ i ∈ SortOrder.columns order, Gives (f i) P :=
      fun i hi => h i (List.mem_append_right _ hi)
    refine (AggregateCall.remap_gives hcall).bind fun call hc => ?_
    refine (columns_gives hpart).bind fun part hp => ?_
    refine (SortOrder.remap_gives horder).bind fun moved hm => ?_
    refine .ok ⟨fun j hj => ?_, by simp [span]⟩
    rcases List.mem_append.1 hj with hj | hj
    · rcases List.mem_append.1 hj with hj | hj
      · exact hc j hj
      · exact hp.1 j hj
    · exact hm j hj

/-- Expressions whose columns all have a new one can be moved to them. -/
theorem remapAll_gives : ∀ {es : List Expr}, (∀ i ∈ referencesOfAll es, Gives (f i) P) →
    Gives (remapAll f es) fun es' =>
      (∀ j ∈ referencesOfAll es', P j) ∧ spanOfAll es' = spanOfAll es
  | [], _ => by
    unfold remapAll
    exact .ok ⟨by simp [referencesOfAll], rfl⟩
  | e :: es, h => by
    unfold remapAll
    refine (remap_gives fun i hi => h i (List.mem_append_left _ hi)).bind fun e' he => ?_
    refine (remapAll_gives fun i hi => h i (List.mem_append_right _ hi)).bind fun es' hes => ?_
    refine .ok ⟨fun j hj => ?_, by simp [spanOfAll, he.2, hes.2]⟩
    rcases List.mem_append.1 hj with hj | hj
    · exact he.1 j hj
    · exact hes.1 j hj

end

end Expr

end Remap

end StreamPlan
