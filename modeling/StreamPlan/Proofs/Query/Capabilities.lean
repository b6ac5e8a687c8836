import StreamPlan.Proofs.Query.Expr
import StreamPlan.Query.Rel

/-!
# Capabilities that a query asks for

* `Expr.capabilities`: what the functions called in an expression need.
  `capabilities_remap`: over other columns it is the same.
* `Rel.capabilities`: what the root operator of a tree needs.
-/

namespace StreamPlan

namespace Expr

/-- The capabilities that the functions called in an expression need. -/
def capabilities (e : Expr) : List Capability := e.calls.filterMap ScalarFunction.capability

theorem mem_callsOfAll {f : ScalarFunction} {es : List Expr} :
    f ∈ callsOfAll es ↔ ∃ e ∈ es, f ∈ e.calls := by
  induction es with
  | nil => simp [callsOfAll]
  | cons e es ih => simp [callsOfAll, ih]

mutual

/-- An expression calls the same functions over other columns. -/
theorem calls_remap {f : Nat → Except Fault Nat} :
    ∀ {e e' : Expr}, e.remap f = .ok e' → e'.calls = e.calls
  | .column _, _, h => by
    cases remap_cases h
    rfl
  | .literal _, _, h => by
    cases remap_cases h
    rfl
  | .binary _ l r, _, h => by
    cases remap_cases h with
    | binary hl hr => rw [calls, calls, calls_remap hl, calls_remap hr]
  | .not arg, _, h => by
    cases remap_cases h with
    | not ha => rw [calls, calls, calls_remap ha]
  | .isNull arg, _, h => by
    cases remap_cases h with
    | isNull ha => rw [calls, calls, calls_remap ha]
  | .call function args, _, h => by
    cases remap_cases h with
    | call ha => rw [calls, calls, callsOfAll_remapAll ha]
  | .window .., _, h => by
    cases remap_cases h
    rfl

theorem callsOfAll_remapAll {f : Nat → Except Fault Nat} :
    ∀ {es es' : List Expr}, remapAll f es = .ok es' → callsOfAll es' = callsOfAll es
  | [], _, h => by
    cases h
    rfl
  | e :: es, _, h => by
    unfold remapAll at h
    obtain ⟨_, he, h⟩ := bind_eq_ok.1 h
    obtain ⟨_, hes, h⟩ := bind_eq_ok.1 h
    cases h
    rw [callsOfAll, callsOfAll, calls_remap he, callsOfAll_remapAll hes]

end

/-- **An expression over other columns** needs what it did. -/
theorem capabilities_remap {f : Nat → Except Fault Nat} {e e' : Expr} (h : e.remap f = .ok e') :
    e'.capabilities = e.capabilities := by
  rw [capabilities, capabilities, calls_remap h]

theorem calls_foldl_and {f : ScalarFunction} {es : List Expr} : ∀ {e : Expr},
    f ∈ (es.foldl (.binary .and) e).calls → f ∈ e.calls ∨ ∃ k ∈ es, f ∈ k.calls := by
  induction es with
  | nil => exact fun h => .inl h
  | cons k es ih =>
    intro e h
    rcases ih h with h | ⟨k', hk', h⟩
    · rw [calls, List.mem_append] at h
      exact h.imp_right fun h => ⟨k, List.mem_cons_self, h⟩
    · exact .inr ⟨k', List.mem_cons_of_mem _ hk', h⟩

/-- A conjunction needs what one of its conditions does. -/
theorem mem_capabilities_all {cap : Capability} {es : List Expr}
    (h : cap ∈ (Expr.all es).capabilities) : ∃ e ∈ es, cap ∈ e.capabilities := by
  obtain ⟨f, hf, hcap⟩ := List.mem_filterMap.1 h
  cases es with
  | nil => cases hf
  | cons e es =>
    rcases calls_foldl_and hf with hf | ⟨k, hk, hf⟩
    · exact ⟨e, List.mem_cons_self, List.mem_filterMap.2 ⟨f, hf, hcap⟩⟩
    · exact ⟨k, List.mem_cons_of_mem _ hk, List.mem_filterMap.2 ⟨f, hf, hcap⟩⟩

/-- The conditions of an expression move one by one. -/
theorem conjuncts_remap {f : Nat → Except Fault Nat} {e e' : Expr} (h : e.remap f = .ok e') :
    List.Forall₂ (fun k k' => k.remap f = .ok k') e.conjuncts e'.conjuncts := by
  induction e using conjuncts.induct generalizing e' with
  | case1 left right ihl ihr =>
    cases remap_cases h with
    | binary hl hr => exact List.rel_append (ihl hl) (ihr hr)
  | case2 e hne htrue =>
    unfold isTruth at htrue
    split at htrue
    · cases remap_cases h
      exact .nil
    · cases htrue
  | case3 e hne hfalse =>
    have hmoved : (∀ l r, e' ≠ .binary .and l r) ∧ e'.isTruth = false := by
      cases remap_cases h with
      | binary => exact ⟨fun l r he => by cases he; exact hne _ _ rfl, rfl⟩
      | literal => exact ⟨by rintro _ _ ⟨⟩, by simpa using hfalse⟩
      | _ => exact ⟨by rintro _ _ ⟨⟩, rfl⟩
    rw [conjuncts, if_neg hfalse, conjuncts, if_neg (by rw [hmoved.2]; decide)]
    · exact .cons h .nil
    · exact hmoved.1
    · exact hne

/-- What an expression needs, one of its conditions does. -/
theorem mem_capabilities_conjuncts {cap : Capability} {e : Expr} (h : cap ∈ e.capabilities) :
    ∃ k ∈ e.conjuncts, cap ∈ k.capabilities := by
  induction e using conjuncts.induct with
  | case1 left right ihl ihr =>
    rw [capabilities, calls, List.filterMap_append] at h
    rw [conjuncts]
    rcases List.mem_append.1 h with h | h
    · obtain ⟨k, hk, hcap⟩ := ihl h
      exact ⟨k, List.mem_append_left _ hk, hcap⟩
    · obtain ⟨k, hk, hcap⟩ := ihr h
      exact ⟨k, List.mem_append_right _ hk, hcap⟩
  | case2 e hne htrue =>
    unfold isTruth at htrue
    split at htrue
    · cases h
    · cases htrue
  | case3 e hne hfalse =>
    refine ⟨e, ?_, h⟩
    rw [conjuncts, if_neg hfalse]
    · exact List.mem_singleton.2 rfl
    · exact hne

end Expr

/-- A call over other columns needs what it did. -/
theorem AggregateCall.capability_remap {f : Nat → Except Fault Nat} {call moved : AggregateCall}
    (h : call.remap f = .ok moved) : moved.capability = call.capability := by
  unfold remap at h
  obtain ⟨_, -, h⟩ := bind_eq_ok.1 h
  obtain ⟨_, -, h⟩ := bind_eq_ok.1 h
  cases h
  rfl

namespace Rel

/-- The capabilities that the root operator of a tree needs of its stage. -/
def capabilities : Rel → List Capability
  | sort .. | firstRows .. => [.sort]
  | unnest .. => [.denormalize]
  | union .. => [.union]
  | aggregate .. => [.aggregate]
  | join _ _ _ _ (some (.temporal ..)) => [.temporalJoin]
  | join _ _ _ _ (some (.interval ..)) => [.intervalJoin]
  | filter _ predicate => predicate.capabilities
  | _ => []

/-- **A filter that asks for the current time** needs to know it. -/
theorem nowFunction_mem_capabilities {input : Rel} {predicate : Expr}
    (h : .now ∈ predicate.calls) : .nowFunction ∈ (filter input predicate).capabilities :=
  List.mem_filterMap.2 ⟨.now, h, rfl⟩

end Rel

end StreamPlan
