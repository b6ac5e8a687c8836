import StreamPlan.Proofs.Catalog.Sane
import StreamPlan.Proofs.EventTime.Bound
import StreamPlan.Proofs.Plan.Sound
import StreamPlan.Proofs.Query.Rel

/-!
# Well-formed plans

What every operator may rely on in the plans of its inputs, beyond what
`Plan.check` looks for: the tree has a row type, the root key is part of the
key, the levels of a lineage lie in the row, the interval of a pending
now-filter is no longer than what the query mentions, and a stale ranking comes
from the catalog.

* `Plan.WellFormed`, and `Plan.Settled.wellFormed`: applying pending constraints
  keeps it.
* `Plan.Draft`: a plan before the last step of its operator.
* `Converter.finish_safe`, `finish_draft_safe`: a well-formed plan passes the
  check, and a draft fails it over a stale ranking alone.
-/

namespace StreamPlan

variable {catalog : Catalog} {n : Nat} {allowed : Fault → Prop}

/-- A level lies in a row of some width and is a level of the catalog's view. -/
structure Level.FitsIn (catalog : Catalog) (width : Nat) (level : Level) : Prop where
  view : ∃ view, catalog.views[level.view]? = some view ∧
    level.width = view.levelFields.length ∧ level.keys = view.ownKeys
  keys_le : level.keys ≤ level.width
  stop_le : level.stop ≤ width

theorem Level.FitsIn.mono {w w' : Nat} {level : Level} (h : level.FitsIn catalog w) (hw : w ≤ w') :
    level.FitsIn catalog w' := ⟨h.view, h.keys_le, Nat.le_trans h.stop_le hw⟩

namespace Plan

/-- What every operator may rely on in the plan of an input. -/
structure WellFormed (catalog : Catalog) (n : Nat) (plan : Plan) : Prop extends plan.Sound where
  fields : ∃ fs, plan.rel.fields = .ok fs
  rootKeys : plan.kind = .stream → ∀ k, plan.rootKeys = some k → k ≤ plan.key.sources
  lineage : ∀ l, plan.lineage = some l → ∀ level ∈ l, level.FitsIn catalog plan.width
  interval : ∀ f, plan.nowFilter = some f → f.interval.natAbs ≤ n
  stale : plan.topN.Stale → catalog.HasStale

variable {plan out : Plan}

theorem WellFormed.mono {m : Nat} (h : plan.WellFormed catalog n) (hm : n ≤ m) :
    plan.WellFormed catalog m :=
  { h with interval := fun f hf => Nat.le_trans (h.interval f hf) hm }

/-- Applying pending constraints keeps a plan well formed. -/
theorem Settled.wellFormed (h : plan.Settled out) (hw : plan.WellFormed catalog n) :
    out.WellFormed catalog n where
  toSound := h.sound hw.toSound
  fields := h.fields ▸ hw.fields
  rootKeys := by rw [h.kind, h.rootKeys, h.key]; exact hw.rootKeys
  lineage := by
    rw [h.lineage]
    intro l hl level hmem
    rw [show out.width = plan.width from h.width]
    exact hw.lineage l hl level hmem
  interval := by
    intro f hf
    rcases h.nowFilter with hn | hn
    · rw [hn] at hf; cases hf
    · exact hw.interval f (hn ▸ hf)
  stale := by
    rcases h.topN with ht | ht
    · rw [ht]; exact fun hs => absurd rfl hs.2
    · rw [ht]; exact hw.stale

/-- The row type of a well-formed plan has its width. -/
theorem WellFormed.fields_gives (h : plan.WellFormed catalog n) :
    Gives plan.rel.fields fun fs => fs.length = plan.width := Rel.fields_gives h.fields

/-- A visible column has a column of the tree. -/
theorem WellFormed.apply_gives (h : plan.WellFormed catalog n) {i : Nat}
    (hi : i < plan.select.sources) : Gives (plan.select.apply i) (· < plan.width) := by
  obtain ⟨t, ht, -⟩ := ColumnMap.apply_gives hi
  exact ⟨t, ht, h.apply_lt ht⟩

/-- The same plan with other requirements is as well formed. -/
theorem WellFormed.withNeeds (h : plan.WellFormed catalog n) (needs : Requirements) :
    ({ plan with needs } : Plan).WellFormed catalog n :=
  ⟨⟨h.key, h.select, h.stateTime, h.stateNowFilter, h.time, h.nowFilter, h.sort, h.topN⟩, h.fields,
    h.rootKeys, h.lineage, h.interval, h.stale⟩

/-- The plan without a ranking that does nothing. -/
def cleared (plan : Plan) : Plan :=
  { plan with topN := if plan.topN.isEmpty then .none else plan.topN }

/-- A plan before the last step of its operator: a stale ranking may be about
columns that are gone. -/
structure Draft (catalog : Catalog) (n : Nat) (plan : Plan) : Prop where
  cleared : plan.cleared.WellFormed catalog n
  stale : plan.topN.Stale → catalog.HasStale

theorem WellFormed.draft (h : plan.WellFormed catalog n) : plan.Draft catalog n := by
  refine ⟨?_, h.stale⟩
  unfold Plan.cleared
  split
  · exact ⟨⟨h.key, h.select, h.stateTime, h.stateNowFilter, h.time, h.nowFilter, h.sort,
      fun i hi => by cases hi⟩, h.fields, h.rootKeys, h.lineage, h.interval,
      fun hs => absurd rfl hs.2⟩
  · exact h

theorem Settled.cleared (h : plan.Settled out) : plan.cleared.Settled out.cleared where
  kind := h.kind
  key := h.key
  time := h.time
  select := h.select
  stage := h.stage
  lineage := h.lineage
  sort := h.sort
  rootKeys := h.rootKeys
  width := h.width
  fields := h.fields
  nowFilter := h.nowFilter
  topN := by
    unfold Plan.cleared
    rcases h.topN with ht | ht
    · exact .inl (by rw [ht]; rfl)
    · exact .inr (by rw [ht])

theorem Settled.draft (h : plan.Settled out) (hd : plan.Draft catalog n) : out.Draft catalog n := by
  refine ⟨h.cleared.wellFormed hd.cleared, fun hs => ?_⟩
  rcases h.topN with ht | ht
  · rw [ht] at hs; exact absurd rfl hs.2
  · exact hd.stale (ht ▸ hs)

/-- A draft that passes the check is well formed. -/
theorem Draft.wellFormed (h : plan.Draft catalog n) (hs : plan.Sound) :
    plan.WellFormed catalog n :=
  ⟨hs, h.cleared.fields, h.cleared.rootKeys, h.cleared.lineage, h.cleared.interval, h.stale⟩

/-- The ranking is looked at last. -/
theorem check_eq_topN (plan : Plan) : plan.check = (do
    Plan.check { plan with topN := .none }
    expect (plan.topN.columns.all (· < plan.width)) (.topNOutside plan.width)) := by
  unfold check
  simp only [bind_assoc]
  cases plan.nowFilter <;> by_cases hk : plan.kind = .state <;>
    simp [hk, width, expect, TopN.none, TopN.columns, SortOrder.columns] <;> rfl

/-- **A draft fails the check over a stale ranking alone.** -/
theorem Draft.check_error (h : plan.Draft catalog n) {f : Fault} (he : plan.check = .error f) :
    f = .topNOutside plan.width ∧ catalog.HasStale := by
  have hc := h.cleared
  have hbare : Plan.Sound { plan with topN := .none } :=
    ⟨hc.key, hc.select, hc.stateTime, hc.stateNowFilter, hc.time, hc.nowFilter, hc.sort,
      fun i hi => by cases hi⟩
  rw [check_eq_topN, check_eq_ok_iff.2 hbare, ok_bind] at he
  unfold expect at he
  split at he
  · cases he
  · rename_i hout
    refine ⟨by cases he; rfl, h.stale ?_⟩
    have hempty : plan.topN.isEmpty = true := by
      by_contra hne
      have htopN := hc.topN
      unfold Plan.cleared at htopN
      rw [if_neg hne] at htopN
      exact hout (List.all_eq_true.2 fun i hi => by simpa using htopN i hi)
    refine ⟨hempty, fun ho => hout ?_⟩
    have hp : plan.topN.partition = [] := by
      simp only [TopN.isEmpty, Bool.and_eq_true, List.isEmpty_iff] at hempty
      exact hempty.1.1
    simp [TopN.columns, SortOrder.columns, hp, ho]

theorem withoutNowFilter_safe (plan : Plan) :
    Safe allowed plan.withoutNowFilter fun out =>
      plan.Settled out ∧ out.nowFilter = none ∧ out.topN = plan.topN :=
  Safe.needing fun _ h => withoutNowFilter_settled (needing_eq_ok.2 h)

theorem withoutTopN_safe (plan : Plan) :
    Safe allowed plan.withoutTopN fun out =>
      plan.Settled out ∧ out.topN.isEmpty = true ∧ out.nowFilter = plan.nowFilter :=
  Safe.needing fun _ h => withoutTopN_settled (needing_eq_ok.2 h)

theorem withoutPending_safe (plan : Plan) :
    Safe allowed plan.withoutPending fun out =>
      plan.Settled out ∧ out.nowFilter = none ∧ out.topN.isEmpty = true :=
  Safe.needing fun _ h => withoutPending_settled (needing_eq_ok.2 h)

theorem require_safe (needs : Requirements) (cap : Capability) :
    Safe allowed (needing (needs.require cap)) fun out => out.stage = needs.stage :=
  Safe.needing fun _ h => Requirements.require_stage h

/-- The plan of a tree with key columns inside it. -/
theorem ofRel_gives {rel : Rel} {kind : TableKind} {key : List Nat} {needs : Requirements}
    (h : ∀ i ∈ key, i < rel.width) :
    Gives (Plan.ofRel rel kind key needs) fun plan => ∃ m : ColumnMap,
      m.targets = key ∧ m.width = rel.width ∧ plan = bare rel kind m needs := by
  obtain ⟨m, hm, hts, hw⟩ := ColumnMap.of_gives h
  exact ⟨_, ofRel_eq_ok.2 ⟨m, hm, rfl⟩, m, hts, hw, rfl⟩

end Plan

namespace Converter

/-- The last step of an operator, given that the check of a plan whose pending
constraints apply ends as allowed. -/
theorem finish_safe_of_check (c : Converter) {plan : Plan}
    (h : ∀ out, plan.Settled out → Safe allowed (do out.check; return out : Planning Plan)
      fun out => plan.Settled out ∧ out.WellFormed catalog n) :
    Safe allowed (c.finish plan) fun out => plan.Settled out ∧ out.WellFormed catalog n := by
  unfold finish
  simp only
  split
  · exact .refuse
  · split
    · exact plan.withoutPending_safe.bind fun out ho => h out ho.1
    · exact h plan (.refl plan)

/-- **A well-formed plan passes the check**, and stays well formed. -/
theorem finish_safe (c : Converter) {plan : Plan} (h : plan.WellFormed catalog n) :
    Safe allowed (c.finish plan) fun out => plan.Settled out ∧ out.WellFormed catalog n :=
  finish_safe_of_check c fun out hs => by
    rw [show out.check = .ok () from Plan.check_eq_ok_iff.2 (hs.sound h.toSound)]
    exact .ok ⟨hs, hs.wellFormed h⟩

/-- A draft passes the check unless a stale ranking was pulled up. -/
theorem finish_draft_safe (c : Converter) {plan : Plan} (h : plan.Draft catalog n)
    (ha : catalog.HasStale → ∀ w, allowed (.topNOutside w)) :
    Safe allowed (c.finish plan) fun out => plan.Settled out ∧ out.WellFormed catalog n :=
  finish_safe_of_check c fun out hs => by
    have hd := hs.draft h
    cases hc : out.check with
    | ok u =>
      have hw := hd.wellFormed (Plan.check_eq_ok_iff.1 hc)
      exact .ok ⟨hs, hw⟩
    | error f =>
      obtain ⟨rfl, hst⟩ := hd.check_error hc
      exact ⟨fun g hg => by cases hg; exact ha hst _, fun _ ho => by cases ho⟩

/-- Putting requirements together refuses or succeeds. -/
theorem combine_safe (a b : Requirements) :
    Safe allowed (combine a b) fun out => out.stage = a.stage := by
  unfold combine
  split
  · exact .refuse
  · rename_i h
    have hok : a.combine b = .ok ⟨a.stage, CapabilitySet.union a.required b.required⟩ := by
      rw [Requirements.combine, if_pos (by simpa using h)]
    rw [hok]
    exact .ok rfl

end Converter

end StreamPlan
