import StreamPlan.Plan.Converter
import StreamPlan.Proofs.EventTime.Candidates
import StreamPlan.Proofs.Columns.ColumnMap

/-!
# Sound plans

* `Plan.Sound`: the structure that `Plan.check` looks for (`check_eq_ok_iff`).
* `Plan.Settled`: a plan with some of its pending constraints applied. Nothing
  else about the plan changes (`withoutPending_settled`, …), so it stays sound.
* `Converter.finish_sound`: what the last step of an operator gives is sound.
-/

namespace StreamPlan

namespace Requirements

variable {r out : Requirements}

theorem require_stage {cap : Capability} (h : r.require cap = .ok out) : out.stage = r.stage := by
  unfold require at h
  split at h
  · cases h; rfl
  · cases h

theorem complete_eq_ok {α : Type} {x : α × Option MissingCapability} {a : α} :
    complete x = .ok a ↔ x = (a, none) := by
  obtain ⟨b, o⟩ := x
  cases o <;> simp [complete]

end Requirements

namespace Plan

variable {plan out : Plan}

/-- The structure every plan has. -/
structure Sound (plan : Plan) : Prop where
  key : plan.key.width = plan.width
  select : plan.select.width = plan.width
  stateTime : plan.kind = .state → plan.time.columns = []
  stateNowFilter : plan.kind = .state → plan.nowFilter = none
  time : ∀ i ∈ plan.time.columns, i < plan.width
  nowFilter : ∀ f, plan.nowFilter = some f → f.timestamp ∈ plan.time.columns
  sort : ∀ i ∈ SortOrder.columns plan.sort, i < plan.width
  topN : ∀ i ∈ plan.topN.columns, i < plan.width

theorem expect_eq_ok {b : Bool} {f : Fault} {u : Unit} : expect b f = .ok u ↔ b = true := by
  unfold expect
  split <;> simp_all

theorem isEmpty_iff {time : EventTime} : time.isEmpty = true ↔ time.columns = [] := by
  simp [EventTime.isEmpty, EventTime.columns]

/-- **The check looks for exactly the structure of a sound plan.** -/
theorem check_eq_ok_iff : plan.check = .ok () ↔ plan.Sound := by
  have hbody : plan.check = .ok () ↔ plan.key.width = plan.width ∧ plan.select.width = plan.width ∧
      (plan.kind = .state → plan.time.columns = [] ∧ plan.nowFilter = none) ∧
      (∀ i ∈ plan.time.columns, i < plan.width) ∧
      (∀ f, plan.nowFilter = some f → f.timestamp ∈ plan.time.columns) ∧
      (∀ i ∈ SortOrder.columns plan.sort, i < plan.width) ∧
      (∀ i ∈ plan.topN.columns, i < plan.width) := by
    unfold check
    by_cases hk : plan.kind = .state
    · cases hf : plan.nowFilter <;>
        simp [bind_eq_ok, expect_eq_ok, isEmpty_iff, EventTime.isCandidate_iff, hk]
    · cases hf : plan.nowFilter <;>
        simp [bind_eq_ok, expect_eq_ok, EventTime.isCandidate_iff, hk]
  rw [hbody]
  constructor
  · rintro ⟨h1, h2, h3, h4, h5, h6, h7⟩
    exact ⟨h1, h2, fun h => (h3 h).1, fun h => (h3 h).2, h4, h5, h6, h7⟩
  · rintro ⟨h1, h2, h3, h4, h5, h6, h7, h8⟩
    exact ⟨h1, h2, fun h => ⟨h3 h, h4 h⟩, h5, h6, h7, h8⟩

theorem Sound.key_lt (h : plan.Sound) : ∀ i ∈ plan.key.targets, i < plan.width :=
  fun i hi => h.key ▸ plan.key.targets_lt i hi

theorem Sound.select_lt (h : plan.Sound) : ∀ i ∈ plan.select.targets, i < plan.width :=
  fun i hi => h.select ▸ plan.select.targets_lt i hi

/-- A visible column is a column of the tree. -/
theorem Sound.apply_lt (h : plan.Sound) {i t : Nat} (ht : plan.select.apply i = .ok t) :
    t < plan.width := h.select ▸ ColumnMap.lt_of_apply ht

/-- A tree with a key, all of whose columns are visible, with nothing pending. -/
def bare (rel : Rel) (kind : TableKind) (key : ColumnMap) (needs : Requirements) : Plan :=
  { rel, kind, key, needs
    time := .none
    select := .identity rel.width
    lineage := none
    nowFilter := none
    topN := .none
    sort := []
    rootKeys := none }

theorem ofRel_eq_ok {rel : Rel} {kind : TableKind} {key : List Nat} {needs : Requirements} :
    Plan.ofRel rel kind key needs = .ok plan ↔
      ∃ m, ColumnMap.of key rel.width = .ok m ∧ plan = bare rel kind m needs := by
  unfold Plan.ofRel
  simp only [bind_eq_ok, pure_eq_ok]
  constructor
  · rintro ⟨m, hm, rfl⟩; exact ⟨m, hm, rfl⟩
  · rintro ⟨m, hm, rfl⟩; exact ⟨m, hm, rfl⟩

theorem movedKey_eq_ok {key out : ColumnMap} {w : Nat} {f : Nat → Option Nat}
    (h : movedKey key w f = .ok out) :
    List.Forall₂ (fun i j => f i = some j) key.targets out.targets ∧ out.width = w := by
  unfold movedKey at h
  obtain ⟨o, ho, h⟩ := bind_eq_ok.1 h
  rcases o with _ | m
  · cases h
  · cases h
    obtain ⟨hts, hw⟩ := ColumnMap.tryRemap_targets ho
    exact ⟨mapM_eq_some.1 hts, hw⟩

/-- A key moves if every column of it does. -/
theorem movedKey_gives {key : ColumnMap} {w : Nat} {f : Nat → Option Nat}
    (h : ∀ i ∈ key.targets, ∃ j, f i = some j ∧ j < w) :
    Gives (movedKey key w f) fun m =>
      List.Forall₂ (fun i j => f i = some j) key.targets m.targets ∧ m.width = w := by
  have hall : ∀ is : List Nat, (∀ i ∈ is, ∃ j, f i = some j ∧ j < w) →
      ∃ moved, is.mapM f = some moved := by
    intro is
    induction is with
    | nil => exact fun _ => ⟨[], rfl⟩
    | cons i is ih =>
      intro h
      obtain ⟨j, hj, -⟩ := h i List.mem_cons_self
      obtain ⟨js, hjs⟩ := ih fun k hk => h k (List.mem_cons_of_mem i hk)
      exact ⟨j :: js, by rw [List.mapM_cons, hj, hjs]; rfl⟩
  obtain ⟨moved, hmoved⟩ := hall key.targets h
  have hlt : ∀ t ∈ moved, t < w := by
    intro t ht
    obtain ⟨n, hn, rfl⟩ := List.getElem_of_mem ht
    have hf := mapM_eq_some.1 hmoved
    have hn' : n < key.targets.length := hf.length_eq ▸ hn
    obtain ⟨j, hj, hjw⟩ := h _ (List.getElem_mem hn')
    have := (List.forall₂_iff_get.1 hf).2 n hn' hn
    rw [List.get_eq_getElem, List.get_eq_getElem, hj] at this
    exact Option.some.inj this ▸ hjw
  have heq : movedKey key w f = .ok ⟨moved, w, hlt⟩ := by
    unfold movedKey ColumnMap.tryRemap
    rw [hmoved]
    simp only [ColumnMap.of_eq_ok hlt]
    rfl
  exact ⟨_, heq, movedKey_eq_ok heq⟩

/-- A plan with some of its pending constraints applied, and otherwise as it was. -/
structure Settled (plan out : Plan) : Prop where
  kind : out.kind = plan.kind
  key : out.key = plan.key
  time : out.time = plan.time
  select : out.select = plan.select
  stage : out.needs.stage = plan.needs.stage
  lineage : out.lineage = plan.lineage
  sort : out.sort = plan.sort
  rootKeys : out.rootKeys = plan.rootKeys
  width : out.rel.width = plan.rel.width
  fields : out.rel.fields = plan.rel.fields
  nowFilter : out.nowFilter = none ∨ out.nowFilter = plan.nowFilter
  topN : out.topN = .none ∨ out.topN = plan.topN

theorem Settled.refl (plan : Plan) : plan.Settled plan :=
  ⟨rfl, rfl, rfl, rfl, rfl, rfl, rfl, rfl, rfl, rfl, .inr rfl, .inr rfl⟩

theorem Settled.trans {mid : Plan} (h : plan.Settled mid) (h' : mid.Settled out) :
    plan.Settled out where
  kind := h'.kind.trans h.kind
  key := h'.key.trans h.key
  time := h'.time.trans h.time
  select := h'.select.trans h.select
  stage := h'.stage.trans h.stage
  lineage := h'.lineage.trans h.lineage
  sort := h'.sort.trans h.sort
  rootKeys := h'.rootKeys.trans h.rootKeys
  width := h'.width.trans h.width
  fields := h'.fields.trans h.fields
  nowFilter := h'.nowFilter.elim .inl fun he => he ▸ h.nowFilter
  topN := h'.topN.elim .inl fun he => he ▸ h.topN

/-- A plan whose constraints apply is as sound as before. -/
theorem Settled.sound (h : plan.Settled out) (hs : plan.Sound) : out.Sound := by
  have hw : out.width = plan.width := h.width
  refine ⟨?_, ?_, ?_, ?_, ?_, ?_, ?_, ?_⟩
  · rw [h.key, hw]; exact hs.key
  · rw [h.select, hw]; exact hs.select
  · rw [h.kind, h.time]; exact hs.stateTime
  · rw [h.kind]
    intro hk
    rcases h.nowFilter with hn | hn
    · exact hn
    · rw [hn]; exact hs.stateNowFilter hk
  · rw [h.time, hw]; exact hs.time
  · intro f hf
    rcases h.nowFilter with hn | hn
    · rw [hn] at hf; cases hf
    · rw [h.time]; exact hs.nowFilter f (hn ▸ hf)
  · rw [h.sort, hw]; exact hs.sort
  · rw [hw]
    rcases h.topN with hn | hn
    · rw [hn]; intro i hi; cases hi
    · rw [hn]; exact hs.topN

theorem withoutNowFilter_eq_ok (h : plan.withoutNowFilter = .ok out) :
    (plan.nowFilter = none ∧ out = plan) ∨
      ∃ f needs, plan.nowFilter = some f ∧ plan.needs.require .nowFunction = .ok needs ∧
        out = { plan with nowFilter := none, needs, rel := f.onto plan.rel } := by
  have h := Requirements.complete_eq_ok.1 (needing_eq_ok.1 h)
  unfold inlineNowFilter at h
  split at h
  · rename_i hn
    cases h; exact .inl ⟨hn, rfl⟩
  · rename_i f hf
    split at h
    · rename_i needs hr
      cases h; exact .inr ⟨f, needs, hf, hr, rfl⟩
    · cases h

theorem withoutTopN_eq_ok (h : plan.withoutTopN = .ok out) :
    (plan.topN.isEmpty = true ∧ out = plan) ∨
      ∃ needs, plan.topN.isEmpty = false ∧ plan.needs.require .sort = .ok needs ∧
        out = { plan with topN := .none, needs, rel := plan.topN.onto plan.rel } := by
  have h := Requirements.complete_eq_ok.1 (needing_eq_ok.1 h)
  unfold inlineTopN at h
  split at h
  · rename_i he
    cases h; exact .inl ⟨he, rfl⟩
  · rename_i he
    split at h
    · rename_i needs hr
      cases h; exact .inr ⟨needs, by simpa using he, hr, rfl⟩
    · cases h

theorem withoutPending_eq_ok :
    plan.withoutPending = .ok out ↔
      ∃ mid, plan.withoutNowFilter = .ok mid ∧ mid.withoutTopN = .ok out := by
  unfold withoutPending withoutNowFilter withoutTopN inlineAll
  simp only [needing_eq_ok, Requirements.complete_eq_ok]
  rcases plan.inlineNowFilter with ⟨mid, _ | missing⟩ <;> simp

/-- A plan without pending constraints has none to apply. -/
theorem withoutPending_of_idle (hn : plan.nowFilter = none) (ht : plan.topN.isEmpty = true) :
    plan.withoutPending = .ok plan := by
  refine withoutPending_eq_ok.2 ⟨plan, ?_, ?_⟩
  · unfold withoutNowFilter inlineNowFilter
    rw [hn]
    rfl
  · unfold withoutTopN inlineTopN
    rw [if_pos ht]
    rfl

/-- The tree of an applied ranking has the columns of the tree below. -/
theorem width_onto (topN : TopN) (rel : Rel) : (topN.onto rel).width = rel.width := by
  unfold TopN.onto
  split
  · rfl
  · simp only
    split <;> simp [Rel.width]

theorem fields_onto (topN : TopN) (rel : Rel) : (topN.onto rel).fields = rel.fields := by
  unfold TopN.onto
  split
  · rfl
  · simp only
    split <;> simp [Rel.fields]

theorem withoutNowFilter_settled (h : plan.withoutNowFilter = .ok out) :
    plan.Settled out ∧ out.nowFilter = none ∧ out.topN = plan.topN := by
  rcases withoutNowFilter_eq_ok h with ⟨hn, rfl⟩ | ⟨f, needs, -, hr, rfl⟩
  · exact ⟨.refl _, hn, rfl⟩
  · refine ⟨⟨rfl, rfl, rfl, rfl, Requirements.require_stage hr, rfl, rfl, rfl, ?_, ?_, .inl rfl,
      .inr rfl⟩, rfl, rfl⟩
    · simp [NowFilter.onto, Rel.width]
    · simp [NowFilter.onto, Rel.fields]

theorem withoutTopN_settled (h : plan.withoutTopN = .ok out) :
    plan.Settled out ∧ out.topN.isEmpty = true ∧ out.nowFilter = plan.nowFilter := by
  rcases withoutTopN_eq_ok h with ⟨he, rfl⟩ | ⟨needs, -, hr, rfl⟩
  · exact ⟨.refl _, he, rfl⟩
  · exact ⟨⟨rfl, rfl, rfl, rfl, Requirements.require_stage hr, rfl, rfl, rfl, width_onto _ _,
      fields_onto _ _, .inr rfl, .inl rfl⟩, rfl, rfl⟩

theorem withoutPending_settled (h : plan.withoutPending = .ok out) :
    plan.Settled out ∧ out.nowFilter = none ∧ out.topN.isEmpty = true := by
  obtain ⟨mid, h1, h2⟩ := withoutPending_eq_ok.1 h
  obtain ⟨hs1, hn1, -⟩ := withoutNowFilter_settled h1
  obtain ⟨hs2, he2, hn2⟩ := withoutTopN_settled h2
  exact ⟨hs1.trans hs2, hn2.trans hn1, he2⟩

end Plan

namespace Converter

variable {c : Converter} {plan out : Plan}

theorem finish_eq_ok :
    c.finish plan = .ok out ↔
      ¬(plan.needs.stage.name ≠ c.stage.name ∧ c.settings.allowStageChange = false) ∧
        (if plan.needs.stage.isRead then plan.withoutPending = .ok out else out = plan) ∧
        out.Sound := by
  unfold finish
  simp only [Bool.not_eq_true', ← Plan.check_eq_ok_iff]
  by_cases hs : plan.needs.stage.name ≠ c.stage.name ∧ c.settings.allowStageChange = false
  · simp [hs, refuse]
  · rw [if_neg hs]
    by_cases hr : plan.needs.stage.isRead = true
    · simp only [if_pos hr, bind_eq_ok, lift_eq_ok, pure_eq_ok]
      constructor
      · rintro ⟨a, ha, u, hu, rfl⟩
        exact ⟨hs, ha, hu⟩
      · rintro ⟨-, ha, hu⟩
        exact ⟨out, ha, (), hu, rfl⟩
    · simp only [if_neg hr, bind_eq_ok, lift_eq_ok, pure_eq_ok]
      constructor
      · rintro ⟨a, rfl, u, hu, rfl⟩
        exact ⟨hs, rfl, hu⟩
      · rintro ⟨-, rfl, hu⟩
        exact ⟨out, rfl, (), hu, rfl⟩

/-- The last step of an operator leaves a plan with nothing pending as it is. -/
theorem finish_of_idle (hn : plan.nowFilter = none) (ht : plan.topN.isEmpty = true)
    (h : c.finish plan = .ok out) : out = plan := by
  obtain ⟨-, hout, -⟩ := finish_eq_ok.1 h
  split at hout
  · rw [Plan.withoutPending_of_idle hn ht] at hout
    exact (Except.ok.inj hout).symm
  · exact hout

/-- A sound plan with the requirements of one that passed the last step of an operator passes it
unchanged, unless a constraint is pending on a read stage. -/
theorem finish_unchanged {next : Plan} (h : c.finish plan = .ok out) (hneeds : next.needs = out.needs)
    (hidle : out.needs.stage.isRead = true → next.nowFilter = none ∧ next.topN.isEmpty = true)
    (hs : next.Sound) : c.finish next = .ok next := by
  obtain ⟨hstage, hout, -⟩ := finish_eq_ok.1 h
  have hsame : next.needs.stage = plan.needs.stage := by
    rw [hneeds]
    split at hout
    · exact (Plan.withoutPending_settled hout).1.stage
    · rw [hout]
  refine finish_eq_ok.2 ⟨hsame ▸ hstage, ?_, hs⟩
  split
  · rename_i hread
    obtain ⟨hnow, htop⟩ := hidle (hneeds ▸ hread)
    exact Plan.withoutPending_of_idle hnow htop
  · rfl

/-- **The last step of an operator** applies what a read stage has to and gives a sound plan. -/
theorem finish_sound (h : c.finish plan = .ok out) : plan.Settled out ∧ out.Sound := by
  obtain ⟨-, hrel, hs⟩ := finish_eq_ok.1 h
  refine ⟨?_, hs⟩
  split at hrel
  · exact (Plan.withoutPending_settled hrel).1
  · rw [hrel]; exact .refl _

end Converter

end StreamPlan
