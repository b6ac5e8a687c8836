import Mathlib.Data.List.MinMax
import Mathlib.Data.List.Nodup
import StreamPlan.Plan.Cheapest
import StreamPlan.Proofs.Outcome

/-!
# The winning plan

* `FirstLeast`: the first of the items with the least number.
* `StageTrial.foldl_better`: the winner of several trials is the first of the
  cheapest plans.
* `successes`, `failures`: how a query is planned on stages, in their order.
* `planned_of_findCheapest`: the cheapest plan of a query is its plan on one of the
  stages of the pipeline.
-/

namespace StreamPlan

/-- An item has the least number of a list, and every item before it has a greater one. -/
def FirstLeast {α : Type} (key : α → Nat) (items : List α) (best : α) : Prop :=
  ∃ before after, items = before ++ best :: after ∧ (∀ x ∈ before, key best < key x) ∧
    ∀ x ∈ after, key best ≤ key x

theorem FirstLeast.mem {α : Type} {key : α → Nat} {items : List α} {best : α}
    (h : FirstLeast key items best) : best ∈ items := by
  obtain ⟨before, after, rfl, -, -⟩ := h
  simp

theorem firstLeast_of_argmin {α : Type} {key : α → Nat} {items : List α} {best : α}
    (h : items.argmin key = some best) : FirstLeast key items best := by
  classical
  obtain ⟨hmem, hleast, hfirst⟩ := List.mem_argmin_iff.1 h
  obtain ⟨before, after, rfl, hnew⟩ := List.eq_append_cons_of_mem hmem
  refine ⟨before, after, rfl, fun x hx => ?_, fun x hx => hleast x (by simp [hx])⟩
  by_contra hle
  -- an item before the first that is no greater would have been taken
  have hpos := hfirst x (by simp [hx]) (Nat.le_of_not_lt hle)
  rw [List.idxOf_append_of_notMem hnew, List.idxOf_append_of_mem hx] at hpos
  have hlt := List.idxOf_lt_length_iff.2 hx
  omega

variable {catalog : Catalog} {pipeline : Pipeline} {settings : PlanSettings} {cost : CostModel}
  {query : Rel} {stage : Stage}

/-- The plan of a trial, with its stage and its cost. -/
def StageTrial.planned? : StageTrial → Option (Stage × Plan × Nat)
  | failed _ => none
  | planned stage plan cost => some (stage, plan, cost)

/-- **The winner** of several trials is the first of the cheapest plans. -/
theorem StageTrial.foldl_better (trials : List StageTrial) (best : Option (Stage × Plan × Nat)) :
    trials.foldl StageTrial.better best
      = (trials.filterMap planned?).foldl (List.argAux fun s t => s.2.2 < t.2.2) best := by
  induction trials generalizing best with
  | nil => rfl
  | cons trial trials ih =>
    rw [List.foldl_cons, ih]
    cases trial with
    | failed failure => rfl
    | planned stage plan cost => cases best <;> rfl

/-- How a query is planned on a stage. -/
def planOn (query : Rel) (catalog : Catalog) (pipeline : Pipeline) (settings : PlanSettings)
    (stage : Stage) : Checked PlanError Plan :=
  Converter.convert ⟨catalog, pipeline, stage, settings⟩ query

/-- The plans on the stages that can run a query, with their costs. -/
def successes (plan : Stage → Checked PlanError Plan) (cost : CostModel) (stages : List Stage) :
    List (Stage × Plan × Nat) :=
  stages.filterMap fun stage =>
    match plan stage with
    | .ok p => some (stage, p, cost p)
    | .error _ => none

/-- The stages that cannot run a query, with their errors. -/
def failures (plan : Stage → Checked PlanError Plan) (stages : List Stage) : List StageFailure :=
  stages.filterMap fun stage =>
    match plan stage with
    | .error (.refused error) => some ⟨stage.name, error⟩
    | _ => none

/-- The trials on several stages end as the query is planned there. -/
theorem filterMap_trials {stages : List Stage} {trials : List StageTrial}
    (h : stages.mapM (tryStage catalog pipeline settings cost query) = .ok trials) :
    trials.filterMap StageTrial.planned?
        = successes (planOn query catalog pipeline settings) cost stages ∧
      trials.filterMap StageTrial.failure?
        = failures (planOn query catalog pipeline settings) stages := by
  have htried := mapM_eq_ok.1 h
  clear h
  induction htried with
  | nil => exact ⟨rfl, rfl⟩
  | @cons stage trial stages trials hstep _ ih =>
    rw [successes, failures, List.filterMap_cons, List.filterMap_cons, List.filterMap_cons,
      List.filterMap_cons, ih.1, ih.2]
    unfold tryStage at hstep
    split at hstep
    · rename_i plan hplan
      cases hstep
      simp only [planOn, hplan]
      exact ⟨rfl, rfl⟩
    · rename_i error hrefused
      cases hstep
      simp only [planOn, hrefused]
      exact ⟨rfl, rfl⟩
    · cases hstep

/-- A trial faults as planning does. -/
theorem tryStage_eq_error {fault : Fault} :
    tryStage catalog pipeline settings cost query stage = .error fault ↔
      planOn query catalog pipeline settings stage = .error (.fault fault) := by
  unfold tryStage planOn
  split
  · rename_i hplan
    rw [hplan]
    exact ⟨by rintro ⟨⟩, by rintro ⟨⟩⟩
  · rename_i hrefused
    rw [hrefused]
    exact ⟨by rintro ⟨⟩, by rintro ⟨⟩⟩
  · rename_i hfault
    rw [hfault]
    exact ⟨by rintro ⟨⟩; rfl, by rintro ⟨⟩; rfl⟩

/-- A trial ends unless planning faults. -/
theorem tryStage_ends :
    (∃ trial, tryStage catalog pipeline settings cost query stage = .ok trial) ↔
      ∀ fault, planOn query catalog pipeline settings stage ≠ .error (.fault fault) := by
  constructor
  · rintro ⟨trial, htrial⟩ fault hfault
    rw [tryStage_eq_error.2 hfault] at htrial
    cases htrial
  · intro h
    cases htry : tryStage catalog pipeline settings cost query stage with
    | ok trial => exact ⟨trial, rfl⟩
    | error fault => exact absurd (tryStage_eq_error.1 htry) (h fault)

/-- The selection from several trials. -/
theorem selectFrom_eq (trials : List StageTrial) :
    selectFrom trials = match (trials.filterMap StageTrial.planned?).argmin (·.2.2) with
      | some (stage, plan, cost) => .ok ⟨plan, stage, cost, trials.filterMap StageTrial.failure?⟩
      | none => .error (.noViableStage (trials.filterMap StageTrial.failure?)) := by
  rw [selectFrom, StageTrial.foldl_better]
  rfl

/-- The stages to try are stages of the pipeline. -/
theorem mem_of_stagesToTry {stages : List Stage} (h : stagesToTry pipeline settings = .ok stages) :
    ∀ stage ∈ stages, stage ∈ pipeline.stages := by
  unfold stagesToTry at h
  split at h
  · cases h
  · split at h
    · cases h
      exact fun stage hmem => hmem
    · split at h
      · cases h
        exact fun stage hmem => List.mem_of_mem_drop hmem
      · cases h

/-- **The winning plan** is the plan of the query on a stage of the pipeline. -/
theorem planned_of_findCheapest {selected : SelectedPlan}
    (h : findCheapest query catalog pipeline settings cost = .ok selected) :
    selected.stage ∈ pipeline.stages ∧
      Converter.convert ⟨catalog, pipeline, selected.stage, settings⟩ query = .ok selected.plan := by
  unfold findCheapest at h
  obtain ⟨stages, hstages, h⟩ := bind_eq_ok.1 h
  obtain ⟨trials, htrials, h⟩ := bind_eq_ok.1 h
  have h := orRefuse_eq_ok.1 h
  rw [selectFrom_eq, (filterMap_trials (orFault_eq_ok.1 htrials)).1] at h
  split at h
  · rename_i stage plan n hwinner
    cases h
    have hmem := (firstLeast_of_argmin hwinner).mem
    obtain ⟨tried, htried, hsome⟩ := List.mem_filterMap.1 hmem
    split at hsome
    · rename_i p hplan
      cases hsome
      exact ⟨mem_of_stagesToTry (orRefuse_eq_ok.1 hstages) _ htried, hplan⟩
    · cases hsome
  · cases h

/-- A stage of a pipeline is found by its name. -/
theorem Pipeline.find?_of_mem {stage : Stage} (h : stage ∈ pipeline.stages) :
    pipeline.find? stage.name = some stage := by
  have hunique : ∀ other ∈ pipeline.stages, other.name = stage.name → other = stage :=
    fun other hmem hname => List.inj_on_of_nodup_map pipeline.names_nodup hmem h hname
  cases hfound : pipeline.find? stage.name with
  | none =>
    have := List.find?_eq_none.1 hfound stage h
    simp at this
  | some other =>
    have hname : other.name = stage.name := by simpa using List.find?_some hfound
    rw [hunique other (List.mem_of_find?_eq_some hfound) hname]

end StreamPlan
