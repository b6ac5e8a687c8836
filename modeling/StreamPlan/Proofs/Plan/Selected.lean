import StreamPlan.Proofs.Plan.Cheapest
import StreamPlan.Proofs.Safety.Arithmetic

/-!
# The selected stage

A query is tried on every stage from the start stage on, and a refusal there leaves the other
stages alone. A fault does not: it ends the selection.

* `Pipeline.From`: the stages from the start stage on.
* `findCheapest_faults_iff`: the selection faults as the first trial that does.
* `selects_cheapest`: **the cheapest plan is selected**, the earliest of several, unless a
  trial faults.
* `faulting_trial_ends_selection`: **a fault on one stage** is in the way of a plan on another.
-/

namespace StreamPlan

variable {catalog : Catalog} {pipeline : Pipeline} {settings : PlanSettings} {cost : CostModel}
  {query : Rel} {tried : List Stage} {fault : Fault}

/-- The stages from the start stage on, all of them if none is named. -/
def Pipeline.From (pipeline : Pipeline) (startStage : Option String) (tried : List Stage) : Prop :=
  match startStage with
  | none => tried = pipeline.stages
  | some name => ∃ skipped stage rest, pipeline.stages = skipped ++ stage :: rest ∧
      stage.name = name ∧ tried = stage :: rest

theorem Pipeline.position?_of_split {skipped rest : List Stage} {stage : Stage}
    (h : pipeline.stages = skipped ++ stage :: rest) :
    pipeline.position? stage.name = some skipped.length := by
  have hnames := pipeline.names_nodup
  rw [h, List.map_append, List.map_cons, List.nodup_middle, List.nodup_cons] at hnames
  have hskipped : skipped.findIdx? (·.name == stage.name) = none := by
    refine List.findIdx?_eq_none_iff.2 fun other hother => beq_eq_false_iff_ne.2 fun hname => ?_
    exact hnames.1 (List.mem_append_left _ (hname ▸ List.mem_map_of_mem hother))
  rw [position?, h, List.findIdx?_append, hskipped, List.findIdx?_cons]
  simp

theorem stagesToTry_from (hne : pipeline.stages ≠ []) (h : pipeline.From settings.startStage tried) :
    stagesToTry pipeline settings = .ok tried := by
  rw [stagesToTry, if_neg (by simpa using hne)]
  cases hstart : settings.startStage with
  | none =>
    rw [hstart] at h
    exact congrArg Except.ok (Eq.symm h)
  | some name =>
    rw [hstart] at h
    obtain ⟨skipped, stage, rest, hsplit, rfl, rfl⟩ := h
    simp only [Pipeline.position?_of_split hsplit]
    rw [hsplit, List.drop_left]

theorem stagesToTry_unknown {name : String} (hne : pipeline.stages ≠ [])
    (hname : settings.startStage = some name) (h : ∀ stage ∈ pipeline.stages, stage.name ≠ name) :
    stagesToTry pipeline settings = .error (.unknownStage name) := by
  have hnone : pipeline.position? name = none :=
    List.findIdx?_eq_none_iff.2 fun stage hstage => beq_eq_false_iff_ne.2 (h stage hstage)
  rw [stagesToTry, if_neg (by simpa using hne)]
  simp only [hname, hnone]

theorem findCheapest_eq (h : stagesToTry pipeline settings = .ok tried) :
    findCheapest query catalog pipeline settings cost
      = (orFault (tried.mapM (tryStage catalog pipeline settings cost query)) >>= fun trials =>
        orRefuse (selectFrom trials)) := by
  rw [findCheapest, h]
  rfl

/-- Planning faults on one of the stages, and on none before it. -/
def FaultsFirst (plan : Stage → Checked PlanError Plan) (stages : List Stage) (fault : Fault) :
    Prop :=
  ∃ before stage after, stages = before ++ stage :: after ∧ plan stage = .error (.fault fault) ∧
    ∀ s ∈ before, ∀ other, plan s ≠ .error (.fault other)

theorem trials_fault_iff :
    tried.mapM (tryStage catalog pipeline settings cost query) = .error fault ↔
      FaultsFirst (planOn query catalog pipeline settings) tried fault := by
  rw [mapM_eq_error, FaultsFirst]
  simp only [tryStage_eq_error, tryStage_ends]

/-- **The selection faults** as the first trial that does. -/
theorem findCheapest_faults_iff (h : stagesToTry pipeline settings = .ok tried) :
    findCheapest query catalog pipeline settings cost = .error (.fault fault) ↔
      FaultsFirst (planOn query catalog pipeline settings) tried fault := by
  have htrials : tried.mapM (tryStage catalog pipeline settings cost query) = .error fault ↔ _ :=
    trials_fault_iff
  rw [findCheapest_eq h, ← htrials]
  cases tried.mapM (tryStage catalog pipeline settings cost query) with
  | error other => exact ⟨by rintro ⟨⟩; rfl, by rintro ⟨⟩; rfl⟩
  | ok trials =>
    refine iff_of_false (fun hfault => ?_) (by rintro ⟨⟩)
    change orRefuse (selectFrom trials) = .error (.fault fault) at hfault
    cases hselect : selectFrom trials <;> rw [hselect] at hfault <;> cases hfault

/-- Without a fault the trials end, and one of them is selected if there is a plan. -/
theorem findCheapest_of_ends (h : stagesToTry pipeline settings = .ok tried)
    (hends : ∀ stage ∈ tried, ∀ fault,
      planOn query catalog pipeline settings stage ≠ .error (.fault fault)) :
    findCheapest query catalog pipeline settings cost
      = match (successes (planOn query catalog pipeline settings) cost tried).argmin (·.2.2) with
        | some (stage, plan, n) =>
          .ok ⟨plan, stage, n, failures (planOn query catalog pipeline settings) tried⟩
        | none =>
          refuse (.noViableStage (failures (planOn query catalog pipeline settings) tried)) := by
  rw [findCheapest_eq h]
  cases htrials : tried.mapM (tryStage catalog pipeline settings cost query) with
  | error fault =>
    obtain ⟨before, stage, after, rfl, hfault, -⟩ := trials_fault_iff.1 htrials
    exact absurd hfault (hends stage (by simp) fault)
  | ok trials =>
    obtain ⟨hplans, hfailures⟩ := filterMap_trials htrials
    rw [orFault_ok, ok_bind, selectFrom_eq, hplans, hfailures]
    rcases (successes _ cost tried).argmin _ with _ | ⟨stage, plan, n⟩ <;> rfl

/-- Without a plan, and without a fault, every stage is among the failures. -/
theorem stages_of_failures {plan : Stage → Checked PlanError Plan} {stages : List Stage}
    (hends : ∀ stage ∈ stages, ∀ fault, plan stage ≠ .error (.fault fault))
    (hnone : successes plan cost stages = []) :
    (failures plan stages).map StageFailure.stage = stages.map Stage.name := by
  induction stages with
  | nil => rfl
  | cons stage stages ih =>
    obtain ⟨hstage, hstages⟩ := List.forall_mem_cons.1 hends
    rw [successes, List.filterMap_cons] at hnone
    rw [failures, List.filterMap_cons]
    cases hplan : plan stage with
    | ok p => simp [hplan] at hnone
    | error refusal =>
      cases refusal with
      | fault fault => exact absurd hplan (hstage fault)
      | refused error =>
        simp only [hplan] at hnone
        exact congrArg (stage.name :: ·) (ih hstages hnone)

/-- **The cheapest plan is selected.** On a pipeline with stages, an unknown start stage is reported
whatever the query. Else the query is tried on the stages from the start stage on. The selection
faults exactly as the first trial that does; if none does and there is a plan, it is the first of
the cheapest ones, with its stage and cost, and with the failures of all other stages; if there is
none, every stage is reported with its failure. -/
theorem selects_cheapest (hne : pipeline.stages ≠ []) :
    (∀ name, settings.startStage = some name → (∀ stage ∈ pipeline.stages, stage.name ≠ name) →
      findCheapest query catalog pipeline settings cost = refuse (.unknownStage name)) ∧
    ∀ tried, pipeline.From settings.startStage tried →
      let plan := planOn query catalog pipeline settings
      (∀ fault, findCheapest query catalog pipeline settings cost = .error (.fault fault) ↔
        FaultsFirst plan tried fault) ∧
      ((∀ stage ∈ tried, ∀ fault, plan stage ≠ .error (.fault fault)) →
        (successes plan cost tried ≠ [] → ∃ selected,
          findCheapest query catalog pipeline settings cost = .ok selected ∧
          FirstLeast (·.2.2) (successes plan cost tried)
            (selected.stage, selected.plan, selected.cost) ∧
          selected.rejected = failures plan tried) ∧
        (successes plan cost tried = [] →
          findCheapest query catalog pipeline settings cost
            = refuse (.noViableStage (failures plan tried)) ∧
          (failures plan tried).map StageFailure.stage = tried.map Stage.name)) := by
  constructor
  · intro name hname hunknown
    rw [findCheapest, stagesToTry_unknown hne hname hunknown]
    rfl
  intro tried hfrom plan
  have htry := stagesToTry_from hne hfrom
  refine ⟨fun fault => findCheapest_faults_iff htry, fun hends => ⟨fun hsome => ?_, fun hnone => ?_⟩⟩
  · cases hwinner : (successes plan cost tried).argmin (·.2.2) with
    | none => exact absurd (List.argmin_eq_none.1 hwinner) hsome
    | some winner =>
      refine ⟨⟨winner.2.1, winner.1, winner.2.2, failures plan tried⟩, ?_,
        firstLeast_of_argmin hwinner, rfl⟩
      rw [findCheapest_of_ends htry hends, hwinner]
  · refine ⟨?_, stages_of_failures hends hnone⟩
    rw [findCheapest_of_ends htry hends, hnone]
    rfl

/-- Events that are not older than the longest time. -/
def eventsWithinLongest : Rel :=
  Converter.eventsAfter (.binary .minus .now Converter.longest)

/-- The catalog of the events. -/
def eventsCatalog : Catalog := (Converter.overPlainEvents (.stream "stream")).catalog

/-- A server that does not know the time, in front of two databases. -/
def edgeAndDatabases : Pipeline :=
  ⟨[.server "edge", .database "first", .database "second"], by decide⟩

/-- **Of two databases** at one cost the first is selected, and the server is reported. -/
theorem first_database_is_selected :
    let plan := planOn eventsWithinLongest eventsCatalog edgeAndDatabases ⟨false, 50, none⟩
    edgeAndDatabases.stages ≠ [] ∧ edgeAndDatabases.From none edgeAndDatabases.stages ∧
    (∀ stage ∈ edgeAndDatabases.stages, ∀ fault, plan stage ≠ .error (.fault fault)) ∧
    ∃ selected, findCheapest eventsWithinLongest eventsCatalog edgeAndDatabases ⟨false, 50, none⟩
        (fun _ => 7) = .ok selected ∧
      FirstLeast (·.2.2) (successes plan (fun _ => 7) edgeAndDatabases.stages)
        (selected.stage, selected.plan, selected.cost) ∧
      selected.stage = .database "first" ∧ selected.cost = 7 ∧
      selected.rejected = [⟨"edge", .capability ⟨"edge", .nowFunction⟩⟩] := by
  intro plan
  have hne : edgeAndDatabases.stages ≠ [] := List.cons_ne_nil _ _
  have hfrom : edgeAndDatabases.From none edgeAndDatabases.stages := rfl
  have hends : ∀ stage ∈ edgeAndDatabases.stages, ∀ fault, plan stage ≠ .error (.fault fault) := by
    have hedge : plan (.server "edge") = .error (.refused _) := rfl
    have hfirst : plan (.database "first") = .ok _ := rfl
    have hsecond : plan (.database "second") = .ok _ := rfl
    simp only [edgeAndDatabases, List.forall_mem_cons, hedge, hfirst, hsecond]
    exact ⟨by rintro fault ⟨⟩, by rintro fault ⟨⟩, by rintro fault ⟨⟩, by simp⟩
  have hsome : successes plan (fun _ => 7) edgeAndDatabases.stages ≠ [] := by
    rintro ⟨⟩
  obtain ⟨selected, hselected, hleast, -⟩ :=
    ((selects_cheapest hne).2 _ hfrom).2 hends |>.1 hsome
  have hcomputed : findCheapest eventsWithinLongest eventsCatalog edgeAndDatabases ⟨false, 50, none⟩
    (fun _ => 7) = .ok _ := rfl
  refine ⟨hne, hfrom, hends, selected, hselected, hleast, ?_⟩
  obtain rfl := Except.ok.inj (hselected.symm.trans hcomputed)
  exact ⟨rfl, rfl, rfl⟩

/-- **A fault on one stage is in the way of a plan on another**: the ends of the minutes of these
events overflow on the stream engine, which still has their filter pending, and are planned on the
database; none of the two is selected. -/
theorem faulting_trial_ends_selection :
    let q := Converter.minutesOf eventsWithinLongest
    let settings : PlanSettings := ⟨false, 50, none⟩
    Pipeline.streamAndDatabase.From none [.stream "stream", .database "database"] ∧
      (∃ plan, planOn q eventsCatalog .streamAndDatabase settings (.database "database")
        = .ok plan) ∧
      findCheapest q eventsCatalog .streamAndDatabase settings .simple
        = .error (.fault .arithmeticOverflow) :=
  ⟨rfl, ⟨_, rfl⟩, rfl⟩

end StreamPlan
