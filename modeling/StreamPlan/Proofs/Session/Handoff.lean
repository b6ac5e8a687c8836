import StreamPlan.Proofs.Answers.Materialized
import StreamPlan.Proofs.Schema.RowType
import StreamPlan.Proofs.Session.Publishing
import StreamPlan.Proofs.Session.Stages
import StreamPlan.Proofs.Session.Calls

/-!
# Plans that are handed off

A plan is chosen while constraints may still be pending in it. To hand it off is to apply
them, for which its stage may lack a capability.

* `Converter.settled_of_convert`: on a read stage nothing is pending in the plan of a query.
* `Profile.supports_of_write`: the write stages of the profiles have every capability.
* `Compiler.materialize_gives`: so what is pending in a chosen plan can be applied.
* `Compiler.plans_hand_off`: **whatever a session plans, it can hand off.**
-/

namespace StreamPlan

namespace Converter

variable {c : Converter} {q : Rel} {plan : Plan}

/-- A plan is on the stage of its conversion or on a read stage. -/
theorem stage_or_isRead (h : c.convert q = .ok plan) :
    plan.needs.stage = c.stage ∨ plan.needs.stage.isRead = true := by
  obtain ⟨-, -, hscans, relation, hscan⟩ := (follows_scansOn c).convert h
  obtain ⟨table, -, ⟨⟨-, -, hread⟩, -⟩ | ⟨hstage, -⟩⟩ := hscans relation hscan
  · exact .inr hread
  · exact .inl hstage

/-- **On a read stage** a conversion leaves nothing pending. -/
theorem settled_of_convert (h : c.convert q = .ok plan) (hread : c.stage.isRead = true) :
    plan.nowFilter = none ∧ plan.topN.isEmpty = true :=
  settled_of_isRead h ((stage_or_isRead h).elim (fun hstage => hstage ▸ hread) id)

end Converter

/-- **A write stage of a profile** has every capability. -/
theorem Profile.supports_of_write {profile : Profile} {stage : Stage}
    (h : stage ∈ profile.pipeline.stages) (hwrite : stage.isRead = false) (cap : Capability) :
    stage.supports cap = true := by
  -- the only such stage is the stream engine
  have hstream : stage = .stream "stream" := by
    cases profile <;> simp only [pipeline, Pipeline.streamAndDatabase, List.mem_cons, List.not_mem_nil,
      or_false] at h
    · exact h
    · rcases h with rfl | rfl
      · rfl
      · cases hwrite
    · rcases h with rfl | rfl | rfl
      · rfl
      · cases hwrite
      · cases hwrite
    · cases h
      cases hwrite
  rw [hstream, Stage.supports, Stage.stream]
  exact List.contains_iff_mem.2 cap.mem_all

namespace Compiler

variable {c : Compiler} {config : Config} {cost : CostModel} {profile : Profile} {q : Rel}
  {plan : Plan} {selected : SelectedPlan}

/-- A plan for a stage of a profile lacks nothing that it needs to be handed off. -/
theorem not_lacks {converter : Converter} {missing : MissingCapability}
    (hstage : converter.stage ∈ profile.pipeline.stages) (h : converter.convert q = .ok plan) :
    ¬plan.Lacks missing := by
  rintro ⟨-, hunsupported, hneeded⟩
  -- what is lacking is for a pending constraint, and on a read stage there is none
  have hsettled : plan.needs.stage.isRead = true → False := fun hread => by
    obtain ⟨hnow, htop⟩ := Converter.settled_of_isRead h hread
    rcases hneeded with ⟨-, hne⟩ | ⟨-, hne⟩
    · exact hne hnow
    · rw [htop] at hne
      cases hne
  rcases Converter.stage_or_isRead h with hsame | hread
  · cases hmode : converter.stage.isRead with
    | true => exact hsettled (hsame ▸ hmode)
    | false =>
      rw [Requirements.supports, hsame, Profile.supports_of_write hstage hmode] at hunsupported
      cases hunsupported
  · exact hsettled hread

/-- **A plan for a stage of a profile** can be a final result, in which nothing is pending. -/
theorem materialize_gives {converter : Converter} (hstage : converter.stage ∈ profile.pipeline.stages)
    (h : converter.convert q = .ok plan) (hn : plan.select.sources < Position.countLimit) :
    ∃ final manifest, plan.materialize = .ok (final, manifest) ∧ final.hasPending = false := by
  obtain ⟨hs, hf⟩ := (Converter.keeps_fields converter).convert h
  cases hm : plan.materialize with
  | ok result =>
    obtain ⟨final, manifest⟩ := result
    obtain ⟨hnow, htop, -⟩ := Plan.align_settles (Plan.materialize_eq_ok.1 hm).1
    exact ⟨final, manifest, rfl, by rw [Plan.hasPending, hnow, htop]; rfl⟩
  | error e =>
    rcases Plan.materialize_fails hs hf hm with ⟨missing, -, hlacks⟩ | ⟨-, hmany⟩
    · exact absurd hlacks (not_lacks hstage h)
    · omega

/-- **Whatever a session plans, it can hand off**: a plan that is chosen with constraints
pending is on a stage that can apply them, unless its columns are too many to be numbered.
On a read stage, of whatever pipeline, nothing is ever pending. -/
theorem plans_hand_off (hstart : Compiler.start config cost = .ok c) (calls : List Call) (q : Rel) :
    (∀ selected, (c.run calls).plan q = .ok selected →
      selected.plan.select.sources < Position.countLimit →
      ∃ final manifest, (c.run calls).planResult q = .ok (final, manifest) ∧
        final.hasPending = false) ∧
      ∀ (converter : Converter) plan, converter.stage.isRead = true →
        converter.convert q = .ok plan → plan.nowFilter = none ∧ plan.topN.isEmpty = true := by
  refine ⟨fun selected h hn => ?_, fun converter plan hread h => Converter.settled_of_convert h hread⟩
  obtain ⟨hmem, hconvert⟩ := plan_eq_ok h
  have hprofile : c.pipeline = config.profile.pipeline := by
    unfold Compiler.start at hstart
    obtain ⟨_, -, hstart⟩ := bind_eq_ok.1 hstart
    cases hstart
    rfl
  rw [(c.run_config calls).1, hprofile] at hmem
  obtain ⟨final, manifest, hfinal, hsettled⟩ := materialize_gives hmem hconvert hn
  refine ⟨final, manifest, ?_, hsettled⟩
  rw [planResult, h, ok_bind, hfinal]
  rfl

/-- The latest payloads are chosen on the stream engine with their ranking pending, which
the final result applies. On the database the ranking is applied at once. -/
theorem latest_payloads_hand_off :
    let session := overPayloads
    let onDatabase : Converter :=
      ⟨session.catalog, .streamAndDatabase, .database "database", .default⟩
    (∃ c selected final manifest, Compiler.start .default .simple = .ok c ∧
      c.run [.registerTable payloadTable] = session ∧ session.plan latestPayloads = .ok selected ∧
      selected.plan.hasPending = true ∧ selected.plan.select.sources < Position.countLimit ∧
      session.planResult latestPayloads = .ok (final, manifest) ∧ final.hasPending = false) ∧
    ∃ plan, onDatabase.stage.isRead = true ∧ onDatabase.convert latestPayloads = .ok plan ∧
      plan.nowFilter = none ∧ plan.topN.isEmpty = true := by
  intro session onDatabase
  have hstart : Compiler.start .default .simple = .ok _ := rfl
  have hplan : session.plan latestPayloads = .ok _ := rfl
  have hread : onDatabase.convert latestPayloads = .ok _ := rfl
  obtain ⟨hhandoff, hsettled⟩ := plans_hand_off hstart [.registerTable payloadTable] latestPayloads
  obtain ⟨final, manifest, hfinal, hnone⟩ := hhandoff _ hplan (by decide)
  exact ⟨⟨_, _, final, manifest, hstart, rfl, hplan, rfl, by decide, hfinal, hnone⟩,
    _, rfl, hread, hsettled onDatabase _ rfl hread⟩

end Compiler

end StreamPlan
