import StreamPlan.Plan.Scan
import StreamPlan.Proofs.Outcome
import StreamPlan.Proofs.Query.Capabilities

/-!
# Requirements of a growing plan

* `Requirements.Extends`: requirements of one stage of which none got lost, and
  the stage supports those that came in addition.
* `require_eq_ok`, `requireExprs_eq_ok`, `requireCalls_eq_ok`: what is recorded.
* `Converter.Known`: a stage that a conversion knows, and that supports what is
  required of it. Two of one name are one stage, so joins keep that
  (`Known.combine`).
-/

namespace StreamPlan

namespace Requirements

variable {r mid out : Requirements} {cap : Capability}

theorem mem_of_require {needed : Capability} (h : r.require needed = .ok out)
    (hc : cap ∈ r.required) : cap ∈ out.required := by
  unfold require at h
  split at h
  · cases h
    exact CapabilitySet.mem_insert.2 (.inr hc)
  · cases h

theorem required_of_require (h : r.require cap = .ok out) : cap ∈ out.required := by
  unfold require at h
  split at h
  · cases h
    exact CapabilitySet.mem_insert.2 (.inl rfl)
  · cases h

/-- A stage has what is required of it. -/
theorem supports_of_require (h : r.require cap = .ok out) : out.stage.supports cap = true := by
  unfold require at h
  split at h
  · rename_i hs
    cases h
    exact hs
  · cases h

/-- More requirements of the same stage, which supports the new ones. -/
structure Extends (r out : Requirements) : Prop where
  stage : out.stage = r.stage
  mem : ∀ cap ∈ r.required, cap ∈ out.required
  supported : ∀ cap ∈ out.required, cap ∈ r.required ∨ out.stage.supports cap = true

theorem Extends.refl (r : Requirements) : r.Extends r := ⟨rfl, fun _ h => h, fun _ h => .inl h⟩

theorem Extends.trans (h : r.Extends mid) (h' : mid.Extends out) : r.Extends out where
  stage := h'.stage.trans h.stage
  mem cap hc := h'.mem cap (h.mem cap hc)
  supported cap hc := by
    rcases h'.supported cap hc with hmid | hs
    · exact (h.supported cap hmid).imp_right fun hs => h'.stage ▸ hs
    · exact .inr hs

/-- **A capability is recorded** if the stage has it. -/
theorem require_eq_ok (h : r.require cap = .ok out) : r.Extends out ∧ cap ∈ out.required := by
  refine ⟨⟨?_, fun _ => mem_of_require h, fun c hc => ?_⟩, required_of_require h⟩ <;>
    unfold require at h <;> split at h
  · cases h
    rfl
  · cases h
  · rename_i hs
    cases h
    rcases CapabilitySet.mem_insert.1 hc with rfl | hc
    · exact .inr hs
    · exact .inl hc
  · cases h

theorem requireAll_eq_ok {caps : List Capability} (h : r.requireAll caps = .ok out) :
    r.Extends out ∧ ∀ cap ∈ caps, cap ∈ out.required := by
  induction caps generalizing r with
  | nil =>
    cases h
    exact ⟨.refl _, by simp⟩
  | cons first caps ih =>
    unfold requireAll record at h
    split at h
    · rename_i next hfirst
      obtain ⟨hnext, hmem⟩ := require_eq_ok hfirst
      obtain ⟨hout, hall⟩ := ih h
      exact ⟨hnext.trans hout, List.forall_mem_cons.2 ⟨hout.mem _ hmem, hall⟩⟩
    · cases h

/-- **What the functions in some expressions need** is recorded. -/
theorem requireExprs_eq_ok {exprs : List Expr} (h : r.requireExprs exprs = .ok out) :
    r.Extends out ∧ ∀ e ∈ exprs, ∀ cap ∈ e.capabilities, cap ∈ out.required := by
  obtain ⟨hout, hall⟩ := requireAll_eq_ok h
  refine ⟨hout, fun e he cap hc => hall cap ?_⟩
  obtain ⟨f, hf, hcap⟩ := List.mem_filterMap.1 hc
  exact CapabilitySet.mem_ofList.2
    (List.mem_filterMap.2 ⟨f, Expr.mem_callsOfAll.2 ⟨e, he, hf⟩, hcap⟩)

/-- **What an aggregation with some calls needs** is recorded. -/
theorem requireCalls_eq_ok {calls : List AggregateCall} (h : r.requireCalls calls = .ok out) :
    r.Extends out ∧ .aggregate ∈ out.required ∧
      ∀ call ∈ calls, ∀ cap, call.capability = some cap → cap ∈ out.required := by
  obtain ⟨hout, hall⟩ := requireAll_eq_ok h
  exact ⟨hout, hall _ List.mem_cons_self, fun call hmem cap hc =>
    hall cap (List.mem_cons_of_mem _ (List.mem_filterMap.2 ⟨call, hmem, hc⟩))⟩

end Requirements

namespace Converter

variable {c : Converter} {left right out : Requirements}

theorem combine_eq_ok (h : combine left right = .ok out) :
    left.stage.name = right.stage.name ∧
      out = ⟨left.stage, CapabilitySet.union left.required right.required⟩ := by
  unfold combine at h
  split at h
  · cases h
  · have h := orFault_eq_ok.1 h
    unfold Requirements.combine at h
    split at h
    · rename_i hname
      cases h
      exact ⟨hname, rfl⟩
    · cases h

/-- A join needs what its inputs need. -/
theorem mem_of_combine {cap : Capability} (h : combine left right = .ok out)
    (hc : cap ∈ left.required ∨ cap ∈ right.required) : cap ∈ out.required := by
  obtain ⟨-, rfl⟩ := combine_eq_ok h
  exact CapabilitySet.mem_union.2 hc

/-- Requirements that the stage supports, of the conversion's own stage or of
another one of the pipeline. -/
structure Known (c : Converter) (r : Requirements) : Prop where
  stage : r.stage = c.stage ∨
    r.stage.name ≠ c.stage.name ∧ c.pipeline.find? r.stage.name = some r.stage
  supported : ∀ cap ∈ r.required, r.stage.supports cap = true

theorem Known.extends (h : c.Known left) (he : left.Extends out) : c.Known out where
  stage := he.stage ▸ h.stage
  supported cap hc := (he.supported cap hc).elim (fun hc => he.stage ▸ h.supported cap hc) id

/-- Known stages of one name are one stage. -/
theorem Known.stage_eq (hl : c.Known left) (hr : c.Known right)
    (h : left.stage.name = right.stage.name) : left.stage = right.stage := by
  rcases hl.stage with hl | ⟨hl, hfound⟩ <;> rcases hr.stage with hr | ⟨hr, hfound'⟩
  · rw [hl, hr]
  · exact absurd (h.symm.trans (by rw [hl])) hr
  · exact absurd (h.trans (by rw [hr])) hl
  · exact Option.some.inj (hfound.symm.trans ((congrArg _ h).trans hfound'))

theorem Known.combine (hl : c.Known left) (hr : c.Known right)
    (h : Converter.combine left right = .ok out) : c.Known out := by
  obtain ⟨hname, rfl⟩ := combine_eq_ok h
  refine ⟨hl.stage, fun cap hc => ?_⟩
  rcases CapabilitySet.mem_union.1 hc with hc | hc
  · exact hl.supported cap hc
  · exact hl.stage_eq hr hname ▸ hr.supported cap hc

/-- A scan runs on the conversion's own stage or on the one that reads its table. -/
theorem known_of_scanNeeds {table : BaseTable} (h : c.scanNeeds table = .ok out) : c.Known out := by
  have hstart : c.Known c.start := ⟨.inl rfl, by rintro _ ⟨⟩⟩
  unfold scanNeeds at h
  split at h
  · cases h
    exact hstart
  · rename_i stage hstage
    split at h
    · cases h
      exact hstart
    · rename_i hother
      split at h
      · cases h
        obtain ⟨name, -, hfound⟩ := Option.bind_eq_some_iff.1 hstage
        have hname : stage.name = name := by simpa using List.find?_some hfound
        exact ⟨.inr ⟨fun he => hother (.inl he), hname ▸ hfound⟩, by rintro _ ⟨⟩⟩
      · cases h

end Converter

end StreamPlan
