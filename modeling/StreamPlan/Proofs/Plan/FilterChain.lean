import StreamPlan.Proofs.Answers.Pending
import StreamPlan.Proofs.EventTime.Merge
import StreamPlan.Proofs.Plan.Filter
import StreamPlan.Proofs.Plan.Keeps
import StreamPlan.Proofs.Plan.Requirements

/-!
# Chains of now-filters

Filters on top of each other take their now-filters out one by one, and what is pending in the end
is the tightest of them.

* `Plan.Gathered`: a plan after the now-filters on one timestamp were taken out of conditions. It
  goes along a chain (`Gathered.trans`), and determines the outcome (`Gathered.unique`).
* `Plan.extractNowFilters_of_alike`, `filtered_of_onlyStates`: conditions that are nothing but
  now-filters on one timestamp and in one direction are all taken out.
* `Converter.convert_filteredBy`, `gathered_of_filterSteps`: a chain of filters, step by step.
* `NowFilter.merge?_is_conjunction`: **merging is conjunction**, so the order of a chain does not
  matter.
-/

namespace StreamPlan

namespace NowFilter

/-- A bound that states a now-filter is on its timestamp alone. -/
theorem columns_of_ofBound? {bound : TimeBound} {filter : NowFilter}
    (h : ofBound? bound = .ok (some filter)) : ∀ i ∈ bound.columns, i = filter.timestamp := by
  obtain ⟨larger, smaller, comparison, millis⟩ := bound
  intro i hi
  rw [TimeBound.mem_columns] at hi
  unfold ofBound? at h
  split at h <;> try obtain ⟨m, -, h⟩ := bind_eq_ok.1 h
  all_goals cases h
  all_goals
    simp only at *
    subst_vars
    simpa [eq_comm] using hi

end NowFilter

namespace Plan

variable {plan mid out : Plan} {ts : Nat} {conditions remaining : List Expr}

/-- A now-filter is stated among any candidates with its timestamp. -/
theorem statedNowFilter_among {time other : EventTime} {k : Expr} {filter : NowFilter}
    (h : statedNowFilter time k = .ok (some filter)) (hts : filter.timestamp ∈ other.columns) :
    statedNowFilter other k = .ok (some filter) := by
  unfold statedNowFilter at h ⊢
  split at h
  · rename_i hnow
    obtain ⟨bound, hbound, h⟩ := bind_eq_ok.1 h
    rcases bound with _ | bound
    · cases h
    · rw [if_pos hnow, TimeBound.ofExpr?_among hbound fun i hi =>
        EventTime.isCandidate_iff.2 (NowFilter.columns_of_ofBound? h i hi ▸ hts)]
      exact h
  · cases h

/-- A now-filter that one of some conditions states. -/
def StatedIn (time : EventTime) (conditions : List Expr) (filter : NowFilter) : Prop :=
  ∃ k ∈ conditions, statedNowFilter time k = .ok (some filter)

/-- A plan after now-filters on one timestamp were taken out of conditions: the tightest of them
and of the one before is pending, and the timestamp is fixed if there were any. -/
structure Gathered (plan out : Plan) (ts : Nat) (stated : NowFilter → Prop) : Prop where
  select : out.select = plan.select
  stage : out.needs.stage = plan.needs.stage
  pending : NowFilter.Tightest (fun f => plan.nowFilter = some f ∨ stated f) out.nowFilter
  time : (∀ f, ¬stated f) ∧ out.time = plan.time ∨ (∃ f, stated f) ∧ plan.time.fix ts = .ok out.time

variable {first second : NowFilter → Prop}

theorem Gathered.congr (h : plan.Gathered out ts first) (hsame : ∀ f, first f ↔ second f) :
    plan.Gathered out ts second := by
  obtain rfl : first = second := funext fun f => propext (hsame f)
  exact h

/-- Nothing is gathered from conditions without now-filters. -/
theorem Gathered.none (plan : Plan) (ts : Nat) : plan.Gathered plan ts fun _ => False where
  select := rfl
  stage := rfl
  pending := (NowFilter.tightest_pending plan.nowFilter).congr fun f => by rw [or_false]
  time := .inl ⟨fun _ => id, rfl⟩

theorem Gathered.trans (h : plan.Gathered mid ts first) (h' : mid.Gathered out ts second) :
    plan.Gathered out ts fun f => first f ∨ second f where
  select := h'.select.trans h.select
  stage := h'.stage.trans h.stage
  pending := (h.pending.trans h'.pending).congr fun _ => or_assoc
  time := by
    rcases h.time with ⟨hnone, htime⟩ | ⟨⟨f, hf⟩, hfix⟩ <;>
      rcases h'.time with ⟨hnone', htime'⟩ | ⟨⟨f', hf'⟩, hfix'⟩
    · exact .inl ⟨fun f hf => hf.elim (hnone f) (hnone' f), htime'.trans htime⟩
    · exact .inr ⟨⟨f', .inr hf'⟩, htime ▸ hfix'⟩
    · exact .inr ⟨⟨f, .inl hf⟩, htime' ▸ hfix⟩
    · rw [EventTime.fix_fix hfix] at hfix'
      exact .inr ⟨⟨f, .inl hf⟩, Except.ok.inj hfix' ▸ hfix⟩

/-- What is gathered determines the event time and what is pending. -/
theorem Gathered.unique {other : Plan} (h : plan.Gathered out ts first)
    (h' : plan.Gathered other ts first) : out.time = other.time ∧ out.nowFilter = other.nowFilter := by
  refine ⟨?_, h.pending.unique h'.pending⟩
  rcases h.time with ⟨hnone, htime⟩ | ⟨⟨f, hf⟩, hfix⟩ <;>
    rcases h'.time with ⟨hnone', htime'⟩ | ⟨⟨f', hf'⟩, hfix'⟩
  · rw [htime, htime']
  · exact absurd hf' (hnone f')
  · exact absurd hf (hnone' f)
  · exact Except.ok.inj (hfix.symm.trans hfix')

/-- One more now-filter. -/
theorem gathered_of_addNowFilter {filter : NowFilter} (h : plan.addNowFilter filter = .ok out) :
    plan.Gathered out filter.timestamp (· = filter) := by
  obtain ⟨merged, time, hmerged, hfix, rfl⟩ := addNowFilter_eq_ok h
  refine ⟨rfl, rfl, ?_, .inr ⟨⟨filter, rfl⟩, hfix⟩⟩
  have hpending := NowFilter.tightest_pending plan.nowFilter
  unfold mergedWith at hmerged
  split at hmerged
  · rename_i hnone
    cases hmerged
    rw [hnone] at hpending ⊢
    exact hpending.first filter
  · rename_i pending hsome
    split at hmerged
    · rename_i hboth
      cases hmerged
      rw [hsome] at hpending ⊢
      exact hpending.merge hboth
    · cases hmerged

/-- Where a timestamp was fixed, what is stated on it is stated as before. -/
theorem Gathered.stated_iff (h : plan.Gathered out ts first) {k : Expr} {filter : NowFilter}
    (hone : ∀ f, statedNowFilter plan.time k = .ok (some f) → f.timestamp = ts) :
    statedNowFilter out.time k = .ok (some filter) ↔ statedNowFilter plan.time k = .ok (some filter) := by
  rcases h.time with ⟨-, htime⟩ | ⟨-, hfix⟩
  · rw [htime]
  · obtain ⟨hcolumns, -, hmem⟩ := EventTime.fix_columns hfix
    constructor
    · refine statedNowFilter_mono fun i hi => ?_
      rw [hcolumns, List.mem_singleton] at hi
      exact hi ▸ hmem
    · intro hstated
      refine statedNowFilter_among hstated ?_
      rw [hcolumns, hone filter hstated]
      exact List.mem_singleton.2 rfl

/-- **Now-filters on one timestamp** that are taken out of conditions. -/
theorem gathered_of_extractNowFilters {conditions remaining : List Expr} : ∀ {plan : Plan},
    (∀ k ∈ conditions, ∀ f, statedNowFilter plan.time k = .ok (some f) → f.timestamp = ts) →
    plan.extractNowFilters conditions = .ok (out, remaining) →
    plan.Gathered out ts (StatedIn plan.time conditions) := by
  induction conditions generalizing remaining with
  | nil =>
    intro plan _ h
    cases h
    refine (Gathered.none _ ts).congr fun f => ?_
    simp [StatedIn]
  | cons condition conditions ih =>
    intro plan hone h
    obtain ⟨hfirst, hrest⟩ := List.forall_mem_cons.1 hone
    unfold extractNowFilters at h
    obtain ⟨stated, hstated, h⟩ := bind_eq_ok.1 h
    have hstated := lift_eq_ok.1 hstated
    rcases stated with _ | filter
    · obtain ⟨⟨next, rest⟩, hnext, h⟩ := bind_eq_ok.1 h
      cases h
      refine (ih hrest hnext).congr fun f => ?_
      simp [StatedIn, hstated]
    · obtain ⟨next, hnext, h⟩ := bind_eq_ok.1 h
      have hadded := gathered_of_addNowFilter hnext
      rw [hfirst filter hstated] at hadded
      -- the other conditions state the same now-filters with the timestamp fixed
      have hsame : ∀ k ∈ conditions, ∀ f, statedNowFilter next.time k = .ok (some f) ↔
          statedNowFilter plan.time k = .ok (some f) := fun k hk f => hadded.stated_iff (hrest k hk)
      have hnext := ih (fun k hk f hf => hrest k hk f ((hsame k hk f).1 hf)) h
      refine (hadded.trans hnext).congr fun f => ?_
      simp only [StatedIn, List.mem_cons, exists_eq_or_imp, hstated, Except.ok.injEq,
        Option.some.injEq]
      refine or_congr eq_comm (exists_congr fun k => and_congr_right fun hk => hsame k hk f)

/-- A now-filter that a condition over the visible columns states. -/
def States (plan : Plan) (predicate : Expr) (filter : NowFilter) : Prop :=
  ∃ moved, predicate.remap plan.select.apply = .ok moved ∧ StatedIn plan.time moved.conjuncts filter

/-- **Now-filters on one timestamp** that a filter takes out of its condition. -/
theorem gathered_of_filtered {predicate : Expr}
    (hone : ∀ f, plan.States predicate f → f.timestamp = ts) (h : plan.filtered predicate = .ok out) :
    plan.Gathered out ts (plan.States predicate) := by
  unfold filtered at h
  obtain ⟨base, hbase, h⟩ := bind_eq_ok.1 h
  obtain ⟨moved, hmoved, h⟩ := bind_eq_ok.1 h
  obtain ⟨⟨next, remaining⟩, hnext, h⟩ := bind_eq_ok.1 h
  obtain ⟨hset, -, hnow⟩ := withoutTopN_settled hbase
  have hmoved := lift_eq_ok.1 hmoved
  rw [hset.select] at hmoved
  have hstates : ∀ f, StatedIn base.time moved.conjuncts f ↔ plan.States predicate f := fun f => by
    simp only [States, hmoved, Except.ok.injEq, exists_eq_left', hset.time]
  have hgathered : base.Gathered next ts (plan.States predicate) :=
    (gathered_of_extractNowFilters (fun k hk f hf => hone f ((hstates f).1 ⟨k, hk, hf⟩)) hnext).congr
      hstates
  have hplan : plan.Gathered next ts (plan.States predicate) :=
    ⟨hgathered.select.trans hset.select, hgathered.stage.trans hset.stage,
      hnow ▸ hgathered.pending, hset.time ▸ hgathered.time⟩
  simp only at h
  split at h
  · cases h
    exact hplan
  · obtain ⟨needs, hneeds, h⟩ := bind_eq_ok.1 h
    cases h
    obtain ⟨hextends, -⟩ := Requirements.requireExprs_eq_ok (needing_eq_ok.1 hneeds)
    exact ⟨hplan.select, hextends.stage.trans hplan.stage, hplan.pending, hplan.time⟩

/-- What a condition states of the timestamp, it states after others were gathered. -/
theorem Gathered.states_iff (h : plan.Gathered out ts first) {predicate : Expr}
    (hone : ∀ f, plan.States predicate f → f.timestamp = ts) (f : NowFilter) :
    out.States predicate f ↔ plan.States predicate f := by
  unfold States
  rw [h.select]
  refine exists_congr fun moved => and_congr_right fun hmoved => exists_congr fun k =>
    and_congr_right fun hk => ?_
  exact h.stated_iff fun g hg => hone g ⟨moved, hmoved, k, hk, hg⟩

theorem mem_columns_of_statedNowFilter {time : EventTime} {k : Expr} {filter : NowFilter}
    (h : statedNowFilter time k = .ok (some filter)) : filter.timestamp ∈ time.columns := by
  unfold statedNowFilter at h
  split at h
  · obtain ⟨bound, hbound, h⟩ := bind_eq_ok.1 h
    rcases bound with _ | bound
    · cases h
    · have hbounded : Bounded (fun _ => True) (NowFilter.ofBound? bound) _ :=
        NowFilter.ofBound?_bounded (Nat.le_refl _) fun _ => trivial
      obtain ⟨-, hside⟩ := hbounded.2 _ h filter rfl
      exact EventTime.isCandidate_iff.1
        (TimeBound.candidate_of_ofExpr? hbound _ (TimeBound.mem_columns.2 hside))
  · cases h

variable {a : NowFilter}

/-- A now-filter is taken in next to one that it can be compared with. -/
theorem addNowFilter_of_alike {filter : NowFilter}
    (hpending : ∀ f, plan.nowFilter = some f → a.Alike f) (hf : a.Alike filter)
    (hmem : filter.timestamp ∈ plan.time.columns) :
    ∃ time merged, plan.addNowFilter filter = .ok { plan with time, nowFilter := some merged } ∧
      a.Alike merged := by
  obtain ⟨time, htime, -⟩ := EventTime.fix_gives hmem
  obtain ⟨merged, hmerged, halike⟩ : ∃ merged, plan.mergedWith filter = .ok merged ∧ a.Alike merged := by
    unfold mergedWith
    cases hn : plan.nowFilter with
    | none => exact ⟨filter, rfl, hf⟩
    | some pending =>
      have hp := hpending pending hn
      obtain ⟨merged, hmerged⟩ := NowFilter.merge?_isSome_iff.2 (hp.symm.trans hf)
      obtain ⟨-, halike, -⟩ := NowFilter.merge?_spec hmerged
      refine ⟨merged, ?_, hp.trans halike.symm⟩
      simp only [hmerged]
      rfl
  refine ⟨time, merged, ?_, halike⟩
  rw [addNowFilter, hmerged, ok_bind, htime]
  rfl

/-- **Conditions that are now-filters** on one timestamp and in one direction are all taken out. -/
theorem extractNowFilters_of_alike {conditions : List Expr} : ∀ {plan : Plan},
    (∀ f, plan.nowFilter = some f → a.Alike f) →
    (∀ k ∈ conditions, ∃ f, statedNowFilter plan.time k = .ok (some f) ∧ a.Alike f) →
    ∃ time nowFilter, plan.extractNowFilters conditions = .ok ({ plan with time, nowFilter }, []) ∧
      ∀ f, nowFilter = some f → a.Alike f := by
  induction conditions with
  | nil => exact fun {plan} hpending _ => ⟨plan.time, plan.nowFilter, rfl, hpending⟩
  | cons condition conditions ih =>
    intro plan hpending hall
    obtain ⟨⟨filter, hstated, hf⟩, hrest⟩ := List.forall_mem_cons.1 hall
    obtain ⟨time, merged, hadded, hmerged⟩ :=
      addNowFilter_of_alike hpending hf (mem_columns_of_statedNowFilter hstated)
    have hgathered := gathered_of_addNowFilter hadded
    have hpending' : ∀ f, some merged = some f → a.Alike f :=
      fun f he => Option.some.inj he ▸ hmerged
    -- the timestamp that is fixed now is the one that the other conditions are on
    have hrest' : ∀ k ∈ conditions, ∃ f, statedNowFilter time k = .ok (some f) ∧ a.Alike f := by
      intro k hk
      obtain ⟨f, hkf, halike⟩ := hrest k hk
      refine ⟨f, (hgathered.stated_iff fun g hg => ?_).2 hkf, halike⟩
      obtain rfl : f = g := by simpa using hkf.symm.trans hg
      exact halike.timestamp.symm.trans hf.timestamp
    have hnext := @ih { plan with time, nowFilter := some merged } hpending' hrest'
    obtain ⟨time', nowFilter, hextracted, hout⟩ := hnext
    refine ⟨time', nowFilter, ?_, hout⟩
    rw [extractNowFilters, hstated, lift_ok, ok_bind]
    simp only
    rw [hadded, ok_bind]
    exact hextracted

/-- A condition over the visible columns that is nothing but now-filters, which can be compared
with a given one. -/
def OnlyStates (plan : Plan) (a : NowFilter) (predicate : Expr) : Prop :=
  ∃ moved, predicate.remap plan.select.apply = .ok moved ∧
    ∀ k ∈ moved.conjuncts, ∃ f, statedNowFilter plan.time k = .ok (some f) ∧ a.Alike f

/-- Such a condition states now-filters on the one timestamp. -/
theorem OnlyStates.alike {predicate : Expr} (h : plan.OnlyStates a predicate) {f : NowFilter}
    (hf : plan.States predicate f) : a.Alike f := by
  obtain ⟨moved, hmoved, hall⟩ := h
  obtain ⟨moved', hmoved', k, hk, hstated⟩ := hf
  obtain rfl : moved = moved' := Except.ok.inj (hmoved.symm.trans hmoved')
  obtain ⟨f', hstated', halike⟩ := hall k hk
  obtain rfl : f = f' := by simpa using hstated.symm.trans hstated'
  exact halike

/-- **A filter that is nothing but now-filters** changes the event time and what is pending. -/
theorem filtered_of_onlyStates {predicate : Expr} (hidle : plan.topN.isEmpty = true)
    (hpending : ∀ f, plan.nowFilter = some f → a.Alike f) (h : plan.OnlyStates a predicate) :
    ∃ time nowFilter, plan.filtered predicate = .ok { plan with time, nowFilter } ∧
      ∀ f, nowFilter = some f → a.Alike f := by
  obtain ⟨moved, hmoved, hall⟩ := h
  obtain ⟨time, nowFilter, hextracted, hout⟩ := extractNowFilters_of_alike hpending hall
  have hbase : plan.withoutTopN = .ok plan := by
    rw [withoutTopN, inlineTopN, if_pos hidle]
    rfl
  refine ⟨time, nowFilter, ?_, hout⟩
  rw [filtered, hbase, ok_bind, hmoved, lift_ok, ok_bind, hextracted, ok_bind]
  rfl

/-- The plan is as sound as before. -/
theorem Sound.gathered {time : EventTime} {nowFilter : Option NowFilter} (hs : plan.Sound)
    (h : plan.Gathered { plan with time, nowFilter } ts first)
    (hts : ∀ f, nowFilter = some f → f.timestamp = ts) : Plan.Sound { plan with time, nowFilter } := by
  have hcolumns : ∀ i ∈ time.columns, i ∈ plan.time.columns := by
    rcases h.time with ⟨-, htime⟩ | ⟨-, hfix⟩
    · exact fun i hi => htime ▸ hi
    · obtain ⟨hone, -, hmem⟩ := EventTime.fix_columns hfix
      intro i hi
      rw [hone, List.mem_singleton] at hi
      exact hi ▸ hmem
  have hstate : plan.kind = .state → time.columns = [] := fun hk =>
    List.eq_nil_iff_forall_not_mem.2 fun i hi => by
      have hmem := hcolumns i hi
      rw [hs.stateTime hk] at hmem
      cases hmem
  have hpending : ∀ f, nowFilter = some f → f.timestamp ∈ time.columns := by
    rintro f rfl
    rcases h.time with ⟨hnone, htime⟩ | ⟨-, hfix⟩
    · obtain ⟨hmem, -⟩ := h.pending
      obtain rfl : time = plan.time := htime
      exact hs.nowFilter f (hmem.resolve_right (hnone f))
    · obtain ⟨hone, -⟩ := EventTime.fix_columns hfix
      rw [hone, hts f rfl]
      exact List.mem_singleton.2 rfl
  refine ⟨hs.key, hs.select, hstate, fun hk => ?_, fun i hi => hs.time i (hcolumns i hi), hpending,
    hs.sort, hs.topN⟩
  cases hn : nowFilter with
  | none => rfl
  | some f =>
    have hmem := hpending f hn
    rw [hstate hk] at hmem
    cases hmem

end Plan

/-- A query under filters, the first of them first. -/
def Rel.filteredBy (q : Rel) (predicates : List Expr) : Rel := predicates.foldl Rel.filter q

namespace Converter

variable {c : Converter} {q : Rel} {plan out : Plan} {ts : Nat} {ps qs : List Expr}

/-- One filter over the plan of its input. -/
def filterStep (c : Converter) (plan : Plan) (predicate : Expr) : Planning Plan := do
  c.finish (← plan.filtered predicate)

/-- **A chain of filters** is planned step by step. -/
theorem convert_filteredBy (c : Converter) (q : Rel) (ps : List Expr) :
    c.convert (q.filteredBy ps) = c.convert q >>= fun plan => ps.foldlM c.filterStep plan := by
  induction ps generalizing q with
  | nil =>
    change c.convert q = c.convert q >>= pure
    rw [bind_pure]
  | cons p ps ih =>
    change c.convert ((q.filter p).filteredBy ps) = _
    rw [ih, convert, bind_assoc]
    rfl

theorem stage_of_filterStep {predicate : Expr} (h : c.filterStep plan predicate = .ok out) :
    out.needs.stage = plan.needs.stage := by
  obtain ⟨mid, hmid, hout⟩ := bind_eq_ok.1 h
  exact (finish_sound hout).1.stage.trans (Plan.builtOn_filtered hmid).1.stage

theorem stage_of_filterSteps {plan : Plan} (h : ps.foldlM c.filterStep plan = .ok out) :
    out.needs.stage = plan.needs.stage :=
  foldlM_keeps (I := fun next : Plan => next.needs.stage = plan.needs.stage) rfl
    (fun _ _ _ _ hstage hnext => (stage_of_filterStep hnext).trans hstage) h

/-- One filter on a stage that leaves constraints pending. -/
theorem gathered_of_filterStep {predicate : Expr} (hwrite : plan.needs.stage.isRead = false)
    (hone : ∀ f, plan.States predicate f → f.timestamp = ts)
    (h : c.filterStep plan predicate = .ok out) : plan.Gathered out ts (plan.States predicate) := by
  obtain ⟨mid, hmid, hout⟩ := bind_eq_ok.1 h
  obtain ⟨-, hsame, -⟩ := finish_eq_ok.1 hout
  rw [(Plan.builtOn_filtered hmid).1.stage, hwrite] at hsame
  obtain rfl : out = mid := hsame
  exact Plan.gathered_of_filtered hone hmid

/-- **A chain of filters** on such a stage. -/
theorem gathered_of_filterSteps : ∀ {plan : Plan}, plan.needs.stage.isRead = false →
    (∀ p ∈ ps, ∀ f, plan.States p f → f.timestamp = ts) → ps.foldlM c.filterStep plan = .ok out →
    plan.Gathered out ts fun f => ∃ p ∈ ps, plan.States p f := by
  induction ps with
  | nil =>
    intro plan _ _ h
    cases h
    refine (Plan.Gathered.none _ ts).congr fun f => ?_
    simp
  | cons p ps ih =>
    intro plan hwrite hone h
    obtain ⟨hfirst, hrest⟩ := List.forall_mem_cons.1 hone
    rw [List.foldlM_cons] at h
    obtain ⟨mid, hmid, h⟩ := bind_eq_ok.1 h
    have hstep := gathered_of_filterStep hwrite hfirst hmid
    -- the other filters state the same now-filters over the new plan
    have hsame : ∀ p ∈ ps, ∀ f, mid.States p f ↔ plan.States p f :=
      fun p hp f => hstep.states_iff (hrest p hp) f
    have hsteps := ih (by rw [hstep.stage]; exact hwrite)
      (fun p hp f hf => hrest p hp f ((hsame p hp f).1 hf)) h
    refine (hstep.trans hsteps).congr fun f => ?_
    simp only [List.mem_cons, exists_eq_or_imp]
    exact or_congr_right (exists_congr fun p => and_congr_right fun hp => hsame p hp f)

/-- **What is pending at the end of a chain of filters**, whatever their order and however often
each stands in it. -/
theorem pending_of_filteredBy {other : Plan} (hq : c.convert q = .ok plan)
    (hone : ∀ p ∈ ps, ∀ f, plan.States p f → f.timestamp = ts) (hsame : ∀ p, p ∈ ps ↔ p ∈ qs)
    (hps : c.convert (q.filteredBy ps) = .ok out) (hqs : c.convert (q.filteredBy qs) = .ok other) :
    out.nowFilter = other.nowFilter := by
  have hchain := hps
  have hchain' := hqs
  rw [convert_filteredBy, hq, ok_bind] at hchain hchain'
  cases hread : plan.needs.stage.isRead with
  | true =>
    -- a read stage has applied every filter at once
    rw [(settled_of_isRead hps (by rw [stage_of_filterSteps hchain, hread])).1,
      (settled_of_isRead hqs (by rw [stage_of_filterSteps hchain', hread])).1]
  | false =>
    have hpending := (gathered_of_filterSteps hread hone hchain).pending
    have hpending' := (gathered_of_filterSteps hread (fun p hp => hone p ((hsame p).2 hp)) hchain').pending
    refine hpending.unique (hpending'.congr fun f => or_congr_right ?_)
    exact exists_congr fun p => and_congr_left fun _ => (hsame p).symm

variable {a : NowFilter}

/-- **A chain of filters that are nothing but now-filters** is planned, and changes the event time
and what is pending. -/
theorem filterSteps_of_onlyStates : ∀ {plan : Plan}, c.finish plan = .ok plan →
    plan.needs.stage.isRead = false → plan.topN.isEmpty = true →
    (∀ f, plan.nowFilter = some f → a.Alike f) → (∀ p ∈ ps, plan.OnlyStates a p) →
    ∃ time nowFilter, ps.foldlM c.filterStep plan = .ok { plan with time, nowFilter } := by
  induction ps with
  | nil => exact fun {plan} _ _ _ _ _ => ⟨plan.time, plan.nowFilter, rfl⟩
  | cons p ps ih =>
    intro plan hfinish hwrite hidle hpending hall
    obtain ⟨hfirst, hrest⟩ := List.forall_mem_cons.1 hall
    obtain ⟨time, nowFilter, hfiltered, hout⟩ := Plan.filtered_of_onlyStates hidle hpending hfirst
    have hgathered : plan.Gathered { plan with time, nowFilter } a.timestamp (plan.States p) :=
      Plan.gathered_of_filtered (fun f hf => (hfirst.alike hf).timestamp.symm) hfiltered
    have hnext : c.finish { plan with time, nowFilter } = .ok { plan with time, nowFilter } := by
      refine finish_unchanged hfinish rfl (fun hread => ?_) ?_
      · rw [hwrite] at hread
        cases hread
      · obtain ⟨-, hs⟩ := finish_sound hfinish
        exact hs.gathered hgathered fun f hf => (hout f hf).timestamp.symm
    have hrest' : ∀ q ∈ ps, Plan.OnlyStates { plan with time, nowFilter } a q := by
      intro q hq
      obtain ⟨moved, hmoved, hstates⟩ := hrest q hq
      refine ⟨moved, hmoved, fun k hk => ?_⟩
      obtain ⟨f, hf, halike⟩ := hstates k hk
      refine ⟨f, (hgathered.stated_iff fun g hg => ?_).2 hf, halike⟩
      obtain rfl : f = g := by simpa using hf.symm.trans hg
      exact halike.timestamp.symm
    obtain ⟨time', nowFilter', hsteps⟩ := ih hnext hwrite hidle hout hrest'
    refine ⟨time', nowFilter', ?_⟩
    rw [List.foldlM_cons, filterStep, hfiltered, ok_bind, hnext, ok_bind]
    exact hsteps

/-- **One plan at the end of a chain of now-filters**, whatever their order and however often each
stands in it: if all of them are on one timestamp and in one direction, as what was pending before,
every such chain is planned, and to one plan. -/
theorem filteredBy_of_onlyStates (hq : c.convert q = .ok plan)
    (hwrite : plan.needs.stage.isRead = false) (hidle : plan.topN.isEmpty = true)
    (hpending : ∀ f, plan.nowFilter = some f → a.Alike f) (hall : ∀ p ∈ ps, plan.OnlyStates a p)
    (hsame : ∀ p, p ∈ ps ↔ p ∈ qs) :
    ∃ time nowFilter, c.convert (q.filteredBy ps) = .ok { plan with time, nowFilter } ∧
      c.convert (q.filteredBy qs) = .ok { plan with time, nowFilter } ∧
      NowFilter.Tightest (fun f => plan.nowFilter = some f ∨ ∃ p ∈ ps, plan.States p f) nowFilter := by
  obtain ⟨below, hbelow⟩ := finishing_convert c q plan hq
  have hfinish : c.finish plan = .ok plan := finish_unchanged hbelow rfl (settled_of_isRead hq)
    (sound_of_convert hq)
  have hall' : ∀ p ∈ qs, plan.OnlyStates a p := fun p hp => hall p ((hsame p).2 hp)
  have hone : ∀ p, plan.OnlyStates a p → ∀ f, plan.States p f → f.timestamp = a.timestamp :=
    fun p hp f hf => (hp.alike hf).timestamp.symm
  obtain ⟨time, nowFilter, hsteps⟩ := filterSteps_of_onlyStates hfinish hwrite hidle hpending hall
  obtain ⟨time', nowFilter', hsteps'⟩ := filterSteps_of_onlyStates hfinish hwrite hidle hpending hall'
  have hgathered := gathered_of_filterSteps hwrite (fun p hp => hone p (hall p hp)) hsteps
  have hgathered' : plan.Gathered { plan with time := time', nowFilter := nowFilter' } a.timestamp
      fun f => ∃ p ∈ ps, plan.States p f :=
    (gathered_of_filterSteps hwrite (fun p hp => hone p (hall' p hp)) hsteps').congr fun f =>
      exists_congr fun p => and_congr_left fun _ => (hsame p).symm
  obtain ⟨htime, hnow⟩ := hgathered.unique hgathered'
  obtain rfl : time = time' := htime
  obtain rfl : nowFilter = nowFilter' := hnow
  refine ⟨time, nowFilter, ?_, ?_, hgathered.pending⟩
  · rw [convert_filteredBy, hq, ok_bind, hsteps]
  · rw [convert_filteredBy, hq, ok_bind, hsteps']

end Converter

namespace NowFilter

open Converter

/-- **Merging now-filters is conjunction.**

* Two now-filters merge if and only if they are on one timestamp and in one direction. The merged
  filter has a value on a row with a time or null if they have, and is true if and only if both are.
* Merging is commutative, associative and idempotent.
* Chains of the same filters, in whatever order and however often each stands in them, end with the
  same now-filter pending, if what they state is on one timestamp. If they are nothing but
  now-filters that can be compared, on a stage that leaves them pending, they all are planned, and
  to one plan. -/
theorem merge?_is_conjunction :
    (∀ a b : NowFilter, (∃ m, a.merge? b = some m) ↔
      a.timestamp = b.timestamp ∧ a.isRecent = b.isRecent) ∧
    (∀ (a b m : NowFilter) (now : Int) (row : Row) (u v : Value), a.merge? b = some m →
      row.Timed a.timestamp → evalExpr now row a.expr = .ok u → evalExpr now row b.expr = .ok v →
      ∃ w, evalExpr now row m.expr = .ok w ∧
        (w.isTrue = true ↔ u.isTrue = true ∧ v.isTrue = true)) ∧
    (∀ a b : NowFilter, a.merge? b = b.merge? a) ∧
    (∀ a b c : NowFilter, (a.merge? b).bind (·.merge? c) = (b.merge? c).bind (a.merge? ·)) ∧
    (∀ a : NowFilter, a.merge? a = some a) ∧
    ∀ (c : Converter) (q : Rel) (plan : Plan) (ps qs : List Expr), c.convert q = .ok plan →
      (∀ p, p ∈ ps ↔ p ∈ qs) →
      (∀ ts out other, (∀ p ∈ ps, ∀ f, plan.States p f → f.timestamp = ts) →
        c.convert (q.filteredBy ps) = .ok out → c.convert (q.filteredBy qs) = .ok other →
        out.nowFilter = other.nowFilter) ∧
      ∀ a : NowFilter, plan.needs.stage.isRead = false → plan.topN.isEmpty = true →
        (∀ f, plan.nowFilter = some f → a.Alike f) → (∀ p ∈ ps, plan.OnlyStates a p) →
        ∃ out, c.convert (q.filteredBy ps) = .ok out ∧ c.convert (q.filteredBy qs) = .ok out ∧
          Tightest (fun f => plan.nowFilter = some f ∨ ∃ p ∈ ps, plan.States p f) out.nowFilter := by
  refine ⟨fun a b => ?_, fun a b m now row u v h hrow ha hb => merge?_evaluates h hrow ha hb,
    merge?_comm, merge?_assoc, merge?_self, fun c q plan ps qs hq hsame => ⟨?_, ?_⟩⟩
  · rw [merge?_isSome_iff]
    exact ⟨fun h => ⟨h.timestamp, h.isRecent⟩, fun h => ⟨h.1, h.2⟩⟩
  · exact fun ts out other hone hps hqs => pending_of_filteredBy hq hone hsame hps hqs
  · intro a hwrite hidle hpending hall
    obtain ⟨time, nowFilter, hps, hqs, htightest⟩ :=
      filteredBy_of_onlyStates hq hwrite hidle hpending hall hsame
    exact ⟨_, hps, hqs, htightest⟩

/-- Three filters on the time of events, one of them on times to come, in two orders. -/
theorem merge?_is_conjunction_events :
    let c := overPlainEvents (.stream "stream")
    let late := (⟨1, .gt, 100⟩ : NowFilter).expr
    let later := (⟨1, .ge, 100⟩ : NowFilter).expr
    let future := (⟨1, .ge, -20⟩ : NowFilter).expr
    ∃ plan out, c.convert scannedEvents = .ok plan ∧
      (∀ p, p ∈ [late, future, later] ↔ p ∈ [later, late, late, future]) ∧
      (∀ p ∈ [late, future, later], plan.OnlyStates ⟨1, .gt, 100⟩ p) ∧
      c.convert (scannedEvents.filteredBy [late, future, later]) = .ok out ∧
      c.convert (scannedEvents.filteredBy [later, late, late, future]) = .ok out ∧
      out.nowFilter = some ⟨1, .ge, -20⟩ := by
  intro c late later future
  obtain ⟨-, -, -, -, -, hchain⟩ := merge?_is_conjunction
  have hsame : ∀ p, p ∈ [late, future, later] ↔ p ∈ [later, late, late, future] := fun p => by
    simp only [List.mem_cons, List.not_mem_nil, or_false]
    tauto
  obtain ⟨plan, hplan, hwrite, hidle, hnone, hall⟩ : ∃ plan, c.convert scannedEvents = .ok plan ∧
      plan.needs.stage.isRead = false ∧ plan.topN.isEmpty = true ∧ plan.nowFilter = none ∧
      ∀ p ∈ [late, future, later], plan.OnlyStates ⟨1, .gt, 100⟩ p := by
    refine ⟨_, rfl, rfl, rfl, rfl, ?_⟩
    simp only [List.forall_mem_cons, List.not_mem_nil, false_imp_iff, implies_true, and_true]
    refine ⟨⟨late, rfl, ?_⟩, ⟨future, rfl, ?_⟩, ⟨later, rfl, ?_⟩⟩ <;>
      exact List.forall_mem_singleton.2 ⟨_, rfl, ⟨rfl, rfl⟩⟩
  obtain ⟨-, hone⟩ := hchain c scannedEvents plan _ _ hplan hsame
  obtain ⟨out, hout, hout', -⟩ := hone ⟨1, .gt, 100⟩ hwrite hidle (by simp [hnone]) hall
  have hvalue : c.convert (scannedEvents.filteredBy [late, future, later]) = .ok _ := rfl
  refine ⟨plan, out, hplan, hsame, hall, hout, hout', ?_⟩
  rw [hvalue] at hout
  cases hout
  rfl

end NowFilter

end StreamPlan
