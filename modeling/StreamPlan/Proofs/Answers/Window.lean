import StreamPlan.Proofs.Answers.Project
import StreamPlan.Proofs.Plan.Requirements

/-!
# Answers of projections with window aggregates

A window aggregate looks at more than its own row. A projection whose input has a
pending now-filter goes over the rows that the filter is yet to drop, unless an
output keeps the timestamp as it is, and the filter applies above.

* `keptAbove`: of the rows above others, those that stand above rows that are kept.
* `Plan.GoesOver.answered`: what becomes of the rows of an answer.
* `Converter.projection_precedes_pending_filter`: **windows are evaluated before a
  pending now-filter drops rows**, and where that makes no difference.
-/

namespace StreamPlan

variable {now : Int} {fixture : Fixture}

/-- Of the rows above others, those that stand above rows that are kept. -/
def keptAbove (keep : Row → Bool) (rows : List Row) (all : List AnsweredRow) : List AnsweredRow :=
  ((rows.zip all).filter fun p => keep p.1).map Prod.snd

section Kept

variable {keep keepAbove : Row → Bool} {show' : Row → AnsweredRow} {rows aboves : List Row}
  {row : Row} {all : List AnsweredRow} {above : AnsweredRow}

theorem keptAbove_cons : keptAbove keep (row :: rows) (above :: all)
    = if keep row then above :: keptAbove keep rows all else keptAbove keep rows all := by
  unfold keptAbove
  rw [List.zip_cons_cons, List.filter_cons]
  split <;> rfl

variable (show') in
/-- Where the rows above are kept alike, they are filtered. -/
theorem keptAbove_map (h : List.Forall₂ (fun row above => keep row = keepAbove above) rows aboves) :
    keptAbove keep rows (aboves.map show') = (aboves.filter keepAbove).map show' := by
  induction h with
  | nil => rfl
  | cons hkeep _ ih =>
    rw [List.map_cons, keptAbove_cons, List.filter_cons, hkeep, ih]
    split <;> rfl

/-- Where at least those above kept rows are kept, they are among the filtered. -/
theorem keptAbove_sublist
    (h : List.Forall₂ (fun row above => keep row = true → keepAbove above = true) rows aboves) :
    (keptAbove keep rows (aboves.map show')).Sublist ((aboves.filter keepAbove).map show') := by
  induction h with
  | nil => exact List.nil_sublist _
  | @cons row above _ aboves hkeep _ ih =>
    rw [List.map_cons, keptAbove_cons]
    split
    · rename_i hrow
      rw [List.filter_cons_of_pos (hkeep hrow)]
      exact ih.cons_cons _
    · exact ih.trans (((List.sublist_cons_self above aboves).filter _).map _)

theorem keptAbove_of_all (hlength : rows.length = all.length) (h : ∀ row ∈ rows, keep row = true) :
    keptAbove keep rows all = all := by
  have hall : ∀ p ∈ rows.zip all, keep p.1 = true := fun p hp => h _ (List.of_mem_zip hp).1
  rw [keptAbove, List.filter_eq_self.2 hall, List.map_snd_zip (Nat.le_of_eq hlength.symm)]

end Kept

namespace Plan

variable {plan out : Plan} {outputs : List Output} {rows aboves : List Row} {filter : NowFilter}

/-- Outputs that are not all bare columns are computed. -/
theorem bareColumns_of_computed {width : Nat} (h : ∃ o ∈ outputs, o.expr.column? = none) :
    bareColumns width outputs = none := by
  obtain ⟨o, ho, hcolumn⟩ := h
  rw [Option.eq_none_iff_forall_ne_some]
  intro columns hbare
  obtain ⟨c, -, hc, -⟩ := exists_of_mem_left (bareColumns_eq_some.1 hbare) ho
  rw [hc] at hcolumn
  cases hcolumn

/-- A projection that is evaluated before a pending now-filter: its outputs, windows
included, are those over all rows that the filter is yet to drop some of. Of the
projected rows those above kept rows go on, and where a bucket function widens the
filter, maybe others. -/
structure ProjectedFirst (fixture : Fixture) (plan : Plan) (filter : NowFilter)
    (outputs : List Output) (rows : List Row) (all projected : List AnsweredRow) : Prop where
  below : evaluate fixture (plan.topN.onto plan.rel) = .ok rows
  projects : Projected fixture.now outputs (rows.map plan.shown) all
  kept : (∀ bucket, ¬plan.BucketsPending outputs bucket) →
    projected = keptAbove (filter.keeps fixture.now) rows all
  among : (∀ bucket, plan.BucketsPending outputs bucket → 0 < bucket.width) →
    (keptAbove (filter.keeps fixture.now) rows all).Sublist projected ∧ projected.Sublist all

variable {all : List Row}

theorem GoesOver.projectedFirst (h : GoesOver fixture plan out outputs rows all)
    (hf : plan.nowFilter = some filter) (hn : out.nowFilter ≠ none)
    (hall : Projected fixture.now outputs (rows.map plan.shown) (all.map out.shown)) :
    ProjectedFirst fixture plan filter outputs rows (all.map out.shown)
      ((all.filter (out.keeps fixture.now)).map out.shown) := by
  have hkeeps : plan.keeps fixture.now = filter.keeps fixture.now :=
    funext fun row => keeps_of_some hf
  have hamong : ((all.filter (out.keeps fixture.now)).map out.shown).Sublist (all.map out.shown) :=
    List.filter_sublist.map _
  cases h with
  | applied _ hnone => exact absurd hnone hn
  | carried _ hrows hcarried =>
    rw [hkeeps] at hcarried
    have hkept := keptAbove_map out.shown hcarried
    exact ⟨hrows, hall, fun _ => hkept.symm, fun _ => ⟨hkept ▸ List.Sublist.refl _, hamong⟩⟩
  | widened _ hb hrows hwidened =>
    rw [hkeeps] at hwidened
    exact ⟨hrows, hall, fun hno => absurd hb (hno _), fun hwidth =>
      ⟨keptAbove_sublist (hwidened (hwidth _ hb)), hamong⟩⟩

/-- A now-filter that drops nothing does so after the projection, too. -/
theorem ProjectedFirst.eq_all {all projected : List AnsweredRow}
    (h : ProjectedFirst fixture plan filter outputs rows all projected)
    (hwidth : ∀ bucket, plan.BucketsPending outputs bucket → 0 < bucket.width)
    (hkeep : ∀ row ∈ rows, filter.keeps fixture.now row = true) : projected = all := by
  have hlength : rows.length = all.length := by simpa using (congrArg List.length h.projects.key).symm
  obtain ⟨hsome, hamong⟩ := h.among hwidth
  rw [keptAbove_of_all hlength hkeep] at hsome
  exact hamong.antisymm hsome

/-- An applied now-filter is below the outputs. -/
theorem GoesOver.projected_of_applied (h : GoesOver fixture plan out outputs rows all)
    (hf : plan.nowFilter = some filter) (hn : out.nowFilter = none) (ht : plan.topN.isEmpty = true)
    (hall : Projected fixture.now outputs (rows.map plan.shown) (all.map out.shown))
    {kept : List Row} (hkept : evaluate fixture plan.settledRel = .ok kept) :
    Projected fixture.now outputs (kept.map plan.shown)
      ((all.filter (out.keeps fixture.now)).map out.shown) := by
  cases h with
  | applied hf hnone hrows =>
    rw [settledRel_eq_filteredRel ht, filteredRel, hf] at hkept
    rw [TopN.onto, if_pos ht] at hrows
    obtain rfl : rows = kept := Except.ok.inj (hrows.symm.trans hkept)
    rw [List.filter_eq_self.2 fun above _ => keeps_of_none hnone]
    exact hall
  | carried hpends =>
    rw [hf, hn] at hpends
    cases hpends
  | widened hpends =>
    rw [hn] at hpends
    cases hpends

end Plan

namespace Converter

variable {c : Converter} {q : Rel} {plan out : Plan} {outputs : List Output} {filter : NowFilter}
  {answer projected : List AnsweredRow}

/-- **Windows are evaluated before a pending now-filter drops rows.** Over a plan
with a pending now-filter, the answer of a projection that computes anything, such
as a window aggregate, is

* the projection of the answer, if the filter is pending no more: an output keeps
  its timestamp, so it is applied below;
* otherwise that of all rows of the tree, of which the filter keeps some afterwards.
  With a filter that drops no row at all, this too is the projection of the answer. -/
theorem projection_precedes_pending_filter (hb : c.catalog.Built) (hf : fixture.Fits c.catalog)
    (hplan : c.convert q = .ok plan) (hwrite : plan.needs.stage.isRead = false)
    (hpending : plan.nowFilter = some filter) (hcomputed : ∃ o ∈ outputs, o.expr.column? = none)
    (hout : c.convert (.project q outputs none) = .ok out) (hanswer : c.Answers fixture q answer)
    (hprojected : c.Answers fixture (.project q outputs none) projected) :
    (out.nowFilter = none → plan.topN.isEmpty = true →
        Projected fixture.now outputs answer projected) ∧
      (out.nowFilter ≠ none → ∃ rows all,
        plan.ProjectedFirst fixture filter outputs rows all projected ∧
        (plan.topN.isEmpty = true →
          answer = (rows.filter (filter.keeps fixture.now)).map plan.shown ∧
          ((∀ bucket, plan.BucketsPending outputs bucket → 0 < bucket.width) →
            (∀ row ∈ rows, filter.keeps fixture.now row = true) →
              Projected fixture.now outputs answer projected))) := by
  obtain ⟨input, kept, hinput, hkept, rfl⟩ := answer_settled hanswer
  obtain rfl : input = plan := Except.ok.inj (hinput.symm.trans hplan)
  obtain ⟨final, aboves, hfinal, haboves, rfl⟩ := answer_settled hprojected
  obtain rfl : final = out := Except.ok.inj (hfinal.symm.trans hout)
  rw [convert] at hfinal
  obtain ⟨bare, hbare, hfinal⟩ := bind_eq_ok.1 hfinal
  obtain ⟨_, hsame, hfinal⟩ := bind_eq_ok.1 hfinal
  cases Except.ok.inj (hsame.symm.trans hplan)
  obtain ⟨fields, -, hbare⟩ := bind_eq_ok.1 hbare
  rw [Plan.bareColumns_of_computed hcomputed] at hbare
  cases hbare
  obtain ⟨mid, hmid, hfinal⟩ := bind_eq_ok.1 hfinal
  -- on a write stage the last step leaves the plan of the outputs as it is
  obtain ⟨-, hfinal, -⟩ := finish_eq_ok.1 hfinal
  rw [(Plan.builtOn_computed hmid).needs.stage, hwrite] at hfinal
  obtain rfl : final = mid := hfinal
  obtain ⟨hs, hr⟩ := regular_of_convert hb.linked hf hplan
  obtain ⟨rows, all, hover, hall, rfl⟩ := Plan.computed_over hs hr hmid haboves
  refine ⟨fun hn ht => hover.projected_of_applied hpending hn ht hall hkept, fun hn => ?_⟩
  have hfirst := hover.projectedFirst hpending hn hall
  refine ⟨rows, _, hfirst, fun ht => ?_⟩
  obtain ⟨rows', hrows', rfl⟩ := Plan.rows_of_settledRel hs hr (.inr ht) hkept
  obtain rfl : rows' = rows := Except.ok.inj (hrows'.symm.trans hfirst.below)
  have hkeeps : input.keeps fixture.now = filter.keeps fixture.now :=
    funext fun row => Plan.keeps_of_some hpending
  rw [hkeeps]
  refine ⟨rfl, fun hwidth hkeep => ?_⟩
  rw [hfirst.eq_all hwidth hkeep, List.filter_eq_self.2 hkeep]
  exact hfirst.projects

/-- The number of every event, and how many there are up to its time. -/
def countedEvents : List Output :=
  [⟨.column 0, "id", .int64, false⟩,
    ⟨.window (.countRows "n") [] [⟨1, .ascending⟩], "n", .int64, true⟩]

/-- The same after the event's time, which is kept. -/
def stampedEvents : List Output :=
  ⟨.call (.timePreserving "utc") [.column 1], "utc", .timestamp, true⟩ :: countedEvents

/-- Of two events the now-filter drops the first. It is dropped before the events are
counted if their time is an output, and after that if not. -/
theorem stamped_events_are_counted_last :
    let events := eventsAt [(1, 800), (2, 990)]
    let answer := [⟨[.int 2, .timestamp 990], [.int 2]⟩]
    let stamped := [⟨[.timestamp 990, .int 2, .int 1], [.int 2]⟩]
    let counted := [⟨[.int 2, .int 2], [.int 2]⟩]
    ∃ plan filter, overEvents.convert scannedEvents = .ok plan ∧ plan.nowFilter = some filter ∧
      overEvents.Answers events scannedEvents answer ∧
      overEvents.Answers events (.project scannedEvents stampedEvents none) stamped ∧
      overEvents.Answers events (.project scannedEvents countedEvents none) counted ∧
      Projected events.now stampedEvents answer stamped ∧
      ∃ rows all, plan.ProjectedFirst events filter countedEvents rows all counted := by
  intro events answer stamped counted
  have hall : overEvents.Answers events scannedEvents answer := ⟨_, _, _, rfl, rfl, rfl⟩
  have hstamped : overEvents.Answers events (.project scannedEvents stampedEvents none) stamped :=
    ⟨_, _, _, rfl, rfl, rfl⟩
  have hcounted : overEvents.Answers events (.project scannedEvents countedEvents none) counted :=
    ⟨_, _, _, rfl, rfl, rfl⟩
  refine ⟨_, ⟨1, .gt, 100⟩, rfl, rfl, hall, hstamped, hcounted, ?_, ?_⟩
  · exact (projection_precedes_pending_filter overEvents_built (eventsAt_fits _) rfl rfl rfl
      ⟨_, .head _, rfl⟩ rfl hall hstamped).1 rfl rfl
  · obtain ⟨rows, all, hfirst, -⟩ := (projection_precedes_pending_filter overEvents_built
      (eventsAt_fits _) rfl rfl rfl ⟨_, .tail _ (.head _), rfl⟩ rfl hall hcounted).2 (by rintro ⟨⟩)
    exact ⟨rows, all, hfirst⟩

/-- The one event of the answer is counted as the second: the running count sees the
event that the pending now-filter drops. -/
theorem dropped_event_is_counted :
    let events := eventsAt [(1, 800), (2, 990)]
    let answer := [⟨[.int 2, .timestamp 990], [.int 2]⟩]
    let counted := [⟨[.int 2, .int 2], [.int 2]⟩]
    (∃ plan filter, overEvents.convert scannedEvents = .ok plan ∧
      plan.needs.stage.isRead = false ∧ plan.nowFilter = some filter) ∧
      overEvents.Answers events scannedEvents answer ∧
      overEvents.Answers events (.project scannedEvents countedEvents none) counted ∧
      projectRows events.now countedEvents (answer.map AnsweredRow.visible) = .ok [[.int 2, .int 1]] ∧
      counted.map AnsweredRow.visible ≠ [[.int 2, .int 1]] :=
  ⟨⟨_, ⟨1, .gt, 100⟩, rfl, rfl, rfl⟩, ⟨_, _, _, rfl, rfl, rfl⟩, ⟨_, _, _, rfl, rfl, rfl⟩, rfl,
    fun h => by simp at h⟩

end Converter

end StreamPlan
