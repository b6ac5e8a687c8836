import StreamPlan.Proofs.Answers.Project
import StreamPlan.Proofs.Plan.Ranking
import StreamPlan.Proofs.Rows.Distinct

/-!
# Answers of distinct projections

A projection to distinct rows that names no partition keeps one row of each that the
query sees. It is planned over what is below a sort. The order of that sort does not
matter to the rows, but its limit does, and it is skipped with the order.

* `Plan.Renames.picks`: other column names change nothing of what is picked.
* `Plan.ranked_distinct`: what is pending in the plan of distinct rows.
* `Plan.distinct_rows`: the rows of that plan are the different ones of the projection.
* `Converter.ranked_of_convert`: a projection with a hint ranks what is below its sort.
* `Converter.distinct_answer`: **the answer of a distinct projection** is each different
  row of what is below the sort, and of the sort itself unless that has a limit.
-/

namespace StreamPlan

variable {fixture : Fixture} {outputs : List Output}

/-- What is below a sort, or the tree itself. -/
def Rel.belowSort : Rel → Rel
  | .sort input _ _ _ => input
  | rel => rel

/-- Whether a tree is a sort with a limit. -/
def Rel.isLimited : Rel → Bool
  | .sort _ _ (some _) _ => true
  | _ => false

/-- An answer is each different row of outputs over another answer, once. -/
def ShowsDistinct (now : Int) (outputs : List Output) (below answer : List AnsweredRow) : Prop :=
  ∃ projected, projectRows now outputs (below.map AnsweredRow.visible) = .ok projected ∧
    DistinctOf projected (answer.map AnsweredRow.visible)

/-- The rows of a constraint that keeps one of each partition: sorted or not, they come
from the rows of the tree. -/
theorem distinct_of_onto {partition : List Nat} {order : SortOrder} {limit : Option Nat}
    {source : TableKind} {rel : Rel} {out : List Row}
    (h : evaluate fixture ((⟨partition, true, order, limit, source⟩ : TopN).onto rel) = .ok out) :
    ∃ rows, evaluate fixture rel = .ok rows ∧
      DistinctOf (rows.map (Row.pick · partition)) (out.map (Row.pick · partition)) := by
  have hnot : (⟨partition, true, order, limit, source⟩ : TopN).isEmpty = false := by
    simp [TopN.isEmpty]
  rw [TopN.onto, if_neg (by rw [hnot]; rintro ⟨⟩)] at h
  simp only at h
  rw [evaluate] at h
  obtain ⟨sorted, hsorted, h⟩ := bind_eq_ok.1 h
  have hdistinct := distinct_of_firstRowsOf (orFault_eq_ok.1 h)
  split at hsorted
  · exact ⟨sorted, hsorted, hdistinct⟩
  · rw [evaluate] at hsorted
    obtain ⟨rows, hrows, hsorted⟩ := bind_eq_ok.1 hsorted
    obtain ⟨_, hperm, hsorted⟩ := bind_eq_ok.1 hsorted
    cases hsorted
    exact ⟨rows, hrows, hdistinct.congr fun row =>
      ((perm_of_sortRows (orFault_eq_ok.1 hperm)).map _).mem_iff⟩

namespace Plan

variable {plan out : Plan} {columns : List Nat} {rows aboves : List Row}

/-- Other column names change nothing of what is picked from the rows. -/
theorem Renames.picks {rel above : Rel} (h : Renames rel above) (hc : ∀ c ∈ columns, c < above.width)
    (habove : StreamPlan.evaluate fixture above = .ok aboves) :
    ∃ rows, StreamPlan.evaluate fixture rel = .ok rows ∧
      rows.map (Row.pick · columns) = aboves.map (Row.pick · columns) := by
  have hwidth := h.width
  cases h with
  | same => exact ⟨aboves, habove, rfl⟩
  | @project outputs ho =>
    rw [StreamPlan.evaluate] at habove
    obtain ⟨rows, hrows, habove⟩ := bind_eq_ok.1 habove
    refine ⟨rows, hrows, ?_⟩
    have hpicked : aboves = rows.map (Row.pick · (List.range rel.width)) :=
      eq_map_of_forall₂ ((projectRows_columns ho).1 habove) fun _ _ h => eq_pick_of_at h
    rw [hpicked, List.map_map]
    -- the projection that renames shows each column where it was
    refine List.map_congr_left fun row _ => (Row.pick_pick (List.forall₂_same.2 fun c hmem => ?_)).symm
    exact List.getElem?_range (hwidth ▸ hc c hmem)

/-- A ranking that does something is what becomes pending. -/
theorem topN_withRanking {ranking : Ranking} (h : ranking.constraint.isEmpty = false) :
    (plan.withRanking ranking).topN = ranking.constraint := by
  rw [withRanking, if_neg (by rw [h]; rintro ⟨⟩)]

/-- **The plan of distinct rows** has one row of each value of the shown columns pending,
whatever the order and the limit below. -/
theorem ranked_distinct {order : SortOrder} {limit : Option Nat}
    (h : plan.ranked ⟨.selectDistinct, []⟩ columns outputs order limit = .ok out) :
    ∃ base rel order source, plan.withoutPending = .ok base ∧ Renames base.rel rel ∧
      columns.mapM plan.select.apply = .ok out.select.targets ∧
      (∀ t ∈ out.select.targets, t < rel.width) ∧
      out.settledRel = (⟨out.select.targets, true, order, none, source⟩ : TopN).onto rel := by
  unfold ranked at h
  obtain ⟨base, hbase, h⟩ := bind_eq_ok.1 h
  obtain ⟨hset, hnone, -⟩ := withoutPending_settled hbase
  obtain ⟨partition, hpartition, h⟩ := bind_eq_ok.1 h
  cases hpartition
  obtain ⟨moved, -, h⟩ := bind_eq_ok.1 h
  obtain ⟨targets, htargets, h⟩ := bind_eq_ok.1 h
  rw [hset.select] at htargets
  simp only [ranking] at h
  obtain ⟨renamed, hrenamed, h⟩ := bind_eq_ok.1 h
  rcases renamed with _ | rel
  · cases h
  · obtain ⟨key, -, h⟩ := bind_eq_ok.1 h
    obtain ⟨timed, htimed, h⟩ := bind_eq_ok.1 h
    obtain ⟨select, hselect, h⟩ := bind_eq_ok.1 h
    obtain ⟨time, htimed, -⟩ := withTimestamp_shape (lift_eq_ok.1 htimed)
    obtain ⟨hselected, hwidth⟩ := ColumnMap.of_targets (lift_eq_ok.1 hselect)
    have hrel : timed.rel = rel := by
      rw [htimed]
      exact (withRanking_shape _ _).1
    have hfilter : timed.nowFilter = none := by
      rw [htimed]
      exact (withRanking_shape _ _).2.2.1.trans hnone
    -- to keep one row of each is never nothing, even without columns
    have htopN : timed.topN = (base.rankingDistinct [] targets).constraint := by
      rw [htimed]
      exact topN_withRanking (by simp [rankingDistinct, TopN.isEmpty])
    cases h
    refine ⟨base, rel, (base.rankingDistinct [] targets).constraint.order, base.kind, hbase,
      renamed?_renames (lift_eq_ok.1 hrenamed), ?_, ?_, ?_⟩
    · rw [hselected]
      exact orFault_eq_ok.1 htargets
    · intro t ht
      exact lt_of_lt_of_eq (select.targets_lt t ht) (hwidth.trans (congrArg Rel.width hrel))
    · rw [hselected, settledRel, filteredRel, hfilter, htopN, hrel]
      rfl

/-- **The rows of the plan of distinct rows** show each different row of the projection. -/
theorem distinct_rows {order : SortOrder} {limit : Option Nat}
    (hcolumns : outputs.map Output.expr = columns.map Expr.column)
    (ho : plan.ranked ⟨.selectDistinct, []⟩ columns outputs order limit = .ok out)
    (hrows : evaluate fixture plan.settledRel = .ok rows)
    (haboves : evaluate fixture out.settledRel = .ok aboves) :
    ShowsDistinct fixture.now outputs (rows.map plan.shown) (aboves.map out.shown) := by
  obtain ⟨base, rel, moved, source, hbase, hrenames, htargets, hlt, hsettled⟩ := ranked_distinct ho
  rw [hsettled] at haboves
  obtain ⟨named, hnamed, hdistinct⟩ := distinct_of_onto haboves
  obtain ⟨below, hbelow, hpicks⟩ := hrenames.picks hlt hnamed
  rw [rel_of_withoutPending hbase] at hbelow
  obtain rfl : rows = below := Except.ok.inj (hrows.symm.trans hbelow)
  refine ⟨rows.map (Row.pick · out.select.targets), (projectRows_columns hcolumns).2 ?_, ?_⟩
  · rw [List.map_map, List.forall₂_map_left_iff, List.forall₂_map_right_iff]
    refine List.forall₂_same.2 fun row _ => at_eq_ok.2 ?_
    rw [Row.pick, List.forall₂_map_right_iff]
    refine (mapM_eq_ok.1 htargets).imp fun c t ht => ?_
    rw [Function.comp_apply, visible_shown, Row.pick, List.getElem?_map, ColumnMap.apply_eq_ok.1 ht]
    rfl
  · rw [hpicks, List.map_map]
    exact hdistinct

end Plan

namespace Converter

variable {c : Converter} {x : Rel} {plan : Plan} {answer below : List AnsweredRow}

/-- The outputs of a ranking are columns. -/
theorem exprs_of_rankedColumns {columns : List Nat} (h : rankedColumns x outputs = .ok columns) :
    outputs.map Output.expr = columns.map Expr.column := by
  obtain ⟨bare, hbare, h⟩ := bind_eq_ok.1 h
  rcases bare with _ | bare
  · cases h
  · cases h
    obtain ⟨fields, -, hbare⟩ := bind_eq_ok.1 hbare
    exact Plan.exprs_of_bareColumns (pure_eq_ok.1 hbare)

/-- **A projection with a hint** ranks what is below its sort. -/
theorem ranked_of_convert {hint : RankingHint}
    (h : c.convert (.project x outputs (some hint)) = .ok plan) :
    ∃ input out columns order limit, c.convert x.belowSort = .ok input ∧
      outputs.map Output.expr = columns.map Expr.column ∧
      input.ranked hint columns outputs order limit = .ok out ∧ c.finish out = .ok plan := by
  have hranked : ∀ {rel : Rel} {order : SortOrder} {limit : Option Nat},
      (do
        let columns ← rankedColumns rel outputs
        let input ← convert c rel
        c.finish (← input.ranked hint columns outputs order limit)) = .ok plan →
      ∃ input out columns order limit, c.convert rel = .ok input ∧
        outputs.map Output.expr = columns.map Expr.column ∧
        input.ranked hint columns outputs order limit = .ok out ∧ c.finish out = .ok plan := by
    intro rel order limit h
    obtain ⟨columns, hcolumns, h⟩ := bind_eq_ok.1 h
    obtain ⟨input, hinput, h⟩ := bind_eq_ok.1 h
    obtain ⟨out, hout, h⟩ := bind_eq_ok.1 h
    exact ⟨input, out, columns, order, limit, hinput, exprs_of_rankedColumns hcolumns, hout, h⟩
  cases x with
  | sort input order limit offset =>
    cases offset with
    | none =>
      rw [convert] at h
      exact hranked h
    | some _ =>
      rw [convert] at h
      cases h
  | _ =>
    rw [convert] at h
    · exact hranked h
    all_goals simp

/-- A sort without a limit answers as what is below it, in the order of that. -/
theorem answer_belowSort (hlimit : x.isLimited = false) (h : c.Answers fixture x answer) :
    ∃ input rows, c.convert x.belowSort = .ok input ∧
      evaluate fixture input.settledRel = .ok rows ∧ answer = rows.map input.shown := by
  obtain ⟨plan, rows, hplan, hrows, rfl⟩ := answer_settled h
  cases x with
  | sort input order limit offset =>
    cases limit with
    | some _ => cases hlimit
    | none =>
      rw [convert] at hplan
      obtain ⟨_, -, hplan⟩ := bind_eq_ok.1 hplan
      obtain ⟨below, hbelow, hplan⟩ := bind_eq_ok.1 hplan
      obtain ⟨sorted, hsorted, hplan⟩ := bind_eq_ok.1 hplan
      obtain ⟨moved, -, hsorted⟩ := bind_eq_ok.1 hsorted
      cases hsorted
      obtain ⟨hsettled, hshown⟩ := finish_answers hplan
      rw [hsettled] at hrows
      rw [hshown]
      exact ⟨below, rows, hbelow, hrows, rfl⟩
  | _ => exact ⟨plan, rows, hplan, hrows, rfl⟩

/-- **The answer of a distinct projection** is each different row that the projection
gives of what is below the sort, once. Where that sort has no limit, or there is none,
this is each different row of the projection itself. -/
theorem distinct_answer
    (hdistinct : c.Answers fixture (.project x outputs (some ⟨.selectDistinct, []⟩)) answer) :
    (∀ below, c.Answers fixture x.belowSort below →
        ShowsDistinct fixture.now outputs below answer) ∧
      (x.isLimited = false → ∀ below, c.Answers fixture x below →
        ShowsDistinct fixture.now outputs below answer) := by
  obtain ⟨plan, aboves, hplan, haboves, rfl⟩ := answer_settled hdistinct
  obtain ⟨input, out, columns, order, limit, hinput, hcolumns, hout, hfinish⟩ :=
    ranked_of_convert hplan
  obtain ⟨hsettled, hshown⟩ := finish_answers hfinish
  rw [hsettled] at haboves
  rw [hshown]
  -- what is planned is what is below the sort, and a sort without a limit answers as that
  have hover : ∀ {below : List AnsweredRow}, (∃ input rows, c.convert x.belowSort = .ok input ∧
      evaluate fixture input.settledRel = .ok rows ∧ below = rows.map input.shown) →
      ShowsDistinct fixture.now outputs below (aboves.map out.shown) := by
    rintro _ ⟨same, rows, hsame, hrows, rfl⟩
    obtain rfl : input = same := Except.ok.inj (hinput.symm.trans hsame)
    exact Plan.distinct_rows hcolumns hout hrows haboves
  exact ⟨fun below hbelow => hover (answer_settled hbelow),
    fun hlimit below hbelow => hover (answer_belowSort hlimit hbelow)⟩

/-- Events in the order of their time, at most as many as a limit. -/
def sortedEvents (limit : Option Nat) : Rel := .sort scannedEvents [⟨1, .ascending⟩] limit none

/-- The different times of events. -/
def eventTimes (limit : Option Nat) : Rel :=
  .project (sortedEvents limit) [⟨.column 1, ⟨"at", .timestamp, true⟩⟩] (some ⟨.selectDistinct, []⟩)

/-- Two of three events are of one time, which is there once. -/
theorem event_times_are_distinct :
    let events := eventsAt [(1, 990), (2, 980), (3, 990)]
    let below : List AnsweredRow := [⟨[.int 1, .timestamp 990], [.int 1]⟩,
      ⟨[.int 2, .timestamp 980], [.int 2]⟩, ⟨[.int 3, .timestamp 990], [.int 3]⟩]
    let answer : List AnsweredRow :=
      [⟨[.timestamp 990], [.timestamp 990]⟩, ⟨[.timestamp 980], [.timestamp 980]⟩]
    (overPlainEvents (.stream "stream")).Answers events (sortedEvents none) below ∧
      (overPlainEvents (.stream "stream")).Answers events (eventTimes none) answer ∧
      ShowsDistinct events.now [⟨.column 1, ⟨"at", .timestamp, true⟩⟩] below answer := by
  intro events below answer
  have hbelow : (overPlainEvents (.stream "stream")).Answers events (sortedEvents none) below :=
    ⟨_, _, _, rfl, rfl, rfl⟩
  have hanswer : (overPlainEvents (.stream "stream")).Answers events (eventTimes none) answer :=
    ⟨_, _, _, rfl, rfl, rfl⟩
  exact ⟨hbelow, hanswer, (distinct_answer hanswer).2 rfl below hbelow⟩

/-- The first event by time has one time. The distinct times of it are those of all
events. -/
theorem limited_times_are_of_all_events :
    let events := eventsAt [(1, 990), (2, 980), (3, 990)]
    let below : List AnsweredRow := [⟨[.int 2, .timestamp 980], [.int 2]⟩]
    let answer : List AnsweredRow :=
      [⟨[.timestamp 990], [.timestamp 990]⟩, ⟨[.timestamp 980], [.timestamp 980]⟩]
    (overPlainEvents (.stream "stream")).Answers events (sortedEvents (some 1)) below ∧
      (overPlainEvents (.stream "stream")).Answers events (eventTimes (some 1)) answer ∧
      ¬ShowsDistinct events.now [⟨.column 1, ⟨"at", .timestamp, true⟩⟩] below answer := by
  intro events below answer
  refine ⟨⟨_, _, _, rfl, rfl, rfl⟩, ⟨_, _, _, rfl, rfl, rfl⟩, ?_⟩
  rintro ⟨projected, hprojected, hdistinct⟩
  obtain rfl : [[.timestamp 980]] = projected := Except.ok.inj hprojected
  cases List.mem_singleton.1 (hdistinct.mem [.timestamp 990] List.mem_cons_self)

end Converter

end StreamPlan
