import StreamPlan.Proofs.Answers.Union
import StreamPlan.Proofs.EventTime.Leaders

/-!
# Event times of unions

A union keeps the candidates of its first branch that all branches show on one column.
Merging the event times of the branches would keep fewer: only those whose derivations
are compatible, and with the derivation that all of them have.

* `Plan.mergedTime`: the event time that merging the branches gives.
* `Plan.ShowsMergedTime`: a union goes by that event time.
* `Plan.AppendsTime`: every branch of a union has its timestamp in a new column.
* `Converter.union_times`: **a union goes by the merged event time exactly if the first
  branch absorbs the derivations of the others on every common column.**
-/

namespace StreamPlan

namespace Plan

variable {first out : Plan} {rest : List Plan} {k : TimeCandidate}

/-- The event times of branches merged, as far as the query sees the columns. -/
def mergedTime (first : Plan) (rest : List Plan) : EventTime :=
  ((rest.map Plan.time).foldl EventTime.union first.time).restrictTo
    (List.range first.select.sources)

/-- A tree of a branch with its best timestamp in a new last column. -/
def AppendsBest (width : Nat) (branch : Plan) (rel : Rel) : Prop :=
  ∃ outputs best, rel = .project branch.rel outputs none ∧ branch.time.best? = some best ∧
    outputs.map Output.expr = (List.range width ++ [best.column]).map Expr.column

/-- A union of branches of which each has its best timestamp in one new column, which
is the fixed timestamp of the union. -/
structure AppendsTime (first : Plan) (rest : List Plan) (out : Plan) : Prop where
  time : out.time = .single first.width .source
  rel : ∃ rels, out.rel = .union rels true ∧
    List.Forall₂ (AppendsBest first.width) (first :: rest) rels

/-- A union of branches as they are, with some candidates of the first. -/
structure KeepsTime (first : Plan) (rest : List Plan) (out : Plan) : Prop where
  time : out.time = first.time.restrictTo (commonTimes first rest)
  rel : out.rel = .union ((first :: rest).map Plan.rel) true

/-- A union that goes by the merged event time of its branches: its candidates are on
the same columns with the same derivations, and if there is none, every branch has its
timestamp in a new column. -/
def ShowsMergedTime (first : Plan) (rest : List Plan) (out : Plan) : Prop :=
  if (mergedTime first rest).isEmpty then AppendsTime first rest out
  else out.time.kinds = (mergedTime first rest).kinds

/-- On every column on which all branches show a candidate, the first one's absorbs the
derivations of the others. -/
def AbsorbsCommon (first : Plan) (rest : List Plan) : Prop :=
  ∀ k ∈ first.time.candidates, k.column ∈ commonTimes first rest →
    EventTime.AbsorbsAll (rest.map Plan.time) k

/-- **A union** keeps the common candidates of the first branch, or appends a timestamp
if there are none. -/
theorem time_of_united (h : united first rest = .ok out) :
    (commonTimes first rest = [] → AppendsTime first rest out) ∧
      (commonTimes first rest ≠ [] → KeepsTime first rest out) := by
  obtain ⟨-, rels, time, htrees, hrel, htime, -, -⟩ := united_eq_ok h
  unfold unionTrees at htrees
  by_cases hcommon : commonTimes first rest = []
  · rw [if_pos (List.isEmpty_iff.2 hcommon)] at htrees
    obtain ⟨exposed, hexposed, htrees⟩ := bind_eq_ok.1 htrees
    cases htrees
    refine ⟨fun _ => ⟨htime, _, hrel, ?_⟩, fun hne => absurd hcommon hne⟩
    -- the place of a branch is there for the error of one without a timestamp
    have hsteps := mapM_eq_ok.1 hexposed
    have hlen : (first :: rest).zipIdx.length = (first :: rest).length := List.length_zipIdx
    refine List.forall₂_iff_get.2 ⟨hlen ▸ hsteps.length_eq, fun i hi hi' => ?_⟩
    have hstep := (List.forall₂_iff_get.1 hsteps).2 i (hlen ▸ hi) hi'
    simp only [List.get_eq_getElem, List.getElem_zipIdx] at hstep
    exact columns_of_exposeTime hstep
  · rw [if_neg (by rwa [List.isEmpty_iff])] at htrees
    cases htrees
    exact ⟨fun hnone => absurd hnone hcommon, fun _ => ⟨htime, hrel⟩⟩

/-- Nothing is pending in the plan of a union. -/
theorem idle_of_united (h : united first rest = .ok out) :
    out.nowFilter = none ∧ out.topN.isEmpty = true := by
  obtain ⟨-, -, -, -, -, -, -, hnow⟩ := united_eq_ok h
  exact ⟨hnow, (united_columns h).2.1⟩

theorem mem_commonTimes_of_throughAll {merged : TimeCandidate} (hk : k ∈ first.time.candidates)
    (h : EventTime.throughAll (rest.map Plan.time) k = some merged)
    (hvisible : k.column < first.select.sources) : k.column ∈ commonTimes first rest := by
  obtain ⟨-, hothers⟩ := EventTime.columns_of_throughAll h
  rw [commonTimes, List.mem_filter, Bool.and_eq_true, decide_eq_true_eq, List.all_eq_true]
  exact ⟨List.mem_map_of_mem hk, hvisible, fun b hb =>
    EventTime.isCandidate_iff.2 (hothers b.time (List.mem_map_of_mem hb))⟩

/-- The merged candidates, each from one of the first branch. -/
theorem kinds_mergedTime (first : Plan) (rest : List Plan) :
    (mergedTime first rest).kinds = first.time.candidates.filterMap fun k =>
      ((EventTime.throughAll (rest.map Plan.time) k).filter
        fun merged => (List.range first.select.sources).contains merged.column).map
          fun merged => (merged.column, merged.derivation) := by
  rw [mergedTime, EventTime.restrictTo, EventTime.withCandidates, EventTime.kinds,
    EventTime.candidates_foldl_union, List.filter_filterMap, List.map_filterMap]

/-- The kept candidates have the derivations that merging gives exactly if the first
branch's absorb those of the others. -/
theorem kinds_restrictTo_iff (first : Plan) (rest : List Plan) :
    (first.time.restrictTo (commonTimes first rest)).kinds = (mergedTime first rest).kinds ↔
      AbsorbsCommon first rest := by
  have hkept : (first.time.restrictTo (commonTimes first rest)).kinds
      = (first.time.candidates.filter fun k => (commonTimes first rest).contains k.column).map
          fun k => (k.column, k.derivation) := rfl
  have hvisible : ∀ {k merged : TimeCandidate},
      ((EventTime.throughAll (rest.map Plan.time) k).filter
        fun merged => (List.range first.select.sources).contains merged.column) = some merged ↔
      EventTime.throughAll (rest.map Plan.time) k = some merged ∧
        k.column < first.select.sources := by
    intro k merged
    rw [Option.filter_eq_some_iff, List.contains_iff_mem, List.mem_range]
    refine and_congr_right fun hmerged => ?_
    rw [(EventTime.columns_of_throughAll hmerged).1]
  -- both are the candidates of the first branch, one by one kept or not
  rw [hkept, kinds_mergedTime, eq_comm, filterMap_eq_map_filter_iff]
  · refine forall_congr' fun k => forall_congr' fun hk => ?_
    rw [List.contains_iff_mem]
    refine forall_congr' fun hcommon => ?_
    rw [← EventTime.throughAll_keeps, Option.map_eq_some_iff]
    refine exists_congr fun merged => ?_
    rw [hvisible, Prod.mk.injEq]
    constructor
    · rintro ⟨⟨hmerged, -⟩, -, hsame⟩
      exact ⟨hmerged, hsame⟩
    · rintro ⟨hmerged, hsame⟩
      exact ⟨⟨hmerged, (mem_of_commonTimes hcommon).1⟩,
        (EventTime.columns_of_throughAll hmerged).1, hsame⟩
  · intro k hk hsome
    rw [Option.isSome_map, Option.isSome_iff_exists] at hsome
    obtain ⟨merged, hmerged⟩ := hsome
    obtain ⟨hmerged, hlt⟩ := hvisible.1 hmerged
    exact List.contains_iff_mem.2 (mem_commonTimes_of_throughAll hk hmerged hlt)

theorem absorbsCommon_of_none (hnone : commonTimes first rest = []) : AbsorbsCommon first rest := by
  intro k _ hk
  rw [hnone] at hk
  cases hk

/-- Without common candidates, merging leaves none. -/
theorem mergedTime_isEmpty (hnone : commonTimes first rest = []) :
    (mergedTime first rest).isEmpty = true := by
  have hkinds := (kinds_restrictTo_iff first rest).2 (absorbsCommon_of_none hnone)
  rw [EventTime.isEmpty_iff_kinds, ← hkinds, hnone, ← List.map_eq_nil_iff (f := Prod.fst),
    EventTime.map_fst_kinds, EventTime.columns_restrictTo]
  exact List.filter_eq_nil_iff.2 (by simp)

/-- A union that keeps common candidates has some. -/
theorem KeepsTime.kinds_ne_nil (h : KeepsTime first rest out) (hsome : commonTimes first rest ≠ []) :
    out.time.kinds ≠ [] := by
  intro hnil
  refine columns_of_commonTimes hsome ?_
  rw [← h.time, ← EventTime.map_fst_kinds, hnil, List.map_nil]

/-- The branches are not both as they are and with a new column. -/
theorem KeepsTime.not_appends (h : KeepsTime first rest out) : ¬AppendsTime first rest out := by
  rintro ⟨-, rels, hrel, hbranches⟩
  rw [h.rel, Rel.union.injEq] at hrel
  obtain ⟨hrels, -⟩ := hrel
  subst hrels
  obtain _ | ⟨hfirst, -⟩ := hbranches
  obtain ⟨outputs, best, hproject, -⟩ := hfirst
  have hsize := congrArg sizeOf hproject
  rw [Rel.project.sizeOf_spec] at hsize
  omega

/-- **A union of aligned branches** goes by their merged event time exactly if the first
branch absorbs the derivations of the others. -/
theorem showsMergedTime_iff (h : united first rest = .ok out) :
    ShowsMergedTime first rest out ↔ AbsorbsCommon first rest := by
  rw [ShowsMergedTime]
  by_cases hcommon : commonTimes first rest = []
  · rw [if_pos (mergedTime_isEmpty hcommon)]
    exact iff_of_true ((time_of_united h).1 hcommon) (absorbsCommon_of_none hcommon)
  · have hkeeps := (time_of_united h).2 hcommon
    rw [← kinds_restrictTo_iff, ← hkeeps.time]
    split
    · rename_i hempty
      rw [EventTime.isEmpty_iff_kinds.1 hempty]
      exact iff_of_false hkeeps.not_appends (hkeeps.kinds_ne_nil hcommon)
    · rfl

end Plan

namespace Converter

variable {c : Converter} {q second : Rel} {qs : List Rel} {all : Bool} {plan : Plan}

/-- A branch of a union: the plan of a query, aligned without its order. -/
def Branch (c : Converter) (q : Rel) (b : Plan) : Prop :=
  ∃ plan position, c.convert q = .ok plan ∧ plan.asBranch position = .ok b

/-- **The event time of a union.** If all branches show a candidate on one column, the
union has the first branch's candidates on such columns; otherwise every branch has its
best timestamp in one new column, which is the fixed timestamp of the union. That is what
merging the event times of the branches gives exactly if the first branch absorbs the
derivations of the others on every common column. -/
theorem union_times (h : c.convert (.union (q :: second :: qs) all) = .ok plan) :
    ∃ first rest, List.Forall₂ c.Branch (q :: second :: qs) (first :: rest) ∧
      (Plan.commonTimes first rest = [] → Plan.AppendsTime first rest plan) ∧
      (Plan.commonTimes first rest ≠ [] → Plan.KeepsTime first rest plan) ∧
      (Plan.ShowsMergedTime first rest plan ↔ Plan.AbsorbsCommon first rest) := by
  obtain ⟨first, rest, out, hbranches, hout, hfinish⟩ := convert_union_eq_ok h
  obtain ⟨hnow, htop⟩ := Plan.idle_of_united hout
  obtain rfl := finish_of_idle hnow htop hfinish
  obtain ⟨happends, hkeeps⟩ := Plan.time_of_united hout
  exact ⟨first, rest, hbranches, happends, hkeeps, Plan.showsMergedTime_iff hout⟩

/-- Events with the end of the minute of each, of which those of the last time are kept. -/
def recentMinutes : Rel :=
  .project (.filter scannedEvents (.binary .gt (.column 1) (.binary .minus .now (.interval 100))))
    [⟨.column 0, ⟨"id", .int64, false⟩⟩, ⟨.call .endOfMinute [.column 1], ⟨"at", .timestamp, true⟩⟩]
    none

/-- Events and later events have their time on one column, which the union keeps. -/
theorem united_events_keep_their_time :
    let converter := overPlainEvents (.stream "stream")
    ∃ plan, converter.convert (.union [scannedEvents, laterEvents] true) = .ok plan ∧
      plan.time = .single 1 .source ∧
      ∃ first rest, List.Forall₂ converter.Branch [scannedEvents, laterEvents] (first :: rest) ∧
        (Plan.commonTimes first rest = [] → Plan.AppendsTime first rest plan) ∧
        (Plan.commonTimes first rest ≠ [] → Plan.KeepsTime first rest plan) ∧
        (Plan.ShowsMergedTime first rest plan ↔ Plan.AbsorbsCommon first rest) := by
  intro converter
  have htime : Plan.time <$> converter.convert (.union [scannedEvents, laterEvents] true)
      = .ok (.single 1 .source) := by decide +kernel
  obtain ⟨plan, hplan, htime⟩ := map_eq_ok.1 htime
  exact ⟨plan, hplan, htime, union_times hplan⟩

/-- Events and their minutes have no time that merging would keep. The union still has
the first branch's, as one that the source declares. -/
theorem united_minutes_pass_as_declared :
    let converter := overPlainEvents (.stream "stream")
    ∃ plan first second, converter.convert (.union [scannedEvents, recentMinutes] true) = .ok plan ∧
      List.Forall₂ converter.Branch [scannedEvents, recentMinutes] [first, second] ∧
      first.time = .single 1 .source ∧ second.time = .single 1 .bucketed ∧
      plan.time = .single 1 .source ∧ ¬Plan.ShowsMergedTime first [second] plan := by
  intro converter
  have hplan : Plan.time <$> converter.convert (.union [scannedEvents, recentMinutes] true)
      = .ok (.single 1 .source) := by decide +kernel
  have hfirst : (fun b : Plan => (b.time, b.width)) <$>
      (converter.convert scannedEvents >>= fun plan => plan.asBranch 0)
      = .ok (.single 1 .source, 2) := by decide +kernel
  have hsecond : Plan.time <$> (converter.convert recentMinutes >>= fun plan => plan.asBranch 1)
      = .ok (.single 1 .bucketed) := by decide +kernel
  obtain ⟨plan, hplan, htime⟩ := map_eq_ok.1 hplan
  obtain ⟨first, hfirst, hshape⟩ := map_eq_ok.1 hfirst
  obtain ⟨second, hsecond, hbucketed⟩ := map_eq_ok.1 hsecond
  obtain ⟨hdeclared, hwidth⟩ := Prod.mk.inj hshape
  obtain ⟨below, hbelow, hfirst⟩ := bind_eq_ok.1 hfirst
  obtain ⟨minutes, hminutes, hsecond⟩ := bind_eq_ok.1 hsecond
  refine ⟨plan, first, second, hplan, .cons ⟨below, 0, hbelow, hfirst⟩
    (.cons ⟨minutes, 1, hminutes, hsecond⟩ .nil), hdeclared, hbucketed, htime, fun hshows => ?_⟩
  -- a bucket cannot be merged with a declared time
  have hmerged : (Plan.mergedTime first [second]).isEmpty = true := by
    simp only [Plan.mergedTime, List.map_cons, List.map_nil, hdeclared, hbucketed, List.foldl_cons,
      List.foldl_nil]
    rfl
  rw [Plan.ShowsMergedTime, if_pos hmerged] at hshows
  have hcolumn := hshows.time
  rw [htime, hwidth] at hcolumn
  exact absurd hcolumn (by decide)

end Converter

end StreamPlan
