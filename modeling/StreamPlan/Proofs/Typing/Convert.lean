import StreamPlan.Proofs.Plan.Keeps
import StreamPlan.Proofs.Plan.Union
import StreamPlan.Proofs.Typing.Aggregate
import StreamPlan.Proofs.Typing.Join
import StreamPlan.Proofs.Typing.Project
import StreamPlan.Proofs.Typing.Scan

/-!
# Plans of queries are regular

Over a catalog built by registration and rows that its relations can have,
every row of the plan of a query has a value per column, with times in the
timestamp columns.

* `rows_of_evaluateAll`: the rows of several trees are rows of one of them.
* `Plan.Regular.united`: the plan of a union of regular branches is regular.
* `Converter.regular_of_convert`: plans of queries are regular.
-/

namespace StreamPlan

section Unions

variable {catalog : Catalog} {fixture : Fixture}

theorem rows_of_evaluateAll {row : Row} : ∀ {rels : List Rel} {above : List Row},
    evaluateAll fixture rels = .ok above → row ∈ above →
      ∃ rel ∈ rels, ∃ rows, evaluate fixture rel = .ok rows ∧ row ∈ rows
  | [], above, h, hr => by
    rw [evaluateAll] at h
    cases h
    cases hr
  | rel :: rels, above, h, hr => by
    rw [evaluateAll] at h
    obtain ⟨rows, hrows, h⟩ := bind_eq_ok.1 h
    obtain ⟨rest, hrest, h⟩ := bind_eq_ok.1 h
    cases h
    rcases List.mem_append.1 hr with hr | hr
    · exact ⟨rel, List.mem_cons_self, rows, hrows, hr⟩
    · obtain ⟨r, hmem, found⟩ := rows_of_evaluateAll hrest hr
      exact ⟨r, List.mem_cons_of_mem _ hmem, found⟩

namespace Plan

variable {plan out first : Plan} {rest : List Plan}

theorem Regular.asBranch {position : Nat} (h : plan.Regular catalog fixture)
    (ho : plan.asBranch position = .ok out) : out.Regular catalog fixture := by
  unfold Plan.asBranch at ho
  obtain ⟨base, hbase, ho⟩ := bind_eq_ok.1 ho
  obtain ⟨aligned, haligned, ho⟩ := bind_eq_ok.1 ho
  have hb := h.settle hbase
  have hsorted : Regular catalog fixture { base with sort := [] } :=
    hb.narrow .same (fun _ hi => hi) hb.coherent (.inr rfl) hb.single
  split at ho
  · cases ho
    exact hsorted.align haligned
  · cases ho

/-- The trees of regular branches of one width, with times in the timestamp
columns of the union. -/
theorem unionTrees_rows {rels : List Rel} {time : EventTime}
    (h : unionTrees first rest = .ok (rels, time))
    (hreg : ∀ b ∈ first :: rest, b.Regular catalog fixture)
    (hw : ∀ b ∈ rest, b.width = first.width) :
    (∀ rel ∈ rels, rel.width = Rel.firstWidth rels ∧ rel.Shaped fixture ∧
      ∀ rows, evaluate fixture rel = .ok rows → ∀ row ∈ rows, ∀ i ∈ time.columns, row.Timed i) ∧
      time.Coherent := by
  have hwidth : ∀ b ∈ first :: rest, b.width = first.width := by
    intro b hb
    rcases List.mem_cons.1 hb with rfl | hb
    · rfl
    · exact hw b hb
  unfold unionTrees at h
  simp only at h
  split at h
  · obtain ⟨exposed, hexposed, h⟩ := bind_eq_ok.1 h
    cases h
    -- every branch shows its best candidate in the column behind the others
    have hall : ∀ rel ∈ rels, rel.width = first.width + 1 ∧ rel.Shaped fixture ∧
        ∀ rows, evaluate fixture rel = .ok rows → ∀ row ∈ rows, row.Timed first.width := by
      intro rel hmem
      obtain ⟨⟨b, position⟩, hb, hrel⟩ := mem_of_mapM_eq_ok hexposed hmem
      have hbmem := List.fst_mem_of_mem_zipIdx hb
      obtain ⟨outputs, shown, column, rfl, hlen, hbest, he⟩ := exposeTime_eq_ok hrel
      refine ⟨by rw [Rel.width, List.length_append, hlen]; rfl, Rel.shaped_project _ _, ?_⟩
      intro rows hrows row hr
      obtain ⟨below, hbelow, base, hbase, hp⟩ := mem_of_project hrows hr
      refine hp.timed ((hreg b hbmem).timed below hbelow base hbase)
        (show (outputs ++ [shown])[first.width]? = some shown by rw [← hlen]; simp) ?_
      exact he ▸ .column (EventTime.bestColumn?_mem hbest)
    refine ⟨fun rel hmem => ?_, EventTime.coherent_single _ _⟩
    obtain ⟨hrw, hshaped, htimed⟩ := hall rel hmem
    refine ⟨?_, hshaped, fun rows hrows row hr i hi => ?_⟩
    · match rels, hmem, hall with
      | r :: _, _, hall => rw [hrw, Rel.firstWidth, (hall r List.mem_cons_self).1]
    · rw [EventTime.columns_single, List.mem_singleton] at hi
      exact hi ▸ htimed rows hrows row hr
  · cases h
    refine ⟨fun rel hmem => ?_, (hreg first List.mem_cons_self).coherent.restrictTo _⟩
    obtain ⟨b, hb, rfl⟩ := List.mem_map.1 hmem
    refine ⟨hwidth b hb, (hreg b hb).shaped, fun rows hrows row hr i hi => ?_⟩
    refine (hreg b hb).timed rows hrows row hr i ?_
    rw [EventTime.columns_restrictTo, List.mem_filter] at hi
    obtain ⟨hfirst, hcommon⟩ := hi
    rcases List.mem_cons.1 hb with rfl | hb
    · exact hfirst
    · have hcommon := List.contains_iff_mem.1 hcommon
      rw [commonTimes, List.mem_filter, Bool.and_eq_true, List.all_eq_true] at hcommon
      exact EventTime.isCandidate_iff.1 (hcommon.2.2 b hb)

/-- **The plan of a union** of regular branches is regular. -/
theorem Regular.united (hreg : ∀ b ∈ first :: rest, b.Regular catalog fixture)
    (ho : Plan.united first rest = .ok out) : out.Regular catalog fixture := by
  obtain ⟨hw, rels, time, htrees, hrel, htime, hlineage, hnow⟩ := united_eq_ok ho
  obtain ⟨hrows, hcoherent⟩ := unionTrees_rows htrees hreg hw
  have hbranch : ∀ above, evaluate fixture out.rel = .ok above → ∀ row ∈ above,
      ∃ rel ∈ rels, ∃ rows, evaluate fixture rel = .ok rows ∧ row ∈ rows := by
    intro above ha row hr
    rw [hrel, evaluate] at ha
    obtain ⟨rows, hall, ha⟩ := bind_eq_ok.1 ha
    cases ha
    exact rows_of_evaluateAll hall hr
  refine ⟨?_, ?_, ?_, htime ▸ hcoherent, fun _ => .inl hnow⟩
  · intro above ha row hr
    obtain ⟨rel, hmem, rows, hrel', hr'⟩ := hbranch above ha row hr
    obtain ⟨hwidth, hshaped, -⟩ := hrows rel hmem
    rw [hshaped rows hrel' row hr', hwidth, hrel, Rel.width]
  · intro above ha row hr i hi
    obtain ⟨rel, hmem, rows, hrel', hr'⟩ := hbranch above ha row hr
    exact (hrows rel hmem).2.2 rows hrel' row hr' i (htime ▸ hi)
  · intro l hsome
    rw [hlineage] at hsome
    cases hsome

end Plan

end Unions

namespace Converter

variable {c : Converter} {fixture : Fixture} {plan : Plan} {q : Rel}

/-- Every operator keeps plans regular. -/
theorem keeps_regular (hl : c.catalog.Linked) (hf : fixture.Fits c.catalog) :
    c.Keeps (Plan.Regular c.catalog fixture) where
  scan := .scan hl hf
  filter _ h ho := h.filtered ho
  project _ h ho := h.projected ho
  rank _ h ho := h.ranked ho
  join hsl hsr hleft hright hj ho := .joined hl hsl hsr hleft hright hj ho
  aggregate hs h ho := h.aggregated hs ho
  union hfirst hrest ho := by
    refine .united (fun b hb => ?_) ho
    have hbranch : BranchOf (Plan.Regular c.catalog fixture) b := by
      rcases List.mem_cons.1 hb with rfl | hb
      · exact hfirst
      · exact hrest b hb
    obtain ⟨plan, position, -, h, hb⟩ := hbranch
    exact h.asBranch hb
  sort _ h ho := h.sorted ho
  settle h ho := h.settle ho

/-- **Plans of queries are regular** over rows that the relations can have. -/
theorem regular_of_convert (hl : c.catalog.Linked) (hf : fixture.Fits c.catalog)
    (hc : c.convert q = .ok plan) : plan.Sound ∧ plan.Regular c.catalog fixture :=
  (keeps_regular hl hf).convert hc

end Converter

end StreamPlan
