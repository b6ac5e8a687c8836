import StreamPlan.Proofs.Answers.Basic
import StreamPlan.Proofs.EventTime.Leaders

/-!
# Rows of aligned plans

An aligned plan has the columns of the plan in another order, the visible ones
in front, and each where the list of columns has it first.

* `Row.Keeps`: a row that has the columns of another as listed.
* `Plan.ArrangedAs`: a plan with its columns arranged, and nothing pending.
* `Plan.arrangedAs_of_align`: an aligned plan is one.
* `Converter.Results`: the plan and the rows of a query as a final result.
-/

namespace StreamPlan

/-- A row has the columns of another one as listed. -/
def Row.Keeps (columns : List Nat) (row above : Row) : Prop :=
  ∀ i c : Nat, columns[i]? = some c → above[i]? = row[c]?

theorem Row.keeps_of_at {row above : Row} {columns : List Nat} (h : row.at columns = .ok above) :
    row.Keeps columns above := by
  intro i c hc
  obtain ⟨v, hv, hitem⟩ := getElem?_of_mapM_eq_ok h hc
  rw [hv, itemAt_eq_ok.1 hitem]

theorem Row.keeps_range (row : Row) (width : Nat) : row.Keeps (List.range width) row := by
  intro i c hc
  obtain ⟨hi, hc⟩ := List.getElem?_eq_some_iff.1 hc
  rw [List.getElem_range] at hc
  rw [hc]

namespace Plan

variable {plan out : Plan} {columns : List Nat} {row above : Row} {i k : Nat}

/-- A plan with the columns of another one, the visible ones in front, each
where the list of columns has it first, and with nothing pending. -/
structure ArrangedAs (plan out : Plan) (columns : List Nat) : Prop where
  front : ∃ added, columns = plan.select.targets ++ added
  best : ∀ c, plan.time.bestColumn? = some c → c ∈ columns
  width : columns.length = out.width
  select : out.select.targets = List.range plan.select.sources
  time : plan.time.Moved (Selection.position? columns) out.time
  rows : ∀ (fixture : Fixture) above, evaluate fixture out.rel = .ok above →
    ∃ rows, evaluate fixture plan.settledRel = .ok rows ∧
      List.Forall₂ (fun row above => row.Keeps columns above) rows above

theorem alignedColumns_settled (h : plan.Settled out) : out.alignedColumns = plan.alignedColumns := by
  rw [alignedColumns, alignedColumns, h.select, h.key, h.sort, h.time]

/-- **An aligned plan** has the columns of the plan arranged. -/
theorem arrangedAs_of_align (hs : plan.Sound) (ho : plan.align = .ok out) :
    plan.ArrangedAs out plan.alignedColumns := by
  unfold align at ho
  obtain ⟨base, hbase, ho⟩ := bind_eq_ok.1 ho
  obtain ⟨hset, -, -⟩ := withoutPending_settled hbase
  obtain ⟨added, hadded, -⟩ := Selection.append_eq plan.select.targets
    (plan.key.targets ++ SortOrder.columns plan.sort ++ plan.time.bestColumn?.toList)
  have hbest : ∀ c, plan.time.bestColumn? = some c → c ∈ plan.alignedColumns := fun c hc =>
    Selection.mem_append.2 (.inr (List.mem_append_right _ (Option.mem_toList.2 hc)))
  simp only at ho
  rw [alignedColumns_settled hset] at ho
  split at ho
  · rename_i hrange
    obtain rfl : base = out := Except.ok.inj ho
    have hwidth : base.width = plan.width := hset.width
    refine ⟨⟨added, hadded⟩, hbest, by rw [hrange, List.length_range], ?_, ?_,
      fun fixture above habove => ?_⟩
    · -- the visible columns are the front of a range
      rw [hset.select]
      refine List.ext_getElem? fun i => ?_
      rcases Nat.lt_or_ge i plan.select.targets.length with hi | hi
      · have hget : plan.alignedColumns[i]? = plan.select.targets[i]? := by
          rw [alignedColumns, hadded, List.getElem?_append_left hi]
        have hlt : i < base.width := by
          rw [← List.length_range (n := base.width), ← hrange, alignedColumns, hadded,
            List.length_append]
          omega
        rw [← hget, hrange, List.getElem?_range hlt, ColumnMap.sources, List.getElem?_range hi]
      · rw [List.getElem?_eq_none hi, List.getElem?_eq_none (by rwa [List.length_range])]
    · rw [hset.time, hrange]
      exact EventTime.moved_of_fixed_columns fun c hc => position_range (hwidth ▸ hs.time c hc)
    · rw [← rel_of_withoutPending hbase]
      exact ⟨above, habove, hrange ▸ List.forall₂_same.2 fun row _ => row.keeps_range _⟩
  · obtain ⟨outputs, key, select, houtputs, -, hselect, rfl⟩ := keepColumns_eq_ok (lift_eq_ok.1 ho)
    have hlength : plan.alignedColumns.length = outputs.length := by
      have hexprs := congrArg List.length houtputs
      rw [List.length_map, List.length_map] at hexprs
      rw [hexprs]
    refine ⟨⟨added, hadded⟩, hbest, hlength, ?_, ?_, fun fixture above habove => ?_⟩
    · rw [hselect, hset.select]
    · rw [← hset.time]
      exact EventTime.moved_remap _ _
    · rw [evaluate] at habove
      obtain ⟨rows, hrows, habove⟩ := bind_eq_ok.1 habove
      rw [rel_of_withoutPending hbase] at hrows
      exact ⟨rows, hrows, ((projectRows_columns houtputs).1 habove).imp fun _ _ h =>
        Row.keeps_of_at h⟩

namespace ArrangedAs

variable {columns : List Nat}

/-- What is arranged is the visible columns, the event time and the rows. -/
theorem congr {other : Plan} (h : plan.ArrangedAs out columns) (hselect : plan.select = other.select)
    (htime : plan.time = other.time) (hrel : plan.settledRel = other.settledRel) :
    other.ArrangedAs out columns :=
  ⟨hselect ▸ h.front, htime ▸ h.best, h.width, hselect ▸ h.select, htime ▸ h.time, hrel ▸ h.rows⟩

theorem sources (h : plan.ArrangedAs out columns) : out.select.sources = plan.select.sources := by
  rw [ColumnMap.sources, h.select, List.length_range]

theorem sources_le (h : plan.ArrangedAs out columns) : plan.select.sources ≤ out.width := by
  obtain ⟨added, hadded⟩ := h.front
  rw [← h.width, hadded, List.length_append]
  exact Nat.le_add_right _ _

/-- What a row shows stands in front. -/
theorem visible (h : plan.ArrangedAs out columns) (hrow : row.Keeps columns above)
    (hi : plan.select.targets[i]? = some k) : above[i]? = row[k]? := by
  obtain ⟨added, rfl⟩ := h.front
  refine hrow i k ?_
  rw [List.getElem?_append_left (List.getElem?_eq_some_iff.1 hi).1, hi]

/-- Which visible columns are candidates does not depend on the hidden ones. -/
theorem visible_candidate (h : plan.ArrangedAs out columns) (hi : i < plan.select.sources) :
    i ∈ out.time.columns ↔
      ∃ c ∈ plan.time.columns, Selection.position? plan.select.targets c = some i := by
  obtain ⟨added, rfl⟩ := h.front
  have hfront : ∀ c, Selection.position? (plan.select.targets ++ added) c = some i ↔
      Selection.position? plan.select.targets c = some i := by
    intro c
    by_cases hc : c ∈ plan.select.targets
    · rw [Selection.position?, position_append_left hc]
      rfl
    · rw [Selection.position?, position_append_right hc]
      constructor
      · intro hmap
        obtain ⟨j, -, hj⟩ := Option.map_eq_some_iff.1 hmap
        simp only [ColumnMap.sources] at hi
        omega
      · exact fun hfound => absurd (mem_of_position hfound) hc
  constructor
  · intro hmem
    obtain ⟨moved, hmoved, rfl⟩ := List.mem_map.1 hmem
    obtain ⟨d, hd, c, hc, rfl⟩ := h.time.mem_candidates.1 hmoved
    exact ⟨d.column, List.mem_map_of_mem hd, (hfront _).1 hc⟩
  · rintro ⟨c, hc, hposition⟩
    obtain ⟨d, hd, rfl⟩ := List.mem_map.1 hc
    exact List.mem_map.2 ⟨_, h.time.mem_candidates.2 ⟨d, hd, i, (hfront _).2 hposition, rfl⟩, rfl⟩

/-- A row of the plan has the value of a candidate where the candidate moved to. -/
theorem value (hrow : row.Keeps columns above) {c : Nat}
    (hc : Selection.position? columns c = some i) : above[i]? = row[c]? :=
  hrow i c (find_position hc)

/-- The best candidate has a column. -/
theorem best_position (h : plan.ArrangedAs out columns) :
    ∀ c, plan.time.bestColumn? = some c → ∃ i, Selection.position? columns c = some i :=
  fun c hc => position_of_mem (h.best c hc)

end ArrangedAs

end Plan

namespace Converter

variable {c : Converter} {fixture : Fixture} {q : Rel} {final : Plan} {rows : List Row}

/-- The plan and the rows of a query as a final result. -/
structure Results (c : Converter) (fixture : Fixture) (q : Rel) (final : Plan) (rows : List Row) :
    Prop where
  plan : ∃ plan manifest, c.convert q = .ok plan ∧ plan.materialize = .ok (final, manifest)
  rows : evaluate fixture final.rel = .ok rows
  /-- Every row has the columns that the query sees. -/
  shown : ∃ answer, final.answer fixture = .ok answer

/-- **An answer** is what a final result shows. -/
theorem answers_iff {answer : List AnsweredRow} :
    c.Answers fixture q answer ↔
      ∃ final rows, c.Results fixture q final rows ∧ answer = rows.map final.shown := by
  constructor
  · rintro ⟨plan, final, manifest, hplan, hfinal, ha⟩
    obtain ⟨rows, hrows, rfl⟩ := Plan.answer_eq_ok ha
    exact ⟨final, rows, ⟨⟨plan, manifest, hplan, hfinal⟩, hrows, _, ha⟩, rfl⟩
  · rintro ⟨final, rows, ⟨⟨plan, manifest, hplan, hfinal⟩, hrows, answer, ha⟩, rfl⟩
    obtain ⟨rows', hrows', rfl⟩ := Plan.answer_eq_ok ha
    cases Except.ok.inj (hrows.symm.trans hrows')
    exact ⟨plan, final, manifest, hplan, hfinal, ha⟩

/-- A final result has the columns of the query's plan arranged. -/
theorem Results.arranged (h : c.Results fixture q final rows) :
    ∃ plan, c.convert q = .ok plan ∧ plan.ArrangedAs final plan.alignedColumns := by
  obtain ⟨plan, manifest, hplan, hfinal⟩ := h.plan
  obtain ⟨aligned, haligned, hfinal⟩ := bind_eq_ok.1 hfinal
  obtain ⟨_, -, hfinal⟩ := bind_eq_ok.1 hfinal
  obtain ⟨_, -, hfinal⟩ := bind_eq_ok.1 hfinal
  cases hfinal
  exact ⟨plan, hplan, Plan.arrangedAs_of_align (sound_of_convert hplan) haligned⟩

/-- The rows of a final result have the columns that it shows. -/
theorem Results.inside (h : c.Results fixture q final rows) :
    ∀ row ∈ rows, ∀ t ∈ final.select.targets, t < row.length := by
  obtain ⟨answer, ha⟩ := h.shown
  obtain ⟨rows', hrows', ha⟩ := bind_eq_ok.1 ha
  cases Except.ok.inj (h.rows.symm.trans hrows')
  intro row hrow
  obtain ⟨i, hi, rfl⟩ := List.getElem_of_mem hrow
  obtain ⟨shown, -, hview⟩ := getElem?_of_mapM_eq_ok ha (List.getElem?_eq_getElem hi)
  exact Plan.inside_of_view (orFault_eq_ok.1 hview)

/-- The rows below a final result have the columns that it shows. -/
theorem answer_inside {plan : Plan} {below : List Row} {answer : List AnsweredRow}
    (h : c.Answers fixture q answer) (hplan : c.convert q = .ok plan)
    (hbelow : evaluate fixture plan.settledRel = .ok below) :
    ∀ row ∈ below, ∀ t ∈ plan.select.targets, t < row.length := by
  obtain ⟨final, rows, hresults, -⟩ := answers_iff.1 h
  obtain ⟨plan', hplan', harranged⟩ := hresults.arranged
  obtain rfl : plan' = plan := Except.ok.inj (hplan'.symm.trans hplan)
  obtain ⟨below', hbelow', hkeeps⟩ := harranged.rows fixture rows hresults.rows
  cases Except.ok.inj (hbelow'.symm.trans hbelow)
  intro row hrow t ht
  obtain ⟨n, hn, rfl⟩ := List.getElem_of_mem hrow
  obtain ⟨i, hi, rfl⟩ := List.getElem_of_mem ht
  have hn' : n < rows.length := hkeeps.length_eq ▸ hn
  have hvalue := harranged.visible ((List.forall₂_iff_get.1 hkeeps).2 n hn hn')
    (List.getElem?_eq_getElem hi)
  have hlt := hresults.inside _ (List.getElem_mem hn') i
    (harranged.select ▸ List.mem_range.2 hi)
  rw [List.get_eq_getElem, List.getElem?_eq_getElem hlt] at hvalue
  exact (List.getElem?_eq_some_iff.1 hvalue.symm).1

end Converter

end StreamPlan
