import StreamPlan.Proofs.Plan.Scan
import StreamPlan.Proofs.Typing.Plan

/-!
# Scans give regular plans

Over rows that the relations of a catalog can have, the plan of a scan is
regular (`Plan.Regular.scan`), be it unrolled or not.
-/

namespace StreamPlan

variable {fixture : Fixture} {c : Converter} {table : BaseTable} {out : Plan}

/-- The rows of a scan are the known rows of its relation. -/
theorem evaluate_scan {relation : RelationId} {name : String} {fields : Fields} :
    evaluate fixture (.scan relation name fields) = fixture.rowsOf relation := by
  rw [evaluate]

namespace Converter

/-- A table that was pulled up with one constraint has one open. -/
theorem openConstraints_single (h : table.pending.nowFilter = none ∨ table.pending.topN.isEmpty = true) :
    (c.openConstraints table).nowFilter = none ∨ (c.openConstraints table).topN.isEmpty = true := by
  unfold openConstraints
  simp only
  rcases h with h | h
  · left
    split
    · rfl
    · exact h
  · right
    split
    · rfl
    · exact h

end Converter

/-- A ranking that does nothing does nothing over other columns. -/
theorem Pending.topN_remap {pending : Pending} (f : Nat → Option Nat)
    (h : pending.topN.isEmpty = true) : (pending.remap f).topN.isEmpty = true := by
  unfold Pending.remap
  simp only
  split
  · simpa [TopN.isEmpty] using h
  · rfl

theorem Pending.single_remap {pending : Pending} (f : Nat → Option Nat)
    (h : pending.nowFilter = .none ∨ pending.topN.isEmpty = true) :
    (pending.remap f).nowFilter = .none ∨ (pending.remap f).topN.isEmpty = true := by
  refine h.imp (fun h => ?_) (Pending.topN_remap f)
  unfold Pending.remap
  rw [h]
  rfl

namespace Plan

variable (hl : c.catalog.Linked) (hf : fixture.Fits c.catalog)
include hl hf

/-- **The plan of a base table** is regular. -/
theorem Regular.base {id : Nat} (ho : c.basePlan id = .ok out) : out.Regular c.catalog fixture := by
  obtain ⟨table, needs, key, ht, rfl⟩ := Converter.basePlan_eq_ok ho
  have hrows : ∀ rows, evaluate fixture (.scan (.base id) table.name table.fields) = .ok rows →
      ∀ row ∈ rows, Row.Fits table.fields row ∧ ∀ i ∈ table.time.columns, row.Timed i := by
    intro rows h
    rw [evaluate_scan] at h
    exact hf.base id table rows ht h
  refine ⟨?_, ?_, (by rintro l ⟨⟩), ?_, ?_⟩
  · intro rows h row hr
    obtain ⟨⟨hlen, -⟩, -⟩ := hrows rows h row hr
    exact hlen
  · intro rows h row hr i hi
    exact (hrows rows h row hr).2 i (Converter.mem_timeOf hi).2
  · exact Converter.coherent_timeOf (hl.base table (List.mem_of_getElem? ht)).time
  · exact fun hone => Converter.openConstraints_single (hone table (List.mem_of_getElem? ht))

/-- **The plan of a view** that is scanned as such is regular. -/
theorem Regular.view {id baseId rootId : Nat} {view root : View} {rest : List Nat}
    (hview : c.catalog.views[id]? = some view) (hroot : c.catalog.views[rootId]? = some root)
    (hplace : root.place = .root baseId) (ht : c.catalog.bases[baseId]? = some table)
    (hd : c.catalog.Descends rootId rest id) (ho : c.viewPlan id view table = .ok out) :
    out.Regular c.catalog fixture := by
  obtain ⟨hrel, hlineage, hpending⟩ := Converter.viewPlan_eq_ok ho
  have hrows : ∀ rows, evaluate fixture out.rel = .ok rows → ∀ row ∈ rows,
      row.length = view.fields.length ∧
        ∀ b table, view.place = .root b → c.catalog.bases[b]? = some table →
          ∀ i ∈ table.time.columns, ∀ p, view.ownPosition? i = some p → row.Timed p := by
    intro rows h
    rw [hrel, evaluate_scan] at h
    exact hf.view id view rows hview h
  refine ⟨?_, ?_, ?_, ?_, ?_⟩
  · intro rows h row hr
    rw [(hrows rows h row hr).1, hrel, Rel.width]
  · intro rows h row hr i hi
    rcases hpending with ⟨hisRoot, htime, -⟩ | ⟨htime, -⟩
    · rw [htime, EventTime.columns_remap, List.mem_filterMap] at hi
      obtain ⟨column, hcolumn, hp⟩ := hi
      -- a view of a top level is the root of its entity
      cases hvp : view.place with
      | child => simp [View.isRoot, hvp] at hisRoot
      | root b =>
        obtain ⟨-, rfl⟩ := hd.eq_nil hview hvp
        obtain rfl : root = view := Option.some.inj (hroot.symm.trans hview)
        exact (hrows rows h row hr).2 baseId table hplace ht column
          (Converter.mem_timeOf hcolumn).2 i hp
    · rw [htime] at hi
      cases hi
  · intro l hsome
    rw [hlineage] at hsome
    cases hsome
  · rcases hpending with ⟨-, htime, -⟩ | ⟨htime, -⟩
    · rw [htime]
      exact (Converter.coherent_timeOf (hl.base table (List.mem_of_getElem? ht)).time).remap _
    · rw [htime]
      exact EventTime.coherent_none
  · intro hone
    rcases hpending with ⟨-, -, pending, rfl, hnow, htopN⟩ | ⟨-, hnow⟩
    · rw [hnow, htopN]
      exact Pending.single_remap _
        (Converter.openConstraints_single (hone table (List.mem_of_getElem? ht)))
    · exact .inl hnow

/-- **The plan of an unrolled view** is regular. -/
theorem Regular.unrolled {id baseId rootId : Nat} {root : View} {rest : List Nat}
    (hpath : c.catalog.ancestry id = .ok (rootId :: rest))
    (hroot : c.catalog.views[rootId]? = some root) (hr : Catalog.IsRootOf root table)
    (ht : c.catalog.bases[baseId]? = some table) (hd : c.catalog.Descends rootId rest id)
    (ho : c.unrolledPlan id baseId table = .ok out) : out.Regular c.catalog fixture := by
  obtain ⟨key, needs, start, unrolled, hstart, hfold, hrel, hlineage, htime, hnow, htopN⟩ :=
    Converter.unrolledPlan_eq_ok hpath hroot ho
  have hmem := List.mem_of_getElem? ht
  have hscan : Unrolls c.catalog fixture (Converter.timeOf table).columns
      (.scan (.base baseId) table.name table.fields)
      (Lineage.root rootId 0 table.fields.length root.ownKeys) := by
    refine .scan hroot hr.level fun rows h row hrow => ?_
    rw [evaluate_scan] at h
    obtain ⟨hfit, htimed⟩ := hf.base baseId table rows ht h row hrow
    exact ⟨hfit, fun i hi => htimed i (Converter.mem_timeOf hi).2⟩
  obtain ⟨hrestricted, hsingle⟩ : Rel.Restricted (.scan (.base baseId) table.name table.fields)
      start.rel ∧ (c.catalog.PullsOne → start.nowFilter = none ∨ start.topN.isEmpty = true) := by
    rcases Converter.belowLevels_eq_ok hstart with rfl | ⟨needs', base, hbase, rfl⟩
    · exact ⟨.same, fun hone => Converter.openConstraints_single (hone table hmem)⟩
    · exact ⟨withoutTopN_restricted hbase, fun _ => .inr (withoutTopN_settled hbase).2.1⟩
  have hfinal := Converter.unrollLevels_keep
    (I := Unrolls c.catalog fixture (Converter.timeOf table).columns)
    (fun h ha hv hp => h.addLevel hl hv rfl rfl ha hp) hd ⟨_, rfl, rfl, rfl⟩
    (hscan.restrict hrestricted fun _ hi => hi) hfold
  refine ⟨hrel ▸ hfinal.shaped, ?_, ?_, ?_, ?_⟩
  · rw [hrel, htime]
    exact hfinal.timed
  · intro l hsome
    rw [hlineage] at hsome
    cases hsome
    rw [hrel, htime]
    exact hfinal
  · rw [htime]
    exact Converter.coherent_timeOf (hl.base table hmem).time
  · rw [hnow, htopN]
    exact hsingle

/-- **The plan of a scan** is regular. -/
theorem Regular.scan {relation : RelationId} (ho : c.scanPlan relation = .ok out) :
    out.Regular c.catalog fixture := by
  cases relation with
  | base id => exact .base hl hf ho
  | view id =>
    simp only [Converter.scanPlan] at ho
    obtain ⟨view, hview, ho⟩ := bind_eq_ok.1 ho
    obtain ⟨baseId, hbase, ho⟩ := bind_eq_ok.1 ho
    obtain ⟨table, ht, ho⟩ := bind_eq_ok.1 ho
    have hview := itemAt_eq_ok.1 (lift_eq_ok.1 hview)
    have ht := itemAt_eq_ok.1 (lift_eq_ok.1 ht)
    obtain ⟨b, hb, rootId, rest, root, table', hpath, hroot, hplace, ht', hr, hd⟩ :=
      hl.baseOf (List.getElem?_eq_some_iff.1 hview).1
    obtain rfl : b = baseId := Except.ok.inj (hb.symm.trans (lift_eq_ok.1 hbase))
    obtain rfl : table' = table := Option.some.inj (ht'.symm.trans ht)
    split at ho
    · exact .unrolled hl hf hpath hroot hr ht hd ho
    · exact .view hl hf hview hroot hplace ht hd ho

end Plan

end StreamPlan
