import StreamPlan.Proofs.Entities.Keyed
import StreamPlan.Proofs.Entities.Lineage

/-!
# Rows drawn from an entity

A plan with a lineage may have dropped rows of its entity, by now-filters or by a
ranking that was pulled up to the table. The rows that are left are still rows of
the entity.

* `Drawn`: the trees of such plans: levels of a lineage one after another, with
  rows dropped in between.
* `Drawn.exists_unrolling`: what a lineage says does not depend on dropped rows.
* `Drawn.parts`: **the rows are parts side by side**, some of those of the entity.
* `Converter.traces_drawn`: every plan with a lineage has such a tree.
-/

namespace StreamPlan

variable {catalog : Catalog} {fixture : Fixture} {base rows : List Row} {b : Nat} {l : Lineage}
  {rel out : Rel}

/-- Trees that give rows of an entity: the levels of a lineage one after another, with
rows dropped in between. -/
inductive Drawn (catalog : Catalog) : Lineage → Rel → Prop
  | scan {id b : Nat} {view : View} {table : BaseTable} :
      catalog.views[id]? = some view → view.place = .root b → catalog.bases[b]? = some table →
      Drawn catalog (Lineage.root id 0 table.fields.length view.ownKeys)
        (.scan (.base b) table.name table.fields)
  | level {l : Lineage} {rel : Rel} {id p column : Nat} {above : Level} {view : View} :
      Drawn catalog l rel → l[p]? = some above → catalog.views[id]? = some view →
      view.place = .child above.view column →
      Drawn catalog (l ++ [⟨id, some p, .inner, rel.width, view.levelFields.length, view.ownKeys⟩])
        (.unnest rel (above.offset + column) false view.levelFields)
  | restricted {l : Lineage} {rel out : Rel} :
      Drawn catalog l rel → rel.Restricted out → Drawn catalog l out

namespace Drawn

/-- **With no rows dropped** the lineage is that of an unrolling of as many columns. -/
theorem exists_unrolling (h : Drawn catalog l rel) :
    ∃ tree, Unrolling catalog [] l tree ∧ tree.width = rel.width := by
  induction h with
  | scan hv hp ht => exact ⟨_, .scan hv hp ht, rfl⟩
  | level _ ha hv hp ih =>
    obtain ⟨tree, htree, hwidth⟩ := ih
    rw [← hwidth]
    exact ⟨_, htree.level ha hv hp, by rw [Rel.width, Rel.width, hwidth]⟩
  | restricted _ hr ih =>
    obtain ⟨tree, htree, hwidth⟩ := ih
    exact ⟨tree, htree, hwidth.trans hr.width.symm⟩

theorem ne_nil (h : Drawn catalog l rel) : l ≠ [] := by
  obtain ⟨tree, htree, -⟩ := h.exists_unrolling
  exact htree.ne_nil

theorem chain (h : Drawn catalog l rel) : ∃ b, Lineage.Chain catalog b [] l := by
  obtain ⟨tree, htree, -⟩ := h.exists_unrolling
  exact htree.chain

section Linked

variable (hc : catalog.Linked)
include hc

theorem linked (h : Drawn catalog l rel) : l.Linked catalog rel.width := by
  obtain ⟨tree, htree, hwidth⟩ := h.exists_unrolling
  exact hwidth ▸ htree.linked hc

theorem keys_le (h : Drawn catalog l rel) : ∀ level ∈ l, level.keys ≤ level.width := by
  obtain ⟨tree, htree, -⟩ := h.exists_unrolling
  exact htree.keys_le hc

variable (hf : fixture.Conforms catalog)
include hf

section Base

variable (hbase : fixture.rowsOf (.base b) = .ok base)
include hbase

/-- The part of a level stands in its columns. -/
theorem laid (h : Drawn catalog l rel) (hl : Lineage.Chain catalog b [] l) :
    ∀ parts ∈ l.unroll catalog base [], l.Laid parts ∧ parts.flatten.length = rel.width := by
  obtain ⟨tree, htree, hwidth⟩ := h.exists_unrolling
  exact hwidth ▸ htree.laid hc hf hbase hl

/-- A collection of a row is that of a part. -/
theorem cell {id p column : Nat} {above : Level} {view : View} (h : Drawn catalog l rel)
    (hl : Lineage.Chain catalog b [] l) (ha : l[p]? = some above)
    (hv : catalog.views[id]? = some view) (hplace : view.place = .child above.view column) :
    ∀ parts ∈ l.unroll catalog base [],
      parts.flatten[above.offset + column]? = (parts.getD p [])[column]? := by
  obtain ⟨tree, htree, -⟩ := h.exists_unrolling
  exact htree.cell hc hf hbase hl ha hv hplace

end Base

/-- **The rows are parts side by side**, some of those of the entity. -/
theorem parts (h : Drawn catalog l rel) (hl : Lineage.Chain catalog b [] l)
    (hrows : evaluate fixture rel = .ok rows) :
    ∃ base, fixture.rowsOf (.base b) = .ok base ∧
      ∀ row ∈ rows, ∃ parts ∈ l.unroll catalog base [], row = parts.flatten := by
  induction h generalizing rows with
  | scan hv hp ht =>
    obtain ⟨base, hbase, -, rfl⟩ := ((Unrolling.scan hv hp ht).evaluate_parts hc hf hl).1 hrows
    refine ⟨base, hbase, fun row hrow => ?_⟩
    obtain ⟨parts, hparts, rfl⟩ := List.mem_map.1 hrow
    exact ⟨parts, hparts, rfl⟩
  | @level l rel id p column above view h ha hv hplace ih =>
    obtain ⟨hfront, -⟩ := Lineage.Chain.append_iff.1 hl
    obtain ⟨below, hbelow, -, rfl⟩ := evaluate_unnest.1 hrows
    obtain ⟨base, hbase, hdrawn⟩ := ih hfront hbelow
    refine ⟨base, hbase, fun above hmem => ?_⟩
    obtain ⟨row, hrow, hunnested⟩ := List.mem_flatMap.1 hmem
    obtain ⟨part, hpart, rfl⟩ := List.mem_map.1 hunnested
    obtain ⟨parts, hparts, rfl⟩ := hdrawn row hrow
    have hcoll : Level.collection? catalog ⟨id, some p, .inner, rel.width, view.levelFields.length,
        view.ownKeys⟩ = some (p, column) := Level.collection?_below rfl hv hplace
    -- the element is one of the collection in the part above
    rw [Row.elementsAt_congr (h.cell hc hf hbase hfront ha hv hplace parts hparts)] at hpart
    exact ⟨parts ++ [part], Lineage.mem_unroll_concat.2
      ⟨parts, hparts, part, (Level.candidates_some hcoll).symm ▸ hpart, rfl⟩,
      List.flatten_concat.symm⟩
  | restricted h hr ih =>
    have hshaped : Rel.Shaped fixture _ := fun below hbelow row hrow => by
      obtain ⟨base, hbase, hdrawn⟩ := ih hl hbelow
      obtain ⟨parts, hparts, rfl⟩ := hdrawn row hrow
      exact (h.laid hc hf hbase hl parts hparts).2
    obtain ⟨below, hbelow, hsub⟩ := hr.mem hshaped hrows
    obtain ⟨base, hbase, hdrawn⟩ := ih hl hbelow
    exact ⟨base, hbase, fun row hrow => hdrawn row (hsub row hrow)⟩

end Linked

end Drawn

namespace Converter

variable {c : Converter} {plan left right : Plan}

/-- **The plan of a scan** that has a lineage goes down to its view from the base table. -/
theorem drawn_of_scanPlan (hc : c.catalog.Linked) {relation : RelationId}
    (ho : c.scanPlan relation = .ok plan) : Traced (Drawn c.catalog) plan := by
  cases relation with
  | base id =>
    obtain ⟨_, _, _, -, rfl⟩ := basePlan_eq_ok ho
    exact traced_of_none rfl
  | view id =>
    obtain ⟨view, hview, ho⟩ := bind_eq_ok.1 ho
    obtain ⟨baseId, hbase, ho⟩ := bind_eq_ok.1 ho
    obtain ⟨table, ht, ho⟩ := bind_eq_ok.1 ho
    have hview := itemAt_eq_ok.1 (lift_eq_ok.1 hview)
    have ht := itemAt_eq_ok.1 (lift_eq_ok.1 ht)
    obtain ⟨b, hb, rootId, rest, root, table', hpath, hroot, hplace, ht', -, hd⟩ :=
      hc.baseOf (List.getElem?_eq_some_iff.1 hview).1
    obtain rfl : b = baseId := Except.ok.inj (hb.symm.trans (lift_eq_ok.1 hbase))
    split at ho
    · obtain ⟨key, needs, start, unrolled, hstart, hfold, hrel, hlineage, -⟩ :=
        unrolledPlan_eq_ok hpath hroot ho
      -- the ranking of the table may be applied before the first level
      have hfirst : (Rel.scan (.base b) table.name table.fields).Restricted start.rel := by
        rcases belowLevels_eq_ok hstart with rfl | ⟨needs', base, hbase, rfl⟩
        · exact .same
        · exact Plan.withoutTopN_restricted hbase
      intro l hl
      cases hlineage.symm.trans hl
      rw [hrel]
      exact unrollLevels_keep (I := fun rel l => Drawn c.catalog l rel)
        (fun h ha hv hp => h.level ha hv hp) hd ⟨_, rfl, rfl, rfl⟩
        ((Drawn.scan hroot hplace ht).restricted hfirst) hfold
    · exact traced_of_none (viewPlan_eq_ok ho).2.1

/-- Right levels that are unrolled below a left row. -/
theorem drawn_of_mergeLevels {r : Lineage} {width : Nat} (hlinked : r.Linked c.catalog width)
    {levels : List (Level × Nat)} (hlevels : ∀ level ∈ levels, r[level.2]? = some level.1)
    {state merged : JoinInputs.Merged} (h : Drawn c.catalog state.lineage state.rel)
    (hstands : ∀ pair ∈ state.matching, Lineage.Stands state.lineage r pair)
    (hm : JoinInputs.mergeLevels c state levels = .ok (some merged)) :
    Drawn c.catalog merged.lineage merged.rel := by
  refine (JoinInputs.mergeLevels_keeps (I := fun next =>
    Drawn c.catalog next.lineage next.rel ∧
      ∀ pair ∈ next.matching, Lineage.Stands next.lineage r pair) ?_ ⟨h, hstands⟩ hm).1
  rintro state next level hmem ⟨h, hstands⟩ hnext
  obtain ⟨p, parent, view, column, above, -, -, hview, habove, hplace, hrel, hlineage, -, -, -,
    hnext⟩ := JoinInputs.mergeLevel_below hlinked (hlevels level hmem) hstands hnext
  rw [hrel, hlineage]
  exact ⟨h.level habove hview hplace, hlineage ▸ hnext⟩

/-- **Every plan with a lineage** has a tree of rows drawn from its entity. -/
theorem traces_drawn (hc : c.catalog.Linked) : c.Traces (Drawn c.catalog) where
  scan ho := drawn_of_scanPlan hc ho
  restrict h hr := h.restricted hr
  merge hl hr hj ho := by
    obtain ⟨rfl, rfl, -⟩ := JoinInputs.of_eq_ok hj
    obtain ⟨l, r, matching, hleft, hright, -, hmatch, hplan⟩ := JoinInputs.selfJoin?_eq_ok ho
    obtain ⟨merged, _, _, _, -, hmerged, -, -, -, rfl⟩ := JoinInputs.mergedPlan_eq_ok hplan
    have hstands := Lineage.match?_stands hmatch
    intro l' hl'
    cases hl'
    exact drawn_of_mergeLevels ((hr r hright).linked hc)
      (fun level hmem => (JoinInputs.mem_lackingLevels.1 hmem).1) (hl l hleft) hstands hmerged

end Converter

end StreamPlan
