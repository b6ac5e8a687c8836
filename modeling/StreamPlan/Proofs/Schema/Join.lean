import StreamPlan.Proofs.Answers.Aligned
import StreamPlan.Proofs.Plan.Join
import StreamPlan.Proofs.Plan.Union
import StreamPlan.Proofs.Schema.Operators

/-!
# Row types of operators over several inputs

* `Presents.united`: a union shows its first branch, whose visible columns stand in
  front once it is aligned.
* `Presents.joined`: a join shows the columns of both inputs. Where it is planned as one
  unrolled entity, the right columns are shown by left ones of the same levels.
-/

namespace StreamPlan.Converter

variable {c : Converter} {input left right : Rel} {fs gs : Fields} {plan out : Plan}

/-- An aligned plan has the fields of the columns that it is aligned to. -/
theorem fields_of_align (ho : plan.align = .ok out) (htree : plan.rel.fields = .ok gs) :
    ∃ next, out.rel.fields = .ok next ∧ Picks gs plan.alignedColumns next := by
  unfold Plan.align at ho
  obtain ⟨base, hbase, ho⟩ := bind_eq_ok.1 ho
  obtain ⟨hset, -, -⟩ := Plan.withoutPending_settled hbase
  have hbelow := hset.fields.trans htree
  simp only at ho
  rw [Plan.alignedColumns_settled hset] at ho
  split at ho
  · rename_i hrange
    cases ho
    refine ⟨gs, hbelow, ?_⟩
    rw [hrange, Plan.width, ← Rel.length_of_fields hbelow]
    exact picks_all gs
  · obtain ⟨key, -, ho⟩ := bind_eq_ok.1 (lift_eq_ok.1 ho)
    obtain ⟨rel, hrel, ho⟩ := bind_eq_ok.1 ho
    obtain ⟨select, -, ho⟩ := bind_eq_ok.1 ho
    cases ho
    obtain ⟨fields, hfields, hrel⟩ := bind_eq_ok.1 hrel
    obtain ⟨outputs, houtputs, hrel⟩ := bind_eq_ok.1 hrel
    cases hrel
    obtain rfl : fields = gs := Except.ok.inj (hfields.symm.trans hbelow)
    exact ⟨outputs.map Output.field, by rw [Rel.fields], Output.picks_of_columns houtputs⟩

/-- **A branch of a union** shows what its query does, in front. -/
theorem Presents.asBranch {position : Nat} (h : c.Presents input fs gs plan) (hs : plan.Sound)
    (ho : plan.asBranch position = .ok out) :
    ∃ next, out.rel.fields = .ok next ∧ out.select.sources = fs.length ∧
      Fields.Show (c.KeepsNames input) next (List.range fs.length) fs := by
  obtain ⟨base, hbase, ho⟩ := bind_eq_ok.1 ho
  obtain ⟨aligned, haligned, ho⟩ := bind_eq_ok.1 ho
  obtain ⟨hset, -, -⟩ := Plan.withoutPending_settled hbase
  obtain rfl : aligned = out := by
    split at ho
    · exact Except.ok.inj ho
    · cases ho
  have hbelow := h.settled hset
  have harranged := Plan.arrangedAs_of_align ((hset.sound hs).unsorted base.needs) haligned
  obtain ⟨next, hnext, hpicks⟩ := fields_of_align haligned hbelow.tree
  obtain ⟨added, hadded⟩ := harranged.front
  have hlength : base.select.targets.length = fs.length := hbelow.visible.length_eq
  refine ⟨next, hnext, ?_, ?_⟩
  · rw [ColumnMap.sources, harranged.select, List.length_range]
    exact hlength
  · rw [Fields.show_iff_forall₂, ← hlength]
    refine List.forall₂_iff_get.2 ⟨by rw [List.length_range, hlength], fun i hi hi' => ?_⟩
    rw [List.get_eq_getElem, List.get_eq_getElem, List.getElem_range]
    have hlt : i < base.select.targets.length := by rwa [List.length_range] at hi
    have ht := List.getElem?_eq_getElem hlt
    obtain ⟨f, g, hf, hg, hfg⟩ := hbelow.visible.at_position ht
    have hcolumn : (Plan.alignedColumns { base with sort := [] })[i]? = some base.select.targets[i] := by
      rw [hadded, List.getElem?_append_left hlt, ht]
    obtain rfl : fs[i] = f := Option.some.inj ((List.getElem?_eq_getElem hi').symm.trans hf)
    exact ⟨g, (hpicks.getElem? hcolumn).trans hg, hfg⟩

/-- The first tree of a union has the fields of the first branch in front. -/
theorem fields_of_unionTrees {first : Plan} {rest : List Plan} {rels : List Rel} {time : EventTime}
    (hf : first.rel.fields = .ok gs) (h : Plan.unionTrees first rest = .ok (rels, time)) :
    ∃ more, Rel.firstFields rels = .ok (gs ++ more) := by
  unfold Plan.unionTrees at h
  simp only at h
  split at h
  · obtain ⟨exposed, hexposed, h⟩ := bind_eq_ok.1 h
    cases h
    rw [List.zipIdx_cons, List.mapM_cons] at hexposed
    obtain ⟨rel, hrel, hexposed⟩ := bind_eq_ok.1 hexposed
    obtain ⟨others, -, hexposed⟩ := bind_eq_ok.1 hexposed
    cases hexposed
    unfold Plan.exposeTime at hrel
    split at hrel
    · cases hrel
    · obtain ⟨fields, hfields, hrel⟩ := bind_eq_ok.1 hrel
      obtain ⟨kept, hkept, hrel⟩ := bind_eq_ok.1 hrel
      obtain ⟨exposed, -, hrel⟩ := bind_eq_ok.1 hrel
      cases hrel
      obtain rfl : fields = gs := Except.ok.inj ((lift_eq_ok.1 hfields).symm.trans hf)
      have hall := Output.picks_of_columns (orFault_eq_ok.1 hkept)
      rw [Plan.width, ← Rel.length_of_fields hf] at hall
      have hsame := (picks_all fields).unique hall
      exact ⟨[exposed.field], by rw [Rel.firstFields, Rel.fields, List.map_append, ← hsame]; rfl⟩
  · cases h
    exact ⟨[], by rw [List.map_cons, Rel.firstFields, hf, List.append_nil]⟩

/-- **A union** shows its first branch. -/
theorem Presents.united {inputs : List Rel} {all : Bool} {position : Nat} {first : Plan}
    {rest : List Plan} (h : c.Presents input fs gs plan) (hs : plan.Sound)
    (hfirst : plan.asBranch position = .ok first) (ho : Plan.united first rest = .ok out) :
    ∃ next, c.Presents (.union (input :: inputs) all) fs next out := by
  obtain ⟨below, hbelow, hsources, hshow⟩ := h.asBranch hs hfirst
  obtain ⟨-, rels, time, htrees, hrel, -, hlineage, -⟩ := Plan.united_eq_ok ho
  obtain ⟨more, hmore⟩ := fields_of_unionTrees hbelow htrees
  have hq := passesOn_union c input inputs all
  refine ⟨below ++ more, hq.fields.trans h.query, ?_, ?_, fun l hl => ?_⟩
  · rw [hrel, Rel.fields, hmore]
  · rw [(Plan.united_columns ho).1, hsources]
    exact (hshow.left more).mono hq.names
  · rw [hlineage] at hl
    cases hl

section Joins

variable {l r : Plan} {fl gl fr gr : Fields} {kind planned : JoinKind} {condition predicate : Expr}
  {hint given : Option JoinHint} {ltree rtree : Rel} {j : JoinInputs}

/-- The names of a join survive only if those of both inputs do. -/
theorem keepsNames_of_join (h : c.KeepsNames (.join left right kind condition hint)) :
    c.KeepsNames left ∧ c.KeepsNames right ∧
      (c.Collapses left right kind condition → left.RenamesNothing ∧ right.RenamesNothing) := by
  rwa [KeepsNames] at h

theorem fields_of_join (hl : c.Presents left fl gl l) (hr : c.Presents right fr gr r) :
    (Rel.join left right kind condition hint).fields = .ok (Rel.joinedFields kind fl fr) := by
  rw [Rel.fields, hl.query, hr.query]
  rfl

/-- A plan is as wide as the row type of its tree. -/
theorem Presents.width (h : c.Presents input fs gs plan) : plan.width = gs.length :=
  (Rel.length_of_fields h.tree).symm

/-- **A join of two trees** shows the columns of both. -/
theorem Presents.join (hl : c.Presents left fl gl l) (hr : c.Presents right fr gr r)
    (hltree : ltree.fields = .ok gl) (hrtree : rtree.fields = .ok gr)
    (hrel : out.rel = .join ltree rtree planned predicate given)
    (hselect : out.select.targets = l.select.targets ++ r.select.targets.map (gl.length + ·))
    (hlineage : out.lineage = none) :
    c.Presents (.join left right kind condition hint) (Rel.joinedFields kind fl fr)
      (Rel.joinedFields planned gl gr) out where
  query := fields_of_join hl hr
  tree := by
    rw [hrel, Rel.fields, hltree, hrtree]
    rfl
  visible := hselect ▸ (hl.visible.mono fun h => (keepsNames_of_join h).1).joined
    (hr.visible.mono fun h => (keepsNames_of_join h).2.1) planned kind
  levels l hl := by
    rw [hlineage] at hl
    cases hl

/-- A join of inputs whose constraints were applied. -/
theorem Presents.join_settled {l' r' : Plan} (hl : c.Presents left fl gl l)
    (hr : c.Presents right fr gr r) (hsetl : l.withoutPending = .ok l')
    (hsetr : r.withoutPending = .ok r') (hrel : out.rel = .join l'.rel r'.rel planned predicate given)
    (hselect : l'.select.joinAt r'.select l.width = .ok out.select) (hlineage : out.lineage = none) :
    ∃ next, c.Presents (.join left right kind condition hint) (Rel.joinedFields kind fl fr) next out := by
  have hl' := hl.settled (Plan.withoutPending_settled hsetl).1
  have hr' := hr.settled (Plan.withoutPending_settled hsetr).1
  refine ⟨_, hl'.join hr' hl'.tree hr'.tree hrel ?_ hlineage⟩
  rw [(ColumnMap.joinAt_targets hselect).1, hl.width]

/-- A join of two trees in the other order. -/
theorem Presents.join_swapped (hl : c.Presents left fl gl l) (hr : c.Presents right fr gr r)
    (hltree : ltree.fields = .ok gl) (hrtree : rtree.fields = .ok gr)
    (hrel : out.rel = .join rtree ltree planned predicate given)
    (hselect : out.select.targets = l.select.targets.map (gr.length + ·) ++ r.select.targets)
    (hlineage : out.lineage = none) :
    c.Presents (.join left right kind condition hint) (Rel.joinedFields kind fl fr)
      (Rel.joinedFields planned gr gl) out where
  query := fields_of_join hl hr
  tree := by
    rw [hrel, Rel.fields, hltree, hrtree]
    rfl
  visible := hselect ▸ (hr.visible.mono fun h => (keepsNames_of_join h).2.1).joined_swapped
    (hl.visible.mono fun h => (keepsNames_of_join h).1) planned kind
  levels l hl := by
    rw [hlineage] at hl
    cases hl

/-- **A join by time** shows the columns of both inputs, the stream's on either side. -/
theorem Presents.temporal {sides : JoinInputs.TemporalSides} (hl : c.Presents left fl gl j.left)
    (hr : c.Presents right fr gr j.right) (hsides : sides.Of j) (ho : j.temporalPlan sides = .ok out) :
    ∃ next, c.Presents (.join left right kind condition hint) (Rel.joinedFields kind fl fr) next out := by
  obtain ⟨stream, table, _, hstream, htable, -, hselect, hrel, -, -, hlineage, -⟩ :=
    JoinInputs.temporalPlan_eq_ok ho
  have hset := JoinInputs.readyStream_settled hstream
  obtain ⟨htableSet, -, -⟩ := Plan.withoutPending_settled htable
  unfold JoinInputs.temporalSelect at hselect
  rcases hsides.roles with ⟨hswapped, hs, ht, -⟩ | ⟨hswapped, -, hs, ht, -⟩
  · rw [hs] at hset
    rw [ht] at htableSet
    have hstreamed := hl.settled hset
    have htabled := hr.settled htableSet
    rw [hswapped, if_neg Bool.false_ne_true] at hselect
    refine ⟨_, hstreamed.join htabled hstreamed.tree htabled.tree hrel ?_ hlineage⟩
    rw [(ColumnMap.joinAt_targets hselect).1, hstreamed.width]
  · rw [hs] at hset
    rw [ht] at htableSet
    have htabled := hl.settled htableSet
    have hstreamed := hr.settled hset
    rw [hswapped, if_pos rfl] at hselect
    refine ⟨_, htabled.join_swapped hstreamed htabled.tree hstreamed.tree hrel ?_ hlineage⟩
    rw [(ColumnMap.of_targets hselect).1, hstreamed.width]
    simp only [Nat.add_comm]

/-- Right levels that are unrolled below a left row put their fields behind it. -/
theorem fields_of_mergeLevels {named : Prop} {rights : Lineage} {levels : List (Level × Nat)}
    {state merged : JoinInputs.Merged} (hlevels : ∀ level ∈ levels, rights[level.2]? = some level.1)
    (htree : state.rel.fields = .ok gs) (hviews : state.lineage.ShowsViews c.catalog named gs)
    (hstands : ∀ pair ∈ state.matching, Lineage.Stands state.lineage rights pair)
    (hm : JoinInputs.mergeLevels c state levels = .ok (some merged)) :
    ∃ more, merged.rel.fields = .ok (gs ++ more) ∧
      merged.lineage.ShowsViews c.catalog named (gs ++ more) ∧
      ∀ pair ∈ merged.matching, Lineage.Stands merged.lineage rights pair := by
  refine JoinInputs.mergeLevels_keeps (I := fun next => ∃ more, next.rel.fields = .ok (gs ++ more) ∧
    next.lineage.ShowsViews c.catalog named (gs ++ more) ∧
    ∀ pair ∈ next.matching, Lineage.Stands next.lineage rights pair) ?_
    ⟨[], by rwa [List.append_nil], by rwa [List.append_nil], hstands⟩ hm
  rintro state next level hmem ⟨more, hfields, hviews, hstands⟩ hnext
  obtain ⟨_, _, view, _, _, _, -, -, hview, -, -, hrel, hlineage, -, -, -⟩ :=
    JoinInputs.mergeLevel_eq_ok hnext
  refine ⟨more ++ view.levelFields, ?_, ?_, JoinInputs.mergeLevel_stands (hlevels level hmem) hstands hnext⟩
  · rw [hrel, Rel.fields, hfields, ← List.append_assoc]
    rfl
  · rw [hlineage, ← List.append_assoc]
    exact hviews.addLevel hview (Rel.length_of_fields hfields).symm rfl

/-- **A right column and the one that stands for it** are columns of one view, at the same
place. -/
theorem like_of_mergedColumn {named also : Prop} {rights : Lineage} {merged : JoinInputs.Merged}
    {t t' : Nat} (hviews : merged.lineage.ShowsViews c.catalog named gs)
    (hrights : rights.ShowsViews c.catalog also gr)
    (hstands : ∀ pair ∈ merged.matching, Lineage.Stands merged.lineage rights pair)
    (h : JoinInputs.mergedColumn merged rights t = some t') :
    ∃ g g', gr[t]? = some g ∧ gs[t']? = some g' ∧ g.Like (also ∧ named) g' := by
  unfold JoinInputs.mergedColumn at h
  obtain ⟨position, hlocate, h⟩ := Option.bind_eq_some_iff.1 h
  obtain ⟨level, hlevel, h⟩ := Option.bind_eq_some_iff.1 h
  obtain ⟨k, hk, h⟩ := Option.bind_eq_some_iff.1 h
  obtain ⟨target, htarget, h⟩ := Option.bind_eq_some_iff.1 h
  obtain rfl := Option.some.inj h
  obtain ⟨level', hlevel', hge, hlt⟩ := Lineage.owns_of_locate? hlocate
  obtain rfl : level = level' := Option.some.inj (hlevel.symm.trans hlevel')
  obtain ⟨target', level', hr, hl, hsame⟩ := hstands _ (mem_of_lookup hk)
  obtain rfl : level = level' := Option.some.inj (hlevel.symm.trans hr)
  obtain rfl : target = target' := Option.some.inj (htarget.symm.trans hl)
  obtain ⟨view, hview, hshow⟩ := hviews target (List.mem_of_getElem? htarget)
  obtain ⟨view', hview', hshow'⟩ := hrights level (List.mem_of_getElem? hlevel)
  rw [hsame] at hview
  obtain rfl : view = view' := Option.some.inj (hview.symm.trans hview')
  -- both levels are as wide as their view
  have hwidth := hshow.length_eq
  have hwidth' := hshow'.length_eq
  rw [List.length_range'] at hwidth hwidth'
  have hi : t - level.offset < level.width := by
    rw [Level.stop] at hlt
    omega
  have hcolumn : (List.range' level.offset level.width)[t - level.offset]? = some t := by
    rw [List.getElem?_range' hi, Nat.one_mul, Nat.add_sub_cancel' hge]
  have hcolumn' : (List.range' target.offset target.width)[t - level.offset]?
      = some (target.offset + t - level.offset) := by
    rw [List.getElem?_range' (by omega), Nat.one_mul, Nat.add_sub_assoc hge]
  obtain ⟨f, g, hf, hg, hfg⟩ := hshow'.at_position hcolumn
  obtain ⟨f', g', hf', hg', hfg'⟩ := hshow.at_position hcolumn'
  obtain rfl : f = f' := Option.some.inj (hf.symm.trans hf')
  exact ⟨g, g', hg, hg', hfg.symm.trans hfg'⟩

/-- **An entity joined with itself** shows the columns of both inputs. The names of the
right ones survive if nothing is renamed. -/
theorem Presents.selfJoin (hl : c.Presents left fl gl j.left) (hr : c.Presents right fr gr j.right)
    (hcollapses : c.Collapses left right kind condition) (ho : j.selfJoin? c = .ok (some out)) :
    ∃ next, c.Presents (.join left right kind condition hint) (Rel.joinedFields kind fl fr) next out := by
  obtain ⟨lefts, rights, matching, hlefts, hrights, -, hmatch, hplan⟩ := JoinInputs.selfJoin?_eq_ok ho
  obtain ⟨merged, shown, select, key, -, hmerged, hshown, hselect, -, rfl⟩ :=
    JoinInputs.mergedPlan_eq_ok hplan
  have hmatching := Lineage.match?_stands hmatch
  obtain ⟨more, hfields, hviews, hstands⟩ := fields_of_mergeLevels
    (fun level hmem => (JoinInputs.mem_lackingLevels.1 hmem).1) hl.tree (hl.levels lefts hlefts)
    hmatching hmerged
  have hshowRight : Fields.Show (c.KeepsNames (.join left right kind condition hint)) (gl ++ more)
      shown fr := by
    rw [Fields.show_iff_forall₂]
    refine forall₂_of_left (mapM_eq_some.1 hshown) (Fields.show_iff_forall₂.1 hr.visible) ?_
    rintro t - t' f ht ⟨g, hg, hfg⟩
    obtain ⟨g₁, g', hg₁, hg', hlike⟩ := like_of_mergedColumn hviews (hr.levels rights hrights) hstands ht
    obtain rfl : g = g₁ := Option.some.inj (hg.symm.trans hg₁)
    refine ⟨g', hg', (hfg.trans hlike).mono fun hnames => ?_⟩
    obtain ⟨-, hkeeps, hnothing⟩ := keepsNames_of_join hnames
    exact ⟨hkeeps, (hnothing hcollapses).symm⟩
  refine ⟨gl ++ more, fields_of_join hl hr, hfields, ?_, ?_⟩
  · rw [hselect]
    exact (((hl.visible.mono fun h => (keepsNames_of_join h).1).left more).append hshowRight).like
      (Fields.like_joined _ kind fl fr)
  · rintro _ ⟨⟩
    exact hviews.mono fun h => h.input List.mem_cons_self

/-- **A join** shows the columns of both inputs. -/
theorem Presents.joined (hl : c.Presents left fl gl l) (hr : c.Presents right fr gr r)
    (hcl : c.convert left = .ok l) (hcr : c.convert right = .ok r)
    (hj : JoinInputs.of l r kind condition = .ok j) (ho : c.joined j = .ok out) :
    ∃ next, c.Presents (.join left right kind condition hint) (Rel.joinedFields kind fl fr) next out := by
  obtain ⟨hleft, hright, -⟩ := JoinInputs.of_eq_ok hj
  subst hleft hright
  rcases joined_eq_ok ho with h | h | h | h
  · exact hl.selfJoin hr ⟨_, _, j, out, hcl, hcr, hj, h⟩ (attempt_eq_ok h)
  · obtain ⟨sides, hsides, hplan⟩ := JoinInputs.temporalJoin?_eq_ok (attempt_eq_ok h)
    exact hl.temporal hr (JoinInputs.temporalShape_eq_ok hsides).1 hplan
  · obtain ⟨window, -, hplan⟩ := JoinInputs.intervalJoin?_eq_ok (attempt_eq_ok h)
    obtain ⟨l', r', _, hsetl, hsetr, -, hselect, hrel, -, -, hlineage, -⟩ :=
      JoinInputs.intervalPlan_eq_ok hplan
    exact hl.join_settled hr hsetl hsetr hrel hselect hlineage
  · obtain ⟨l', r', _, hsetl, hsetr, hselect, hrel, -, -, -, hlineage, -⟩ := JoinInputs.statePlan_eq_ok h
    exact hl.join_settled hr hsetl hsetr hrel hselect hlineage

end Joins

end StreamPlan.Converter
