import StreamPlan.Proofs.Entities.Lineage
import StreamPlan.Proofs.Entities.Merged
import StreamPlan.Proofs.Rows.JoinCondition

/-!
# An entity joined with itself

Two unrollings of one entity that are joined on their keys are one unrolling.

* `Plan.Pure`: a plan that unrolls an entity and does nothing else. What a query is
  converted to is one under the conditions of `Converter.pure_of_convert`.
* `JoinInputs.condition_iff_agree`: the condition is true of a pair of rows when
  the keys of the matched levels are equal.
* `JoinInputs.Merging.pick`: a merged row shows what the joined row does.
* `Converter.self_join_joins_rows`: **the merged rows are the joined rows**, and
  their keys tell them apart.
-/

namespace StreamPlan

/-- A plan that unrolls an entity and does nothing else. Its key is that of all levels. -/
structure Plan.Pure (catalog : Catalog) (plan : Plan) (l : Lineage) : Prop where
  lineage : plan.lineage = some l
  rel : Unrolling catalog [] l plan.rel
  key : plan.key.targets = l.keys
  select : plan.select.width = plan.width
  pending : plan.hasPending = false

namespace JoinInputs

variable {c : Converter} {catalog : Catalog} {left right : Lineage} {matching : Lineage.Matching}
  {equalities : List (Nat × Nat)} {merged : Merged} {lefts rights both : List Row}

section Condition

variable {b b' : Nat} (hl : Lineage.Chain catalog b [] left) (hr : Lineage.Chain catalog b' [] right)
  (hkeys : ∀ level ∈ left, level.keys ≤ level.width)
  (hkeys' : ∀ level ∈ right, level.keys ≤ level.width)
  (hlaid : left.Laid lefts) (hlaid' : right.Laid rights)
  (hlen : left.length = lefts.length) (hlen' : right.length = rights.length)
include hl hr hkeys hkeys' hlaid hlaid' hlen hlen'

/-- The equality of two key columns of matched levels is one of values of their parts. -/
theorem equates_of_pairs {i t : Nat} {k r : Level}
    (hp : Lineage.Pairs left right equalities matching i t k r) :
    ∃ part other, lefts[t]? = some part ∧ rights[i]? = some other ∧ ∀ n < r.keys,
      (k.offset + n < lefts.flatten.length ∧ r.offset + n < rights.flatten.length) ∧
      (Row.equates (lefts.flatten ++ rights.flatten) (k.offset + n)
          (r.offset + n + lefts.flatten.length) = true ↔
        ∃ x y, part[n]? = some x ∧ other[n]? = some y ∧ x.compare? y = some .eq) := by
  have hsame := (hl.follows hp.left).keys_eq (hr.follows hp.right) hp.view
  have hpart := List.getElem?_eq_getElem (hlen ▸ (List.getElem?_eq_some_iff.1 hp.left).1)
  have hother := List.getElem?_eq_getElem (hlen' ▸ (List.getElem?_eq_some_iff.1 hp.right).1)
  refine ⟨_, _, hpart, hother, fun n hn => ?_⟩
  obtain ⟨hwidth, hat⟩ := hlaid t k _ hp.left hpart
  obtain ⟨hwidth', hat'⟩ := hlaid' i r _ hp.right hother
  have hlt := Nat.lt_of_lt_of_le (hsame ▸ hn) (hkeys k (List.mem_of_getElem? hp.left))
  have hlt' := Nat.lt_of_lt_of_le hn (hkeys' r (List.mem_of_getElem? hp.right))
  have hin := (hat n hlt).trans (List.getElem?_eq_getElem (hwidth.symm ▸ hlt))
  have hin' := (hat' n hlt').trans (List.getElem?_eq_getElem (hwidth'.symm ▸ hlt'))
  refine ⟨⟨(List.getElem?_eq_some_iff.1 hin).1, (List.getElem?_eq_some_iff.1 hin').1⟩, ?_⟩
  rw [Row.equates_append (List.getElem?_eq_some_iff.1 hin).1, hat n hlt, hat' n hlt']

/-- **The condition** is true of a pair of rows when the keys of the matched levels
are equal. -/
theorem condition_iff_agree {now : Int} {condition : Expr} {width : Nat} {isTimestamp : Nat → Bool}
    {parts : JoinCondition} (h : JoinCondition.ofExpr condition width isTimestamp = .ok parts)
    (hequi : parts.isEquiJoin = true)
    (hmatch : Lineage.match? left right parts.equalities = some matching)
    (hwidth : lefts.flatten.length = width) :
    (∃ v, evalExpr now (lefts.flatten ++ rights.flatten) condition = .ok v) ∧
      (trueOn now condition (lefts.flatten ++ rights.flatten) = true ↔
        Agree right matching lefts rights) := by
  subst hwidth
  obtain ⟨⟨used, hmatched, hused⟩, -⟩ := Lineage.match?_matched hmatch
  have hcells := fun (i t : Nat) (k r : Level)
    (hp : Lineage.Pairs left right parts.equalities matching i t k r) =>
      equates_of_pairs hl hr hkeys hkeys' hlaid hlaid' hlen hlen' hp
  -- every equality is one of keys of matched levels
  have hpair : ∀ p ∈ parts.equalities, ∃ i t k r n, matching.lookup i = some t ∧
      Lineage.Pairs left right parts.equalities matching i t k r ∧ n < r.keys ∧
        p = (k.offset + n, r.offset + n) := by
    intro p hp
    obtain ⟨i, t, k, r, hlookup, hpairs, hmem⟩ := hmatched.used p (hused p hp)
    obtain ⟨n, hn, rfl⟩ := List.mem_map.1 hmem
    exact ⟨i, t, k, r, n, hlookup, hpairs,
      Nat.lt_of_lt_of_le (List.mem_range.1 hn) (Nat.min_le_right _ _), rfl⟩
  obtain ⟨hvalue, htrue⟩ := @JoinCondition.trueOn_of_isEquiJoin _ _ now
    (lefts.flatten ++ rights.flatten) parts condition h hequi fun p hp => by
      obtain ⟨i, t, k, r, n, -, hpairs, hn, rfl⟩ := hpair p hp
      obtain ⟨part, other, -, -, hcell⟩ := hcells i t k r hpairs
      obtain ⟨⟨hlt, hlt'⟩, -⟩ := hcell n hn
      rw [List.length_append]
      exact ⟨by omega, by omega⟩
  -- matching took a key for every level, and used every equality
  refine ⟨hvalue, htrue.trans ⟨fun hall => ?_, fun hagree p hp => ?_⟩⟩
  · intro i t r part other hlookup hright hpart hother
    obtain ⟨k, r', hp⟩ := hmatched.pairs i t hlookup
    obtain rfl := Option.some.inj (hright.symm.trans hp.right)
    obtain ⟨part', other', hpart', hother', hcell⟩ := hcells i t k r hp
    obtain rfl := Option.some.inj (hpart.symm.trans hpart')
    obtain rfl := Option.some.inj (hother.symm.trans hother')
    have hsame := (hl.follows hp.left).keys_eq (hr.follows hp.right) hp.view
    refine Row.sameKey_iff.2 fun n hn => (hcell n hn).2.1 (hall (k.offset + n, r.offset + n) ?_)
    exact hp.keys _ (List.mem_map.2 ⟨n, List.mem_range.2 (by rwa [hsame, Nat.min_self]), rfl⟩)
  · obtain ⟨i, t, k, r, n, hlookup, hpairs, hn, rfl⟩ := hpair p hp
    obtain ⟨part, other, hpart, hother, hcell⟩ := hcells i t k r hpairs
    have hsame := hagree i t r part other hlookup hpairs.right hpart hother
    exact (hcell n hn).2.2 (Row.sameKey_iff.1 hsame n hn)

end Condition

/-- **A merged row** shows what the joined row does. -/
theorem Merging.pick (h : Merging right matching lefts merged rights both)
    (hlaid : right.Laid rights) (hmerged : merged.lineage.Laid both)
    (hlen : right.length = rights.length) {visible columns shown : List Nat}
    (hvisible : ∀ c ∈ visible, c < lefts.flatten.length)
    (hshown : columns.mapM (mergedColumn merged right) = some shown) :
    Row.pick both.flatten (visible ++ shown)
      = Row.pick (lefts.flatten ++ rights.flatten)
          (visible ++ columns.map (lefts.flatten.length + ·)) := by
  obtain ⟨more, rfl⟩ := h.front
  have hleft : Row.pick (lefts ++ more).flatten visible
      = Row.pick (lefts.flatten ++ rights.flatten) visible := by
    rw [List.flatten_append, Row.pick_left _ hvisible, Row.pick_left _ hvisible]
  have hright : Row.pick (lefts ++ more).flatten shown
      = Row.pick (lefts.flatten ++ rights.flatten) (columns.map (lefts.flatten.length + ·)) := by
    rw [Row.pick_right]
    refine Row.pick_congr ((mapM_eq_some.1 hshown).imp fun c s hs => ?_)
    -- the column is a value of a part, and the part stands elsewhere in the merged row
    obtain ⟨i, hi, hs⟩ := Option.bind_eq_some_iff.1 hs
    obtain ⟨level, hlevel, hs⟩ := Option.bind_eq_some_iff.1 hs
    obtain ⟨t, ht, hs⟩ := Option.bind_eq_some_iff.1 hs
    obtain ⟨target, htarget, hs⟩ := Option.bind_eq_some_iff.1 hs
    cases hs
    obtain ⟨level', hlevel', hle, hlt⟩ := Lineage.owns_of_locate? hi
    obtain rfl := Option.some.inj (hlevel.symm.trans hlevel')
    have hpart := List.getElem?_eq_getElem (hlen ▸ (List.getElem?_eq_some_iff.1 hlevel).1)
    obtain ⟨t', ht', hboth⟩ := h.standIn i _ hpart
    obtain rfl := Option.some.inj (ht.symm.trans ht')
    obtain ⟨hwidth, hat⟩ := hlaid i level _ hlevel hpart
    obtain ⟨hwidth', hat'⟩ := hmerged t target _ htarget hboth
    rw [Level.stop] at hlt
    have hk : c - level.offset < level.width := by omega
    have hcell := hat _ hk
    rw [← hat' _ (hwidth' ▸ hwidth.symm ▸ hk), Nat.add_sub_cancel' hle] at hcell
    rw [Nat.add_sub_assoc hle, hcell]
  rw [Row.pick, Row.pick, List.map_append, List.map_append]
  exact congrArg₂ (· ++ ·) hleft hright

/-- The keys of lacking levels come behind the left key. -/
theorem keys_of_mergeLevels {state : Merged} {levels : List (Level × Nat)} {keys : List Nat}
    (hm : mergeLevels c state levels = .ok (some merged))
    (h : keys ++ state.added = Lineage.keys state.lineage) :
    keys ++ merged.added = Lineage.keys merged.lineage := by
  refine mergeLevels_keeps (I := fun next => keys ++ next.added = Lineage.keys next.lineage) ?_ h hm
  rintro before next level - hbefore hnext
  obtain ⟨p, parent, view, q, column, above, -, -, -, -, -, -, hlineage, -, hadded, -⟩ :=
    mergeLevel_eq_ok hnext
  rw [hadded, hlineage, ← List.append_assoc, hbefore, Lineage.keys, Lineage.keys, List.flatMap_append]
  simp [Level.ownKey]

/-- The levels of a merged row are of the views of both sides. -/
theorem views_of_mergeLevels {state : Merged} {levels : List (Level × Nat)} {inViews : Nat → Prop}
    (hm : mergeLevels c state levels = .ok (some merged))
    (hlevels : ∀ level ∈ levels, inViews level.1.view)
    (h : ∀ level ∈ state.lineage, inViews level.view) :
    ∀ level ∈ merged.lineage, inViews level.view := by
  refine mergeLevels_keeps (I := fun next => ∀ level ∈ next.lineage, inViews level.view) ?_ h hm
  intro before next level hmem hbefore hnext
  obtain ⟨p, parent, view, q, column, above, -, -, -, -, -, -, hlineage, -⟩ := mergeLevel_eq_ok hnext
  rw [hlineage]
  exact List.forall_mem_append.2 ⟨hbefore, List.forall_mem_singleton.2 (hlevels level hmem)⟩

/-- The joined rows of a left row that has partners wherever it has to. -/
theorem joinedWith_parts {now : Int} {kind : JoinKind} {condition : Expr} {width : Nat}
    {right : List (List Row)} {left : Row}
    (h : kind.keepsLeft = true →
      right.filter (fun r => trueOn now condition (left ++ r.flatten)) ≠ []) :
    joinedWith now kind condition width (right.map List.flatten) left
      = (right.filter fun r => trueOn now condition (left ++ r.flatten)).map
          fun r => left ++ r.flatten := by
  rw [joinedWith, List.filter_map, List.map_map]
  simp only [Function.comp_def]
  refine if_neg fun hempty => ?_
  rw [Bool.and_eq_true, List.isEmpty_iff, List.map_eq_nil_iff] at hempty
  exact h hempty.2 hempty.1

/-- Two unrollings of one entity that are joined on keys of matched levels, and the
left row with the levels that it lacks. -/
structure SelfJoined (c : Converter) (j : JoinInputs) (l r : Lineage) (matching : Lineage.Matching)
    (merged : Merged) : Prop where
  left : Unrolling c.catalog [] l j.left.rel
  right : Unrolling c.catalog [] r j.right.rel
  condition : JoinCondition.ofExpr j.condition j.left.width (isTimestamp j.left j.right) = .ok j.parts
  equi : j.parts.isEquiJoin = true
  matched : Lineage.match? l r j.parts.equalities = some matching
  merged : mergeLevels c ⟨j.left.rel, l, matching, j.needs, []⟩ (lackingLevels matching 0 r)
    = .ok (some merged)

namespace SelfJoined

variable {j : JoinInputs} {l r new : Lineage} {fixture : Fixture} {base : List Row} {b : Nat}
  {x y z : List Row}

section Lineages

variable (h : SelfJoined c j l r matching merged) (hc : c.catalog.Linked)
include h hc

/-- The merged row is an unrolling of the entity. -/
theorem unrolling : Unrolling c.catalog [] merged.lineage merged.rel := by
  have hmatching := Lineage.match?_stands h.matched
  exact (Converter.unrolling_of_mergeLevels (h.right.linked hc)
    (fun _ hmem => (mem_lackingLevels.1 hmem).1) h.left hmatching h.merged).1

/-- Both sides and the merged row are over one base table. -/
theorem chains (hnew : merged.lineage = l ++ new) : ∃ b, Lineage.Chain c.catalog b [] l ∧
    Lineage.Chain c.catalog b [] r ∧ Lineage.Chain c.catalog b [] merged.lineage := by
  obtain ⟨b, hchain⟩ := (h.unrolling hc).chain
  obtain ⟨b', hr⟩ := h.right.chain
  have hl : Lineage.Chain c.catalog b [] l := (Lineage.Chain.append_iff.1 (hnew ▸ hchain)).1
  obtain ⟨⟨_, hmatched, -⟩, hroots⟩ := Lineage.match?_matched h.matched
  obtain rfl := base_of_matched hl hr hmatched.pairs hroots h.right.ne_nil
  exact ⟨b', hl, hr, hchain⟩

end Lineages

section Rows

variable (h : SelfJoined c j l r matching merged) (hc : c.catalog.Linked)
  (hf : fixture.Conforms c.catalog) (hbase : fixture.rowsOf (.base b) = .ok base)
  (hl : Lineage.Chain c.catalog b [] l) (hr : Lineage.Chain c.catalog b [] r)
include h hc hf hbase hl hr

/-- The condition is true of a pair of rows when matched levels have equal keys. -/
theorem condition_iff (hx : x ∈ l.unroll c.catalog base []) (hy : y ∈ r.unroll c.catalog base []) :
    (∃ v, evalExpr fixture.now (x.flatten ++ y.flatten) j.condition = .ok v) ∧
      (trueOn fixture.now j.condition (x.flatten ++ y.flatten) = true ↔ Agree r matching x y) := by
  obtain ⟨hlaid, hwidth⟩ := h.left.laid hc hf hbase hl x hx
  obtain ⟨hlaid', -⟩ := h.right.laid hc hf hbase hr y hy
  exact condition_iff_agree hl hr (h.left.keys_le hc) (h.right.keys_le hc) hlaid hlaid' (hl.length hx)
    (hr.length hy) h.condition h.equi h.matched hwidth

variable (hk : fixture.Keyed c.catalog ((l ++ r).map Level.view)) (hnew : merged.lineage = l ++ new)
  (hopen : r.Unrollable c.catalog base [])
include hk hnew hopen

/-- **The partners of a left row** are the ways to go on through the lacking levels. -/
theorem partners (hx : x ∈ l.unroll c.catalog base []) : new.Unrollable c.catalog base x ∧
    List.Forall₂ (Merging r matching x merged)
      ((r.unroll c.catalog base []).filter fun y =>
        trueOn fixture.now j.condition (x.flatten ++ y.flatten)) (new.unroll c.catalog base x) := by
  obtain ⟨⟨_, hmatched, -⟩, -⟩ := Lineage.match?_matched h.matched
  have hstart : Merging r matching x ⟨j.left.rel, l, matching, j.needs, []⟩ [] x :=
    .start (hl.length hx).symm (Lineage.match?_stands h.matched)
  refine hstart.unroll hk hbase hl
    (fun k hmem => List.mem_map_of_mem (List.mem_append_left _ hmem)) hx (h.right.linked hc)
    hmatched.pairs (fun level hmem => ?_) hr rfl rfl h.merged hnew hopen
    fun y hy => (h.condition_iff hc hf hbase hl hr hx hy).2
  obtain ⟨i, hi, rfl⟩ := List.getElem_of_mem hmem
  exact (hr.follows (List.getElem?_eq_getElem hi)).keys

/-- A left row has a partner if no level is lacking. -/
theorem has_partner (hnone : lackingLevels matching 0 r = []) (hx : x ∈ l.unroll c.catalog base []) :
    (r.unroll c.catalog base []).filter
      (fun y => trueOn fixture.now j.condition (x.flatten ++ y.flatten)) ≠ [] := by
  intro hempty
  -- then the left row is merged as it is, and stands for one right row
  have hmerged := h.merged
  rw [hnone] at hmerged
  cases hmerged
  obtain rfl : new = [] := List.self_eq_append_right.1 hnew
  have hlen := (h.partners hc hf hbase hl hr hk hnew hopen hx).2.length_eq
  rw [hempty] at hlen
  cases hlen

/-- **The merged rows of a left row** show what its joined rows do. -/
theorem pick_partners (hchain : Lineage.Chain c.catalog b [] merged.lineage) {kind : JoinKind}
    (hkind : kind.keepsLeft = true → lackingLevels matching 0 r = [])
    {visible columns shown : List Nat}
    (hvisible : ∀ c ∈ visible, c < j.left.width)
    (hshown : columns.mapM (mergedColumn merged r) = some shown) (width : Nat)
    (hx : x ∈ l.unroll c.catalog base []) :
    (new.unroll c.catalog base x).map (fun z => Row.pick z.flatten (visible ++ shown))
      = (joinedWith fixture.now kind j.condition width ((r.unroll c.catalog base []).map List.flatten)
          x.flatten).map (Row.pick · (visible ++ columns.map (j.left.width + ·))) := by
  have hwidth : x.flatten.length = j.left.width := (h.left.laid hc hf hbase hl x hx).2
  rw [joinedWith_parts fun hkeeps =>
    h.has_partner hc hf hbase hl hr hk hnew hopen (hkind hkeeps) hx, List.map_map]
  refine (map_eq_map_of_forall₂ (h.partners hc hf hbase hl hr hk hnew hopen hx).2
    fun y hy z hz hboth => ?_).symm
  have hz' : z ∈ merged.lineage.unroll c.catalog base [] := by
    rw [hnew, Lineage.unroll_append]
    exact List.mem_flatMap.2 ⟨x, hx, hz⟩
  have hy' := (List.mem_filter.1 hy).1
  obtain ⟨hlaid, -⟩ := h.right.laid hc hf hbase hr y hy'
  obtain ⟨hlaid', -⟩ := (h.unrolling hc).laid hc hf hbase hchain z hz'
  rw [Function.comp_apply, hboth.pick hlaid hlaid' (hr.length hy') (hwidth ▸ hvisible) hshown, hwidth]

end Rows

end SelfJoined

end JoinInputs

namespace Converter

variable {c : Converter} {fixture : Fixture} {left right out : Plan} {l r : Lineage}
  {kind : JoinKind} {condition : Expr} {j : JoinInputs} {ls rs : List Row}

/-- A plan of a query that kept its lineage and its key, and of which nothing is
pending or became a now-filter, unrolls an entity and does nothing else. -/
theorem pure_of_convert {q : Rel} {plan : Plan} (hb : c.catalog.Built) (hp : c.catalog.PullsNothing)
    (h : c.convert q = .ok plan) (hl : plan.lineage = some l)
    (hnow : .nowFunction ∉ plan.needs.required) (hkey : plan.key.targets = l.keys)
    (hpending : plan.hasPending = false) : plan.Pure c.catalog l := by
  obtain ⟨hsound, hkeeps⟩ := (keeps_lineage hb.linked hp).convert h
  obtain ⟨-, -, filters, hrel, hneeds⟩ := hkeeps l hl
  -- a now-filter that was applied would show in what the plan needs
  obtain rfl : filters = [] := by_contra fun hne => hnow (hneeds hne)
  exact ⟨hl, hrel, hkey, hsound.select, hpending⟩

/-- **An entity joined with itself.** Two plans unroll an entity, and one plan takes the
place of their join. Then its rows show what the joined rows do, in their order, where a
left join keeps the left rows without a partner. Its key tells its rows apart.

Keys must tell rows and the elements of collections apart, and equal themselves: the join
compares them, and the plan that takes its place does not. -/
theorem self_join_joins_rows (hb : c.catalog.Built) (hf : fixture.Conforms c.catalog)
    (hk : fixture.Keyed c.catalog ((l ++ r).map Level.view))
    (hleft : left.Pure c.catalog l) (hright : right.Pure c.catalog r)
    (hj : JoinInputs.of left right kind condition = .ok j)
    (ho : attempt j [.auto, .inner, .left] (j.selfJoin? c) = .ok (some out))
    (hls : evaluate fixture left.rel = .ok ls) (hrs : evaluate fixture right.rel = .ok rs) :
    ∃ joined merged,
      evaluate fixture (.join left.rel right.rel (if kind = .left then .left else .inner)
        j.condition none) = .ok joined ∧
      evaluate fixture out.rel = .ok merged ∧
      merged.map (Row.pick · out.select.targets) = joined.map (Row.pick ·
        (left.select.targets ++ right.select.targets.map (left.width + ·))) ∧
      merged.Pairwise fun row other => Row.sameOn out.key.targets row other = false := by
  have hc := hb.linked
  obtain ⟨rfl, rfl, rfl, -, hparts⟩ := JoinInputs.of_eq_ok hj
  obtain ⟨l', r', matching, hl', hr', hmay, hmatch, hplan⟩ :=
    JoinInputs.selfJoin?_eq_ok (attempt_eq_ok ho)
  obtain rfl := Option.some.inj (hleft.lineage.symm.trans hl')
  obtain rfl := Option.some.inj (hright.lineage.symm.trans hr')
  obtain ⟨merged, shown, select, key, hkind, hmerged, hshown, hselect, hkeys, hout⟩ :=
    JoinInputs.mergedPlan_eq_ok hplan
  have h : JoinInputs.SelfJoined c j l r matching merged :=
    ⟨hleft.rel, hright.rel, hparts, (JoinInputs.settled_of_mayMerge hmay).2.2, hmatch, hmerged⟩
  obtain ⟨new, hnew⟩ := JoinInputs.lineage_of_mergeLevels hmerged
  obtain ⟨b, hl, hr, hchain⟩ := h.chains hc hnew
  -- both sides are the base table unrolled, one part per level
  obtain ⟨base, hbase, hopenL, rfl⟩ := (hleft.rel.evaluate_parts hc hf hl).1 hls
  obtain ⟨base', hbase', hopenR, rfl⟩ := (hright.rel.evaluate_parts hc hf hr).1 hrs
  obtain rfl : base = base' := Except.ok.inj (hbase.symm.trans hbase')
  have hrows := ((h.unrolling hc).evaluate_parts hc hf hchain).2 ⟨base, hbase,
    hnew ▸ Lineage.unrollable_append.2 ⟨hopenL, fun x hx =>
      (h.partners hc hf hbase hl hr hk hnew hopenR hx).1⟩, rfl⟩
  have hjoined : evaluate fixture (.join j.left.rel j.right.rel
      (if j.kind = .left then .left else .inner) j.condition none)
        = .ok (((l.unroll c.catalog base []).map List.flatten).flatMap
          (joinedWith fixture.now (if j.kind = .left then .left else .inner) j.condition
            j.right.rel.width ((r.unroll c.catalog base []).map List.flatten))) := by
    rw [evaluate, hls, hrs, ok_bind, ok_bind]
    refine (joinRows_eq_ok (by split <;> rfl)).2 ⟨List.forall_mem_map.2 fun x hx =>
      List.forall_mem_map.2 fun y hy => (h.condition_iff hc hf hbase hl hr hx hy).1, rfl⟩
  subst hout
  refine ⟨_, _, hjoined, hrows, ?_, ?_⟩
  · -- left row by left row
    rw [hnew, Lineage.unroll_append, List.map_map, List.map_flatMap, List.flatMap_map,
      List.map_flatMap]
    refine List.flatMap_congr fun x hx => ?_
    rw [hselect]
    refine h.pick_partners hc hf hbase hl hr hk hnew hopenR hchain (fun hkeeps => hkind ?_)
      (fun t ht => ?_) hshown _ hx
    · by_contra hne
      rw [if_neg hne] at hkeeps
      cases hkeeps
    · exact hleft.select ▸ j.left.select.targets_lt t ht
  · -- the key is that of all merged levels
    have hall : j.left.key.targets ++ merged.added = merged.lineage.keys :=
      JoinInputs.keys_of_mergeLevels hmerged (by rw [List.append_nil, hleft.key])
    rw [hkeys, hall]
    refine (h.unrolling hc).distinct hc hf hk (JoinInputs.views_of_mergeLevels hmerged ?_ ?_) hrows
    · exact fun level hmem => List.mem_map_of_mem (List.mem_append_right _
        (List.mem_of_getElem? (JoinInputs.mem_lackingLevels.1 hmem).1))
    · exact fun level hmem => List.mem_map_of_mem (List.mem_append_left _ hmem)

theorem sameKey_int (m n : Int) (row other : Row) :
    Row.sameKey 1 (.int m :: row) (.int n :: other) = decide (m = n) := by
  simp [Row.sameKey, Row.sameOn, Value.compare?, Value.asInt?]

theorem numbers_distinct {ns : List Int} (h : ns.Nodup) :
    (ns.map fun n => [Value.int n]).Pairwise fun row other => Row.sameKey 1 row other = false := by
  rw [List.pairwise_map]
  exact h.imp fun {m n} hne => by rw [sameKey_int, decide_eq_false hne]

/-- Lines and notes have their numbers for keys. -/
theorem number_keyed (views : List Nat) (n : Int) (id : Nat) (hid : id = 1 ∨ id = 2) :
    Row.Keyed overOrders.catalog views id [.int n] := by
  refine ⟨fun view hv => ?_, fun child _ view column hv hplace => ?_,
    fun child _ view column hv hplace => ?_⟩
  · rcases hid with rfl | rfl <;> cases hv <;>
      exact (sameKey_int n n [] []).trans (decide_eq_true rfl)
  all_goals match child with
    | 0 => cases hv; cases hplace
    | 1 | 2 => cases hv; cases hplace; simp at hid
    | _ + 3 => cases hv

/-- Orders are the only root view. -/
theorem overOrders_root {id b : Nat} {view : View} (hv : overOrders.catalog.views[id]? = some view)
    (hplace : view.place = .root b) : id = 0 ∧ b = 0 ∧ view.ownKeys = 1 := by
  match id with
  | 0 => cases hv; cases hplace; exact ⟨rfl, rfl, rfl⟩
  | 1 | 2 => cases hv; cases hplace
  | _ + 3 => cases hv

/-- Orders of different numbers, each with different lines and different notes. -/
theorem ordersOf_keyed {orders : List (Int × List Int × List Int)} (views : List Nat)
    (hids : (orders.map Prod.fst).Nodup) (hnumbers : ∀ o ∈ orders, o.2.1.Nodup ∧ o.2.2.Nodup) :
    (ordersOf orders).Keyed overOrders.catalog views := by
  constructor
  · intro id _ view b rows hv hplace hrows
    obtain ⟨rfl, rfl, hkeys⟩ := overOrders_root hv hplace
    cases hrows
    rw [hkeys, List.pairwise_map]
    exact (List.pairwise_map.1 hids).imp fun {m n} hne => by rw [sameKey_int, decide_eq_false hne]
  · intro id _ view b rows hv hplace hrows row hrow
    obtain ⟨rfl, rfl, hkeys⟩ := overOrders_root hv hplace
    cases hrows
    obtain ⟨⟨n, lines, notes⟩, ho, rfl⟩ := List.mem_map.1 hrow
    obtain ⟨hlines, hnotes⟩ := hnumbers _ ho
    refine ⟨fun view' hv' => ?_, fun child _ view' column hv' hplace' => ?_,
      fun child _ view' column hv' hplace' => ?_⟩
    · obtain rfl := Option.some.inj (hv.symm.trans hv')
      rw [hkeys]
      exact (sameKey_int n n _ _).trans (decide_eq_true rfl)
    · match child with
      | 0 => cases hv'; cases hplace'
      | 1 => cases hv'; cases hplace'; exact numbers_distinct hlines
      | 2 => cases hv'; cases hplace'; exact numbers_distinct hnotes
      | _ + 3 => cases hv'
    · have hnumber : ∀ (id : Nat) (ns : List Int), id = 1 ∨ id = 2 →
          ∀ element ∈ ns.map fun n => [Value.int n],
            Row.Keyed overOrders.catalog views id element := by
        intro id ns hid element he
        obtain ⟨n, -, rfl⟩ := List.mem_map.1 he
        exact number_keyed views n id hid
      match child with
      | 0 => cases hv'; cases hplace'
      | 1 => cases hv'; cases hplace'; exact hnumber 1 lines (.inl rfl)
      | 2 => cases hv'; cases hplace'; exact hnumber 2 notes (.inr rfl)
      | _ + 3 => cases hv'

/-- Lines and notes that are joined by order. -/
theorem lines_join_notes :
    let orders := ordersOf [(1, [1, 2], [5, 6]), (2, [1], [])]
    let rows := [[.int 1, .int 1, .int 1, .int 5], [.int 1, .int 1, .int 1, .int 6],
      [.int 1, .int 2, .int 1, .int 5], [.int 1, .int 2, .int 1, .int 6]]
    ∃ left right l r j out,
      overOrders.convert scannedLines = .ok left ∧ overOrders.convert scannedNotes = .ok right ∧
      left.Pure overOrders.catalog l ∧ right.Pure overOrders.catalog r ∧
      JoinInputs.of left right .inner (.equate 0 2) = .ok j ∧
      attempt j [.auto, .inner, .left] (j.selfJoin? overOrders) = .ok (some out) ∧
      ∃ joined merged, evaluate orders (.join left.rel right.rel .inner j.condition none) = .ok joined ∧
        evaluate orders out.rel = .ok merged ∧
        merged.map (Row.pick · out.select.targets) = rows ∧
        joined.map (Row.pick · (left.select.targets ++ right.select.targets.map (left.width + ·)))
          = rows ∧
        merged.Pairwise fun row other => Row.sameOn out.key.targets row other = false := by
  intro orders rows
  obtain ⟨left, right, l, r, j, out, ls, rs, hleft, hright, hl, hnl, hkl, hpl, hr, hnr, hkr, hpr,
      hj, ho, hls, hrs, hrows⟩ :
      ∃ left right l r j out ls rs, overOrders.convert scannedLines = .ok left ∧
        overOrders.convert scannedNotes = .ok right ∧
        left.lineage = some l ∧ .nowFunction ∉ left.needs.required ∧ left.key.targets = l.keys ∧
        left.hasPending = false ∧
        right.lineage = some r ∧ .nowFunction ∉ right.needs.required ∧ right.key.targets = r.keys ∧
        right.hasPending = false ∧
        JoinInputs.of left right .inner (.equate 0 2) = .ok j ∧
        attempt j [.auto, .inner, .left] (j.selfJoin? overOrders) = .ok (some out) ∧
        evaluate orders left.rel = .ok ls ∧ evaluate orders right.rel = .ok rs ∧
        ∀ merged, evaluate orders out.rel = .ok merged →
          merged.map (Row.pick · out.select.targets) = rows :=
    ⟨_, _, _, _, _, _, _, _, rfl, rfl, rfl, by decide, rfl, rfl, rfl, by decide, rfl, rfl, rfl, rfl,
      rfl, rfl, by rintro _ ⟨⟩; rfl⟩
  have hpureL := pure_of_convert overOrders_built overOrders_pullsNothing hleft hl hnl hkl hpl
  have hpureR := pure_of_convert overOrders_built overOrders_pullsNothing hright hr hnr hkr hpr
  obtain ⟨joined, merged, hjoined, hmerged, hsame, hkeys⟩ := self_join_joins_rows overOrders_built
    (ordersOf_conforms _) (ordersOf_keyed _ (by decide) (by decide)) hpureL hpureR hj ho hls hrs
  exact ⟨left, right, l, r, j, out, hleft, hright, hpureL, hpureR, hj, ho, joined, merged, hjoined,
    hmerged, hrows merged hmerged, hsame.symm.trans (hrows merged hmerged), hkeys⟩

/-- A table of points by a float. -/
def pointsTable : BaseTable where
  name := "points"
  fields := [⟨"k", .float64, false⟩]
  keys := 1
  kind := .state
  time := .none
  pending := .none
  stage := none

/-- The catalog of that table on the stream stage. -/
def overPoints : Converter where
  catalog := ⟨[pointsTable], [⟨"points", .root 0, pointsTable.fields, 1, [0], 0, pointsTable.fields⟩],
    [("points", .view 0), ("points", .base 0)]⟩
  pipeline := .streamAndDatabase
  stage := .stream "stream"
  settings := .default

theorem overPoints_built : overPoints.catalog.Built :=
  @Catalog.Built.table .empty _ pointsTable "points" 0 .empty
    (show pointsTable.time.Coherent from EventTime.coherent_none) rfl

/-- The points of the table. -/
def scannedPoints : Rel := .scan (.view 0) "points" pointsTable.fields

/-- The float that is no number. -/
def notANumber : Value := .float (.ofBits 0x7ff8000000000000)

/-- A point whose key is no number. Joined with itself it finds no partner, but the
entity keeps it. -/
theorem point_without_number_joins_itself :
    let key := [notANumber]
    let points : Fixture := ⟨[(.base 0, [key])], 0⟩
    overPoints.catalog.Built ∧ points.Conforms overPoints.catalog ∧
      points.rowsOf (.base 0) = .ok [key] ∧ (∀ v ∈ key, v.isNull = false) ∧
      ([key].Pairwise fun row other => Row.sameKey 1 row other = false) ∧
      ∃ plan l j out joined merged, overPoints.convert scannedPoints = .ok plan ∧
        plan.Pure overPoints.catalog l ∧
        JoinInputs.of plan plan .inner (.equate 0 1) = .ok j ∧
        attempt j [.auto, .inner, .left] (j.selfJoin? overPoints) = .ok (some out) ∧
        evaluate points (.join plan.rel plan.rel .inner j.condition none) = .ok joined ∧
        evaluate points out.rel = .ok merged ∧
        ¬(merged.map (Row.pick · out.select.targets)).Perm (joined.map
          (Row.pick · (plan.select.targets ++ plan.select.targets.map (plan.width + ·)))) := by
  intro key points
  obtain ⟨plan, l, j, out, hplan, hl, hnow, hkey, hpending, hj, ho, hjoined, hmerged⟩ :
      ∃ plan l j out, overPoints.convert scannedPoints = .ok plan ∧ plan.lineage = some l ∧
        .nowFunction ∉ plan.needs.required ∧ plan.key.targets = l.keys ∧ plan.hasPending = false ∧
        JoinInputs.of plan plan .inner (.equate 0 1) = .ok j ∧
        attempt j [.auto, .inner, .left] (j.selfJoin? overPoints) = .ok (some out) ∧
        evaluate points (.join plan.rel plan.rel .inner j.condition none) = .ok [] ∧
        evaluate points out.rel = .ok [key] :=
    ⟨_, _, _, _, rfl, rfl, by decide, rfl, rfl, rfl, rfl, rfl, rfl⟩
  have hpulls : overPoints.catalog.PullsNothing := by
    intro table ht
    obtain rfl := List.mem_singleton.1 ht
    rfl
  refine ⟨overPoints_built, ?_, rfl, by simp [key, notANumber, Value.isNull],
    List.pairwise_singleton _ _, plan, l, j, out, [], [key], hplan,
    pure_of_convert overPoints_built hpulls hplan hl hnow hkey hpending, hj, ho, hjoined, hmerged,
    fun hperm => absurd hperm.length_eq (by simp)⟩
  intro id table rows ht hrows row hrow
  obtain rfl : id = 0 := Nat.lt_one_iff.1 (List.getElem?_eq_some_iff.1 ht).1
  cases ht
  cases hrows
  rw [List.mem_singleton.1 hrow]
  exact Row.fits_of_flat rfl (by simp [pointsTable, Field.nested?, DataType.nested?])

end Converter

end StreamPlan
