import Mathlib.Data.List.Pairwise
import StreamPlan.Proofs.Entities.Drawn
import StreamPlan.Proofs.Entities.SelfJoin

/-!
# Pairs of rows of an entity

The plan that takes the place of an entity joined with itself goes on from left rows
alone. Every pair of rows that the condition is true of is still there, as one merged
row, wherever rows or elements with equal keys are the same. This asks nothing of keys
that do not equal themselves, and nothing of dropped rows: the left rows and the right
ones may be any that are drawn from the entity.

* `Fixture.Distinguishes`: what a level takes, its key tells apart.
* `JoinInputs.Merging.goes_on`: **a right row that a left row agrees with** is merged
  with it, level by level.
* `JoinInputs.row_of_selfJoin`: **a pair that the condition is true of** is shown by a
  row of the plan that takes the place of the join.
-/

namespace StreamPlan

variable {catalog : Catalog} {fixture : Fixture} {base : List Row} {b : Nat} {l : Lineage}

/-- Where a level takes one of several rows, those with equal keys are the same: the rows
of the base table, and the elements of one collection. -/
def Fixture.Distinguishes (fixture : Fixture) (catalog : Catalog) (l : Lineage) : Prop :=
  ∀ b base, Lineage.Chain catalog b [] l → fixture.rowsOf (.base b) = .ok base →
    ∀ (i : Nat) (level : Level) (parts : List Row), l[i]? = some level →
      parts ∈ Lineage.unroll catalog base (l.take i) [] →
      ∀ row ∈ level.candidates catalog base parts, ∀ other ∈ level.candidates catalog base parts,
        row.sameKey level.keys other = true → row = other

/-- Keys that tell rows apart are different for different rows. -/
theorem Fixture.Tells.distinguishes {inViews : Nat → Prop}
    (hk : fixture.Tells Value.Unequal catalog inViews) (hmem : ∀ level ∈ l, inViews level.view) :
    fixture.Distinguishes catalog l := by
  intro b base hl hbase i level parts hi hparts row hrow other hother hsame
  have hbefore := (hl.take i).forall₂ (P := Level.TellsPart Value.Unequal catalog inViews)
    (fun _ _ level hlevel hfollows hparts => (hfollows.tells hk hbase
      (hmem level (List.mem_of_mem_take hlevel)) hparts).2) .nil parts hparts
  obtain ⟨hdiffer, -⟩ :=
    (hl.follows hi).tells hk hbase (hmem level (List.mem_of_getElem? hi)) hbefore
  have hdistinct : (level.candidates catalog base parts).Pairwise fun a b =>
      a.sameKey level.keys b = false := hdiffer.imp Row.sameOn_eq_false.2
  have : Std.Symm fun a b : Row => a.sameKey level.keys b = false :=
    ⟨fun a b hab => Row.sameKey_comm _ a b ▸ hab⟩
  by_contra hne
  exact Bool.false_ne_true ((hdistinct.forall hrow hother hne).symm.trans hsame)

namespace JoinInputs

variable {c : Converter} {left right before rest : Lineage} {matching : Lineage.Matching}
  {equalities : List (Nat × Nat)} {state merged : Merged} {lefts rights both all : List Row}

/-- Wherever the tree that is merged so far has rows, the merged parts are one of them. -/
def Merged.Holds (fixture : Fixture) (state : Merged) (both : List Row) : Prop :=
  ∀ rows, evaluate fixture state.rel = .ok rows → both.flatten ∈ rows

section Base

variable (hbase : fixture.rowsOf (.base b) = .ok base)
include hbase

/-- **The part of a matched level** is the left one if their keys are equal. -/
theorem Merging.left_of_sameKey (h : Merging right matching lefts state rights both)
    (hk : fixture.Distinguishes c.catalog left) (hleft : Lineage.Chain c.catalog b [] left)
    (hlefts : lefts ∈ left.unroll c.catalog base []) {t : Nat} {l r : Level}
    (hp : Lineage.Pairs left right equalities matching before.length t l r)
    (hr : r.Follows c.catalog b before) (hlen : before.length = rights.length) {part : Row}
    (hpart : part ∈ r.candidates c.catalog base rights)
    (hsame : ∀ other, lefts[t]? = some other → other.sameKey r.keys part = true) :
    lefts[t]? = some part := by
  obtain ⟨front, other, more, hsplit, hfront, hunrolled, hother⟩ := hleft.part hlefts hp.left
  have hl := hleft.follows hp.left
  have hat : lefts[t]? = some other := by
    rw [hsplit, ← hfront, List.getElem?_append_right (Nat.le_refl _), Nat.sub_self]
    rfl
  rw [h.candidates_matched hp hl hr hlen hfront hsplit] at hpart
  rw [hat, hk b base hleft hbase t l front hp.left hunrolled other hother part hpart
    (hl.keys_eq hr hp.view ▸ hsame other hat)]

variable (hc : c.catalog.Linked) (hf : fixture.Conforms c.catalog)
include hc hf

/-- **A lacking level** is unrolled behind what is merged so far. -/
theorem Merged.Holds.next {next : Merged} {level added : Level} {part : Row}
    {width position : Nat}
    (h : state.Holds fixture both) (hlinked : right.Linked c.catalog width)
    (hat : right[position]? = some level)
    (hstands : ∀ pair ∈ state.matching, Lineage.Stands state.lineage right pair)
    (hdrawn : Drawn c.catalog state.lineage state.rel)
    (hchain : Lineage.Chain c.catalog b [] state.lineage)
    (hboth : both ∈ state.lineage.unroll c.catalog base [])
    (hm : mergeLevel c state level position = .ok (some next))
    (hadded : next.lineage = state.lineage ++ [added])
    (hpart : part ∈ added.candidates c.catalog base both) :
    next.Holds fixture (both ++ [part]) := by
  obtain ⟨p, q, view, column, above, -, -, hv, habove, hplace, hrel, hlineage, -⟩ :=
    mergeLevel_below hlinked hat hstands hm
  have hcoll : Level.collection? c.catalog ⟨level.view, some q, .inner, state.rel.width,
      view.levelFields.length, view.ownKeys⟩ = some (q, column) :=
    Level.collection?_below rfl hv hplace
  obtain rfl := List.singleton_inj.1 (List.append_cancel_left (hadded.symm.trans hlineage))
  rw [Level.candidates_some hcoll] at hpart
  intro rows hrows
  rw [hrel] at hrows
  obtain ⟨below, hbelow, -, rfl⟩ := evaluate_unnest.1 hrows
  refine List.mem_flatMap.2 ⟨_, h below hbelow, ?_⟩
  have hcell := hdrawn.cell hc hf hbase hchain habove hv hplace both hboth
  rw [Row.unnested, Row.elementsAt_congr hcell, List.flatten_concat]
  exact List.mem_map_of_mem hpart

/-- **A right row that a left row agrees with** is merged with it. -/
theorem Merging.goes_on {width : Nat} (hk : fixture.Distinguishes c.catalog left)
    (hleft : Lineage.Chain c.catalog b [] left) (hlefts : lefts ∈ left.unroll c.catalog base [])
    (hlinked : right.Linked c.catalog width)
    (hpairs : ∀ i t, matching.lookup i = some t →
      ∃ l r, Lineage.Pairs left right equalities matching i t l r)
    (hagree : Agree right matching lefts all) (hrest : Lineage.Chain c.catalog b before rest)
    (hright : right = before ++ rest) (hlen : before.length = rights.length)
    (hall : all ∈ rest.unroll c.catalog base rights)
    (h : Merging right matching lefts state rights both)
    (hm : mergeLevels c state (lackingLevels matching before.length rest) = .ok (some merged))
    (hdrawn : Drawn c.catalog state.lineage state.rel)
    (hchain : Lineage.Chain c.catalog b [] merged.lineage)
    (hboth : both ∈ state.lineage.unroll c.catalog base []) (hholds : state.Holds fixture both) :
    ∃ both, Merging right matching lefts merged all both ∧
      both ∈ merged.lineage.unroll c.catalog base [] ∧ merged.Holds fixture both := by
  -- along the right levels; the merged parts are a row of the tree that is merged so far
  induction hrest generalizing state rights both with
  | nil =>
    cases hm
    obtain rfl := List.mem_singleton.1 hall
    exact ⟨both, h, hboth, hholds⟩
  | @cons before rest level hlevel hrest ih =>
    obtain ⟨part, hpart, hmore⟩ := List.mem_flatMap.1 hall
    have hat : right[before.length]? = some level := by rw [hright]; simp
    have hright' : right = before ++ [level] ++ rest := by rw [hright, List.append_assoc]; rfl
    have hlen' : (before ++ [level]).length = (rights ++ [part]).length := by simp [hlen]
    have hpos : (before ++ [level]).length = before.length + 1 := by simp
    cases hlookup : matching.lookup before.length with
    | some t =>
      -- a matched level shows its part already: it is that of the left row
      obtain ⟨l, r, hp⟩ := hpairs _ t hlookup
      obtain rfl := Option.some.inj (hp.right.symm.trans hat)
      have hpart' : lefts[t]? = some part := by
        refine h.left_of_sameKey hbase hk hleft hlefts hp hlevel hlen hpart fun other hother => ?_
        obtain ⟨more, rfl⟩ := Lineage.front_of_unroll hmore
        exact hagree _ t r other part hlookup hat hother (by simp [hlen])
      rw [lackingLevels_of_some hlookup, ← hpos] at hm
      exact ih hright' hlen' hmore (h.matched (hlen ▸ hlookup) hpart') hm hdrawn hboth hholds
    | none =>
      -- a level that the left row lacks is unrolled, and one of the new rows shows the part
      rw [lackingLevels_of_none hlookup] at hm
      obtain ⟨o, ho, hm⟩ := bind_eq_ok.1 hm
      rcases o with _ | next
      · cases hm
      obtain ⟨added, hlineage, hcandidates, -, hnext⟩ :=
        h.next_of_mergeLevel hlinked hat hlevel hlen hlookup ho
      obtain ⟨new, hnew⟩ := lineage_of_mergeLevels hm
      have hstate : Lineage.Chain c.catalog b [] state.lineage := by
        rw [hnew, hlineage, List.append_assoc] at hchain
        exact (Lineage.Chain.append_iff.1 hchain).1
      have hadded : part ∈ added.candidates c.catalog base both := hcandidates ▸ hpart
      have hdrawn' : Drawn c.catalog next.lineage next.rel := by
        obtain ⟨p, q, view, column, above, -, -, hv, habove, hplace, hrel, hlineage, -⟩ :=
          mergeLevel_below hlinked hat h.stands ho
        rw [hrel, hlineage]
        exact hdrawn.level habove hv hplace
      rw [← hpos] at hm
      refine ih hright' hlen' hmore (hnext part) hm hdrawn' ?_
        (hholds.next hbase hc hf hlinked hat h.stands hdrawn hstate hboth ho hlineage hadded)
      rw [hlineage]
      exact Lineage.mem_unroll_concat.2 ⟨both, hboth, part, hadded, rfl⟩

end Base

/-- **A pair of rows that the condition is true of** is shown by a row of the plan that
takes the place of an entity joined with itself. -/
theorem row_of_selfJoin {leftPlan rightPlan out : Plan} {kind : JoinKind} {condition : Expr}
    {j : JoinInputs} {ls rs above : List Row} {x y : Row} (hc : c.catalog.Linked)
    (hf : fixture.Conforms c.catalog)
    (hl : Converter.Traced (Drawn c.catalog) leftPlan)
    (hr : Converter.Traced (Drawn c.catalog) rightPlan) (hs : leftPlan.Sound)
    (hj : of leftPlan rightPlan kind condition = .ok j) (ho : j.selfJoin? c = .ok (some out))
    (hk : ∀ l, leftPlan.lineage = some l → fixture.Distinguishes c.catalog l)
    (hls : evaluate fixture leftPlan.rel = .ok ls) (hrs : evaluate fixture rightPlan.rel = .ok rs)
    (habove : evaluate fixture out.rel = .ok above) (hx : x ∈ ls) (hy : y ∈ rs)
    (htrue : trueOn fixture.now j.condition (x ++ y) = true) :
    ∃ row ∈ above, row.pick out.select.targets = Row.pick (x ++ y)
      (leftPlan.select.targets ++ rightPlan.select.targets.map (leftPlan.width + ·)) := by
  obtain ⟨rfl, rfl, rfl, -, hparts⟩ := of_eq_ok hj
  obtain ⟨l, r, matching, hleft, hright, hmay, hmatch, hplan⟩ := selfJoin?_eq_ok ho
  obtain ⟨merged, shown, select, key, -, hmerged, hshown, hselect, -, rfl⟩ := mergedPlan_eq_ok hplan
  have hl := hl l hleft
  have hr := hr r hright
  have hlinked := hr.linked hc
  have hstands := Lineage.match?_stands hmatch
  obtain ⟨⟨_, hmatched, -⟩, hroots⟩ := Lineage.match?_matched hmatch
  have hdrawn := Converter.drawn_of_mergeLevels hlinked
    (fun level hmem => (mem_lackingLevels.1 hmem).1) hl hstands hmerged
  -- both sides and the merged row are over one base table
  obtain ⟨b, hchain⟩ := hdrawn.chain
  obtain ⟨new, hnew⟩ := lineage_of_mergeLevels hmerged
  have hchainL : Lineage.Chain c.catalog b [] l := (Lineage.Chain.append_iff.1 (hnew ▸ hchain)).1
  obtain ⟨b', hchainR⟩ := hr.chain
  obtain rfl := base_of_matched hchainL hchainR hmatched.pairs hroots hr.ne_nil
  obtain ⟨base, hbase, hpartsL⟩ := hl.parts hc hf hchainL hls
  obtain ⟨base', hbase', hpartsR⟩ := hr.parts hc hf hchainR hrs
  obtain rfl : base = base' := Except.ok.inj (hbase.symm.trans hbase')
  obtain ⟨lefts, hlefts, rfl⟩ := hpartsL x hx
  obtain ⟨rights, hrights, rfl⟩ := hpartsR y hy
  obtain ⟨hlaidL, hwidth⟩ := hl.laid hc hf hbase hchainL lefts hlefts
  obtain ⟨hlaidR, -⟩ := hr.laid hc hf hbase hchainR rights hrights
  have hlenR := hchainR.length hrights
  have hagree : Agree r matching lefts rights := (condition_iff_agree hchainL hchainR
    (hl.keys_le hc) (hr.keys_le hc) hlaidL hlaidR (hchainL.length hlefts) hlenR hparts
    (settled_of_mayMerge hmay).2.2 hmatch hwidth).2.1 htrue
  have hstart : Merging r matching lefts ⟨j.left.rel, l, matching, j.needs, []⟩ [] lefts :=
    .start (hchainL.length hlefts).symm hstands
  have hholds : Merged.Holds fixture ⟨j.left.rel, l, matching, j.needs, []⟩ lefts := by
    intro rows hrows
    rwa [← Except.ok.inj (hls.symm.trans hrows)]
  obtain ⟨both, hmerging, hboth, hheld⟩ := hstart.goes_on hbase hc hf (hk l hleft) hchainL hlefts
    hlinked hmatched.pairs hagree hchainR rfl rfl hrights hmerged hl hchain hlefts hholds
  refine ⟨_, hheld above habove, ?_⟩
  rw [hselect, hmerging.pick hlaidR (hdrawn.laid hc hf hbase hchain both hboth).1 hlenR
    (fun t ht => hwidth ▸ hs.select_lt t ht) hshown, hwidth]
  rfl

end JoinInputs

end StreamPlan
