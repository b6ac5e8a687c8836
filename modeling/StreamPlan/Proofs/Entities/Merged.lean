import StreamPlan.Proofs.Entities.Keyed
import StreamPlan.Proofs.Typing.Join

/-!
# Parts of a merged row

A left row of an entity is joined with the right rows that have the same keys
in the matched levels. The merged row holds both: the matched parts of a right
row are left ones, and the levels that the left row lacks are unrolled behind it.

* `JoinInputs.Agree`: a right row that a left row is joined with.
* `JoinInputs.Merging`: parts that are merged so far. One more right level keeps
  this, whether it is matched (`Merging.matched`) or lacking (`Merging.lacking`).
* `JoinInputs.Merging.filter_matched`, `next_of_mergeLevel`: what one more right level
  leads to.
* `JoinInputs.Merging.unroll`: **the right rows that a left row is joined with are
  the ways to go on from it** through the lacking levels, one after another.
-/

namespace StreamPlan

namespace Lineage

variable {catalog : Catalog} {base : List Row} {b i : Nat} {l : Lineage} {level : Level}
  {all : List Row}

/-- There are as many parts as levels. -/
theorem Chain.length (hc : Chain catalog b [] l) (ha : all ∈ l.unroll catalog base []) :
    l.length = all.length :=
  (hc.forall₂ (P := fun _ _ => True) (fun _ _ _ _ _ _ _ _ => trivial) .nil all ha).length_eq

/-- The levels in front of another. -/
theorem Chain.take (hc : Chain catalog b [] l) (i : Nat) : Chain catalog b [] (l.take i) :=
  (append_iff.1 ((List.take_append_drop i l).symm ▸ hc)).1

/-- The part of a level is one of its candidates, behind the parts of the levels in
front. -/
theorem Chain.part (hc : Chain catalog b [] l) (ha : all ∈ l.unroll catalog base [])
    (hi : l[i]? = some level) :
    ∃ front part more, all = front ++ part :: more ∧ front.length = i ∧
      front ∈ Lineage.unroll catalog base (l.take i) [] ∧
        part ∈ level.candidates catalog base front := by
  obtain ⟨hlt, rfl⟩ := List.getElem?_eq_some_iff.1 hi
  rw [← List.take_append_drop i l, List.drop_eq_getElem_cons hlt, unroll_append] at ha
  obtain ⟨front, hfront, ha⟩ := List.mem_flatMap.1 ha
  obtain ⟨part, hpart, ha⟩ := List.mem_flatMap.1 ha
  obtain ⟨more, rfl⟩ := front_of_unroll ha
  have hlen := (hc.take i).length hfront
  rw [List.length_take_of_le (Nat.le_of_lt hlt)] at hlen
  exact ⟨front, part, more, by rw [List.append_assoc, List.singleton_append], hlen.symm, hfront,
    hpart⟩

end Lineage

namespace JoinInputs

variable {c : Converter} {base : List Row} {b b' : Nat} {left right before rest new : Lineage}
  {matching : Lineage.Matching} {equalities : List (Nat × Nat)} {views : List Nat}
  {state next merged : Merged} {lefts rights both front : List Row}

/-- A right row that a left row is joined with: the keys of matched levels are equal. -/
def Agree (right : Lineage) (matching : Lineage.Matching) (lefts rights : List Row) : Prop :=
  ∀ (i t : Nat) (level : Level) (part other : Row), matching.lookup i = some t →
    right[i]? = some level → lefts[t]? = some part → rights[i]? = some other →
    part.sameKey level.keys other = true

/-- Parts that are merged so far: behind the left parts there are those of levels
that the left row lacks, and every right part stands where its level does. -/
structure Merging (right : Lineage) (matching : Lineage.Matching) (lefts : List Row)
    (state : Merged) (rights both : List Row) : Prop where
  front : ∃ more, both = lefts ++ more
  length : both.length = state.lineage.length
  stands : ∀ pair ∈ state.matching, Lineage.Stands state.lineage right pair
  kept : ∀ i t, matching.lookup i = some t → state.matching.lookup i = some t
  fresh : ∀ i, rights.length ≤ i → matching.lookup i = none → state.matching.lookup i = none
  standIn : ∀ (i : Nat) (part : Row), rights[i]? = some part →
    ∃ t, state.matching.lookup i = some t ∧ both[t]? = some part

namespace Merging

/-- With no right parts merged yet, the left parts are the merged ones. -/
theorem start {rel : Rel} {needs : Requirements} (hlen : lefts.length = left.length)
    (hstands : ∀ pair ∈ matching, Lineage.Stands left right pair) :
    Merging right matching lefts ⟨rel, left, matching, needs, []⟩ [] lefts :=
  ⟨⟨[], (List.append_nil _).symm⟩, hlen, hstands, fun _ _ ht => ht, fun _ _ ht => ht, by simp⟩

/-- A left part is one of the merged parts. -/
theorem getElem? (h : Merging right matching lefts state rights both) {t : Nat} {part : Row}
    (ht : lefts[t]? = some part) : both[t]? = some part := by
  obtain ⟨more, rfl⟩ := h.front
  exact Catalog.getElem?_append_some ht

/-- A right part that is matched is a left part. -/
theorem part_of_lookup (h : Merging right matching lefts state rights both) {i t : Nat} {part : Row}
    (hi : rights[i]? = some part) (ht : matching.lookup i = some t) : both[t]? = some part := by
  obtain ⟨t', ht', hpart⟩ := h.standIn i part hi
  obtain rfl := Option.some.inj ((h.kept i t ht).symm.trans ht')
  exact hpart

/-- **One more right level that is matched**: its part is a left one. -/
theorem matched (h : Merging right matching lefts state rights both) {t : Nat} {part : Row}
    (ht : matching.lookup rights.length = some t) (hp : lefts[t]? = some part) :
    Merging right matching lefts state (rights ++ [part]) both := by
  refine ⟨h.front, h.length, h.stands, h.kept, fun i hi => h.fresh i ?_, fun i other hi => ?_⟩
  · rw [List.length_append] at hi
    omega
  · rcases Catalog.getElem?_concat_cases hi with hi | ⟨rfl, rfl⟩
    · exact h.standIn i other hi
    · exact ⟨t, h.kept _ t ht, h.getElem? hp⟩

/-- **One more right level that is lacking**: its part comes last. -/
theorem lacking (h : Merging right matching lefts state rights both) {level : Level}
    (hnone : matching.lookup rights.length = none)
    (hlineage : next.lineage = state.lineage ++ [level])
    (hmatching : next.matching = state.matching ++ [(rights.length, state.lineage.length)])
    (hstands : ∀ pair ∈ next.matching, Lineage.Stands next.lineage right pair) (part : Row) :
    Merging right matching lefts next (rights ++ [part]) (both ++ [part]) := by
  have hnew : state.matching.lookup rights.length = none := h.fresh _ (Nat.le_refl _) hnone
  obtain ⟨more, hboth⟩ := h.front
  refine ⟨⟨more ++ [part], by rw [hboth, List.append_assoc]⟩, by simp [h.length, hlineage], hstands,
    fun i t hi => ?_, fun i hi hn => ?_, fun i other hi => ?_⟩
  · rw [hmatching]
    exact lookup_append_some (h.kept i t hi)
  · rw [List.length_append, List.length_singleton] at hi
    have hne : (i == rights.length) = false := beq_eq_false_iff_ne.2 (by omega)
    rw [hmatching, List.lookup_append, h.fresh i (by omega) hn, Option.none_or, List.lookup_cons, hne]
    rfl
  · rw [hmatching]
    rcases Catalog.getElem?_concat_cases hi with hi | ⟨rfl, rfl⟩
    · obtain ⟨t, ht, hpart⟩ := h.standIn i other hi
      exact ⟨t, lookup_append_some ht, Catalog.getElem?_append_some hpart⟩
    · exact ⟨state.lineage.length, lookup_concat hnew, h.length ▸ List.getElem?_concat_length⟩

/-- Merged parts agree, where keys equal themselves. -/
theorem agree (h : Merging right matching lefts state rights both)
    (hlefts : List.Forall₂ (Level.KeyedPart c.catalog views) left lefts)
    (hpairs : ∀ i t, matching.lookup i = some t →
      ∃ l r, Lineage.Pairs left right equalities matching i t l r)
    (hkeys : ∀ level ∈ right, ∃ view, c.catalog.views[level.view]? = some view ∧
      level.keys = view.ownKeys) : Agree right matching lefts rights := by
  intro i t level part other ht hlevel hpart hother
  obtain ⟨l, r, hp⟩ := hpairs i t ht
  obtain rfl := Option.some.inj (hp.right.symm.trans hlevel)
  -- a matched right part is the left part itself
  obtain rfl := Option.some.inj ((h.part_of_lookup hother ht).symm.trans (h.getElem? hpart))
  obtain ⟨view, hv, hk⟩ := hkeys r (List.mem_of_getElem? hlevel)
  obtain ⟨hlt, hl⟩ := List.getElem?_eq_some_iff.1 hp.left
  obtain ⟨hlt', hp'⟩ := List.getElem?_eq_some_iff.1 hpart
  have hkeyed := (List.forall₂_iff_get.1 hlefts).2 t hlt hlt'
  simp only [List.get_eq_getElem, hl, hp'] at hkeyed
  rw [hk]
  exact hkeyed.own (hp.view ▸ hv)

/-- The candidates of a matched level are those of the level that stands for it. -/
theorem candidates_matched (h : Merging right matching lefts state rights both) {i t : Nat}
    {l r : Level} (hp : Lineage.Pairs left right equalities matching i t l r)
    (hl : l.Follows c.catalog b (left.take t)) (hr : r.Follows c.catalog b before)
    (hbefore : before.length = rights.length) (hfront : front.length = t) {more : List Row}
    (hlefts : lefts = front ++ more) :
    r.candidates c.catalog base rights = l.candidates c.catalog base front := by
  have hplace := hp.parent
  cases hr with
  | root _ hparent _ _ _ =>
    rw [Lineage.placeOf, hparent] at hplace
    rw [Level.candidates_none (Level.collection?_root hparent),
      Level.candidates_none (Level.collection?_root (Option.some.inj hplace).symm)]
  | @below p column above view hparent habove hv hchild _ =>
    rw [Lineage.placeOf, hparent] at hplace
    obtain ⟨q, hq, hlp⟩ := Option.map_eq_some_iff.1 hplace
    rw [Level.candidates_some (Level.collection?_below hparent hv hchild),
      Level.candidates_some (Level.collection?_below hlp.symm (hp.view ▸ hv) hchild)]
    cases hl with
    | root _ hnone _ _ _ => rw [hnone] at hlp; cases hlp
    | @below q' _ above' _ hq' hbelow _ _ _ =>
      obtain rfl := Option.some.inj (hlp.trans hq')
      -- the part above is one and the same
      have hlt : p < rights.length := hbefore ▸ (List.getElem?_eq_some_iff.1 habove).1
      have hlt' : q < front.length := by
        have := (List.getElem?_eq_some_iff.1 hbelow).1
        rw [List.length_take] at this
        omega
      have hboth := h.part_of_lookup (List.getElem?_eq_getElem hlt) hq
      have hup : both[q]? = some front[q] := h.getElem? (by
        rw [hlefts, List.getElem?_append_left hlt', List.getElem?_eq_getElem hlt'])
      rw [List.getD_eq_getElem?_getD, List.getD_eq_getElem?_getD, List.getElem?_eq_getElem hlt,
        List.getElem?_eq_getElem hlt', Option.some.inj (hboth.symm.trans hup)]

/-- The part above a lacking level is the one above its place in the merged row. -/
theorem above_of_lookup (h : Merging right matching lefts state rights both) {level : Level}
    {p q : Nat} (hlevel : level.Follows c.catalog b before) (hbefore : before.length = rights.length)
    (hparent : level.parent = some p) (hq : state.matching.lookup p = some q) :
    both.getD q [] = rights.getD p [] := by
  cases hlevel with
  | root _ hnone _ _ _ => rw [hnone] at hparent; cases hparent
  | below hparent' habove _ _ _ =>
    obtain rfl := Option.some.inj (hparent.symm.trans hparent')
    have hlt := hbefore ▸ (List.getElem?_eq_some_iff.1 habove).1
    obtain ⟨t, ht, hpart⟩ := h.standIn p _ (List.getElem?_eq_getElem hlt)
    obtain rfl := Option.some.inj (hq.symm.trans ht)
    rw [List.getD_eq_getElem?_getD, List.getD_eq_getElem?_getD, hpart, List.getElem?_eq_getElem hlt]

/-- The part of a matched level is a left one. The other candidates have other keys. -/
theorem part_of_matched {fixture : Fixture} (h : Merging right matching lefts state rights both)
    (hk : fixture.Keyed c.catalog views) (hbase : fixture.rowsOf (.base b) = .ok base)
    (hleft : Lineage.Chain c.catalog b [] left) (hviews : ∀ level ∈ left, level.view ∈ views)
    (hlefts : lefts ∈ left.unroll c.catalog base []) {i t : Nat} {l r : Level}
    (hp : Lineage.Pairs left right equalities matching i t l r)
    (hr : r.Follows c.catalog b before) (hbefore : before.length = rights.length) :
    ∃ part, lefts[t]? = some part ∧ part ∈ r.candidates c.catalog base rights ∧
      (r.candidates c.catalog base rights).Pairwise fun a b => a.sameKey r.keys b = false := by
  obtain ⟨front, part, more, hsplit, hlen, hfront, hpart⟩ := hleft.part hlefts hp.left
  have hl := hleft.follows hp.left
  rw [h.candidates_matched hp hl hr hbefore hlen hsplit]
  have hkeyed := (hleft.take t).keyed hk hbase
    (fun level hmem => hviews level (List.mem_of_mem_take hmem)) .nil front hfront
  rw [← hl.keys_eq hr hp.view]
  refine ⟨part, ?_, hpart, (hl.distinct hk hbase (hviews l (List.mem_of_getElem? hp.left)) hkeyed).1⟩
  rw [hsplit, List.getElem?_append_right (by omega), hlen, Nat.sub_self]
  rfl

/-- **A matched level** goes on through the left part alone. -/
theorem filter_matched {fixture : Fixture} {level : Level} {keep : List Row → Bool}
    (h : Merging right matching lefts state rights both)
    (hk : fixture.Keyed c.catalog views) (hbase : fixture.rowsOf (.base b) = .ok base)
    (hleft : Lineage.Chain c.catalog b [] left) (hviews : ∀ level ∈ left, level.view ∈ views)
    (hlefts : lefts ∈ left.unroll c.catalog base []) {t : Nat} {l : Level}
    (ht : matching.lookup before.length = some t)
    (hp : Lineage.Pairs left right equalities matching before.length t l level)
    (hlevel : level.Follows c.catalog b before) (hlen : before.length = rights.length)
    (hkeep : ∀ part ∈ level.candidates c.catalog base rights,
      ∀ all ∈ rest.unroll c.catalog base (rights ++ [part]),
        keep all = true → Agree right matching lefts all) :
    ∃ part ∈ level.candidates c.catalog base rights, lefts[t]? = some part ∧
      (Lineage.unroll c.catalog base (level :: rest) rights).filter keep
        = (rest.unroll c.catalog base (rights ++ [part])).filter keep := by
  obtain ⟨part, hpart, hmem, hdistinct⟩ :=
    h.part_of_matched hk hbase hleft hviews hlefts hp hlevel hlen
  refine ⟨part, hmem, hpart, ?_⟩
  rw [Lineage.unroll, List.filter_flatMap]
  refine Row.flatMap_of_distinct hdistinct hmem fun other hother hne => ?_
  -- whatever goes on through another candidate does not agree on this key
  refine List.filter_eq_nil_iff.2 fun all hall hkept => ?_
  obtain ⟨more, rfl⟩ := Lineage.front_of_unroll hall
  have hsame :=
    hkeep other hother _ hall hkept _ t level part other ht hp.right hpart (by simp [hlen])
  rw [hne] at hsame
  cases hsame

/-- **A lacking level** is unrolled behind the merged parts. Its collection is the one on
the right, so both go on with the same parts. -/
theorem next_of_mergeLevel {level : Level} {width : Nat}
    (h : Merging right matching lefts state rights both) (hlinked : right.Linked c.catalog width)
    (hat : right[before.length]? = some level) (hlevel : level.Follows c.catalog b before)
    (hlen : before.length = rights.length) (hnone : matching.lookup before.length = none)
    (hm : mergeLevel c state level before.length = .ok (some next)) :
    ∃ added, next.lineage = state.lineage ++ [added] ∧
      added.candidates c.catalog base both = level.candidates c.catalog base rights ∧
      (level.Opens c.catalog rights → added.Opens c.catalog both) ∧
      ∀ part, Merging right matching lefts next (rights ++ [part]) (both ++ [part]) := by
  obtain ⟨p, q, view, column, above, hparent, hq, hv, habove, hplace, -, hlineage, hmatching, -, -,
    hstands⟩ := mergeLevel_below hlinked hat h.stands hm
  have hcoll : level.collection? c.catalog = some (p, column) :=
    Level.collection?_below hparent hv hplace
  have hcoll' : Level.collection? c.catalog ⟨level.view, some q, .inner, state.rel.width,
      view.levelFields.length, view.ownKeys⟩ = some (q, column) :=
    Level.collection?_below rfl hv hplace
  have hup := h.above_of_lookup hlevel hlen hparent hq
  refine ⟨_, hlineage, ?_, fun hopens => ?_, fun part =>
    h.lacking (hlen ▸ hnone) hlineage (hlen ▸ hmatching) hstands part⟩
  · rw [Level.candidates_some hcoll, Level.candidates_some hcoll', hup]
  · intro q' column' hother
    obtain ⟨rfl, rfl⟩ := Prod.mk.inj (Option.some.inj (hcoll'.symm.trans hother))
    exact hup ▸ hopens p column hcoll

end Merging

/-- The matched levels of entities are over one base table. -/
theorem base_of_matched (hl : Lineage.Chain c.catalog b [] left)
    (hr : Lineage.Chain c.catalog b' [] right)
    (hpairs : ∀ i t, matching.lookup i = some t →
      ∃ l r, Lineage.Pairs left right equalities matching i t l r)
    (hroots : ∀ i r, right[i]? = some r → r.parent = none → ∃ t, matching.lookup i = some t)
    (hne : right ≠ []) : b' = b := by
  obtain ⟨r, rest, rfl⟩ := List.exists_cons_of_ne_nil hne
  obtain ⟨⟩ | ⟨⟨_, hparent, hv, hplace, -⟩ | ⟨-, hnone, -⟩, -⟩ := hr
  · obtain ⟨t, ht⟩ := hroots 0 r rfl hparent
    obtain ⟨l, r', hp⟩ := hpairs 0 t ht
    obtain rfl := Option.some.inj hp.right
    have hlp := hp.parent
    rw [Lineage.placeOf, hparent] at hlp
    cases hl.follows hp.left with
    | root _ _ hv' hplace' _ =>
      rw [hp.view] at hv'
      obtain rfl := Option.some.inj (hv.symm.trans hv')
      rw [hplace] at hplace'
      cases hplace'
      rfl
    | below hq _ _ _ _ => rw [hq] at hlp; cases hlp
  · cases hnone

theorem lackingLevels_of_some {position t : Nat} {level : Level}
    (h : matching.lookup position = some t) :
    lackingLevels matching position (level :: rest) = lackingLevels matching (position + 1) rest := by
  rw [lackingLevels, List.zipIdx_cons, List.filter_cons_of_neg (by simp [h]), lackingLevels]

theorem lackingLevels_of_none {position : Nat} {level : Level} (h : matching.lookup position = none) :
    lackingLevels matching position (level :: rest)
      = (level, position) :: lackingLevels matching (position + 1) rest := by
  rw [lackingLevels, List.zipIdx_cons, List.filter_cons_of_pos (by simp [h]), lackingLevels]

/-- Lacking levels come behind the levels of the left row. -/
theorem lineage_of_mergeLevels {levels : List (Level × Nat)}
    (h : mergeLevels c state levels = .ok (some merged)) :
    ∃ new, merged.lineage = state.lineage ++ new := by
  refine mergeLevels_keeps (I := fun next => ∃ new, next.lineage = state.lineage ++ new) ?_
    ⟨[], (List.append_nil _).symm⟩ h
  rintro before next level - ⟨new, hnew⟩ hnext
  obtain ⟨p, parent, view, q, column, above, -, -, -, -, -, -, hlineage, -⟩ := mergeLevel_eq_ok hnext
  exact ⟨new ++ [_], by rw [hlineage, hnew, List.append_assoc]⟩

section Rows

variable {fixture : Fixture} {width : Nat} {keep : List Row → Bool}
  (hk : fixture.Keyed c.catalog views) (hbase : fixture.rowsOf (.base b) = .ok base)
  (hleft : Lineage.Chain c.catalog b [] left) (hviews : ∀ level ∈ left, level.view ∈ views)
  (hlefts : lefts ∈ left.unroll c.catalog base []) (hlinked : right.Linked c.catalog width)
  (hpairs : ∀ i t, matching.lookup i = some t →
    ∃ l r, Lineage.Pairs left right equalities matching i t l r)
  (hkeys : ∀ level ∈ right, ∃ view, c.catalog.views[level.view]? = some view ∧
    level.keys = view.ownKeys)
include hk hbase hleft hviews hlefts hlinked hpairs hkeys

/-- **The right rows that a left row is joined with** are the ways to go on from it
through the levels that it lacks, one after another. -/
theorem Merging.unroll (hc : Lineage.Chain c.catalog b before rest) (hright : right = before ++ rest)
    (hlen : before.length = rights.length) (h : Merging right matching lefts state rights both)
    (hm : mergeLevels c state (lackingLevels matching before.length rest) = .ok (some merged))
    (hnew : merged.lineage = state.lineage ++ new)
    (hopen : rest.Unrollable c.catalog base rights)
    (hkeep : ∀ all ∈ rest.unroll c.catalog base rights,
      (keep all = true ↔ Agree right matching lefts all)) :
    new.Unrollable c.catalog base both ∧
      List.Forall₂ (Merging right matching lefts merged)
        ((rest.unroll c.catalog base rights).filter keep) (new.unroll c.catalog base both) := by
  -- along the right levels; what is merged so far carries the argument
  induction hc generalizing state rights both new with
  | nil =>
    cases hm
    obtain rfl : new = [] := List.self_eq_append_right.1 hnew
    have hkeyed := hleft.keyed hk hbase hviews .nil lefts hlefts
    have hagree : keep rights = true := (hkeep rights (List.mem_singleton.2 rfl)).2
      (h.agree hkeyed hpairs hkeys)
    refine ⟨trivial, ?_⟩
    rw [Lineage.unroll, List.filter_cons_of_pos hagree]
    exact .cons h .nil
  | @cons before rest level hlevel hrest ih =>
    obtain ⟨hopens, hopen⟩ := hopen
    have hat : right[before.length]? = some level := by rw [hright]; simp
    have hright' : right = before ++ [level] ++ rest := by rw [hright, List.append_assoc]; rfl
    have hlen' : ∀ part : Row, before.length + 1 = (rights ++ [part]).length := fun part => by
      rw [List.length_append, List.length_singleton, hlen]
    have hmore : ∀ part ∈ level.candidates c.catalog base rights,
        ∀ all ∈ rest.unroll c.catalog base (rights ++ [part]),
          (keep all = true ↔ Agree right matching lefts all) := fun part hpart all ha =>
      hkeep all (List.mem_flatMap.2 ⟨part, hpart, ha⟩)
    rw [List.length_append, List.length_singleton] at ih
    cases hlookup : matching.lookup before.length with
    | some t =>
      obtain ⟨l, r, hp⟩ := hpairs _ t hlookup
      obtain rfl := Option.some.inj (hp.right.symm.trans hat)
      obtain ⟨part, hpart, ht, hfilter⟩ := h.filter_matched hk hbase hleft hviews hlefts hlookup hp
        hlevel hlen fun part hpart all ha => (hmore part hpart all ha).1
      rw [lackingLevels_of_some hlookup] at hm
      rw [hfilter]
      exact ih hright' (hlen' part) (h.matched (hlen ▸ hlookup) ht) hm hnew (hopen part hpart)
        (hmore part hpart)
    | none =>
      rw [lackingLevels_of_none hlookup] at hm
      obtain ⟨o, ho, hm⟩ := bind_eq_ok.1 hm
      rcases o with _ | next
      · cases hm
      obtain ⟨added, hlineage, hcand, hopens', hnext⟩ :=
        h.next_of_mergeLevel hlinked hat hlevel hlen hlookup ho
      obtain ⟨new', hnew'⟩ := lineage_of_mergeLevels hm
      obtain rfl : new = added :: new' := by
        rw [hnew', hlineage, List.append_assoc] at hnew
        exact (List.append_cancel_left hnew).symm
      have hstep := fun part hpart =>
        ih hright' (hlen' part) (hnext part) hm hnew' (hopen part hpart) (hmore part hpart)
      refine ⟨⟨hopens' hopens, fun part hpart => (hstep part (hcand ▸ hpart)).1⟩, ?_⟩
      rw [Lineage.unroll, Lineage.unroll, List.filter_flatMap, hcand]
      exact List.rel_flatMap (R := fun part other => part = other ∧
          part ∈ level.candidates c.catalog base rights)
        (List.forall₂_same.2 fun part hpart => ⟨rfl, hpart⟩)
        (by rintro part _ ⟨rfl, hpart⟩; exact (hstep part hpart).2)

end Rows

end JoinInputs

end StreamPlan
