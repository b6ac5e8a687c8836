import Mathlib.Data.List.Nodup
import StreamPlan.Proofs.Catalog.Linked
import StreamPlan.Proofs.Lineage

/-!
# Equalities determine a matching

Levels are matched greedily: in order, each to the first level that is not
taken and can stand for it. Still nothing is missed. The columns of levels do
not overlap, so an equality belongs to one pair of levels; and as every key has
a column, a level that can stand for another one must.

* `Lineage.Grown`, `Lineage.Spread`: a lineage that was unrolled level by level,
  with columns of its own for every level.
* `Lineage.Embeds`: a map of right levels to left ones that is all that the
  equalities say.
* `Lineage.matching_iff_embeds`: **a matching is found if there is such a map**,
  and it is that map, of which there is no other.
-/

namespace StreamPlan

namespace Lineage

/-- A lineage that was built from a root by adding levels. -/
inductive Grown : Lineage → Prop where
  | root (view offset width keys : Nat) : Grown (root view offset width keys)
  | level {lineage longer : Lineage} {parent view : Nat} {join : LevelJoin}
      {offset width keys : Nat} (grown : Grown lineage)
      (added : lineage.addLevel parent view join offset width keys = .ok longer) : Grown longer

theorem addLevel_eq_ok {lineage longer : Lineage} {parent view : Nat} {join : LevelJoin}
    {offset width keys : Nat} (h : lineage.addLevel parent view join offset width keys = .ok longer) :
    parent < lineage.length ∧
      longer = lineage ++ [⟨view, some parent, join, offset, width, keys⟩] := by
  unfold addLevel at h
  split at h
  · rename_i hparent
    cases h
    exact ⟨hparent, rfl⟩
  · cases h

/-- The root comes first, and parents come before their children. -/
structure Ordered (lineage : Lineage) : Prop where
  root : ∃ level, lineage[0]? = some level ∧ level.parent = none
  child : ∀ i level, lineage[i + 1]? = some level → ∃ p, level.parent = some p ∧ p ≤ i

theorem Grown.ordered {lineage : Lineage} (h : lineage.Grown) : lineage.Ordered := by
  induction h with
  | root view offset width keys => exact ⟨⟨_, rfl, rfl⟩, by rintro i level ⟨⟩⟩
  | @level lineage longer parent _ _ _ _ _ _ hadd ih =>
    obtain ⟨hp, rfl⟩ := addLevel_eq_ok hadd
    obtain ⟨⟨level, hroot, hnone⟩, hchild⟩ := ih
    refine ⟨⟨level, Catalog.getElem?_append_some hroot, hnone⟩, fun i level hi => ?_⟩
    rcases Catalog.getElem?_concat_cases hi with hi | ⟨hlast, rfl⟩
    · exact hchild i level hi
    · exact ⟨parent, rfl, Nat.le_of_lt_succ (Nat.lt_of_lt_of_eq hp hlast.symm)⟩

theorem Ordered.parent_lt {lineage : Lineage} (h : lineage.Ordered) {i p : Nat} {level : Level}
    (hi : lineage[i]? = some level) (hp : level.parent = some p) : p < i := by
  cases i with
  | zero =>
    obtain ⟨root, hroot, hnone⟩ := h.root
    obtain rfl := Option.some.inj (hi.symm.trans hroot)
    rw [hnone] at hp
    cases hp
  | succ i =>
    obtain ⟨q, hq, hle⟩ := h.child i level hi
    obtain rfl := Option.some.inj (hp.symm.trans hq)
    exact Nat.lt_succ_of_le hle

/-- There is one root only. -/
theorem Ordered.eq_zero {lineage : Lineage} (h : lineage.Ordered) {i : Nat} {level : Level}
    (hi : lineage[i]? = some level) (hp : level.parent = none) : i = 0 := by
  cases i with
  | zero => rfl
  | succ i =>
    obtain ⟨q, hq, -⟩ := h.child i level hi
    rw [hp] at hq
    cases hq

/-- A lineage that was unrolled level by level. The levels have no column in
common, and every level has its own key among its columns. -/
structure Spread (lineage : Lineage) : Prop where
  grown : lineage.Grown
  apart : lineage.Pairwise fun a b => ∀ column, ¬(a.owns column = true ∧ b.owns column = true)
  keyed : ∀ level ∈ lineage, 0 < level.keys ∧ level.keys ≤ level.width
  stops : ∀ level ∈ lineage, level.stop < Position.limit

theorem owns_iff {level : Level} {column : Nat} :
    level.owns column = true ↔ level.offset ≤ column ∧ column < level.offset + level.width := by
  rw [Level.owns, Bool.and_eq_true, decide_eq_true_iff, decide_eq_true_iff, Level.stop]

/-- Levels of which one ends before the other have no column in common. -/
theorem not_owns_both {a b : Level} (h : a.stop ≤ b.offset) (column : Nat) :
    ¬(a.owns column = true ∧ b.owns column = true) := by
  rintro ⟨ha, hb⟩
  have hbefore : column < a.stop := (owns_iff.1 ha).2
  have hbehind : b.offset ≤ column := (owns_iff.1 hb).1
  omega

/-- A column belongs to one level. -/
theorem Spread.eq_of_owns {lineage : Lineage} (h : lineage.Spread) {i j : Nat} {a b : Level}
    {column : Nat} (hi : lineage[i]? = some a) (hj : lineage[j]? = some b)
    (ha : a.owns column = true) (hb : b.owns column = true) : i = j := by
  obtain ⟨hilt, rfl⟩ := List.getElem?_eq_some_iff.1 hi
  obtain ⟨hjlt, rfl⟩ := List.getElem?_eq_some_iff.1 hj
  rcases Nat.lt_trichotomy i j with hlt | heq | hgt
  · exact absurd ⟨ha, hb⟩ (List.pairwise_iff_getElem.1 h.apart i j hilt hjlt hlt column)
  · exact heq
  · exact absurd ⟨hb, ha⟩ (List.pairwise_iff_getElem.1 h.apart j i hjlt hilt hgt column)

/-- A level owns the columns of its own key. -/
theorem Spread.owns_key {lineage : Lineage} (h : lineage.Spread) {i k : Nat} {level : Level}
    (hi : lineage[i]? = some level) (hk : k < level.keys) : level.owns (level.offset + k) = true :=
  have hwidth := (h.keyed level (List.mem_of_getElem? hi)).2
  owns_iff.2 ⟨Nat.le_add_right _ _, Nat.add_lt_add_left (Nat.lt_of_lt_of_le hk hwidth) _⟩

variable {left right : Lineage} {equalities : List (Nat × Nat)} {f : Nat → Option Nat}

/-- `f` sends the right level `r`, at position `i`, to the left level `l`, at position `t`. -/
structure Sends (left right : Lineage) (f : Nat → Option Nat) (i t : Nat) (l r : Level) : Prop where
  image : f i = some t
  right : right[i]? = some r
  left : left[t]? = some l

/-- A partial map of right levels to left ones, with the root and with the
parent of every level. No two levels have the same image; images are of the same
view, and below the image of the parent. The keys of levels with those of their
images are the equalities, all of them and no others. -/
structure Embeds (left right : Lineage) (equalities : List (Nat × Nat)) (f : Nat → Option Nat) :
    Prop where
  root : ∃ t, f 0 = some t
  injective : ∀ i j t, f i = some t → f j = some t → i = j
  levels : ∀ i t, f i = some t → ∃ l r, Sends left right f i t l r ∧ l.view = r.view ∧
    r.parent.map f = l.parent.map some
  keys : ∀ p, p ∈ equalities ↔ ∃ i t l r, Sends left right f i t l r ∧ p ∈ keyPairs l r

/-- An equality of keys is one of two levels only. -/
theorem Spread.sends_of_keyPairs (hl : left.Spread) (hr : right.Spread)
    (h : Embeds left right equalities f) {i t : Nat} {l r : Level} (hri : right[i]? = some r)
    (hlt : left[t]? = some l) (hkeys : ∀ p ∈ keyPairs l r, p ∈ equalities) : f i = some t := by
  have hlk := (hl.keyed l (List.mem_of_getElem? hlt)).1
  have hrk := (hr.keyed r (List.mem_of_getElem? hri)).1
  -- the first columns of the two keys are equated
  have hfirst : (l.offset, r.offset) ∈ equalities :=
    hkeys _ (List.mem_map.2 ⟨0, List.mem_range.2 (Nat.lt_min.2 ⟨hlk, hrk⟩), rfl⟩)
  obtain ⟨j, s, l', r', hsends, hp⟩ := (h.keys _).1 hfirst
  obtain ⟨k, hk, hpair⟩ := List.mem_map.1 hp
  obtain ⟨hkl, hkr⟩ := Nat.lt_min.1 (List.mem_range.1 hk)
  obtain ⟨hol, hor⟩ := Prod.mk.inj hpair
  have hts : t = s := hl.eq_of_owns hlt hsends.left (hl.owns_key hlt hlk)
    (hol ▸ hl.owns_key hsends.left hkl)
  have hij : i = j := hr.eq_of_owns hri hsends.right (hr.owns_key hri hrk)
    (hor ▸ hr.owns_key hsends.right hkr)
  rw [hij, hts]
  exact hsends.image

theorem placeOf_eq_some {matching : Matching} {r : Level} {place : Option Nat} :
    placeOf matching r = some place ↔ r.parent.map (matching.lookup ·) = place.map some := by
  unfold placeOf
  cases r.parent with
  | none => cases place <;> simp
  | some p => cases place <;> simp

/-- No left level is taken twice. -/
theorem matchLevel_taken {state : MatchState} {right : Level × Nat}
    (h : (state.matching.map Prod.snd).Nodup) :
    ((Id.run (matchLevel (fun _ => pure ()) left equalities state right)).matching.map
      Prod.snd).Nodup := by
  rcases matchLevel_cases left equalities state right.1 right.2 with ⟨-, heq⟩ | ⟨t, l, hfits, heq⟩
  · rw [heq]
    exact h
  · rw [heq, List.map_append, List.nodup_append]
    refine ⟨h, List.pairwise_singleton _ _, fun a ha b hb hab => ?_⟩
    rw [hab, List.mem_singleton.1 hb] at ha
    exact hfits.free ha

/-- **A matching is an embedding.** -/
theorem embeds_of_match? {matching : Matching} (hright : right.Ordered)
    (h : match? left right equalities = some matching) :
    Embeds left right equalities (matching.lookup ·) := by
  obtain ⟨state, ⟨hmatched, htaken⟩, hiff⟩ := match?_run left right equalities
    (I := fun n state => Matched left right equalities state n ∧
      (state.matching.map Prod.snd).Nodup)
    ⟨⟨by simp, by simp, by simp⟩, List.nodup_nil⟩
    fun n r state hr hs => ⟨matchLevel_matched hs.1 hr, matchLevel_taken hs.2⟩
  obtain ⟨⟨hroots, hused⟩, rfl⟩ := (hiff matching).1 h
  obtain ⟨root, hroot, hnone⟩ := hright.root
  have hsends : ∀ {i t l r}, state.matching.lookup i = some t →
      Pairs left right equalities state.matching i t l r →
      Sends left right (state.matching.lookup ·) i t l r :=
    fun hlookup hp => ⟨hlookup, hp.right, hp.left⟩
  refine ⟨hroots 0 root hroot hnone, fun i j t hi hj => ?_, fun i t hi => ?_, fun p => ⟨?_, ?_⟩⟩
  · have hpair := List.inj_on_of_nodup_map htaken (mem_of_lookup hi) (mem_of_lookup hj) rfl
    exact congrArg Prod.fst hpair
  · obtain ⟨l, r, hp⟩ := hmatched.pairs i t hi
    exact ⟨l, r, hsends hi hp, hp.view, placeOf_eq_some.1 hp.parent⟩
  · intro hp
    obtain ⟨i, t, l, r, hlookup, hpairs, hmem⟩ := hmatched.used p (hused p hp)
    exact ⟨i, t, l, r, hsends hlookup hpairs, hmem⟩
  · rintro ⟨i, t, l, r, hs, hmem⟩
    obtain ⟨l', r', hp⟩ := hmatched.pairs i t hs.image
    obtain rfl := Option.some.inj (hs.left.symm.trans hp.left)
    obtain rfl := Option.some.inj (hs.right.symm.trans hp.right)
    exact hp.keys p hmem

/-- The matching of the first `n` right levels, if it agrees with an embedding so
far: it has the levels that the embedding has, and used their keys. -/
structure Follows (left right : Lineage) (equalities : List (Nat × Nat)) (f : Nat → Option Nat)
    (n : Nat) (state : MatchState) : Prop where
  matched : Matched left right equalities state n
  lookup : ∀ i t, state.matching.lookup i = some t ↔ i < n ∧ f i = some t
  used : ∀ i t l r, i < n → Sends left right f i t l r → ∀ p ∈ keyPairs l r, p ∈ state.used

/-- Where a level stands is known when it is its turn. -/
theorem Follows.placeOf_eq_some (hordered : right.Ordered) {n : Nat} {state : MatchState} {l r : Level}
    (hs : Follows left right equalities f n state) (hn : right[n]? = some r)
    (hparent : r.parent.map f = l.parent.map some) :
    placeOf state.matching r = some l.parent := by
  have hlookup : r.parent.map (state.matching.lookup ·) = r.parent.map f := by
    cases hp : r.parent with
    | none => rfl
    | some p =>
      have hlt := hordered.parent_lt hn hp
      have hp : state.matching.lookup p = f p :=
        Option.ext fun t => (hs.lookup p t).trans (and_iff_right hlt)
      exact congrArg some hp
  exact Lineage.placeOf_eq_some.2 (hlookup.trans hparent)

/-- **The greedy step** finds the image of a level, if it has one, and nothing else. -/
theorem Follows.finds (hl : left.Spread) (hr : right.Spread) (h : Embeds left right equalities f)
    {n : Nat} {state : MatchState} {r : Level} (hs : Follows left right equalities f n state)
    (hn : right[n]? = some r) :
    f n = none ∧ Id.run (matchLevel (fun _ => pure ()) left equalities state (r, n)) = state ∨
      ∃ t l, Sends left right f n t l r ∧
        Id.run (matchLevel (fun _ => pure ()) left equalities state (r, n)) =
          ⟨state.matching ++ [(n, t)], state.used ++ keyPairs l r⟩ := by
  rcases matchLevel_cases left equalities state r n with ⟨hnone, heq⟩ | ⟨t, l, hfits, heq⟩
  · refine .inl ⟨Option.eq_none_iff_forall_ne_some.2 fun t ht => ?_, heq⟩
    -- an image of the level fits, as no earlier level is sent there
    obtain ⟨l, r', hsends, hview, hparent⟩ := h.levels n t ht
    obtain rfl := Option.some.inj (hn.symm.trans hsends.right)
    have hfree : t ∉ state.matching.map Prod.snd := by
      intro hmem
      obtain ⟨⟨i, _⟩, hpair, rfl⟩ := List.mem_map.1 hmem
      obtain ⟨hi, hlt⟩ := hs.matched.once _ hpair
      exact Nat.ne_of_lt hlt (h.injective _ _ _ ((hs.lookup _ _).1 hi).2 ht)
    exact hnone t l ⟨hsends.left, hfree, hview, hs.placeOf_eq_some hr.grown.ordered hn hparent,
      fun p hp => (h.keys p).2 ⟨n, t, l, r, hsends, hp⟩⟩
  · have himage : f n = some t := hl.sends_of_keyPairs hr h hn hfits.left hfits.keys
    exact .inr ⟨t, l, ⟨himage, hn, hfits.left⟩, heq⟩

theorem Follows.step (hl : left.Spread) (hr : right.Spread) (h : Embeds left right equalities f)
    {n : Nat} {state : MatchState} {r : Level} (hs : Follows left right equalities f n state)
    (hn : right[n]? = some r) :
    Follows left right equalities f (n + 1)
      (Id.run (matchLevel (fun _ => pure ()) left equalities state (r, n))) := by
  have hmatched := matchLevel_matched hs.matched hn
  -- the level stays without a partner, or finds the one that the embedding gives it
  rcases hs.finds hl hr h hn with ⟨hnone, heq⟩ | ⟨t, l, hsends, heq⟩
  · have hnot : ∀ i t, f i = some t → i ≠ n := by
      rintro i t hi rfl
      rw [hnone] at hi
      cases hi
    rw [heq] at hmatched ⊢
    refine ⟨hmatched, fun i t => ?_, fun i t l' r' hi hs' => ?_⟩
    · rw [hs.lookup, Nat.lt_succ_iff_lt_or_eq]
      exact ⟨fun h => ⟨.inl h.1, h.2⟩, fun h => ⟨h.1.resolve_right (hnot i t h.2), h.2⟩⟩
    · have hlt := (Nat.lt_succ_iff_lt_or_eq.1 hi).resolve_right (hnot i t hs'.image)
      exact hs.used i t l' r' hlt hs'
  · rw [heq] at hmatched ⊢
    refine ⟨hmatched, fun i s => ?_, fun i s l' r' hi hs' p hp => ?_⟩
    · rcases eq_or_ne i n with rfl | hne
      · have hnew : state.matching.lookup i = none :=
          Option.eq_none_iff_forall_ne_some.2 fun s hi => Nat.lt_irrefl i ((hs.lookup i s).1 hi).1
        rw [lookup_concat hnew, hsends.image]
        exact (and_iff_right (Nat.lt_succ_self i)).symm
      · have hother : [(n, t)].lookup i = none := by
          rw [List.lookup_cons, beq_eq_false_iff_ne.2 hne]
          rfl
        rw [List.lookup_append, hother, Option.or_none, hs.lookup, Nat.lt_succ_iff_lt_or_eq,
          or_iff_left hne]
    · rcases Nat.lt_succ_iff_lt_or_eq.1 hi with hlt | rfl
      · exact List.mem_append_left _ (hs.used i s l' r' hlt hs' p hp)
      · obtain rfl := Option.some.inj (hs'.image.symm.trans hsends.image)
        obtain rfl := Option.some.inj (hs'.left.symm.trans hsends.left)
        obtain rfl := Option.some.inj (hs'.right.symm.trans hsends.right)
        exact List.mem_append_right _ hp

/-- **A matching is found if there is an embedding**, and it is that embedding. -/
theorem match?_of_embeds (hl : left.Spread) (hr : right.Spread)
    (h : Embeds left right equalities f) :
    ∃ matching, match? left right equalities = some matching ∧ (matching.lookup ·) = f := by
  obtain ⟨state, hfollows, hiff⟩ := match?_run left right equalities
    (I := Follows left right equalities f)
    ⟨⟨by simp, by simp, by simp⟩, by simp, by simp⟩ fun n r state hn hs => hs.step hl hr h hn
  have hlookup : ∀ i, state.matching.lookup i = f i := by
    refine fun i => Option.ext fun t => (hfollows.lookup i t).trans (and_iff_right_of_imp fun hi => ?_)
    obtain ⟨l, r, hsends, -⟩ := h.levels i t hi
    exact (List.getElem?_eq_some_iff.1 hsends.right).1
  refine ⟨state.matching, (hiff _).2 ⟨⟨fun i r hi hroot => ?_, fun p hp => ?_⟩, rfl⟩, funext hlookup⟩
  · obtain rfl := hr.grown.ordered.eq_zero hi hroot
    obtain ⟨t, ht⟩ := h.root
    exact ⟨t, (hlookup 0).trans ht⟩
  · obtain ⟨i, t, l, r, hsends, hmem⟩ := (h.keys p).1 hp
    exact hfollows.used i t l r (List.getElem?_eq_some_iff.1 hsends.right).1 hsends p hmem

section Checked

variable {check : Level → Except Fault Unit}

theorem standsFor_checked {parent : Option Nat} {l r : Level} (hl : check l = .ok ())
    (hr : check r = .ok ()) :
    standsFor check equalities parent l r =
      .ok (Id.run (standsFor (fun _ => pure ()) equalities parent l r)) := by
  unfold standsFor
  split
  · rw [hl, hr]
    rfl
  · rfl

theorem standIn?_checked {taken : List Nat} {parent : Option Nat} {r : Level}
    (hr : check r = .ok ()) {lefts : List Level} (hl : ∀ l ∈ lefts, check l = .ok ())
    (position : Nat) :
    standIn? check equalities taken parent r position lefts =
      .ok (Id.run (standIn? (fun _ => pure ()) equalities taken parent r position lefts)) := by
  induction lefts generalizing position with
  | nil => rfl
  | cons l lefts ih =>
    obtain ⟨hfirst, hrest⟩ := List.forall_mem_cons.1 hl
    rw [standIn?, standIn?, standsFor_checked hfirst hr]
    cases taken.contains position with
    | true => exact ih hrest (position + 1)
    | false =>
      cases hfits : Id.run (standsFor (fun _ => pure ()) equalities parent l r) with
      | true =>
        simp only [Bool.false_eq_true, if_false, ok_bind, Id.run_bind, hfits, if_true]
        rfl
      | false => simpa [hfits, ok_bind] using ih hrest (position + 1)

theorem matchLevel_checked {state : MatchState} {r : Level × Nat} (hr : check r.1 = .ok ())
    (hl : ∀ l ∈ left, check l = .ok ()) :
    matchLevel check left equalities state r =
      .ok (Id.run (matchLevel (fun _ => pure ()) left equalities state r)) := by
  unfold matchLevel
  split
  · rfl
  · rw [standIn?_checked hr hl, ok_bind, Id.run_bind]
    split <;> rfl

theorem foldlM_checked {levels : List (Level × Nat)} (hr : ∀ r ∈ levels, check r.1 = .ok ())
    (hl : ∀ l ∈ left, check l = .ok ()) (state : MatchState) :
    levels.foldlM (matchLevel check left equalities) state =
      .ok (Id.run (levels.foldlM (matchLevel (fun _ => pure ()) left equalities) state)) := by
  induction levels generalizing state with
  | nil => rfl
  | cons r levels ih =>
    obtain ⟨hfirst, hrest⟩ := List.forall_mem_cons.1 hr
    rw [List.foldlM_cons, List.foldlM_cons, matchLevel_checked hfirst hl, ok_bind, Id.run_bind]
    exact ih hrest _

end Checked

/-- No column leaves the range of positions. -/
theorem Spread.checkKey_eq {lineage : Lineage} (h : lineage.Spread) {level : Level}
    (hmem : level ∈ lineage) : level.checkKey = .ok () := by
  have hkeys := (h.keyed level hmem).2
  have hstop := h.stops level hmem
  have hlt : level.offset + level.keys < Position.limit :=
    Nat.lt_of_le_of_lt (Nat.add_le_add_left hkeys _) hstop
  rw [Level.checkKey, Position.add, Position.checked, if_pos hlt]
  rfl

theorem matchChecked_eq (hl : left.Spread) (hr : right.Spread) :
    matchChecked left right equalities = .ok (match? left right equalities) := by
  have hrights : ∀ r ∈ right.zipIdx, Level.checkKey r.1 = .ok () :=
    fun r hmem => hr.checkKey_eq (List.fst_mem_of_mem_zipIdx hmem)
  unfold matchChecked matchWith
  rw [foldlM_checked hrights (fun l hmem => hl.checkKey_eq hmem)]
  rfl

/-- **The matching is the only embedding.** A matching is found if and only if
the right levels embed into the left ones, as the equalities say; the matching is
an embedding then, and every embedding is the matching. -/
theorem matching_iff_embeds (hl : left.Spread) (hr : right.Spread) :
    matchChecked left right equalities = .ok (match? left right equalities) ∧
      ((match? left right equalities).isSome = true ↔ ∃ f, Embeds left right equalities f) ∧
        ∀ matching, match? left right equalities = some matching →
          ∀ f, Embeds left right equalities f ↔ f = (matching.lookup ·) := by
  refine ⟨matchChecked_eq hl hr, ?_, fun matching hmatch f => ⟨fun h => ?_, ?_⟩⟩
  · rw [Option.isSome_iff_exists]
    constructor
    · rintro ⟨matching, hmatch⟩
      exact ⟨_, embeds_of_match? hr.grown.ordered hmatch⟩
    · rintro ⟨f, h⟩
      obtain ⟨matching, hmatch, -⟩ := match?_of_embeds hl hr h
      exact ⟨matching, hmatch⟩
  · obtain ⟨found, hfound, rfl⟩ := match?_of_embeds hl hr h
    rw [Option.some.inj (hfound.symm.trans hmatch)]
  · rintro rfl
    exact embeds_of_match? hr.grown.ordered hmatch

/-- A root with two levels of one view. -/
def twins : Lineage :=
  [⟨0, none, .inner, 0, 3, 1⟩, ⟨1, some 0, .inner, 3, 2, 1⟩, ⟨1, some 0, .inner, 5, 2, 1⟩]

theorem twins_spread : twins.Spread := by
  have hfirst : (root 0 0 3 1).addLevel 0 1 .inner 3 2 1 =
    .ok [⟨0, none, .inner, 0, 3, 1⟩, ⟨1, some 0, .inner, 3, 2, 1⟩] := rfl
  have hsecond : addLevel [⟨0, none, .inner, 0, 3, 1⟩, ⟨1, some 0, .inner, 3, 2, 1⟩]
    0 1 .inner 5 2 1 = .ok twins := rfl
  have hbehind : twins.Pairwise fun a b => a.stop ≤ b.offset := by decide
  exact ⟨.level (.level (.root 0 0 3 1) hfirst) hsecond, hbehind.imp not_owns_both, by decide,
    by decide⟩

/-- The levels of one view are told apart by the equalities, here crosswise. -/
theorem twins_match_crosswise :
    twins.Spread ∧ match? twins twins [(0, 0), (3, 5), (5, 3)] = some [(0, 0), (1, 2), (2, 1)] ∧
      ∀ f, Embeds twins twins [(0, 0), (3, 5), (5, 3)] f ↔
        f = ([(0, 0), (1, 2), (2, 1)].lookup ·) := by
  have hmatch : match? twins twins [(0, 0), (3, 5), (5, 3)] = some [(0, 0), (1, 2), (2, 1)] := rfl
  obtain ⟨-, -, hunique⟩ := matching_iff_embeds twins_spread twins_spread
  exact ⟨twins_spread, hmatch, hunique _ hmatch⟩

end Lineage

end StreamPlan
