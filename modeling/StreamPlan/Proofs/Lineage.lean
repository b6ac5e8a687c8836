import StreamPlan.Lineage
import StreamPlan.Proofs.Columns.Position
import StreamPlan.Proofs.Outcome

/-!
# Levels that stand for each other

* `Lineage.matchLevel_cases`: what one level does to a matching.
* `Lineage.Pairs`: a left level stands for a right one. It is of the same view,
  its parent stands for the right one's parent, and their keys are equated.
* `Lineage.match?_matched`: **what a matching says**. Its levels stand for each
  other, and every equality is one of their keys.
* `Lineage.match?_stands`: matched levels are of one view.
-/

namespace StreamPlan

/-- What is found in a list is still found when the list grows. -/
theorem lookup_append_some {α β : Type} [BEq α] {a : α} {b : β} {xs ys : List (α × β)}
    (h : xs.lookup a = some b) : (xs ++ ys).lookup a = some b := by
  rw [List.lookup_append, h, Option.some_or]

/-- What is put behind a list without it is found there. -/
theorem lookup_concat {α β : Type} [BEq α] [LawfulBEq α] {a : α} {b : β} {xs : List (α × β)}
    (h : xs.lookup a = none) : (xs ++ [(a, b)]).lookup a = some b := by
  rw [List.lookup_append, h, Option.none_or, List.lookup_cons_self]

namespace Lineage

variable {left right : Lineage} {equalities : List (Nat × Nat)} {taken : List Nat}
  {parent : Option Nat}

theorem equated_iff {n : Nat} : ∀ {a b : Nat}, equated equalities a b n = true ↔
    ∀ i < n, (a + i, b + i) ∈ equalities := by
  induction n with
  | zero => simp [equated]
  | succ n ih =>
    intro a b
    rw [equated, Bool.and_eq_true, ih, List.contains_iff_mem]
    constructor
    · rintro ⟨h0, h⟩ i hi
      cases i with
      | zero => exact h0
      | succ i =>
        have := h i (by omega)
        rwa [Nat.add_right_comm, Nat.add_right_comm b] at this
    · intro h
      refine ⟨h 0 (Nat.succ_pos n), fun i hi => ?_⟩
      have := h (i + 1) (by omega)
      rwa [Nat.add_right_comm, Nat.add_right_comm b]

theorem standsFor_iff {l r : Level} :
    Id.run (standsFor (fun _ => pure ()) equalities parent l r) = true ↔
      (l.view = r.view ∧ l.parent = parent) ∧ ∀ p ∈ keyPairs l r, p ∈ equalities := by
  have hkeys : (∀ p ∈ keyPairs l r, p ∈ equalities) ↔
      equated equalities l.offset r.offset (min l.keys r.keys) = true := by
    rw [equated_iff, keyPairs, List.forall_mem_map]
    simp only [List.mem_range]
  rw [hkeys]
  unfold standsFor
  split
  · rename_i h
    exact (and_iff_right h).symm
  · rename_i h
    exact iff_of_false Bool.false_ne_true fun hp => h hp.1

/-- The search through the left levels is one for the first that is free and fits. -/
theorem standIn?_eq_find? {r : Level} (lefts : List Level) (position : Nat) :
    Id.run (standIn? (fun _ => pure ()) equalities taken parent r position lefts) =
      ((lefts.zipIdx position).find? fun candidate => !taken.contains candidate.2 &&
        Id.run (standsFor (fun _ => pure ()) equalities parent candidate.1 r)).map Prod.swap := by
  induction lefts generalizing position with
  | nil => rfl
  | cons first rest ih =>
    rw [standIn?, List.zipIdx_cons, List.find?_cons]
    cases taken.contains position with
    | true => exact ih (position + 1)
    | false =>
      simp only [Bool.false_eq_true, if_false, Bool.not_false, Bool.true_and, Id.run_bind]
      split
      · rename_i hfits
        rw [hfits]
        rfl
      · rename_i hfits
        rw [Bool.eq_false_iff.2 hfits]
        exact ih (position + 1)

theorem standIn?_eq_some {l r : Level} {t : Nat}
    (h : Id.run (standIn? (fun _ => pure ()) equalities taken parent r 0 left) = some (t, l)) :
    left[t]? = some l ∧ t ∉ taken ∧
      Id.run (standsFor (fun _ => pure ()) equalities parent l r) = true := by
  rw [standIn?_eq_find?] at h
  obtain ⟨⟨l', t'⟩, hfind, hswap⟩ := Option.map_eq_some_iff.1 h
  cases hswap
  have hfits := List.find?_some hfind
  rw [Bool.and_eq_true, Bool.not_eq_true', List.contains_eq_mem, decide_eq_false_iff_not] at hfits
  exact ⟨List.mem_zipIdx_iff_getElem?.1 (List.mem_of_find?_eq_some hfind), hfits⟩

theorem standIn?_eq_none {r : Level}
    (h : Id.run (standIn? (fun _ => pure ()) equalities taken parent r 0 left) = none) {t : Nat}
    {l : Level} (ht : left[t]? = some l) (hfree : t ∉ taken) :
    Id.run (standsFor (fun _ => pure ()) equalities parent l r) ≠ true := by
  rw [standIn?_eq_find?, Option.map_eq_none_iff, List.find?_eq_none] at h
  have hcandidate := h (l, t) (List.mem_zipIdx_iff_getElem?.2 ht)
  rw [Bool.and_eq_true, not_and, Bool.not_eq_true', List.contains_eq_mem,
    decide_eq_false_iff_not] at hcandidate
  exact hcandidate hfree

/-- A left level that a right one can be matched to: it is not taken, of the same view,
below the level that stands for the right one's parent, and their keys are equated. -/
structure Fits (left : Lineage) (equalities : List (Nat × Nat)) (state : MatchState) (r : Level)
    (t : Nat) (l : Level) : Prop where
  left : left[t]? = some l
  free : t ∉ state.matching.map Prod.snd
  view : l.view = r.view
  parent : placeOf state.matching r = some l.parent
  keys : ∀ p ∈ keyPairs l r, p ∈ equalities

/-- **A level is matched** to one that fits, whose keys are used then, or there is none. -/
theorem matchLevel_cases (left : Lineage) (equalities : List (Nat × Nat)) (state : MatchState)
    (r : Level) (n : Nat) :
    (∀ t l, ¬Fits left equalities state r t l) ∧
        Id.run (matchLevel (fun _ => pure ()) left equalities state (r, n)) = state ∨
      ∃ t l, Fits left equalities state r t l ∧
        Id.run (matchLevel (fun _ => pure ()) left equalities state (r, n)) =
          ⟨state.matching ++ [(n, t)], state.used ++ keyPairs l r⟩ := by
  unfold matchLevel
  split
  · rename_i hplace
    refine .inl ⟨fun t l hfits => ?_, rfl⟩
    have hparent := hfits.parent
    rw [hplace] at hparent
    cases hparent
  · rename_i place hplace
    simp only [Id.run_bind]
    split
    · rename_i hnone
      refine .inl ⟨fun t l hfits => ?_, rfl⟩
      obtain rfl := Option.some.inj (hplace.symm.trans hfits.parent)
      exact standIn?_eq_none hnone hfits.left hfits.free
        (standsFor_iff.2 ⟨⟨hfits.view, rfl⟩, hfits.keys⟩)
    · rename_i t l hfound
      obtain ⟨hleft, hfree, hstands⟩ := standIn?_eq_some hfound
      obtain ⟨⟨hview, rfl⟩, hkeys⟩ := standsFor_iff.1 hstands
      exact .inr ⟨t, l, ⟨hleft, hfree, hview, hplace, hkeys⟩, rfl⟩

/-- A left level stands for a right one: it is of the same view, it is below the
level that stands for the right one's parent, and their keys are equated. -/
structure Pairs (left right : Lineage) (equalities : List (Nat × Nat)) (matching : Matching)
    (i t : Nat) (l r : Level) : Prop where
  right : right[i]? = some r
  left : left[t]? = some l
  view : l.view = r.view
  parent : placeOf matching r = some l.parent
  keys : ∀ p ∈ keyPairs l r, p ∈ equalities

theorem placeOf_append {matching more : Matching} {r : Level} {place : Option Nat}
    (h : placeOf matching r = some place) : placeOf (matching ++ more) r = some place := by
  unfold placeOf at h ⊢
  split at h
  · exact h
  · obtain ⟨q, hq, hp⟩ := Option.map_eq_some_iff.1 h
    rw [lookup_append_some hq, Option.map_some, hp]

theorem Pairs.append {matching more : Matching} {i t : Nat} {l r : Level}
    (h : Pairs left right equalities matching i t l r) :
    Pairs left right equalities (matching ++ more) i t l r :=
  ⟨h.right, h.left, h.view, placeOf_append h.parent, h.keys⟩

/-- What a matching of the first `n` right levels says, and the equalities that it used. -/
structure Matched (left right : Lineage) (equalities : List (Nat × Nat)) (state : MatchState)
    (n : Nat) : Prop where
  once : ∀ pair ∈ state.matching, state.matching.lookup pair.1 = some pair.2 ∧ pair.1 < n
  pairs : ∀ i t, state.matching.lookup i = some t →
    ∃ l r, Pairs left right equalities state.matching i t l r
  used : ∀ p ∈ state.used, ∃ i t l r, state.matching.lookup i = some t ∧
    Pairs left right equalities state.matching i t l r ∧ p ∈ keyPairs l r

theorem matchLevel_matched {state : MatchState} {n : Nat} {r : Level}
    (h : Matched left right equalities state n) (hr : right[n]? = some r) :
    Matched left right equalities
      (Id.run (matchLevel (fun _ => pure ()) left equalities state (r, n))) (n + 1) := by
  have hsame : Matched left right equalities state (n + 1) :=
    ⟨fun pair hp => ⟨(h.once pair hp).1, Nat.lt_succ_of_lt (h.once pair hp).2⟩, h.pairs, h.used⟩
  rcases matchLevel_cases left equalities state r n with ⟨-, heq⟩ | ⟨i, l, hfits, heq⟩ <;> rw [heq]
  · exact hsame
  -- the right level is looked at for the first time
  have hnew : state.matching.lookup n = none := by
    rw [List.lookup_eq_none_iff]
    intro pair hp
    exact bne_iff_ne.2 (Nat.ne_of_gt (h.once pair hp).2)
  have hpair : Pairs left right equalities (state.matching ++ [(n, i)]) n i l r :=
    ⟨hr, hfits.left, hfits.view, placeOf_append hfits.parent, hfits.keys⟩
  refine ⟨fun pair hp => ?_, fun j t hj => ?_, fun p hp => ?_⟩
  · rcases List.mem_append.1 hp with hp | hp
    · exact ⟨lookup_append_some (hsame.once pair hp).1, (hsame.once pair hp).2⟩
    · rw [List.mem_singleton.1 hp]
      exact ⟨lookup_concat hnew, Nat.lt_succ_self n⟩
  · cases hold : state.matching.lookup j with
    | some t' =>
      have hsome := hj.symm.trans (lookup_append_some hold)
      obtain rfl := Option.some.inj hsome
      obtain ⟨l', r', hp⟩ := h.pairs j t hold
      exact ⟨l', r', hp.append⟩
    | none =>
      have hmem := mem_of_lookup hj
      rcases List.mem_append.1 hmem with hmem | hmem
      · rw [(h.once _ hmem).1] at hold
        cases hold
      · cases List.mem_singleton.1 hmem
        exact ⟨l, r, hpair⟩
  · rcases List.mem_append.1 hp with hp | hp
    · obtain ⟨j, t, l', r', hlookup, hj, hmem⟩ := h.used p hp
      exact ⟨j, t, l', r', lookup_append_some hlookup, hj.append, hmem⟩
    · exact ⟨n, i, l, r, lookup_concat hnew, hpair, hp⟩

/-- What every level keeps while it is matched, the whole matching keeps. It is
complete if every root is matched and every equality was used. -/
theorem match?_run (left right : Lineage) (equalities : List (Nat × Nat))
    {I : Nat → MatchState → Prop} (hstart : I 0 ⟨[], []⟩)
    (hstep : ∀ n r state, right[n]? = some r → I n state →
      I (n + 1) (Id.run (matchLevel (fun _ => pure ()) left equalities state (r, n)))) :
    ∃ state, I right.length state ∧ ∀ matching, match? left right equalities = some matching ↔
      ((∀ i r, right[i]? = some r → r.parent = none → ∃ t, state.matching.lookup i = some t) ∧
        ∀ p ∈ equalities, p ∈ state.used) ∧ state.matching = matching := by
  have hall : I right.length
      (Id.run (right.zipIdx.foldlM (matchLevel (fun _ => pure ()) left equalities) ⟨[], []⟩)) := by
    rw [List.idRun_foldlM, ← @List.length_zipIdx _ right 0]
    refine foldl_run (I := fun done => I done.length) hstart ?_
    rintro done ⟨r, n⟩ state ⟨rest, hsplit⟩ hs
    -- the next level is numbered by the levels that are done
    have hat : right.zipIdx[done.length]? = some (r, n) := by rw [← hsplit]; simp
    obtain ⟨_, hr, hpair⟩ := Option.map_eq_some_iff.1 (List.getElem?_zipIdx ▸ hat)
    obtain ⟨rfl, rfl⟩ := Prod.mk.inj hpair
    rw [Nat.zero_add, List.length_append, List.length_singleton]
    exact hstep done.length _ state hr hs
  refine ⟨_, hall, fun matching => ?_⟩
  unfold match? matchWith
  simp only [Id.run_bind, Id.run_pure, Option.ite_none_right_eq_some, Bool.and_eq_true,
    List.all_eq_true, Option.some.injEq, Prod.forall, List.mem_zipIdx_iff_getElem?,
    Bool.or_eq_true, List.contains_iff_mem, Option.isSome_iff_exists]
  refine and_congr_left' (and_congr ⟨fun h i r hr hroot => ?_, fun h r i hr => ?_⟩ Iff.rfl)
  · rcases h r i hr with ⟨p, hp⟩ | hfound
    · rw [hroot] at hp
      cases hp
    · exact hfound
  · cases hp : r.parent with
    | none => exact .inr (h i r hr hp)
    | some p => exact .inl ⟨p, rfl⟩

/-- **What a matching says**: its levels stand for each other, every root is
matched, and every equality is one of keys. -/
theorem match?_matched {matching : Matching} (h : match? left right equalities = some matching) :
    (∃ used, Matched left right equalities ⟨matching, used⟩ right.length ∧
        ∀ p ∈ equalities, p ∈ used) ∧
      ∀ i r, right[i]? = some r → r.parent = none → ∃ t, matching.lookup i = some t := by
  obtain ⟨state, hmatched, hiff⟩ := match?_run left right equalities
    (I := fun n state => Matched left right equalities state n) ⟨by simp, by simp, by simp⟩
    fun n r state hr hs => matchLevel_matched hs hr
  obtain ⟨⟨hroots, hused⟩, rfl⟩ := (hiff matching).1 h
  exact ⟨⟨state.used, hmatched, hused⟩, hroots⟩

/-- A matched position is that of a left level of the same view. -/
def Stands (left right : Lineage) (pair : Nat × Nat) : Prop :=
  ∃ l r, right[pair.1]? = some r ∧ left[pair.2]? = some l ∧ l.view = r.view

/-- **Matched levels are of one view.** -/
theorem match?_stands {matching : Matching} (h : match? left right equalities = some matching) :
    ∀ pair ∈ matching, Stands left right pair := by
  obtain ⟨⟨used, hmatched, -⟩, -⟩ := match?_matched h
  intro pair hpair
  obtain ⟨l, r, hp⟩ := hmatched.pairs _ _ (hmatched.once pair hpair).1
  exact ⟨l, r, hp.right, hp.left, hp.view⟩

/-- A column that is located lies in the level. -/
theorem owns_of_locate? {lineage : Lineage} {column i : Nat}
    (h : lineage.locate? column = some i) :
    ∃ level, lineage[i]? = some level ∧ level.offset ≤ column ∧ column < level.stop := by
  obtain ⟨hi, howns, -⟩ := List.findIdx?_eq_some_iff_getElem.1 h
  refine ⟨lineage[i], List.getElem?_eq_getElem hi, ?_⟩
  simpa [Level.owns] using howns

end Lineage

end StreamPlan
