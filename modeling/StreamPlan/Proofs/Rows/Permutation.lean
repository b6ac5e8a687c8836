import StreamPlan.Proofs.Rows.Sorting

/-!
# Sorting permutes

However a list is sorted, no item is lost and none is doubled, also where the order is
inconsistent: the items that are placed and those that are still to be placed are those
of the list at every step.

* `Sorting.mergeFrom_perm`: a merge from both ends, which counts what it has placed.
* `Sorting.collapse_perm`, `mergeFromRuns_perm`: runs that are merged on a stack, of which
  the first is empty.
* `Sorting.stable_perm`, `perm_of_sortRows`: **a sorted list is a permutation** of the list.
-/

namespace StreamPlan

namespace Sorting

variable {α : Type} {before : α → α → Except Fault Bool} {items sorted out : List α}

theorem insertFromEnd_perm {x : α} {ys : List α} (h : insertFromEnd before x ys = .ok out) :
    out.Perm (x :: ys) := by
  induction ys generalizing out with
  | nil =>
    cases h
    exact .refl _
  | cons y ys ih =>
    rw [insertFromEnd] at h
    obtain ⟨behind, -, h⟩ := bind_eq_ok.1 h
    split at h
    · obtain ⟨rest, hrest, h⟩ := bind_eq_ok.1 h
      cases h
      exact ((ih hrest).cons y).trans (.swap x y ys)
    · cases h
      exact .refl _

theorem insertAll_perm (h : insertAll before sorted items = .ok out) :
    out.Perm (sorted ++ items) := by
  unfold insertAll at h
  obtain ⟨reversed, hreversed, h⟩ := bind_eq_ok.1 h
  cases h
  have hall : reversed.Perm (sorted.reverse ++ items) := by
    refine foldlM_run (I := fun done reversed => reversed.Perm (sorted.reverse ++ done)) (by simp)
      (fun done x reversed next _ ih hnext => ?_) hreversed
    rw [← List.append_assoc]
    exact (insertFromEnd_perm hnext).trans ((ih.cons x).trans (List.perm_append_singleton x _).symm)
  exact (List.reverse_perm reversed).trans
    (hall.trans ((List.reverse_perm sorted).append_right items))

theorem insertion_perm (h : insertion before items = .ok out) : out.Perm items :=
  insertAll_perm h

/-- However five comparisons come out, four items stay the same four. -/
theorem four_perm {a b c d : α} (h : four before a b c d = .ok out) : out.Perm [a, b, c, d] := by
  unfold four at h
  simp only [bind_eq_ok] at h
  obtain ⟨firstPair, -, lastPair, -, second, -, first, -, middle, -, h⟩ := h
  classical
  rw [List.perm_iff_count]
  intro x
  cases firstPair <;> cases lastPair <;> cases second <;> cases first <;> cases middle
  all_goals
    simp only [Bool.false_eq_true, if_true, if_false, pure_eq_ok] at h
    subst h
    simp only [List.count_cons, List.count_nil] <;> omega

/-- The items of a list from one position up to another. -/
def between (items : List α) (start stop : Nat) : List α := (items.drop start).take (stop - start)

theorem between_self (items : List α) (i : Nat) : between items i i = [] := by
  rw [between, Nat.sub_self, List.take_zero]

/-- The item at the start of a stretch. -/
theorem between_start {start stop : Nat} {x : α} (h : itemAt items start = .ok x)
    (hlt : start < stop) : between items start stop = x :: between items (start + 1) stop := by
  obtain ⟨hlen, rfl⟩ := List.getElem?_eq_some_iff.1 (itemAt_eq_ok.1 h)
  rw [between, between, List.drop_eq_getElem_cons hlen,
    show stop - start = stop - (start + 1) + 1 by omega, List.take_succ_cons]

/-- The item at the end of a stretch. -/
theorem between_stop {start stop : Nat} {x : α} (h : itemAt items (stop - 1) = .ok x)
    (hlt : start < stop) : between items start stop = between items start (stop - 1) ++ [x] := by
  obtain ⟨hlen, rfl⟩ := List.getElem?_eq_some_iff.1 (itemAt_eq_ok.1 h)
  rw [between, between, show stop - start = stop - 1 - start + 1 by omega,
    List.take_add_one, List.getElem?_drop, show start + (stop - 1 - start) = stop - 1 by omega,
    List.getElem?_eq_getElem hlen, Option.toList_some]

/-- The items that a merge from both ends has still to place. -/
def Ends.remaining (ends : Ends) (items : List α) : List α :=
  between items ends.left ends.leftStop ++ between items ends.right ends.rightStop

/-- Both stretches of a merge end behind where they start. -/
def Ends.Ordered (ends : Ends) : Prop := ends.left ≤ ends.leftStop ∧ ends.right ≤ ends.rightStop

/-- One step takes an item from the front of a stretch and one from the end of a stretch. -/
theorem remaining_of_mergeStep {ends next : Ends} {front back front' back' : List α}
    (h : mergeStep before items ends front back = .ok (next, front', back'))
    (ho : next.Ordered) (hleft : 0 < ends.leftStop) (hright : 0 < ends.rightStop) :
    ends.Ordered ∧
      (front' ++ next.remaining items ++ back').Perm (front ++ ends.remaining items ++ back) := by
  unfold mergeStep at h
  simp only [bind_eq_ok, pure_eq_ok, Prod.mk.injEq] at h
  obtain ⟨l, hl, r, hr, takeRight, -, lastLeft, hlastLeft, lastRight, hlastRight, takeLeft, -,
    rfl, rfl, rfl⟩ := h
  obtain ⟨hol, hor⟩ := ho
  simp only [Ends.Ordered, Ends.remaining] at hol hor ⊢
  -- which of the two stretches gives the item at each end
  classical
  rw [List.perm_iff_count]
  cases takeRight <;> cases takeLeft <;> simp only [Bool.false_eq_true, if_true, if_false] at hol hor ⊢
  case' false.false => rw [between_start hl (by omega), between_stop hlastRight (by omega)]
  case' false.true => rw [between_start hl (by omega), between_stop hlastLeft (by omega)]
  case' true.false => rw [between_start hr (by omega), between_stop hlastRight (by omega)]
  case' true.true => rw [between_start hr (by omega), between_stop hlastLeft (by omega)]
  all_goals
    refine ⟨⟨by omega, by omega⟩, fun x => ?_⟩
    simp only [List.count_append, List.count_cons, List.count_nil]
    omega

/-- A step moves either end back by one at most. -/
theorem stops_of_mergeStep {ends next : Ends} {front back front' back' : List α}
    (h : mergeStep before items ends front back = .ok (next, front', back')) :
    ends.leftStop ≤ next.leftStop + 1 ∧ ends.rightStop ≤ next.rightStop + 1 := by
  unfold mergeStep at h
  simp only [bind_eq_ok, pure_eq_ok, Prod.mk.injEq] at h
  obtain ⟨l, -, r, -, takeRight, -, lastLeft, -, lastRight, -, takeLeft, -, rfl, -⟩ := h
  cases takeLeft <;> simp only [Bool.false_eq_true, if_true, if_false] <;> omega

/-- The item that is left of an odd number is placed between both ends. -/
theorem mergeFrom_zero {odd : Bool} {ends : Ends} {front back : List α}
    (h : mergeFrom before items odd 0 ends front back = .ok out) :
    ends.Ordered ∧ out = front.reverse ++ ends.remaining items ++ back := by
  have hlast : ∀ {i j : Nat} {x : α}, itemAt items i = .ok x → i + 1 = j → between items i j = [x] := by
    rintro i _ x hx rfl
    rw [between_start hx (Nat.lt_succ_self i), between_self]
  -- the stretches have to meet behind the item in the middle, if there is one
  have hmeet : ∀ {middle : Except Fault (List α)} {left right : Nat}, (do
      let middle ← middle
      if left = ends.leftStop ∧ right = ends.rightStop then
        return front.reverse ++ middle ++ back
      else .error .inconsistentOrder) = Except.ok out →
      ∃ placed, middle = .ok placed ∧ left = ends.leftStop ∧ right = ends.rightStop ∧
        out = front.reverse ++ placed ++ back := by
    intro middle left right h
    obtain ⟨placed, hplaced, h⟩ := bind_eq_ok.1 h
    split at h
    · rename_i hmet
      cases h
      exact ⟨placed, hplaced, hmet.1, hmet.2, rfl⟩
    · cases h
  rw [mergeFrom] at h
  cases odd
  · simp only [Bool.false_eq_true, if_false, Bool.false_and] at h
    obtain ⟨_, hmiddle, hleft, hright, rfl⟩ := hmeet h
    cases hmiddle
    rw [Ends.Ordered, Ends.remaining, hleft, hright, between_self, between_self]
    exact ⟨⟨Nat.le_refl _, Nat.le_refl _⟩, rfl⟩
  · by_cases huse : ends.left < ends.leftStop
    · simp only [huse, decide_true, if_true, Bool.and_self, Bool.not_true, Bool.and_false,
        Bool.false_eq_true, if_false] at h
      obtain ⟨_, hmiddle, hleft, hright, rfl⟩ := hmeet h
      obtain ⟨x, hx, rfl⟩ := map_eq_ok.1 hmiddle
      rw [Ends.Ordered, Ends.remaining, hright, between_self, hlast hx hleft]
      exact ⟨⟨Nat.le_of_lt huse, Nat.le_refl _⟩, rfl⟩
    · simp only [huse, decide_false, if_true, Bool.and_false, Bool.not_false, Bool.and_self,
        Bool.false_eq_true, if_false] at h
      obtain ⟨_, hmiddle, hleft, hright, rfl⟩ := hmeet h
      obtain ⟨x, hx, rfl⟩ := map_eq_ok.1 hmiddle
      rw [Ends.Ordered, Ends.remaining, hleft, between_self, hlast hx hright]
      exact ⟨⟨Nat.le_refl _, by omega⟩, rfl⟩

/-- **A merge from both ends** that ends has placed every item once: the stretches end
where they met, so they never crossed before. -/
theorem mergeFrom_perm {odd : Bool} {steps : Nat} {ends : Ends} {front back : List α}
    (h : mergeFrom before items odd steps ends front back = .ok out)
    (hleft : steps ≤ ends.leftStop) (hright : steps ≤ ends.rightStop) :
    ends.Ordered ∧ out.Perm (front ++ ends.remaining items ++ back) := by
  induction steps generalizing ends front back with
  | zero =>
    obtain ⟨ho, rfl⟩ := mergeFrom_zero h
    exact ⟨ho, ((List.reverse_perm front).append_right _).append_right back⟩
  | succ steps ih =>
    rw [mergeFrom] at h
    obtain ⟨⟨next, front', back'⟩, hstep, h⟩ := bind_eq_ok.1 h
    obtain ⟨hstopLeft, hstopRight⟩ := stops_of_mergeStep hstep
    obtain ⟨hordered, hout⟩ := ih h (by omega) (by omega)
    obtain ⟨ho, hplaced⟩ := remaining_of_mergeStep hstep hordered (by omega) (by omega)
    exact ⟨ho, hout.trans hplaced⟩

theorem mergeEnds_perm (h : mergeEnds before items = .ok out) : out.Perm items := by
  unfold mergeEnds at h
  obtain ⟨-, hout⟩ := mergeFrom_perm h (Nat.le_refl _) (Nat.div_le_self _ _)
  refine hout.trans (.of_eq ?_)
  have hright : between items (items.length / 2) items.length = items.drop (items.length / 2) := by
    rw [between, List.take_of_length_le (Nat.le_of_eq List.length_drop)]
  rw [Ends.remaining, hright, List.nil_append, List.append_nil]
  exact List.take_append_drop (items.length / 2) items

theorem eight_perm (h : eight before items = .ok out) : out.Perm items := by
  unfold eight at h
  split at h
  · obtain ⟨left, hleft, h⟩ := bind_eq_ok.1 h
    obtain ⟨right, hright, h⟩ := bind_eq_ok.1 h
    exact (mergeEnds_perm h).trans ((four_perm hleft).append (four_perm hright))
  · exact insertion_perm h

theorem half_perm {first : Nat} (h : half before first items = .ok out) : out.Perm items := by
  unfold half at h
  split at h
  · obtain ⟨front, hfront, h⟩ := bind_eq_ok.1 h
    have hout := (insertAll_perm h).trans ((eight_perm hfront).append_right _)
    rwa [List.take_append_drop] at hout
  · split at h
    · obtain ⟨front, hfront, h⟩ := bind_eq_ok.1 h
      exact (insertAll_perm h).trans ((four_perm hfront).append_right _)
    · exact insertion_perm h

theorem short_perm {narrow : Bool} (h : short before narrow items = .ok out) : out.Perm items := by
  unfold short at h
  simp only at h
  split at h
  · cases h
    exact .refl _
  · obtain ⟨left, hleft, h⟩ := bind_eq_ok.1 h
    obtain ⟨right, hright, h⟩ := bind_eq_ok.1 h
    have hout := (mergeEnds_perm h).trans ((half_perm hleft).append (half_perm hright))
    rwa [List.take_append_drop] at hout

theorem mergeUp_perm {ls rs : List α} (h : mergeUp before ls rs = .ok out) :
    out.Perm (ls ++ rs) := by
  induction ls, rs using mergeUp.induct generalizing out with
  | case1 rs =>
    rw [mergeUp] at h
    cases h
    exact .refl _
  | case2 ls hne =>
    rw [mergeUp] at h
    · cases h
      rw [List.append_nil]
    · exact hne
  | case3 l ls r rs ihRight ihLeft =>
    rw [mergeUp] at h
    obtain ⟨first, -, h⟩ := bind_eq_ok.1 h
    split at h
    · obtain ⟨rest, hrest, h⟩ := bind_eq_ok.1 h
      cases h
      exact ((ihRight hrest).cons r).trans List.perm_middle.symm
    · obtain ⟨rest, hrest, h⟩ := bind_eq_ok.1 h
      cases h
      exact (ihLeft hrest).cons l

theorem mergeDown_perm {ls rs : List α} (h : mergeDown before ls rs = .ok out) :
    out.Perm (ls ++ rs) := by
  induction ls, rs using mergeDown.induct generalizing out with
  | case1 rs =>
    rw [mergeDown] at h
    cases h
    exact .refl _
  | case2 ls hne =>
    rw [mergeDown] at h
    · cases h
      rw [List.append_nil]
    · exact hne
  | case3 l ls r rs ihLeft ihRight =>
    rw [mergeDown] at h
    obtain ⟨first, -, h⟩ := bind_eq_ok.1 h
    split at h
    · obtain ⟨rest, hrest, h⟩ := bind_eq_ok.1 h
      cases h
      exact (ihLeft hrest).cons l
    · obtain ⟨rest, hrest, h⟩ := bind_eq_ok.1 h
      cases h
      exact ((ihRight hrest).cons r).trans List.perm_middle.symm

theorem merge_perm {ls rs : List α} (h : merge before ls rs = .ok out) : out.Perm (ls ++ rs) := by
  unfold merge at h
  split at h
  · exact mergeUp_perm h
  · obtain ⟨down, hdown, rfl⟩ := map_eq_ok.1 h
    exact (List.reverse_perm down).trans ((mergeDown_perm hdown).trans
      ((List.reverse_perm ls).append (List.reverse_perm rs)))

/-- A run that is kept has an item. -/
theorem goodLength_pos {n : Nat} (h : 0 < n) : 0 < goodLength n := by
  unfold goodLength
  split
  · omega
  · have hshift : 1 ≤ (1 + n.log2) / 2 := by
      have hlog : 1 ≤ n.log2 := (Nat.le_log2 (by omega)).2 (by omega)
      omega
    have hpower : 2 ^ 1 ≤ 2 ^ ((1 + n.log2) / 2) := Nat.pow_le_pow_right (by omega) hshift
    simp only [Nat.one_shiftLeft]
    exact Nat.div_pos (Nat.le_trans hpower (Nat.le_add_right _ _)) (by decide)

section Merging

variable {finish sortShort : List α → Except Fault (List α)}
  (hfinish : ∀ items out, finish items = .ok out → out.Perm items)

/-- The items of the runs on a stack. -/
def held (stack : List (Run α × Nat)) : List α := stack.flatMap fun entry => entry.1.items

include hfinish

theorem finished_perm {run : Run α} (h : run.finished finish = .ok out) : out.Perm run.items := by
  unfold Run.finished at h
  split at h
  · cases h
    exact .refl _
  · exact hfinish _ _ h

theorem runMerge_perm {left right run : Run α} (h : left.merge before finish right = .ok run) :
    run.items.Perm (left.items ++ right.items) := by
  unfold Run.merge at h
  split at h
  · obtain ⟨l, hl, h⟩ := bind_eq_ok.1 h
    obtain ⟨r, hr, h⟩ := bind_eq_ok.1 h
    obtain ⟨merged, hmerged, h⟩ := bind_eq_ok.1 h
    cases h
    exact (merge_perm hmerged).trans ((finished_perm hfinish hl).append (finished_perm hfinish hr))
  · cases h
    exact .refl _

/-- **Runs that are merged on a stack** keep their items. The first run stays where it
is, and at depth zero it is the only one that does. -/
theorem collapse_perm {depth : Nat} {stack stack' : List (Run α × Nat)} {last last' : Run α}
    (h : collapse before finish depth stack last = .ok (stack', last')) :
    (held stack' ++ last'.items).Perm (held stack ++ last.items) ∧
      stack'.getLast? = stack.getLast? ∧ (depth = 0 → stack'.length ≤ 1) := by
  induction stack generalizing last with
  | nil =>
    rw [collapse] at h
    · cases h
      exact ⟨.refl _, rfl, fun _ => Nat.zero_le 1⟩
    · rintro _ _ _ _ ⟨⟩
  | cons top stack ih =>
    obtain ⟨left, d⟩ := top
    cases stack with
    | nil =>
      rw [collapse] at h
      · cases h
        exact ⟨.refl _, rfl, fun _ => Nat.le_refl 1⟩
      · rintro _ _ _ _ ⟨⟩
    | cons next stack =>
      rw [collapse] at h
      split at h
      · obtain ⟨merged, hmerged, h⟩ := bind_eq_ok.1 h
        obtain ⟨hitems, hbottom, hflat⟩ := ih h
        refine ⟨hitems.trans ?_, hbottom.trans (List.getLast?_cons_cons ..).symm, hflat⟩
        have hboth := (runMerge_perm hfinish hmerged).append_left (held (next :: stack))
        refine hboth.trans ?_
        rw [← List.append_assoc, show held ((left, d) :: next :: stack)
          = left.items ++ held (next :: stack) from rfl]
        exact List.perm_append_comm.append_right _
      · rename_i hdepth
        cases h
        exact ⟨.refl _, rfl, fun h0 => absurd (h0 ▸ Nat.zero_le d) hdepth⟩

variable (hshort : ∀ items out, sortShort items = .ok out → out.Perm items)
include hshort

omit hfinish in
/-- The first run and the rest are the items, and the rest has fewer. -/
theorem nextRun_perm {eager : Bool} {good : Nat} {run : Run α} {rest : List α} (hgood : 0 < good)
    (hne : items ≠ []) (h : nextRun before sortShort eager good items = .ok (run, rest)) :
    (run.items ++ rest).Perm items ∧ rest.length < items.length := by
  have hlen := List.length_pos_of_ne_nil hne
  have hcut : ∀ {n : Nat} {front : List α}, 0 < n → front.Perm (items.take n) →
      (front ++ items.drop n).Perm items ∧ (items.drop n).length < items.length := by
    intro n front hn hfront
    refine ⟨(hfront.append_right _).trans (.of_eq (List.take_append_drop n items)), ?_⟩
    rw [List.length_drop]
    omega
  -- a run that is long enough is kept as it is, a short piece is sorted or left to later
  have hread : ∀ (found : Nat) (descending : Bool), (do
      if 0 < found ∧ good ≤ found then
        let run := items.take found
        return (⟨true, if descending then run.reverse else run⟩, items.drop found)
      else if eager then
        return (⟨true, ← sortShort (items.take shortLimit)⟩, items.drop shortLimit)
      else return (⟨false, items.take good⟩, items.drop good)) = Except.ok (run, rest) →
      (run.items ++ rest).Perm items ∧ rest.length < items.length := by
    intro found descending h
    split at h
    · rename_i hfound
      cases h
      refine hcut hfound.1 ?_
      cases descending
      · exact .refl _
      · exact List.reverse_perm _
    · split at h
      · obtain ⟨front, hfront, h⟩ := bind_eq_ok.1 h
        cases h
        exact hcut (by decide) (hshort _ _ hfront)
      · cases h
        exact hcut hgood (.refl _)
  unfold nextRun at h
  simp only at h
  split at h
  · obtain ⟨⟨found, descending⟩, -, h⟩ := bind_eq_ok.1 h
    exact hread found descending h
  · exact hread 0 false h

/-- The first run of a sort, which nothing is in front of, is empty. -/
def Grounded (stack : List (Run α × Nat)) (last : Run α) : Prop :=
  match stack.getLast? with
  | some bottom => bottom.1.items = []
  | none => last.items = []

omit hshort in
/-- It stays there when other runs are merged and the next one is read. -/
theorem Grounded.push {depth : Nat} {stack stack' : List (Run α × Nat)} {last last' : Run α}
    (hground : Grounded stack last)
    (h : collapse before finish depth stack last = .ok (stack', last')) (d : Nat) (next : Run α) :
    Grounded ((last', d) :: stack') next := by
  obtain ⟨hkept, hbottom, -⟩ := collapse_perm hfinish h
  unfold Grounded at hground ⊢
  rw [List.getLast?_cons, hbottom]
  cases hlast : stack.getLast? with
  | some bottom =>
    rw [hlast] at hground
    exact hground
  | none =>
    rw [hlast] at hground hbottom
    rw [List.getLast?_eq_none_iff.1 hlast, List.getLast?_eq_none_iff.1 hbottom, hground] at hkept
    exact hkept.eq_nil

omit hshort in
/-- In the end it is all that the last run was not merged with. -/
theorem Grounded.held_eq_nil {stack stack' : List (Run α × Nat)} {last last' : Run α}
    (hground : Grounded stack last)
    (h : collapse before finish 0 stack last = .ok (stack', last')) : held stack' = [] := by
  obtain ⟨-, hbottom, hflat⟩ := collapse_perm hfinish h
  match stack', hbottom, hflat rfl with
  | [], _, _ => rfl
  | [bottom], hbottom, _ =>
    rw [Grounded, ← hbottom] at hground
    rw [held, List.flatMap_singleton]
    exact hground
  | _ :: _ :: _, _, hlen => simp at hlen

/-- **Runs that are read and merged** make up one run of all items in the end. -/
theorem mergeFromRuns_perm {eager : Bool} {n fuel start : Nat} {stack : List (Run α × Nat)}
    {last run : Run α} (hn : items.length ≤ n) (hfuel : items.length < fuel)
    (hground : Grounded stack last)
    (h : mergeFromRuns before finish sortShort eager n fuel stack last start items = .ok run) :
    run.items.Perm (held stack ++ last.items ++ items) := by
  induction fuel generalizing stack last start items with
  | zero => exact absurd hfuel (Nat.not_lt_zero _)
  | succ fuel ih =>
    cases items with
    | nil =>
      -- what was read is merged down to one run, in front of which there is only the empty one
      rw [mergeFromRuns] at h
      obtain ⟨⟨stack', last'⟩, hcollapse, h⟩ := bind_eq_ok.1 h
      cases h
      obtain ⟨hkept, -, -⟩ := collapse_perm hfinish hcollapse
      rw [hground.held_eq_nil hfinish hcollapse, List.nil_append] at hkept
      rwa [List.append_nil]
    | cons x xs =>
      rw [mergeFromRuns] at h
      · -- a run is read, and the stack is merged as far as that run needs it
        obtain ⟨⟨first, rest⟩, hfirst, h⟩ := bind_eq_ok.1 h
        obtain ⟨⟨stack', last'⟩, hcollapse, h⟩ := bind_eq_ok.1 h
        have hn0 : 0 < n := Nat.lt_of_lt_of_le (Nat.zero_lt_succ _) hn
        obtain ⟨hitems, hfewer⟩ :=
          nextRun_perm hshort (goodLength_pos hn0) (List.cons_ne_nil x xs) hfirst
        obtain ⟨hkept, -, -⟩ := collapse_perm hfinish hcollapse
        have hrun := ih (by omega) (by omega) (hground.push hfinish hcollapse _ _) h
        rw [held, List.flatMap_cons, List.append_assoc] at hrun
        exact hrun.trans ((List.perm_append_comm.trans hkept).append hitems)
      · rintro ⟨⟩

theorem mergeRuns_perm {eager : Bool} (h : mergeRuns before finish sortShort eager items = .ok out) :
    out.Perm items := by
  unfold mergeRuns at h
  obtain ⟨run, hrun, h⟩ := bind_eq_ok.1 h
  have hground : Grounded [] (⟨true, []⟩ : Run α) := rfl
  exact (finished_perm hfinish h).trans
    (mergeFromRuns_perm hfinish hshort (Nat.le_refl _) (by omega) hground hrun)

end Merging

theorem split_perm {test : α → Except Fault Bool} {position : Nat} {pivotFirst : Bool}
    {firsts others : List α} (h : split test position pivotFirst items = .ok (firsts, others)) :
    (firsts ++ others).Perm items := by
  unfold split at h
  obtain ⟨marked, hmarked, h⟩ := bind_eq_ok.1 h
  have hitems : marked.map Prod.fst = items := by
    have hentries : marked.map Prod.fst = items.zipIdx.map Prod.fst := by
      refine map_of_mapM_eq_ok (fun entry mark h => ?_) hmarked
      obtain ⟨x, i⟩ := entry
      simp only at h
      split at h <;> obtain ⟨first, -, h⟩ := bind_eq_ok.1 h <;> cases h <;> rfl
    rw [hentries, List.zipIdx_map_fst]
  simp only [List.partition_eq_filter_filter] at h
  cases h
  rw [← List.map_append, ← hitems]
  exact (List.filter_append_perm Prod.snd marked).map Prod.fst

theorem partitioned_perm {narrow : Bool} {limit : Nat} {ancestor : Option α}
    (h : partitioned before narrow limit ancestor items = .ok out) : out.Perm items := by
  induction limit generalizing ancestor items out with
  | zero =>
    rw [partitioned] at h
    split at h
    · exact short_perm h
    · refine mergeRuns_perm (fun _ _ hsame => ?_) (fun _ _ => short_perm) h
      cases hsame
      exact .refl _
  | succ limit ih =>
    rw [partitioned] at h
    split at h
    · exact short_perm h
    · obtain ⟨position, -, h⟩ := bind_eq_ok.1 h
      obtain ⟨p, -, h⟩ := bind_eq_ok.1 h
      -- no item is below the pivot: those that are not above it are done
      have hparts : ∀ {less others : List α}, (less ++ others).Perm items → (do
          if less.isEmpty then
            let sides ← split (fun x => do return !(← before p x)) position true items
            return sides.1 ++ (← partitioned before narrow limit none sides.2)
          else
            let right ← partitioned before narrow limit (some p) others
            return (← partitioned before narrow limit ancestor less) ++ right) = .ok out →
          out.Perm items := by
        intro less others hsides h
        split at h
        · obtain ⟨sides, hsplit, h⟩ := bind_eq_ok.1 h
          obtain ⟨greater, hgreater, h⟩ := bind_eq_ok.1 h
          cases h
          exact ((ih hgreater).append_left sides.1).trans (split_perm hsplit)
        · obtain ⟨right, hright, h⟩ := bind_eq_ok.1 h
          obtain ⟨left, hleft, h⟩ := bind_eq_ok.1 h
          cases h
          exact ((ih hleft).append (ih hright)).trans hsides
      have hall : ([] ++ items).Perm items := .refl items
      simp only at h
      split at h
      · obtain ⟨first, -, h⟩ := bind_eq_ok.1 h
        obtain ⟨equalToAncestor, -, h⟩ := bind_eq_ok.1 h
        split at h
        · exact hparts hall h
        · obtain ⟨sides, hsplit, h⟩ := bind_eq_ok.1 h
          exact hparts (split_perm hsplit) h
      · obtain ⟨equalToAncestor, -, h⟩ := bind_eq_ok.1 h
        split at h
        · exact hparts hall h
        · obtain ⟨sides, hsplit, h⟩ := bind_eq_ok.1 h
          exact hparts (split_perm hsplit) h

theorem long_perm {narrow : Bool} (h : long before narrow items = .ok out) : out.Perm items :=
  mergeRuns_perm (fun _ _ => partitioned_perm) (fun _ _ => short_perm) h

/-- A consistent arrangement is the one by insertion. -/
theorem insertion_of_consistent? (h : consistent? before items = some out) :
    insertion before items = .ok out := by
  unfold consistent? at h
  obtain ⟨sorted, hsorted, h⟩ := Option.bind_eq_some_iff.1 h
  obtain ⟨ranked, -, h⟩ := Option.bind_eq_some_iff.1 h
  split at h
  · cases h
    cases hinsertion : insertion before items with
    | error e => rw [hinsertion] at hsorted; cases hsorted
    | ok sorted =>
      rw [hinsertion] at hsorted
      cases hsorted
      rfl
  · cases h

/-- **A sorted list is a permutation** of the list, however its items compare. -/
theorem stable_perm {narrow : Bool} (h : stable before narrow items = .ok out) : out.Perm items := by
  unfold stable at h
  split at h
  · exact insertion_perm h
  · split at h
    · rename_i hconsistent
      cases h
      exact insertion_perm (insertion_of_consistent? hconsistent)
    · exact long_perm h

end Sorting

/-- **Sorted rows** are the rows in another order. -/
theorem perm_of_sortRows {order : SortOrder} {rows out : List Row} (h : sortRows order rows = .ok out) :
    out.Perm rows := Sorting.stable_perm h

end StreamPlan
