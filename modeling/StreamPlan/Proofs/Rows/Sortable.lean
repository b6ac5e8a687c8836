import StreamPlan.Proofs.Rows.Permutation

/-!
# Sorting faults over inconsistent orders alone

Where every comparison can be made, sorting looks at no item outside of the list. All that
can go wrong is that the two ends of a merge do not meet, which shows that the order
contradicts itself. Sorting by insertion has no such merge.

* `Sorting.Total`: every comparison can be made.
* `Sorting.mergeFrom_bounded`: a merge from both ends, with positions that stay in the list
  as long as there are steps left.
* `Sorting.medianOf_gives`, `pivot_gives`: the position of a pivot is one of the list.
* `Sorting.stable_bounded`: **sorting faults over an inconsistent order alone**, and
  `Sorting.stable_gives`: up to 20 items can be sorted.
-/

namespace StreamPlan

namespace Sorting

variable {α : Type} {before : α → α → Except Fault Bool} {items : List α} {allowed : Fault → Prop}

/-- Every comparison can be made. -/
def Total (before : α → α → Except Fault Bool) : Prop := ∀ a b, Gives (before a b) fun _ => True

section Compared

variable (h : Total before)

include h

theorem insertFromEnd_gives (x : α) (ys : List α) :
    Gives (insertFromEnd before x ys) fun _ => True := by
  induction ys with
  | nil => exact .ok trivial
  | cons y ys ih =>
    rw [insertFromEnd]
    refine (h x y).bind fun behind _ => ?_
    split
    · exact ih.bind fun _ _ => .ok trivial
    · exact .ok trivial

theorem insertAll_gives (sorted items : List α) :
    Gives (insertAll before sorted items) fun _ => True := by
  unfold insertAll
  exact (Gives.foldlM fun done x _ => insertFromEnd_gives h x done).bind fun _ _ => .ok trivial

theorem insertion_gives (items : List α) :
    Gives (insertion before items) fun _ => True := insertAll_gives h [] items

theorem four_gives (a b c d : α) : Gives (four before a b c d) fun _ => True := by
  unfold four
  refine (h b a).bind fun _ _ => (h d c).bind fun _ _ => (h ..).bind fun _ _ => ?_
  refine (h ..).bind fun _ _ => (h ..).bind fun middle _ => ?_
  split <;> exact .ok trivial

/-- A merge from both ends stays in the list for so many steps more. -/
structure Ends.InRange (ends : Ends) (half n steps : Nat) : Prop where
  halves : 2 * half ≤ n
  left : ends.left + steps ≤ half
  right : ends.right + steps ≤ 2 * half
  leftStop : ends.leftStop ≤ half
  rightStop : ends.rightStop ≤ n

theorem mergeStep_gives {ends : Ends} {half steps : Nat} (front back : List α)
    (hr : ends.InRange half items.length (steps + 1)) :
    Gives (mergeStep before items ends front back) fun next =>
      next.1.InRange half items.length steps := by
  obtain ⟨hhalves, hleft, hright, hleftStop, hrightStop⟩ := hr
  unfold mergeStep
  refine (Gives.itemAt (by omega)).bind fun l _ => (Gives.itemAt (by omega)).bind fun r _ => ?_
  refine (h r l).bind fun takeRight _ => (Gives.itemAt (by omega)).bind fun lastLeft _ => ?_
  refine (Gives.itemAt (by omega)).bind fun lastRight _ => (h ..).bind fun takeLeft _ => .ok ?_
  cases takeRight <;> cases takeLeft
  all_goals exact ⟨hhalves, by simp; omega, by simp; omega, by simp; omega, by simp; omega⟩

/-- At its end a merge from both ends faults only if the ends do not meet. -/
theorem mergeFrom_bounded (hi : allowed .inconsistentOrder) {half : Nat} {odd : Bool}
    (hodd : odd = true → 2 * half < items.length) {steps : Nat} {ends : Ends} {front back : List α}
    (hr : ends.InRange half items.length steps) :
    Bounded allowed (mergeFrom before items odd steps ends front back) fun _ => True := by
  induction steps generalizing ends front back with
  | zero =>
    have hmeet : ∀ (left right : Nat) (middle : List α), Bounded allowed
        (if left = ends.leftStop ∧ right = ends.rightStop then pure (front.reverse ++ middle ++ back)
          else .error .inconsistentOrder : Except Fault (List α)) fun _ => True := by
      intro left right middle
      split
      · exact .ok trivial
      · exact ⟨fun f hf => by cases hf; exact hi, fun _ ha => by cases ha⟩
    unfold mergeFrom
    cases odd with
    | false => exact hmeet ..
    | true =>
      -- the item that is left of an odd number is one of the list
      have hlt := hodd rfl
      have hposition : (if ends.left < ends.leftStop then ends.left else ends.right) < items.length := by
        obtain ⟨-, hleft, hright, hleftStop, -⟩ := hr
        split <;> omega
      obtain ⟨x, hx, -⟩ := Gives.itemAt hposition
      simp only [if_true, hx]
      exact hmeet ..
  | succ steps ih =>
    unfold mergeFrom
    exact (mergeStep_gives h front back hr).bounded.bind fun next hnext => ih hnext

theorem mergeEnds_bounded (hi : allowed .inconsistentOrder) (items : List α) :
    Bounded allowed (mergeEnds before items) fun _ => True := by
  have hr : Ends.InRange ⟨0, items.length / 2, items.length / 2, items.length⟩ (items.length / 2)
      items.length (items.length / 2) :=
    ⟨Nat.mul_div_le .., Nat.le_of_eq (Nat.zero_add _), Nat.le_of_eq (Nat.two_mul _).symm,
      Nat.le_refl _, Nat.le_refl _⟩
  refine mergeFrom_bounded h hi (fun hodd => ?_) hr
  have := of_decide_eq_true hodd
  omega

theorem eight_bounded (hi : allowed .inconsistentOrder) (items : List α) :
    Bounded allowed (eight before items) fun _ => True := by
  unfold eight
  split
  · exact (four_gives h ..).bounded.bind fun _ _ => (four_gives h ..).bounded.bind fun _ _ =>
      mergeEnds_bounded h hi _
  · exact (insertion_gives h _).bounded

theorem half_bounded (hi : allowed .inconsistentOrder) (first : Nat) (items : List α) :
    Bounded allowed (half before first items) fun _ => True := by
  unfold half
  split
  · exact (eight_bounded h hi _).bind fun _ _ => (insertAll_gives h ..).bounded
  · split
    · exact (four_gives h ..).bounded.bind fun _ _ => (insertAll_gives h ..).bounded
    · exact (insertion_gives h _).bounded

theorem short_bounded (hi : allowed .inconsistentOrder) (narrow : Bool) (items : List α) :
    Bounded allowed (short before narrow items) fun _ => True := by
  unfold short
  simp only
  split
  · exact .ok trivial
  · exact (half_bounded h hi ..).bind fun _ _ => (half_bounded h hi ..).bind fun _ _ =>
      mergeEnds_bounded h hi _

theorem runAfter_gives (descending : Bool) (last : α) (xs : List α) :
    Gives (runAfter before descending last xs) fun _ => True := by
  induction xs generalizing last with
  | nil => exact .ok trivial
  | cons x xs ih =>
    unfold runAfter
    refine (h x last).bind fun _ _ => ?_
    split
    · exact (ih x).bind fun _ _ => .ok trivial
    · exact .ok trivial

theorem firstRun_gives (items : List α) :
    Gives (firstRun before items) fun _ => True := by
  unfold firstRun
  split
  · exact (h ..).bind fun _ _ => (runAfter_gives h ..).bind fun _ _ => .ok trivial
  · exact .ok trivial

theorem mergeUp_gives : ∀ ls rs : List α, Gives (mergeUp before ls rs) fun _ => True
  | [], rs => by rw [mergeUp]; exact .ok trivial
  | l :: ls, [] => by
    rw [mergeUp]
    · exact .ok trivial
    · simp
  | l :: ls, r :: rs => by
    rw [mergeUp]
    refine (h r l).bind fun _ _ => ?_
    split
    · exact (mergeUp_gives (l :: ls) rs).bind fun _ _ => .ok trivial
    · exact (mergeUp_gives ls (r :: rs)).bind fun _ _ => .ok trivial

theorem mergeDown_gives : ∀ ls rs : List α,
    Gives (mergeDown before ls rs) fun _ => True
  | [], rs => by rw [mergeDown]; exact .ok trivial
  | l :: ls, [] => by
    rw [mergeDown]
    · exact .ok trivial
    · simp
  | l :: ls, r :: rs => by
    rw [mergeDown]
    refine (h r l).bind fun _ _ => ?_
    split
    · exact (mergeDown_gives ls (r :: rs)).bind fun _ _ => .ok trivial
    · exact (mergeDown_gives (l :: ls) rs).bind fun _ _ => .ok trivial

theorem merge_gives (left right : List α) :
    Gives (merge before left right) fun _ => True := by
  unfold merge
  split
  · exact mergeUp_gives h ..
  · obtain ⟨merged, hmerged, -⟩ := mergeDown_gives h left.reverse right.reverse
    exact ⟨merged.reverse, by rw [hmerged]; rfl, trivial⟩

section Merging

variable {finish sortShort : List α → Except Fault (List α)}

omit h in
theorem finished_bounded (hf : ∀ items, Bounded allowed (finish items) fun _ => True) (run : Run α) :
    Bounded allowed (run.finished finish) fun _ => True := by
  unfold Run.finished
  split
  · exact .ok trivial
  · exact hf _

theorem runMerge_bounded (hf : ∀ items, Bounded allowed (finish items) fun _ => True)
    (left right : Run α) : Bounded allowed (left.merge before finish right) fun _ => True := by
  unfold Run.merge
  split
  · exact (finished_bounded hf left).bind fun _ _ => (finished_bounded hf right).bind fun _ _ =>
      (merge_gives h ..).bounded.bind fun _ _ => .ok trivial
  · exact .ok trivial

theorem collapse_bounded (hf : ∀ items, Bounded allowed (finish items) fun _ => True)
    (depth : Nat) (stack : List (Run α × Nat)) (last : Run α) :
    Bounded allowed (collapse before finish depth stack last) fun _ => True := by
  fun_induction collapse before finish depth stack last with
  | case1 _ _ _ _ _ _ ih => exact (runMerge_bounded h hf ..).bind fun merged _ => ih merged
  | case2 => exact .ok trivial
  | case3 => exact .ok trivial

theorem nextRun_bounded (hs : ∀ items, Bounded allowed (sortShort items) fun _ => True)
    (eager : Bool) (good : Nat) (items : List α) :
    Bounded allowed (nextRun before sortShort eager good items) fun _ => True := by
  have hread : ∀ (found : Nat) (descending : Bool), Bounded allowed
      (do
        if 0 < found ∧ good ≤ found then
          let run := items.take found
          return (⟨true, if descending then run.reverse else run⟩, items.drop found)
        else if eager then
          return (⟨true, ← sortShort (items.take shortLimit)⟩, items.drop shortLimit)
        else return (⟨false, items.take good⟩, items.drop good) : Except Fault (Run α × List α))
      fun _ => True := by
    intro found descending
    split
    · exact .ok trivial
    · split
      · exact (hs _).bind fun _ _ => .ok trivial
      · exact .ok trivial
  unfold nextRun
  simp only
  split
  · exact (firstRun_gives h items).bounded.bind fun found _ => hread found.1 found.2
  · exact hread 0 false

theorem mergeFromRuns_bounded (hf : ∀ items, Bounded allowed (finish items) fun _ => True)
    (hs : ∀ items, Bounded allowed (sortShort items) fun _ => True) (eager : Bool) (n : Nat) :
    ∀ (fuel : Nat) (stack : List (Run α × Nat)) (last : Run α) (start : Nat) (items : List α),
      Bounded allowed (mergeFromRuns before finish sortShort eager n fuel stack last start items)
        fun _ => True
  | 0, _, _, _, _ => by rw [mergeFromRuns]; exact .ok trivial
  | _ + 1, stack, last, _, [] => by
    rw [mergeFromRuns]
    exact (collapse_bounded h hf ..).bind fun _ _ => .ok trivial
  | fuel + 1, stack, last, start, x :: xs => by
    rw [mergeFromRuns]
    · exact (nextRun_bounded h hs ..).bind fun _ _ => (collapse_bounded h hf ..).bind fun _ _ =>
        mergeFromRuns_bounded hf hs eager n fuel _ _ _ _
    · simp

theorem mergeRuns_bounded (hf : ∀ items, Bounded allowed (finish items) fun _ => True)
    (hs : ∀ items, Bounded allowed (sortShort items) fun _ => True) (eager : Bool) (items : List α) :
    Bounded allowed (mergeRuns before finish sortShort eager items) fun _ => True := by
  unfold mergeRuns
  exact (mergeFromRuns_bounded h hf hs ..).bind fun run _ => finished_bounded hf run

end Merging

theorem median_gives {a b c : Nat} (ha : a < items.length) (hb : b < items.length)
    (hc : c < items.length) : Gives (median before items a b c) (· < items.length) := by
  unfold median
  refine (Gives.itemAt ha).bind fun x _ => (Gives.itemAt hb).bind fun y _ => (h x y).bind fun xy _ => ?_
  refine (Gives.itemAt ha).bind fun x _ => (Gives.itemAt hc).bind fun z _ => (h x z).bind fun xz _ => ?_
  split
  · refine (Gives.itemAt hb).bind fun y _ => (Gives.itemAt hc).bind fun z _ => (h y z).bind fun yz _ => ?_
    refine .ok ?_
    split
    · exact hb
    · exact hc
  · exact .ok ha

/-- Of stretches that lie in the list, so do their parts, and a middle item of them. -/
theorem medianOf_gives (fuel : Nat) {a b c n : Nat} (hn : 0 < n)
    (ha : a + n ≤ items.length) (hb : b + n ≤ items.length) (hc : c + n ≤ items.length) :
    Gives (medianOf before items fuel a b c n) (· < items.length) := by
  induction fuel generalizing a b c n with
  | zero => exact median_gives h (by omega) (by omega) (by omega)
  | succ fuel ih =>
    unfold medianOf
    split
    · exact median_gives h (by omega) (by omega) (by omega)
    · have hinner : ∀ first, first + n ≤ items.length → Gives (medianOf before items fuel first
          (first + n / 8 * 4) (first + n / 8 * 7) (n / 8)) (· < items.length) := fun first hfirst =>
        ih (by omega) (by omega) (by omega) (by omega)
      exact (hinner a ha).bind fun a' ha' => (hinner b hb).bind fun b' hb' =>
        (hinner c hc).bind fun c' hc' => median_gives h ha' hb' hc'

theorem pivot_gives (hne : 0 < items.length) :
    Gives (pivot before items) (· < items.length) := by
  unfold pivot
  simp only
  split
  · exact median_gives h hne (by omega) (by omega)
  · exact medianOf_gives h _ (by omega) (by omega) (by omega) (by omega)

omit h in
theorem split_gives {test : α → Except Fault Bool} (ht : ∀ x, Gives (test x) fun _ => True)
    (position : Nat) (first : Bool) (items : List α) :
    Gives (split test position first items) fun _ => True := by
  unfold split
  have hmark : ∀ p ∈ items.zipIdx, Gives (do
      return (p.1, ← if p.2 = position then pure first else test p.1)) fun _ : α × Bool => True := by
    intro p _
    split
    · exact .ok trivial
    · exact (ht p.1).bind fun _ _ => .ok trivial
  exact (Gives.mapM hmark).bind fun _ _ => .ok trivial

theorem partitioned_bounded (hi : allowed .inconsistentOrder) (narrow : Bool)
    (limit : Nat) (ancestor : Option α) (items : List α) :
    Bounded allowed (partitioned before narrow limit ancestor items) fun _ => True := by
  induction limit generalizing ancestor items with
  | zero =>
    unfold partitioned
    split
    · exact short_bounded h hi narrow items
    · exact mergeRuns_bounded h (fun _ => .ok trivial) (short_bounded h hi narrow) true items
  | succ limit ih =>
    unfold partitioned
    split
    · exact short_bounded h hi narrow items
    · refine (pivot_gives h (by omega)).bounded.bind fun position hposition => ?_
      refine (Gives.itemAt hposition).bounded.bind fun p _ => ?_
      -- once it is known which items are below the pivot
      have hparts : ∀ less others : List α, Bounded allowed
          (do
            if less.isEmpty then
              let out ← Sorting.split (fun x => do return !(← before p x)) position true items
              return out.1 ++ (← partitioned before narrow limit none out.2)
            else
              let right ← partitioned before narrow limit (some p) others
              return (← partitioned before narrow limit ancestor less) ++ right) fun _ => True := by
        intro less others
        split
        · refine (split_gives (fun x => ?_) position true items).bounded.bind fun out _ => ?_
          · exact (h p x).bind fun _ _ => .ok trivial
          · exact (ih none out.2).bind fun _ _ => .ok trivial
        · exact (ih (some p) others).bind fun _ _ => (ih ancestor less).bind fun _ _ => .ok trivial
      have hsides : ∀ equalToAncestor : Bool, Bounded allowed
          (do
            let sides ← if equalToAncestor then pure ([], items)
              else Sorting.split (fun x => before x p) position false items
            if sides.1.isEmpty then
              let out ← Sorting.split (fun x => do return !(← before p x)) position true items
              return out.1 ++ (← partitioned before narrow limit none out.2)
            else
              let right ← partitioned before narrow limit (some p) sides.2
              return (← partitioned before narrow limit ancestor sides.1) ++ right) fun _ => True := by
        intro equalToAncestor
        simp only
        split
        · exact hparts [] items
        · exact (split_gives (h · p) position false items).bounded.bind fun out _ => hparts out.1 out.2
      simp only
      cases ancestor with
      | none => exact hsides false
      | some a => exact (h a p).bounded.bind fun b _ => hsides (!b)

theorem finishLater_bounded (hi : allowed .inconsistentOrder) (narrow : Bool)
    (items : List α) : Bounded allowed (finishLater before narrow items) fun _ => True :=
  partitioned_bounded h hi ..

theorem long_bounded (hi : allowed .inconsistentOrder) (narrow : Bool)
    (items : List α) : Bounded allowed (long before narrow items) fun _ => True :=
  mergeRuns_bounded h (finishLater_bounded h hi narrow) (short_bounded h hi narrow) _ items

end Compared

/-- The comparison of items that can be compared, with an answer for all others. -/
def answered (before : α → α → Except Fault Bool) (a b : α) : Except Fault Bool :=
  .ok ((before a b).toOption.getD false)

theorem answered_total (before : α → α → Except Fault Bool) : Total (answered before) :=
  fun _ _ => .ok trivial

/-- Items that can be compared are sorted as if all could be. -/
theorem stable_answered (hc : ∀ a ∈ items, ∀ b ∈ items, Gives (before a b) fun _ => True)
    (narrow : Bool) :
    Alike (List.Forall₂ fun a b => a = b ∧ a ∈ items) (stable before narrow items)
      (stable (answered before) narrow items) := by
  refine stable_alike ?_ (List.forall₂_same.2 fun a ha => ⟨rfl, ha⟩)
  rintro a _ ⟨rfl, ha⟩ b _ ⟨rfl, hb⟩
  obtain ⟨t, ht, -⟩ := hc a ha b hb
  rw [answered, ht]
  rfl

/-- **Sorting faults over an inconsistent order alone**, where items can be compared. -/
theorem stable_bounded (hc : ∀ a ∈ items, ∀ b ∈ items, Gives (before a b) fun _ => True)
    (hi : allowed .inconsistentOrder) (narrow : Bool) :
    Bounded allowed (stable before narrow items) fun _ => True := by
  have htotal := answered_total before
  have hall : Bounded allowed (stable (answered before) narrow items) fun _ => True := by
    unfold stable
    split
    · exact (insertion_gives htotal items).bounded
    · split
      · exact .ok trivial
      · exact long_bounded htotal hi narrow items
  have halike := stable_answered hc narrow
  refine ⟨fun f hf => ?_, fun _ _ => trivial⟩
  rw [hf] at halike
  generalize hother : stable (answered before) narrow items = other at halike hall
  cases halike
  exact hall.1 f rfl

/-- Up to 20 items that can be compared can be sorted. -/
theorem stable_gives (hc : ∀ a ∈ items, ∀ b ∈ items, Gives (before a b) fun _ => True)
    (narrow : Bool) (hn : items.length ≤ 20) : Gives (stable before narrow items) fun _ => True := by
  obtain ⟨out, hout, -⟩ := insertion_gives (answered_total before) items
  have halike := stable_answered hc narrow
  rw [stable.eq_def (answered before), if_pos hn, hout] at halike
  generalize hother : stable before narrow items = other at halike
  cases halike
  exact .ok trivial

end Sorting

end StreamPlan
