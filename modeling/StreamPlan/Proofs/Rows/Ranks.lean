import Mathlib.Data.List.Sort
import Mathlib.Order.Basic
import StreamPlan.Proofs.EventTime.Meaning
import StreamPlan.Proofs.Rows.Permutation

/-!
# Sorting by ranks

Items that compare by a rank each are in order once they are sorted, however many there
are: the order is consistent, and that no comparison faults is part of the result.

* `Sorting.insertion_less`: sorting by insertion is the library's insertion sort.
* `Sorting.stable_of_ranks`: **items are sorted by their ranks**, namely by insertion
  (`Sorting.stable_eq_insertion`).
* `sortRows_latest`: rows with a time each, the latest first.
-/

namespace StreamPlan

namespace Sorting

section Linear

variable {β : Type} [LinearOrder β] {items : List β}

/-- One item has to precede another if it is less. -/
def less (a b : β) : Except Fault Bool := .ok (decide (a < b))

theorem insertFromEnd_less (x : β) (ys : List β) :
    insertFromEnd less x ys = .ok (ys.orderedInsert (· ≥ ·) x) := by
  induction ys with
  | nil => rfl
  | cons y ys ih =>
    rw [insertFromEnd, less, ok_bind, ih]
    by_cases hxy : x < y
    · rw [if_pos (decide_eq_true hxy), List.orderedInsert_of_not_le (r := (· ≥ ·)) ys (not_le.2 hxy)]
      rfl
    · rw [if_neg (by simpa using hxy),
        List.orderedInsert_cons_of_le (r := (· ≥ ·)) ys (not_lt.1 hxy)]
      rfl

/-- **Sorting by insertion** puts every item into those behind it, from the last one on. -/
theorem insertion_less (items : List β) :
    insertion less items = .ok (items.reverse.insertionSort (· ≥ ·)).reverse := by
  have hfold : ∀ (items done : List β),
      items.foldlM (fun done x => insertFromEnd less x done) done
        = (.ok (items.foldl (fun done x => done.orderedInsert (· ≥ ·) x) done) : Except Fault _) := by
    intro items
    induction items with
    | nil => exact fun done => rfl
    | cons x items ih =>
      intro done
      rw [List.foldlM_cons, insertFromEnd_less, ok_bind, ih, List.foldl_cons]
  rw [insertion, insertAll, hfold, List.reverse_nil, ← List.foldr_reverse]
  rfl

/-- Items in order compare as their ranks do. -/
theorem ranksBelow_less {x last : β} (hlast : x ≤ last)
    (h : (last :: items).Pairwise (· ≤ ·)) :
    ranksBelow less x last (decide (x < last)) items = .ok true := by
  induction items generalizing last with
  | nil => rfl
  | cons y items ih =>
    obtain ⟨hbelow, h⟩ := List.pairwise_cons.1 h
    have hy : last ≤ y := hbelow y List.mem_cons_self
    have habove : (decide (x < last) || decide (last < y)) = decide (x < y) := by
      rw [Bool.eq_iff_iff, Bool.or_eq_true, decide_eq_true_iff, decide_eq_true_iff,
        decide_eq_true_iff]
      constructor
      · rintro (hlt | hlt)
        · exact hlt.trans_le hy
        · exact hlast.trans_lt hlt
      · intro hlt
        rcases hlast.lt_or_eq with hlt' | rfl
        · exact .inl hlt'
        · exact .inr hlt
    have hback : decide (y < x) = false := decide_eq_false (not_lt.2 (hlast.trans hy))
    rw [ranksBelow]
    simp only [less, ok_bind, habove, hback, Bool.not_false, and_self, if_true]
    exact ih (hlast.trans hy) h

theorem isRanked_less (h : items.Pairwise (· ≤ ·)) : isRanked less items = .ok true := by
  induction items with
  | nil => rfl
  | cons x items ih =>
    have hbelow := ranksBelow_less le_rfl h
    rw [decide_eq_false (lt_irrefl x)] at hbelow
    rw [isRanked, hbelow, ok_bind, if_pos rfl, ih (List.pairwise_cons.1 h).2]

/-- Items of a linear order are sorted by insertion, however many there are. -/
theorem consistent?_less (items : List β) :
    consistent? less items = some (items.reverse.insertionSort (· ≥ ·)).reverse := by
  have hsorted : (items.reverse.insertionSort (· ≥ ·)).reverse.Pairwise (· ≤ ·) :=
    List.pairwise_reverse.2 (List.pairwise_insertionSort (· ≥ ·) items.reverse)
  rw [consistent?, insertion_less]
  simp only [Except.toOption, Option.bind_eq_bind, Option.bind_some, isRanked_less hsorted, if_true]

/-- Items of a linear order can be sorted and are in order afterwards. -/
theorem stable_less (narrow : Bool) (items : List β) :
    ∃ out, stable less narrow items = .ok out ∧ out.Pairwise (· ≤ ·) := by
  refine ⟨(items.reverse.insertionSort (· ≥ ·)).reverse, ?_,
    List.pairwise_reverse.2 (List.pairwise_insertionSort (· ≥ ·) items.reverse)⟩
  rw [stable, insertion_less, consistent?_less]
  split <;> rfl

end Linear

section Ranks

variable {α β : Type} [LinearOrder β] {before : α → α → Except Fault Bool} {rank : α → β}
  {items : List α} (narrow : Bool)
  (h : ∀ a ∈ items, ∀ b ∈ items, before a b = .ok (decide (rank a < rank b)))

include h

theorem matches_less : Matches (fun a n => rank a = n ∧ a ∈ items) before less := by
  rintro a _ ⟨rfl, ha⟩ b _ ⟨rfl, hb⟩
  exact h a ha b hb

/-- **Items are sorted by their ranks**: where every comparison is one of ranks, none
faults, and items come after those of lower rank. -/
theorem stable_of_ranks :
    ∃ out, stable before narrow items = .ok out ∧ out.Perm items ∧
      out.Pairwise fun a b => rank a ≤ rank b := by
  have halike : Alike _ (stable before narrow items) (stable less narrow (items.map rank)) :=
    stable_alike (matches_less h)
      (List.forall₂_map_right_iff.2 (List.forall₂_same.2 fun a ha => ⟨rfl, ha⟩))
  obtain ⟨ranks, hranks, hsorted⟩ := stable_less narrow (items.map rank)
  rw [hranks] at halike
  generalize hout : stable before narrow items = result at halike
  cases halike with
  | @ok out _ hout' =>
    refine ⟨out, rfl, stable_perm hout, ?_⟩
    obtain rfl : ranks = out.map rank := eq_map_of_forall₂ hout' fun _ _ hr => hr.1.symm
    exact List.pairwise_map.1 hsorted

/-- They are sorted by insertion. -/
theorem stable_eq_insertion : stable before narrow items = insertion before items := by
  rw [stable]
  split
  · rfl
  have hrel : Option.Rel _ (consistent? before items) (consistent? less (items.map rank)) :=
    consistent?_alike (matches_less h)
      (List.forall₂_map_right_iff.2 (List.forall₂_same.2 fun a ha => ⟨rfl, ha⟩))
  rw [consistent?_less] at hrel
  generalize hfound : consistent? before items = found at hrel
  cases hrel with
  | @some out _ _ => exact (insertion_of_consistent? hfound).symm

end Ranks

end Sorting

/-- One row has to precede another by a time if its own is later. -/
theorem precedes_latest {column : Nat} {a b : Row} {s t : Int} (ha : a.timeAt column = some s)
    (hb : b.timeAt column = some t) :
    precedes [⟨column, .descending⟩] a b = .ok (decide (t < s)) := by
  have hitem : ∀ {row : Row} {u : Int}, row.timeAt column = some u →
      itemAt row column = .ok (.timestamp u) := fun h => itemAt_eq_ok.2 (Row.timeAt_eq_some.1 h)
  have horder : Direction.descending.compare (.timestamp s) (.timestamp t) = compare t s :=
    Int.compare_swap s t
  rw [precedes, compareRows, hitem ha, hitem hb, ok_bind, ok_bind, horder]
  rcases lt_trichotomy t s with hlt | rfl | hlt
  · rw [compare_lt_iff_lt.2 hlt, decide_eq_true hlt]
    rfl
  · rw [compare_eq_iff_eq.2 rfl, decide_eq_false (lt_irrefl t)]
    rfl
  · rw [compare_gt_iff_gt.2 hlt, decide_eq_false (lt_asymm hlt)]
    rfl

/-- **Rows with a time each** can be sorted by it, the latest first. -/
theorem sortRows_latest {column : Nat} {rows : List Row}
    (h : ∀ row ∈ rows, ∃ t, row.timeAt column = some t) :
    ∃ out, sortRows [⟨column, .descending⟩] rows = .ok out ∧ out.Perm rows ∧
      out.Pairwise fun a b => ∀ s t, a.timeAt column = some s → b.timeAt column = some t → t ≤ s := by
  have hranks : ∀ a ∈ rows, ∀ b ∈ rows, precedes [⟨column, .descending⟩] a b
      = .ok (decide (-(a.timeAt column).getD 0 < -(b.timeAt column).getD 0)) := by
    intro a ha b hb
    obtain ⟨s, hs⟩ := h a ha
    obtain ⟨t, ht⟩ := h b hb
    rw [precedes_latest hs ht, hs, ht]
    exact congrArg _ (decide_eq_decide.2 Int.neg_lt_neg_iff.symm)
  obtain ⟨out, hout, hperm, hsorted⟩ := Sorting.stable_of_ranks false hranks
  refine ⟨out, hout, hperm, hsorted.imp fun hle s t hs ht => ?_⟩
  rw [hs, ht] at hle
  exact Int.neg_le_neg_iff.1 hle

end StreamPlan
