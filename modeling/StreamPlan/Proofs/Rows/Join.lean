import Mathlib.Data.List.Perm.Basic
import StreamPlan.Proofs.Rows.Evaluate

/-!
# Joined rows under other columns

* `joinedWith_map`: the joined rows of a left row, seen through columns of each side.
* `filter_flatMap_of_left`: a filter that only looks at the left side.
* `flatMap_filter_comm`: **a nested loop** meets the same pairs whichever side
  it goes through first.
-/

namespace StreamPlan

variable {now : Int}

section Loops

variable {α β γ : Type}

/-- A filter above a loop that only looks at what the loop goes through. -/
theorem filter_flatMap_of_left {f : α → List β} {p : α → Bool} {q : β → Bool} {xs : List α}
    (h : ∀ x ∈ xs, ∀ y ∈ f x, q y = p x) : (xs.flatMap f).filter q = (xs.filter p).flatMap f := by
  induction xs with
  | nil => rfl
  | cons x xs ih =>
    obtain ⟨hx, hxs⟩ := List.forall_mem_cons.1 h
    rw [List.flatMap_cons, List.filter_append, ih hxs]
    by_cases hp : p x = true
    · rw [List.filter_cons_of_pos hp, List.flatMap_cons,
        List.filter_eq_self.2 fun y hy => (hx y hy).trans hp]
    · rw [List.filter_cons_of_neg hp, List.filter_eq_nil_iff.2 fun y hy => by rw [hx y hy]; exact hp,
        List.nil_append]

/-- **A nested loop** meets the same pairs whichever side it goes through first. -/
theorem flatMap_filter_comm (p : α → β → Bool) (f : α → β → γ) (xs : List α) (ys : List β) :
    (xs.flatMap fun x => (ys.filter (p x)).map (f x)).Perm
      (ys.flatMap fun y => (xs.filter (p · y)).map (f · y)) := by
  induction xs with
  | nil => simp
  | cons x xs ih =>
    have hone : (ys.filter (p x)).map (f x) = ys.flatMap fun y => if p x y then [f x y] else [] := by
      clear ih
      induction ys with
      | nil => rfl
      | cons y ys ih =>
        rw [List.flatMap_cons, ← ih, List.filter_cons]
        split <;> rfl
    have hsplit : (ys.flatMap fun y => ((x :: xs).filter (p · y)).map (f · y))
        = ys.flatMap fun y => (if p x y then [f x y] else []) ++ (xs.filter (p · y)).map (f · y) := by
      refine congrArg (ys.flatMap ·) (funext fun y => ?_)
      rw [List.filter_cons]
      split <;> rfl
    rw [List.flatMap_cons, hsplit, hone]
    exact (ih.append_left _).trans (List.flatMap_append_perm ys _ _)

end Loops

variable {kind : JoinKind} {rebuilt condition : Expr} {width shown : Nat} {right : List Row}
  {l : Row} {f g h : Row → Row}

/-- A joined row starts with its left row. -/
theorem front_of_joinedWith {row : Row}
    (h : row ∈ joinedWith now kind condition width right l) : ∃ rest, row = l ++ rest := by
  rw [joinedWith] at h
  split at h
  · exact ⟨_, List.mem_singleton.1 h⟩
  · obtain ⟨r, -, rfl⟩ := List.mem_map.1 h
    exact ⟨r, rfl⟩

/-- A left row is joined with every right row that the condition is true with. -/
theorem mem_joinedWith {r : Row} (hr : r ∈ right) (h : trueOn now condition (l ++ r) = true) :
    l ++ r ∈ joinedWith now kind condition width right l := by
  have hmem : l ++ r ∈ (right.filter fun r => trueOn now condition (l ++ r)).map (l ++ ·) :=
    List.mem_map_of_mem (List.mem_filter.2 ⟨hr, h⟩)
  rw [joinedWith]
  refine if_neg (fun hnone => ?_) ▸ hmem
  rw [Bool.and_eq_true, List.isEmpty_iff] at hnone
  rw [hnone.1] at hmem
  cases hmem

/-- The joined rows of a left row, seen through columns of each side. -/
theorem joinedWith_map (hpair : ∀ r ∈ right, f (l ++ r) = g l ++ h r)
    (hpad : f (l ++ padding width) = g l ++ padding shown)
    (htrue : ∀ r ∈ right, trueOn now condition (g l ++ h r) = trueOn now rebuilt (l ++ r)) :
    (joinedWith now kind rebuilt width right l).map f
      = joinedWith now kind condition shown (right.map h) (g l) := by
  have hfound : ((right.map h).filter fun r => trueOn now condition (g l ++ r)).map (g l ++ ·)
      = ((right.filter fun r => trueOn now rebuilt (l ++ r)).map (l ++ ·)).map f := by
    rw [List.filter_map, List.map_map, List.map_map]
    have hsame : right.filter ((fun r => trueOn now condition (g l ++ r)) ∘ h)
        = right.filter fun r => trueOn now rebuilt (l ++ r) :=
      List.filter_congr fun r hr => htrue r hr
    rw [hsame]
    exact List.map_congr_left fun r hr => (hpair r (List.mem_filter.1 hr).1).symm
  rw [joinedWith, joinedWith, hfound]
  generalize (right.filter fun r => trueOn now rebuilt (l ++ r)).map (l ++ ·) = found
  rw [List.isEmpty_map]
  split
  · rw [List.map_cons, List.map_nil, hpad]
  · rfl

/-- The joined rows of all left rows, seen through columns of each side. -/
theorem flatMap_joinedWith_map {left : List Row}
    (hpair : ∀ l ∈ left, ∀ r ∈ right, f (l ++ r) = g l ++ h r)
    (hpad : ∀ l ∈ left, f (l ++ padding width) = g l ++ padding shown)
    (htrue : ∀ l ∈ left, ∀ r ∈ right,
      trueOn now condition (g l ++ h r) = trueOn now rebuilt (l ++ r)) :
    (left.flatMap (joinedWith now kind rebuilt width right)).map f
      = (left.map g).flatMap (joinedWith now kind condition shown (right.map h)) := by
  rw [List.map_flatMap, List.flatMap_map]
  refine List.flatMap_congr fun l hl => ?_
  exact joinedWith_map (hpair l hl) (hpad l hl) (htrue l hl)

/-- Without outer rows, the joined rows of a left row are those of its partners. -/
theorem joinedWith_inner (l : Row) : joinedWith now .inner condition width right l
    = (right.filter fun r => trueOn now condition (l ++ r)).map (l ++ ·) := by
  rw [joinedWith]
  simp [JoinKind.keepsLeft]

/-- **A join of swapped sides** has the same rows in another order, seen through
columns of each side. -/
theorem flatMap_joinedWith_swap {left : List Row}
    (hpair : ∀ l ∈ left, ∀ r ∈ right, f (r ++ l) = g l ++ h r)
    (htrue : ∀ l ∈ left, ∀ r ∈ right,
      trueOn now condition (g l ++ h r) = trueOn now rebuilt (r ++ l)) :
    ((right.flatMap (joinedWith now .inner rebuilt width left)).map f).Perm
      ((left.map g).flatMap (joinedWith now .inner condition shown (right.map h))) := by
  have hleft : (left.map g).flatMap (joinedWith now .inner condition shown (right.map h))
      = left.flatMap fun l =>
        (right.filter fun r => trueOn now rebuilt (r ++ l)).map fun r => f (r ++ l) := by
    rw [List.flatMap_map]
    refine List.flatMap_congr fun l hl => ?_
    rw [joinedWith_inner, List.filter_map, List.map_map]
    have hsame : right.filter ((fun r => trueOn now condition (g l ++ r)) ∘ h)
        = right.filter fun r => trueOn now rebuilt (r ++ l) :=
      List.filter_congr fun r hr => htrue l hl r hr
    rw [hsame]
    exact List.map_congr_left fun r hr => (hpair l hl r (List.mem_filter.1 hr).1).symm
  rw [hleft, List.map_flatMap]
  simp only [joinedWith_inner, List.map_map]
  exact flatMap_filter_comm (fun r l => trueOn now rebuilt (r ++ l)) (fun r l => f (r ++ l)) right left

end StreamPlan
