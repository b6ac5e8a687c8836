import StreamPlan.Columns.Lists
import StreamPlan.Columns.SortOrder
import StreamPlan.Proofs.Outcome

/-!
# Where columns stand

* `find_position`, `position_of_mem`: a column found in a list stands there, and
  a column of the list is found.
* `Selection.append_eq`, `append_range`: keeping more columns leaves those
  already kept in place, and goes on with the range of their positions.
* `SortOrder.columns_moved`, …: what happens to the columns of a sort order.
* `MovedTo`, `SortKey.MovedTo`: columns and sort keys where a list of columns has
  them; `forall₂_movedTo_range`, `forall₂_movedTo`: lists of them.
-/

namespace StreamPlan

section Position

variable {xs : List Nat} {c i : Nat}

theorem find_position (h : xs.findIdx? (· == c) = some i) : xs[i]? = some c := by
  obtain ⟨hi, hc, -⟩ := List.findIdx?_eq_some_iff_getElem.1 h
  rw [List.getElem?_eq_getElem hi]
  simpa using hc

theorem position_lt (h : xs.findIdx? (· == c) = some i) : i < xs.length :=
  (List.getElem?_eq_some_iff.1 (find_position h)).1

theorem mem_of_position (h : xs.findIdx? (· == c) = some i) : c ∈ xs :=
  List.mem_of_getElem? (find_position h)

theorem position_of_mem (h : c ∈ xs) : ∃ i, xs.findIdx? (· == c) = some i := by
  have : (xs.findIdx? (· == c)).isSome := by
    rw [List.findIdx?_isSome, List.any_eq_true]
    exact ⟨c, h, by simp⟩
  exact Option.isSome_iff_exists.1 this

/-- The first position of a column in a list that goes on is the one in its front. -/
theorem position_append_left {ys : List Nat} (h : c ∈ xs) :
    (xs ++ ys).findIdx? (· == c) = xs.findIdx? (· == c) := by
  obtain ⟨i, hi⟩ := position_of_mem h
  rw [List.findIdx?_append, hi]
  rfl

theorem position_append_right {ys : List Nat} (h : c ∉ xs) :
    (xs ++ ys).findIdx? (· == c) = (ys.findIdx? (· == c)).map (· + xs.length) := by
  have hnone : xs.findIdx? (· == c) = none := by
    rw [List.findIdx?_eq_none_iff]
    rintro x hx
    simpa using fun he : x = c => h (he ▸ hx)
  rw [List.findIdx?_append, hnone]
  rfl

/-- Columns that are in line stand where they are. -/
theorem position_range {width : Nat} (h : c < width) :
    Selection.position? (List.range width) c = some c := by
  obtain ⟨i, hi⟩ := position_of_mem (List.mem_range.2 h)
  have hget := find_position hi
  rw [List.getElem?_range (by simpa using position_lt hi)] at hget
  rw [Selection.position?, hi, Option.some.inj hget]

/-- What an association list gives is one of its pairs. -/
theorem mem_of_lookup {α β : Type} [BEq α] [LawfulBEq α] {pairs : List (α × β)} {a : α} {b : β}
    (h : pairs.lookup a = some b) : (a, b) ∈ pairs := by
  obtain ⟨l₁, l₂, rfl, -⟩ := List.lookup_eq_some_iff.1 h
  simp

end Position

/-- A column moved to where a list of columns has it first. -/
def MovedTo (columns : List Nat) (c i : Nat) : Prop := Selection.position? columns c = some i

/-- A sort key moved with its column. -/
def SortKey.MovedTo (columns : List Nat) (key moved : SortKey) : Prop :=
  StreamPlan.MovedTo columns key.column moved.column ∧ moved.direction = key.direction

namespace Selection

theorem append_append (kept xs ys : List Nat) :
    append kept (xs ++ ys) = append (append kept xs) ys := by
  simp [append, List.foldl_append]

/-- Keeping more columns leaves those already kept where they are. -/
theorem append_eq (kept columns : List Nat) :
    ∃ added, append kept columns = kept ++ added ∧ added.Nodup ∧ ∀ c ∈ added, c ∉ kept := by
  induction columns generalizing kept with
  | nil => exact ⟨[], by simp [append]⟩
  | cons x xs ih =>
    obtain ⟨added, heq, hnd, hnew⟩ := ih (add kept x)
    have hstep : append kept (x :: xs) = append (add kept x) xs := rfl
    by_cases hx : kept.contains x = true
    · have hadd : add kept x = kept := by rw [add, if_pos hx]
      rw [hadd] at heq hnew
      exact ⟨added, by rw [hstep, hadd, heq], hnd, hnew⟩
    · have hadd : add kept x = kept ++ [x] := by rw [add, if_neg hx]
      rw [hadd] at heq hnew
      refine ⟨x :: added, by rw [hstep, hadd, heq]; simp, ?_, ?_⟩
      · refine List.nodup_cons.2 ⟨fun hmem => hnew x hmem (by simp), hnd⟩
      · intro c hc
        rcases List.mem_cons.1 hc with rfl | hc
        · simpa using hx
        · exact fun hk => hnew c hc (List.mem_append_left _ hk)

/-- Columns that are kept already are not kept again. -/
theorem append_of_mem {kept columns : List Nat} (h : ∀ c ∈ columns, c ∈ kept) :
    append kept columns = kept := by
  induction columns with
  | nil => rfl
  | cons x xs ih =>
    obtain ⟨hx, hxs⟩ := List.forall_mem_cons.1 h
    rw [show append kept (x :: xs) = append (add kept x) xs from rfl, add,
      if_pos (List.contains_iff_mem.2 hx), ih hxs]

/-- New columns without repeats are kept as they are. -/
theorem append_of_fresh {kept columns : List Nat} (h : columns.Nodup)
    (hnew : ∀ c ∈ columns, c ∉ kept) : append kept columns = kept ++ columns := by
  induction columns generalizing kept with
  | nil => exact (List.append_nil kept).symm
  | cons c columns ih =>
    obtain ⟨hc, hrest⟩ := List.nodup_cons.1 h
    have hadd : add kept c = kept ++ [c] := by
      rw [add, if_neg fun hmem => hnew c List.mem_cons_self (List.contains_iff_mem.1 hmem)]
    rw [show append kept (c :: columns) = append (add kept c) columns from rfl, hadd, ih hrest,
      List.append_assoc, List.singleton_append]
    intro d hd hmem
    rcases List.mem_append.1 hmem with hmem | hmem
    · exact hnew d (List.mem_cons_of_mem c hd) hmem
    · exact hc (List.mem_singleton.1 hmem ▸ hd)

theorem nodup_append {kept columns : List Nat} (h : kept.Nodup) : (append kept columns).Nodup := by
  obtain ⟨added, heq, hnd, hnew⟩ := append_eq kept columns
  rw [heq, List.nodup_append]
  exact ⟨h, hnd, fun a ha b hb hab => hnew b hb (hab ▸ ha)⟩

/-- Columns kept at their first positions go on with the range of the positions
already taken. -/
theorem append_range {kept columns moved : List Nat}
    (h : List.Forall₂ (MovedTo (append kept columns)) columns moved) :
    append (List.range kept.length) moved = List.range (append kept columns).length := by
  induction columns generalizing kept moved with
  | nil =>
    cases h
    rfl
  | cons c cs ih =>
    obtain _ | ⟨hi, hrest⟩ := h
    rename_i i is
    have hstep : add (List.range kept.length) i = List.range (add kept c).length := by
      -- the first position of the column is the one in the list kept so far
      obtain ⟨added, hadded, -⟩ := append_eq (add kept c) cs
      rw [MovedTo, position?, show append kept (c :: cs) = append (add kept c) cs from rfl, hadded,
        position_append_left (mem_add.2 (.inr rfl))] at hi
      by_cases hc : kept.contains c = true
      · rw [add, if_pos hc] at hi
        rw [show add kept c = kept by rw [add, if_pos hc], add,
          if_pos (List.contains_iff_mem.2 (List.mem_range.2 (position_lt hi)))]
      · have hnot : c ∉ kept := fun hmem => hc (List.contains_iff_mem.2 hmem)
        rw [add, if_neg hc, position_append_right hnot] at hi
        obtain rfl : kept.length = i := by simpa using hi
        have hfresh : ¬(List.range kept.length).contains kept.length = true :=
          fun h => Nat.lt_irrefl _ (List.mem_range.1 (List.contains_iff_mem.1 h))
        rw [add, if_neg hfresh, add, if_neg hc, List.length_append, List.length_singleton,
          List.range_succ]
    rw [show append (List.range kept.length) (i :: is) = append (add (List.range kept.length) i) is
      from rfl, hstep, ih hrest]
    rfl

theorem position?_of_mem {kept : List Nat} {c : Nat} (h : c ∈ kept) :
    ∃ i, position? kept c = some i ∧ i < kept.length := by
  obtain ⟨i, hi⟩ := position_of_mem h
  exact ⟨i, hi, position_lt hi⟩

end Selection

namespace Ascending

theorem find_position? {xs : List Nat} {c i : Nat} (h : position? xs c = some i) :
    xs[i]? = some c := find_position h

theorem position?_of_mem {xs : List Nat} {c : Nat} (h : c ∈ xs) :
    ∃ i, position? xs c = some i ∧ i < xs.length := by
  obtain ⟨i, hi⟩ := position_of_mem h
  exact ⟨i, hi, position_lt hi⟩

theorem getElem?_idxOf {xs : List Nat} {c : Nat} (h : c ∈ xs) : xs[xs.idxOf c]? = some c := by
  rw [List.getElem?_eq_getElem (List.idxOf_lt_length_of_mem h), List.getElem_idxOf]

/-- Inserting keeps a list strictly ascending. -/
theorem pairwise_insert {x : Nat} {xs : List Nat} (h : xs.Pairwise (· < ·)) :
    (insert x xs).Pairwise (· < ·) := by
  induction xs with
  | nil => simp [insert]
  | cons y ys ih =>
    obtain ⟨hy, hys⟩ := List.pairwise_cons.1 h
    unfold insert
    split
    · rename_i hxy
      refine List.pairwise_cons.2 ⟨fun z hz => ?_, h⟩
      rcases List.mem_cons.1 hz with rfl | hz
      · exact hxy
      · exact Nat.lt_trans hxy (hy z hz)
    · rename_i hxy
      split
      · exact h
      · refine List.pairwise_cons.2 ⟨fun z hz => ?_, ih hys⟩
        rcases mem_insert.1 hz with rfl | hz
        · omega
        · exact hy z hz

theorem pairwise_ofList (xs : List Nat) : (ofList xs).Pairwise (· < ·) := by
  induction xs with
  | nil => simp [ofList]
  | cons x xs ih =>
    rw [show ofList (x :: xs) = insert x (ofList xs) from rfl]
    exact pairwise_insert ih

/-- A strictly ascending list is known by its members. -/
theorem eq_of_mem_iff {xs ys : List Nat} (hx : xs.Pairwise (· < ·)) (hy : ys.Pairwise (· < ·))
    (h : ∀ c, c ∈ xs ↔ c ∈ ys) : xs = ys := by
  have hp : xs.Perm ys := by
    refine (List.perm_ext_iff_of_nodup ?_ ?_).2 h
    · exact hx.imp Nat.ne_of_lt
    · exact hy.imp Nat.ne_of_lt
  exact hp.eq_of_pairwise (fun a b _ _ hab hba => absurd hab (by omega)) hx hy

end Ascending

/-- A list whose members are the numbers below `k` is dense. -/
theorem isDenseRange_of_mem_iff {xs : List Nat} {k : Nat} (h : ∀ c, c ∈ xs ↔ c < k) :
    isDenseRange xs = true := by
  have heq : Ascending.ofList xs = List.range k := by
    refine Ascending.eq_of_mem_iff (Ascending.pairwise_ofList xs) List.pairwise_lt_range ?_
    intro c
    rw [Ascending.mem_ofList, h, List.mem_range]
  simp [isDenseRange, heq]

/-- The members of a dense list are the numbers below some number. -/
theorem mem_iff_of_isDenseRange {xs : List Nat} (h : isDenseRange xs = true) :
    ∃ k, ∀ c, c ∈ xs ↔ c < k := by
  refine ⟨(Ascending.ofList xs).length, fun c => ?_⟩
  have heq : Ascending.ofList xs = List.range (Ascending.ofList xs).length := by
    simpa [isDenseRange] using h
  rw [← Ascending.mem_ofList, heq, List.mem_range, ← heq]

namespace SortOrder

theorem columns_moved (order : SortOrder) (f : Nat → Option Nat) :
    columns (order.moved f) = (columns order).map fun c => (f c).getD c := by
  simp [columns, moved]

theorem columns_shift (order : SortOrder) (offset : Nat) :
    columns (order.shift offset) = (columns order).map (offset + ·) := by
  simp [columns, shift]

theorem mem_columns_extend {order : SortOrder} {key : SortKey} {c : Nat} :
    c ∈ columns (order.extend key) ↔ c ∈ columns order ∨ c = key.column := by
  unfold extend
  split
  · rename_i hmem
    refine ⟨.inl, ?_⟩
    rintro (hc | rfl)
    · exact hc
    · exact List.contains_iff_mem.1 hmem
  · simp [columns]

/-- A column of a joined order is one of either order. -/
theorem mem_columns_join {first second : SortOrder} {c : Nat} :
    c ∈ columns (first.join second) ↔ c ∈ columns first ∨ c ∈ columns second := by
  unfold join
  induction second generalizing first with
  | nil => simp [columns]
  | cons key rest ih =>
    rw [List.foldl_cons, ih, mem_columns_extend, or_assoc]
    simp [columns]

end SortOrder

theorem movedTo_range {c width : Nat} (h : c < width) : MovedTo (List.range width) c c :=
  position_range h

theorem forall₂_movedTo_range {columns : List Nat} {width : Nat} (h : ∀ c ∈ columns, c < width) :
    List.Forall₂ (MovedTo (List.range width)) columns columns :=
  List.forall₂_same.2 fun c hc => movedTo_range (h c hc)

theorem forall₂_keyMovedTo_range {order : SortOrder} {width : Nat}
    (h : ∀ c ∈ SortOrder.columns order, c < width) :
    List.Forall₂ (SortKey.MovedTo (List.range width)) order order :=
  List.forall₂_same.2 fun _ hk => ⟨movedTo_range (h _ (List.mem_map_of_mem hk)), rfl⟩

/-- A kept column moves to its position. -/
theorem movedTo_getD {c : Nat} {columns : List Nat} (h : c ∈ columns) :
    MovedTo columns c ((Selection.position? columns c).getD c) := by
  obtain ⟨i, hi, -⟩ := Selection.position?_of_mem h
  rw [MovedTo, hi, Option.getD_some]

theorem forall₂_movedTo {front columns : List Nat} (h : ∀ c ∈ front, c ∈ columns) :
    List.Forall₂ (MovedTo columns) front
      (front.map fun c => (Selection.position? columns c).getD c) :=
  List.forall₂_map_right_iff.2 (List.forall₂_same.2 fun c hc => movedTo_getD (h c hc))

theorem forall₂_keyMovedTo {order : SortOrder} {columns : List Nat}
    (h : ∀ c ∈ SortOrder.columns order, c ∈ columns) :
    List.Forall₂ (SortKey.MovedTo columns) order
      (SortOrder.moved order (Selection.position? columns)) :=
  List.forall₂_map_right_iff.2
    (List.forall₂_same.2 fun _ hk => ⟨movedTo_getD (h _ (List.mem_map_of_mem hk)), rfl⟩)

/-- Columns that moved are columns of the list. -/
theorem lt_of_movedTo {columns front moved : List Nat}
    (h : List.Forall₂ (MovedTo columns) front moved) : ∀ i ∈ moved, i < columns.length := by
  intro i hi
  obtain ⟨n, hn, rfl⟩ := List.getElem_of_mem hi
  have hn' : n < front.length := h.length_eq ▸ hn
  exact position_lt ((List.forall₂_iff_get.1 h).2 n hn' hn)

theorem columns_of_keyMovedTo {columns : List Nat} {order moved : SortOrder}
    (h : List.Forall₂ (SortKey.MovedTo columns) order moved) :
    List.Forall₂ (MovedTo columns) (SortOrder.columns order) (SortOrder.columns moved) :=
  List.forall₂_map_left_iff.2 <| List.forall₂_map_right_iff.2 <| h.imp fun _ _ hk => hk.1

end StreamPlan
