/-!
# Lists of columns

A projection that keeps some columns of its input is the list of these
columns. The new position of a column is where it first stands in the list.
Sets of columns are kept as ascending lists without repeats.

* `Selection.append`: keeps more columns behind those already kept.
* `Selection.position?`: the new position of a column.
* `Ascending.insert`, `Ascending.ofList`: building a set. `mem_ofList` says no
  column is lost or made up.
* `isDenseRange`: the distinct columns are `0, 1, …, k - 1` for some `k`.
-/

namespace StreamPlan

namespace Selection

/-- Keeps a column behind the others unless it is kept already. -/
def add (kept : List Nat) (column : Nat) : List Nat :=
  if kept.contains column then kept else kept ++ [column]

/-- Keeps columns in order, each unless it is kept already. -/
def append (kept columns : List Nat) : List Nat := columns.foldl add kept

/-- The new position of a column. -/
def position? (kept : List Nat) (column : Nat) : Option Nat := kept.findIdx? (· == column)

theorem mem_add {kept : List Nat} {x c : Nat} : c ∈ add kept x ↔ c ∈ kept ∨ c = x := by
  unfold add
  split <;> rename_i h
  · constructor
    · exact .inl
    · rintro (hc | rfl)
      · exact hc
      · simpa using h
  · simp

theorem mem_append {columns kept : List Nat} {c : Nat} :
    c ∈ append kept columns ↔ c ∈ kept ∨ c ∈ columns := by
  induction columns generalizing kept with
  | nil => simp [append]
  | cons x xs ih =>
    rw [show append kept (x :: xs) = append (add kept x) xs from rfl, ih, mem_add, or_assoc,
      List.mem_cons]

end Selection

namespace Ascending

/-- Puts a column in its place, unless it is there already. -/
def insert (x : Nat) : List Nat → List Nat
  | [] => [x]
  | y :: ys => if x < y then x :: y :: ys else if x = y then y :: ys else y :: insert x ys

/-- The distinct columns of a list in ascending order. -/
def ofList (xs : List Nat) : List Nat := xs.foldr insert []

theorem mem_insert {x a : Nat} {xs : List Nat} : a ∈ insert x xs ↔ a = x ∨ a ∈ xs := by
  induction xs with
  | nil => simp [insert]
  | cons y ys ih =>
    unfold insert
    split
    · simp
    · split
      · simp_all
      · simp only [List.mem_cons, ih, or_left_comm]

theorem mem_ofList {a : Nat} {xs : List Nat} : a ∈ ofList xs ↔ a ∈ xs := by
  induction xs with
  | nil => simp [ofList]
  | cons x xs ih =>
    rw [show ofList (x :: xs) = insert x (ofList xs) from rfl, mem_insert, ih, List.mem_cons]

/-- The position of a column in an ascending list. -/
def position? (xs : List Nat) (column : Nat) : Option Nat := xs.findIdx? (· == column)

end Ascending

/-- Whether the distinct columns of a list form a range that starts at zero. -/
def isDenseRange (xs : List Nat) : Bool :=
  let distinct := Ascending.ofList xs
  distinct == List.range distinct.length

end StreamPlan
