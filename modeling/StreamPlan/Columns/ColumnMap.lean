import StreamPlan.Arithmetic
import StreamPlan.Columns.Lists

/-!
# Column maps

Where each column of a logical row ended up inside a relation. The sources of
a map are the positions `0, 1, …, sources - 1`; its targets are columns of a
relation of `width` columns and need not be distinct. That every target is
such a column is part of the type, so an operation either keeps it or faults.

* `ColumnMap.of`, `identityInto`, `empty`: the maps to start from.
* `compose`, `append`, `join`, `remap`, `tryRemap`: the maps to go on with.
* `isPermutation`, `isTrivial`, `isDense`: what a map may turn out to be.
-/

namespace StreamPlan

/-- A map from the positions `0, 1, …` to columns of a relation of `width` columns. -/
structure ColumnMap where
  targets : List Nat
  width : Nat
  targets_lt : ∀ t ∈ targets, t < width
  deriving DecidableEq, Repr

namespace ColumnMap

/-- The map with the given targets. Faults at the first target outside the relation. -/
def of (targets : List Nat) (width : Nat) : Except Fault ColumnMap :=
  match h : targets.find? (fun t => decide (width ≤ t)) with
  | some bad => .error (.targetOutside bad width)
  | none => .ok ⟨targets, width, fun t ht => by simpa using List.find?_eq_none.1 h t ht⟩

/-- The first `n` columns of a relation of `width` columns. -/
def identityInto (n width : Nat) : Except Fault ColumnMap :=
  if h : n ≤ width then do
    Position.checkCount n
    return ⟨List.range n, width, fun _ ht => Nat.lt_of_lt_of_le (List.mem_range.1 ht) h⟩
  else
    .error (.identityTooWide n width)

/-- All columns of a relation of `n` columns. -/
def identity (n : Nat) : ColumnMap := ⟨List.range n, n, fun _ ht => List.mem_range.1 ht⟩

/-- The map without sources. -/
def empty (width : Nat) : ColumnMap := ⟨[], width, by simp⟩

/-- The number of sources. -/
def sources (m : ColumnMap) : Nat := m.targets.length

/-- The target of a position, if the map has one. -/
def get? (m : ColumnMap) (position : Nat) : Option Nat := m.targets[position]?

/-- The target of a position. Faults past the sources. -/
def apply (m : ColumnMap) (position : Nat) : Except Fault Nat :=
  match m.targets[position]? with
  | some t => .ok t
  | none => .error (.sourceOutside position m.sources)

/-- One map after another: `i` goes to `next (m i)`. -/
def compose (m next : ColumnMap) : Except Fault ColumnMap := do
  of (← m.targets.mapM next.apply) next.width

/-- Both maps side by side, the second at an `offset` past the first. -/
def beside (m other : ColumnMap) (offset : Nat) (h : m.width ≤ offset) : ColumnMap where
  targets := m.targets ++ other.targets.map (offset + ·)
  width := offset + other.width
  targets_lt t ht := by
    rcases List.mem_append.1 ht with ht | ht
    · have := m.targets_lt t ht; omega
    · obtain ⟨u, hu, rfl⟩ := List.mem_map.1 ht
      have := other.targets_lt u hu; omega

/-- Both maps side by side, if the `offset` is past the first. -/
def joinAt (m other : ColumnMap) (offset : Nat) : Except Fault ColumnMap :=
  if h : m.width ≤ offset then .ok (m.beside other offset h)
  else .error (.joinOverlap offset m.width)

/-- Both maps side by side, into a relation whose width is a position. -/
def join (m other : ColumnMap) (offset : Nat) : Except Fault ColumnMap := do
  let joined ← m.joinAt other offset
  let _ ← Position.add offset other.width
  return joined

/-- Both maps side by side, the second right after the first. -/
def append (m other : ColumnMap) : Except Fault ColumnMap := m.join other m.width

/-- The same targets and some more, into a relation of `width` columns. -/
def extend (m : ColumnMap) (added : List Nat) (width : Nat) : Except Fault ColumnMap :=
  of (m.targets ++ added) width

/-- Every target replaced through `f`, into a relation of `width` columns. -/
def remap (m : ColumnMap) (width : Nat) (f : Nat → Except Fault Nat) : Except Fault ColumnMap := do
  of (← m.targets.mapM f) width

/-- Every target moved by `f`, or nothing if one has no image. -/
def tryRemap (m : ColumnMap) (width : Nat) (f : Nat → Option Nat) :
    Except Fault (Option ColumnMap) :=
  match m.targets.mapM f with
  | none => .ok none
  | some moved => (of moved width).map some

/-- Whether a column is a target. -/
def containsTarget (m : ColumnMap) (column : Nat) : Bool := m.targets.contains column

/-- The first position that goes to a column. -/
def sourceOf (m : ColumnMap) (column : Nat) : Option Nat := m.targets.findIdx? (· == column)

/-- Positions with their targets. -/
def pairs (m : ColumnMap) : List (Nat × Nat) := m.targets.zipIdx.map fun (t, i) => (i, t)

/-- Whether every position goes to itself and the relation has no other column. -/
def isTrivial (m : ColumnMap) : Bool :=
  m.sources == m.width && m.targets == List.range m.sources

/-- Whether the targets are the positions `0, 1, …, sources - 1` in some order. -/
def isPermutation (m : ColumnMap) : Bool :=
  m.targets.all (· < m.sources) && (Ascending.ofList m.targets).length == m.sources

/-- Whether the distinct targets form a range that starts at zero. -/
def isDense (m : ColumnMap) : Bool := isDenseRange m.targets

/-- The map as `[0->2, 1->0]/3`. -/
def display (m : ColumnMap) : String :=
  Text.listing (m.pairs.map fun (i, t) => s!"{i}->{t}") ++ s!"/{m.width}"

theorem of_eq_ok {targets : List Nat} {width : Nat} (h : ∀ t ∈ targets, t < width) :
    of targets width = .ok ⟨targets, width, h⟩ := by
  unfold of
  split
  · rename_i bad hb
    have := h bad (List.mem_of_find?_eq_some hb)
    have := List.find?_some hb
    simp at this
    omega
  · rfl

end ColumnMap

end StreamPlan
