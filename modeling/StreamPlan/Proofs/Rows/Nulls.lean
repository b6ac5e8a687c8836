import StreamPlan.Proofs.Rows.Order
import StreamPlan.Proofs.Rows.Regroup

/-!
# Nulls among sorted rows

A direction turns the place of null around with the rest: nulls come last where a column is
sorted in ascending order, and first where it is sorted in descending order. So the latest
row per key is one without a time if there is one.

* `Direction.Places`: where null stands in a direction.
* `TopN.KeepsOf`: the row of a group that has no time, or else the latest one.
* `nulls_by_direction`: **nulls stand where the direction has them**, among rows that are
  tied on the columns in front, and the latest row per key is kept so.
-/

namespace StreamPlan

/-- Of two values in a direction, if the first is null so is the second, or if the second is
the first. -/
def Direction.Places (direction : Direction) (first second : Value) : Prop :=
  match direction with
  | .ascending => first = .null → second = .null
  | .descending => second = .null → first = .null

theorem Direction.places_of_isLE {direction : Direction} {a b : Value}
    (h : (direction.compare a b).isLE) : direction.Places a b := by
  cases direction with
  | ascending =>
    rintro rfl
    exact Value.eq_null_of_isLE h
  | descending =>
    rintro rfl
    rw [compare, ← Value.sortOrder_swap] at h
    exact Value.eq_null_of_isLE h

/-- A row that is kept of a group: no other comes later, and it has no time if one of the
group has none. -/
structure TopN.KeepsOf (timestamp : Nat) (group : Row × List Row) (row : Row) : Prop where
  mem : row ∈ group.2
  null : row.cell timestamp = .null ↔ ∃ other ∈ group.2, other.cell timestamp = .null
  latest : ∀ other ∈ group.2, ((other.cell timestamp).sortOrder (row.cell timestamp)).isLE

section Sorted

variable {order front back : SortOrder} {key : SortKey} {rows : List Row}

/-- Rows in order that are tied on the columns in front are in order by the next one. -/
theorem isLE_of_tied {a b : Row} (h : ((front ++ key :: back).compare a b).isLE)
    (htied : front.compare a b = .eq) : (key.compare a b).isLE := by
  rw [SortOrder.compare_append, htied, Ordering.eq_then, SortOrder.compare_cons,
    Ordering.isLE_then_iff_and] at h
  exact h.1

/-- **Sorted rows have nulls by direction**, where they are tied on the columns in front. -/
theorem sortRows_places (h : order.Sorts rows) : ∃ out, sortRows order rows = .ok out ∧
    out.Perm rows ∧ ∀ front key back, order = front ++ key :: back →
      out.Pairwise fun a b => compareRows a b front = .ok .eq →
        key.direction.Places (a.cell key.column) (b.cell key.column) := by
  obtain ⟨out, hout, hperm, hsorted⟩ := sortRows_ordered h
  refine ⟨out, hout, hperm, fun front key back he => hsorted.imp_of_mem fun ha hb hle htied => ?_⟩
  subst he
  have hinside : ∀ row ∈ out, ∀ k ∈ front, k.column < row.length := fun row hrow k hk =>
    h.inside k (List.mem_append_left _ hk) row (hperm.subset hrow)
  rw [compareRows_of_inside (hinside _ ha) (hinside _ hb)] at htied
  exact Direction.places_of_isLE (isLE_of_tied hle (Except.ok.inj htied))

end Sorted

section Latest

variable {fixture : Fixture} {input : Rel} {rows : List Row} {columns : List Nat} {timestamp : Nat}

/-- The first row of a group, the latest in front, is the one that is kept. -/
theorem TopN.keepsOf_of_first {group : Row × List Row} {row : Row} (hmem : row ∈ group.2)
    (hle : ∀ other ∈ group.2, (SortOrder.compare [⟨timestamp, .descending⟩] row other).isLE) :
    KeepsOf timestamp group row := by
  have hlatest : ∀ other ∈ group.2, ((other.cell timestamp).sortOrder (row.cell timestamp)).isLE := by
    intro other hother
    have h := hle other hother
    rw [SortOrder.compare_cons, Ordering.isLE_then_iff_and] at h
    rw [Value.sortOrder_swap]
    exact h.1
  refine ⟨hmem, ⟨fun hnull => ⟨row, hmem, hnull⟩, fun ⟨other, hother, hnull⟩ => ?_⟩, hlatest⟩
  have h := hlatest other hother
  rw [hnull] at h
  exact Value.eq_null_of_isLE h

/-- **The latest rows per key** have no time in the groups where a row has none. -/
theorem evaluate_latestPerKey (hrows : evaluate fixture input = .ok rows)
    (hin : ∀ row ∈ rows, ∀ c ∈ columns, c < row.length)
    (h : SortOrder.Sorts [⟨timestamp, .descending⟩] rows) :
    ∃ groups out kept, groupRows columns rows = .ok groups ∧
      evaluate fixture ((TopN.latestPerKey columns timestamp).onto input) = .ok out ∧
      kept.Perm out ∧ List.Forall₂ (TopN.KeepsOf timestamp) groups kept := by
  obtain ⟨sorted, hsorted, hperm, hpairs⟩ := sortRows_ordered h
  obtain ⟨out, hout, hfirsts⟩ := firstRowsOf_groups fun row hrow => hin row (hperm.subset hrow)
  obtain ⟨kept, hkept, hleast⟩ := least_of_groups (SortOrder.isLE_self _) hperm hpairs hfirsts
  refine ⟨_, out, kept, groupRows_of_at fun row hrow => Row.at_of_inside (hin row hrow), ?_, hkept,
    hleast.imp fun group row hg => TopN.keepsOf_of_first hg.1 hg.2⟩
  rw [TopN.onto_latestPerKey, evaluate, evaluate, hrows, ok_bind, hsorted]
  exact lift_eq_ok.2 hout

end Latest

/-- **Nulls stand by direction.** Rows whose columns compare consistently can be sorted; among
those that are tied on the columns in front, nulls come last in an ascending column and first
in a descending one. So the latest row per key has no time exactly if a row of its group has
none, and else no other of the group comes later. -/
theorem nulls_by_direction (rows : List Row) :
    (∀ order : SortOrder, order.Sorts rows → ∃ out, sortRows order rows = .ok out ∧
      out.Perm rows ∧ ∀ front key back, order = front ++ key :: back →
        out.Pairwise fun a b => compareRows a b front = .ok .eq →
          key.direction.Places (a.cell key.column) (b.cell key.column)) ∧
    ∀ (fixture : Fixture) (input : Rel) (columns : List Nat) (timestamp : Nat),
      evaluate fixture input = .ok rows → (∀ row ∈ rows, ∀ c ∈ columns, c < row.length) →
      SortOrder.Sorts [⟨timestamp, .descending⟩] rows →
      ∃ groups out kept, groupRows columns rows = .ok groups ∧
        evaluate fixture ((TopN.latestPerKey columns timestamp).onto input) = .ok out ∧
        kept.Perm out ∧ List.Forall₂ (TopN.KeepsOf timestamp) groups kept :=
  ⟨fun _ horder => sortRows_places horder,
    fun _ _ _ _ hrows hin htimes => evaluate_latestPerKey hrows hin htimes⟩

/-- Readings of two sensors. The first has a reading without a time. -/
def readings : List Row :=
  [[.int 1, .timestamp 5], [.int 2, .timestamp 3], [.int 1, .null], [.int 2, .timestamp 7]]

/-- The readings as a table. -/
def readingsTable : Fixture := ⟨[(.base 0, readings)], 0⟩

/-- The scan of the readings. -/
def scannedReadings : Rel :=
  .scan (.base 0) "readings" [⟨"sensor", .int64, false⟩, ⟨"at", .timestamp, true⟩]

theorem readings_sort {order : SortOrder} (h : order ⊆ [⟨0, .ascending⟩, ⟨1, .descending⟩]) :
    order.Sorts readings := by
  have hall : SortOrder.Sorts [⟨0, .ascending⟩, ⟨1, .descending⟩] readings := by
    refine ⟨by simp [readings], ?_⟩
    simp only [List.forall_mem_cons, List.not_mem_nil, false_imp_iff, implies_true, and_true]
    exact ⟨Value.consistent_of_type (t := .int64) nofun (by simp [readings, Row.cell, Value.dataType]),
      Value.consistent_of_type (t := .timestamp) nofun (by simp [readings, Row.cell, Value.dataType])⟩
  exact ⟨fun key hk => hall.inside key (h hk), fun key hk => hall.consistent key (h hk)⟩

/-- Per sensor, the latest reading in front, the reading without a time comes first, and it
is kept as the latest one. -/
theorem readings_without_time_first :
    (∃ out, sortRows [⟨0, .ascending⟩, ⟨1, .descending⟩] readings = .ok out ∧
      out.Pairwise fun a b => compareRows a b [⟨0, .ascending⟩] = .ok .eq →
        b.cell 1 = .null → a.cell 1 = .null) ∧
    ∃ groups out kept, groupRows [0] readings = .ok groups ∧
      evaluate readingsTable ((TopN.latestPerKey [0] 1).onto scannedReadings) = .ok out ∧
      kept.Perm out ∧ List.Forall₂ (TopN.KeepsOf 1) groups kept := by
  obtain ⟨hsort, hlatest⟩ := nulls_by_direction readings
  obtain ⟨out, hout, -, hplaces⟩ := hsort _ (readings_sort (List.Subset.refl _))
  exact ⟨⟨out, hout, hplaces [⟨0, .ascending⟩] ⟨1, .descending⟩ [] rfl⟩,
    hlatest readingsTable scannedReadings [0] 1 rfl (by simp [readings])
      (readings_sort (List.subset_cons_self ..))⟩

/-- A null comes in front of a number, a reading without a time is kept in the place of a
later one, and where texts and numbers are tied, a null comes in front even in ascending order. -/
theorem null_comes_first :
    sortRows [⟨0, .descending⟩] [[.int 1], [.null]] = .ok [[.null], [.int 1]] ∧
    evaluate readingsTable ((TopN.latestPerKey [0] 1).onto scannedReadings)
      = .ok [[.int 1, .null], [.int 2, .timestamp 7]] ∧
    sortRows [⟨0, .ascending⟩, ⟨1, .ascending⟩]
        [[.int 1, .null], [.text "a", .null], [.int 0, .null], [.int 1, .int 5]]
      = .ok [[.int 1, .null], [.text "a", .null], [.int 0, .null], [.int 1, .int 5]] :=
  ⟨rfl, rfl, rfl⟩

end StreamPlan
