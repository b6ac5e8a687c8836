import StreamPlan.Proofs.Answers.Basic
import StreamPlan.Proofs.Rows.Permutation

/-!
# Distinct rows

The first row of each partition is the only one of its partition that stays. A row with
a float that is no number is not even the same as itself, so it stays in any case.

* `DistinctOf`: each different one of some rows, once.
* `addToGroup_meets`, `addToGroup_opens`: a row joins the group that it meets or opens
  one of its own.
* `distinct_of_firstRowsOf`: **one row of each partition** shows each different value of
  the partition columns once.
-/

namespace StreamPlan

/-- No two of some rows are the same. -/
def Apart (rows : List Row) : Prop := rows.Pairwise fun kept row => Value.sameRow kept row = false

/-- Each different one of some rows, once: none is the same as one in front of it, and
every row is one of them or the same as one of them. -/
structure DistinctOf (rows distinct : List Row) : Prop where
  mem : ∀ row ∈ distinct, row ∈ rows
  apart : Apart distinct
  covers : ∀ row ∈ rows, row ∈ distinct ∨ ∃ kept ∈ distinct, Value.sameRow kept row = true

/-- It does not matter in which order the rows are, or how often one of them is there. -/
theorem DistinctOf.congr {rows others distinct : List Row} (h : DistinctOf rows distinct)
    (hmem : ∀ row, row ∈ rows ↔ row ∈ others) : DistinctOf others distinct where
  mem row hrow := (hmem row).1 (h.mem row hrow)
  apart := h.apart
  covers row hrow := h.covers row ((hmem row).2 hrow)

section Seen

variable {key : Row} {seen : List (Row × List Unit)}

/-- The keys of some partitions of which each has a row. -/
def Met (seen : List (Row × List Unit)) (keys : List Row) : Prop :=
  seen.map Prod.fst = keys ∧ ∀ group ∈ seen, group.2 ≠ []

/-- A row of a partition that was met is not its first. -/
theorem addToGroup_meets {keys : List Row} (h : Met seen keys)
    (hmet : ∃ k ∈ keys, Value.sameRow k key = true) :
    1 < (addToGroup key () seen).1.length ∧ Met (addToGroup key () seen).2 keys := by
  induction seen generalizing keys with
  | nil =>
    obtain ⟨rfl, -⟩ := h
    obtain ⟨k, hk, -⟩ := hmet
    cases hk
  | cons group seen ih =>
    obtain ⟨rfl, hne⟩ := h
    obtain ⟨first, members⟩ := group
    obtain ⟨hmembers, hne⟩ := List.forall_mem_cons.1 hne
    rw [addToGroup]
    split
    · refine ⟨?_, rfl, List.forall_mem_cons.2 ⟨by simp, hne⟩⟩
      rw [List.length_append, List.length_singleton]
      exact Nat.lt_add_of_pos_left (List.length_pos_of_ne_nil hmembers)
    · rename_i hfirst
      have hmet : ∃ k ∈ seen.map Prod.fst, Value.sameRow k key = true := by
        obtain ⟨k, hk, hsame⟩ := hmet
        rcases List.mem_cons.1 hk with rfl | hk
        · exact absurd hsame hfirst
        · exact ⟨k, hk, hsame⟩
      obtain ⟨hlen, hkeys, hrest⟩ := ih ⟨rfl, hne⟩ hmet
      exact ⟨hlen, congrArg (first :: ·) hkeys, List.forall_mem_cons.2 ⟨hmembers, hrest⟩⟩

/-- A row of a partition that was not met is its first. -/
theorem addToGroup_opens {keys : List Row} (h : Met seen keys)
    (hnew : ∀ k ∈ keys, Value.sameRow k key = false) :
    (addToGroup key () seen).1.length = 1 ∧ Met (addToGroup key () seen).2 (keys ++ [key]) := by
  induction seen generalizing keys with
  | nil =>
    obtain ⟨rfl, -⟩ := h
    exact ⟨rfl, rfl, by simp [addToGroup]⟩
  | cons group seen ih =>
    obtain ⟨rfl, hne⟩ := h
    obtain ⟨first, members⟩ := group
    obtain ⟨hmembers, hne⟩ := List.forall_mem_cons.1 hne
    obtain ⟨hfirst, hnew⟩ := List.forall_mem_cons.1 hnew
    rw [addToGroup, if_neg (by rw [hfirst]; rintro ⟨⟩)]
    obtain ⟨hlen, hkeys, hrest⟩ := ih ⟨rfl, hne⟩ hnew
    exact ⟨hlen, congrArg (first :: ·) hkeys, List.forall_mem_cons.2 ⟨hmembers, hrest⟩⟩

end Seen

variable {partition : List Nat} {rows out : List Row}

/-- The rows that stay open a partition each: their keys are apart from those met before
and from each other, and every row is one of them or of a partition with a key. -/
theorem opened_of_firstRowsFrom {seen : List (Row × List Unit)} {keys : List Row}
    (hmet : Met seen keys) (hkeys : Apart keys)
    (h : firstRowsFrom partition 1 seen rows = .ok out) :
    Apart (keys ++ out.map (Row.pick · partition)) ∧ ∀ row ∈ rows, row ∈ out ∨
      ∃ kept ∈ keys ++ out.map (Row.pick · partition),
        Value.sameRow kept (row.pick partition) = true := by
  induction rows generalizing seen keys out with
  | nil =>
    cases h
    rw [List.map_nil, List.append_nil]
    exact ⟨hkeys, by simp⟩
  | cons row rows ih =>
    rw [firstRowsFrom] at h
    obtain ⟨key, hkey, h⟩ := bind_eq_ok.1 h
    obtain ⟨rest, hrest, h⟩ := bind_eq_ok.1 h
    obtain rfl := eq_pick_of_at hkey
    by_cases hold : ∃ k ∈ keys, Value.sameRow k (row.pick partition) = true
    · -- not the first row of its partition, so it goes
      obtain ⟨hlen, hmet⟩ := addToGroup_meets hmet hold
      rw [if_neg (by omega)] at h
      cases h
      obtain ⟨hapart, hcovers⟩ := ih hmet hkeys hrest
      refine ⟨hapart, List.forall_mem_cons.2 ⟨.inr ?_, hcovers⟩⟩
      obtain ⟨k, hk, hsame⟩ := hold
      exact ⟨k, List.mem_append_left _ hk, hsame⟩
    · -- the first one, which stays and adds its key to those that were met
      have hnew : ∀ k ∈ keys, Value.sameRow k (row.pick partition) = false := fun k hk =>
        Bool.eq_false_iff.2 fun hsame => hold ⟨k, hk, hsame⟩
      obtain ⟨hlen, hmet⟩ := addToGroup_opens hmet hnew
      rw [if_pos (by omega)] at h
      cases h
      have hpushed : Apart (keys ++ [row.pick partition]) :=
        List.pairwise_append.2 ⟨hkeys, List.pairwise_singleton _ _, by simpa using hnew⟩
      obtain ⟨hapart, hcovers⟩ := ih hmet hpushed hrest
      rw [List.append_assoc, List.singleton_append] at hapart hcovers
      rw [List.map_cons]
      refine ⟨hapart, List.forall_mem_cons.2 ⟨.inl List.mem_cons_self, fun other hother => ?_⟩⟩
      exact (hcovers other hother).imp_left (List.mem_cons_of_mem row)

/-- **One row of each partition** shows each different value of the partition columns. -/
theorem distinct_of_firstRowsOf {limit : Option Nat}
    (h : firstRowsOf partition limit true rows = .ok out) :
    DistinctOf (rows.map (Row.pick · partition)) (out.map (Row.pick · partition)) := by
  have hmet : Met [] [] := ⟨rfl, by simp⟩
  obtain ⟨hapart, hcovers⟩ := opened_of_firstRowsFrom hmet .nil h
  rw [List.nil_append] at hapart hcovers
  refine ⟨fun shown hshown => ?_, hapart, fun shown hshown => ?_⟩
  · obtain ⟨row, hrow, rfl⟩ := List.mem_map.1 hshown
    exact List.mem_map_of_mem (mem_of_firstRowsOf h row hrow)
  · obtain ⟨row, hrow, rfl⟩ := List.mem_map.1 hshown
    exact (hcovers row hrow).imp_left (List.mem_map_of_mem (f := (Row.pick · partition)))

end StreamPlan
