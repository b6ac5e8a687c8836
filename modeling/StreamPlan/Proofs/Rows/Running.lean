import StreamPlan.Proofs.Rows.Accumulate
import StreamPlan.Proofs.Rows.Regroup
import StreamPlan.Proofs.Rows.Sortable

/-!
# Running and grouped values

A running call goes through the rows in window order and keeps the rows of each partition
that it has met. With the last row of a partition it has met all of them, so that its value
there is the one that the group has on its own.

* `partitionsFrom`: the partitions of rows in window order.
* `runningFrom_last`: the running value at the last row of a partition is that of the call
  over the partition.
* `runningValues_bounded`: a running call faults over a sum, or if its rows cannot be sorted.
* `aggregateRows_bounded`: a grouped one faults over a sum alone.
* `running_ends_as_grouped`: **the running value at the last row of each partition** is the
  grouped value.
-/

namespace StreamPlan

variable {key : Row → Row} {call : AggregateCall} {partition : List Nat} {order : SortOrder}
  {rows : List Row} {allowed : Fault → Prop}

section AddToGroup

variable {α β : Type} (k : Row) (member : α) (groups : List (Row × List α))

/-- A group is one that was there, or the one that the member is added to as the last. -/
theorem addToGroup_cases : ∀ g ∈ (addToGroup k member groups).2, g ∈ groups ∨
    g.2 = (addToGroup k member groups).1 ∧ g.2.getLast? = some member := by
  induction groups with
  | nil =>
    intro g hg
    obtain rfl := List.mem_singleton.1 hg
    exact .inr ⟨rfl, rfl⟩
  | cons first groups ih =>
    obtain ⟨key, members⟩ := first
    intro g hg
    rw [addToGroup] at hg ⊢
    by_cases hsame : Value.sameRow key k = true
    · rw [if_pos hsame] at hg ⊢
      rcases List.mem_cons.1 hg with rfl | hg
      · exact .inr ⟨rfl, List.getLast?_concat⟩
      · exact .inl (List.mem_cons_of_mem _ hg)
    · rw [if_neg hsame] at hg ⊢
      rcases List.mem_cons.1 hg with rfl | hg
      · exact .inl List.mem_cons_self
      · exact (ih g hg).imp_left (List.mem_cons_of_mem _)

/-- Members that are looked at in another way are grouped alike. -/
theorem addToGroup_map (f : α → β) :
    addToGroup k (f member) (groups.map (Prod.map id (List.map f)))
      = ((addToGroup k member groups).1.map f,
        (addToGroup k member groups).2.map (Prod.map id (List.map f))) := by
  induction groups with
  | nil => rfl
  | cons first groups ih =>
    obtain ⟨key, members⟩ := first
    have hcons : ((key, members) :: groups).map (Prod.map id (List.map f))
        = (key, members.map f) :: groups.map (Prod.map id (List.map f)) := rfl
    rw [hcons, addToGroup, addToGroup, ih]
    split
    · simp [Prod.map]
    · rfl

/-- The members that are given are those of a group. -/
theorem addToGroup_found :
    ∃ key, (key, (addToGroup k member groups).1) ∈ (addToGroup k member groups).2 := by
  induction groups with
  | nil => exact ⟨k, List.mem_cons_self⟩
  | cons first groups ih =>
    obtain ⟨key, members⟩ := first
    rw [addToGroup]
    split
    · exact ⟨key, List.mem_cons_self⟩
    · obtain ⟨found, hfound⟩ := ih
      exact ⟨found, List.mem_cons_of_mem _ hfound⟩

end AddToGroup

/-- The partitions of numbered rows, from those of earlier ones on. -/
def partitionsFrom (key : Row → Row) (parts : List (Row × List (Row × Nat)))
    (sorted : List (Row × Nat)) : List (Row × List (Row × Nat)) :=
  sorted.foldl (fun parts p => (addToGroup (key p.1) p parts).2) parts

/-- Partitions as groups of rows. -/
def groupsOf (parts : List (Row × List (Row × Nat))) : List (Row × List Row) :=
  parts.map (Prod.map id (List.map Prod.fst))

/-- Partitions have the rows of the groups. -/
theorem groupsOf_partitionsFrom (parts : List (Row × List (Row × Nat)))
    (sorted : List (Row × Nat)) : groupsOf (partitionsFrom key parts sorted)
      = groupsFrom key (groupsOf parts) (sorted.map Prod.fst) := by
  induction sorted generalizing parts with
  | nil => rfl
  | cons p sorted ih =>
    rw [partitionsFrom, List.foldl_cons, List.map_cons, groupsFrom, List.foldl_cons]
    refine (ih _).trans ?_
    rw [groupsFrom]
    exact congrArg (List.foldl _ · _) (congrArg Prod.snd (addToGroup_map _ _ _ Prod.fst)).symm

/-- **At the last row of a partition** the running value is that of the call over all rows
of the partition. -/
theorem runningFrom_last {parts : List (Row × List (Row × Nat))} {sorted : List (Row × Nat)}
    {values : List (Nat × Value)} (hin : ∀ p ∈ sorted, ∀ c ∈ partition, c < p.1.length)
    (h : runningFrom call partition (groupsOf parts) sorted = .ok values) :
    ∀ part ∈ partitionsFrom (·.pick partition) parts sorted, part ∈ parts ∨
      ∃ row i v, part.2.getLast? = some (row, i) ∧ (i, v) ∈ values ∧
        call.valueOn (part.2.map Prod.fst) = .ok v := by
  induction sorted generalizing parts values with
  | nil => exact fun part hpart => .inl hpart
  | cons p sorted ih =>
    obtain ⟨row, i⟩ := p
    obtain ⟨hrow, hin⟩ := List.forall_mem_cons.1 hin
    have hadd := addToGroup_map (row.pick partition) (row, i) parts Prod.fst
    rw [runningFrom, Row.at_of_inside hrow, ok_bind, groupsOf, hadd] at h
    obtain ⟨value, hvalue, h⟩ := bind_eq_ok.1 h
    obtain ⟨rest, hrest, h⟩ := bind_eq_ok.1 h
    cases h
    intro part hpart
    rcases ih hin hrest part hpart with hpart | ⟨row', i', v, hlast, hmem, hv⟩
    · -- the partition of this row is whole, or was there before
      refine (addToGroup_cases _ _ _ part hpart).imp_right fun ⟨hmembers, hlast⟩ => ?_
      exact ⟨row, i, value, hlast, List.mem_cons_self, hmembers ▸ hvalue⟩
    · exact .inr ⟨row', i', v, hlast, List.mem_cons_of_mem _ hmem, hv⟩

/-- The rows that a running call has met, with their columns. -/
theorem runningFrom_bounded (ha : allowed .arithmeticOverflow) {groups : List (Row × List Row)}
    {sorted : List (Row × Nat)} (hin : ∀ p ∈ sorted, ∀ c ∈ partition ++ call.columns, c < p.1.length)
    (hgroups : ∀ g ∈ groups, ∀ m ∈ g.2, ∀ c ∈ call.columns, c < m.length) :
    Bounded allowed (runningFrom call partition groups sorted) fun values =>
      values.map Prod.fst = sorted.map Prod.snd := by
  induction sorted generalizing groups with
  | nil => exact .ok rfl
  | cons p sorted ih =>
    obtain ⟨row, i⟩ := p
    obtain ⟨hrow, hin⟩ := List.forall_mem_cons.1 hin
    -- a member of a group was there before, or it is this row
    have hmembers : ∀ g ∈ (addToGroup (row.pick partition) row groups).2, ∀ m ∈ g.2,
        ∀ c ∈ call.columns, c < m.length := by
      intro g hg m hm c hc
      rcases members_of_addToGroup g hg m hm with rfl | ⟨g', hg', hm⟩
      · exact hrow c (List.mem_append_right _ hc)
      · exact hgroups g' hg' m hm c hc
    obtain ⟨_, hfound⟩ := addToGroup_found (row.pick partition) row groups
    rw [runningFrom, Row.at_of_inside fun c hc => hrow c (List.mem_append_left _ hc), ok_bind]
    refine (AggregateCall.valueOn_bounded ha (hmembers _ hfound)).bind fun value _ => ?_
    exact (ih hin hmembers).bind fun rest hrest => .ok (congrArg (i :: ·) hrest)

/-- The value of a row among values that each are of another row. -/
theorem find?_of_nodup {values : List (Nat × Value)} (hn : (values.map Prod.fst).Nodup) {i : Nat}
    {v : Value} (h : (i, v) ∈ values) : values.find? (·.1 == i) = some (i, v) := by
  induction values with
  | nil => cases h
  | cons first values ih =>
    obtain ⟨hfirst, hn⟩ := List.nodup_cons.1 hn
    rcases List.mem_cons.1 h with rfl | h
    · exact List.find?_cons_of_pos (beq_self_eq_true i)
    · rw [List.find?_cons_of_neg, ih hn h]
      intro heq
      rw [beq_iff_eq.1 heq] at hfirst
      exact hfirst (List.mem_map_of_mem h)

/-- Rows in window order are the rows with their positions. -/
theorem perm_of_sortNumbered {sorted : List (Row × Nat)} (h : sortNumbered order rows = .ok sorted) :
    (sorted.map Prod.fst).Perm rows ∧ (sorted.map Prod.snd).Perm (List.range rows.length) := by
  have hperm := Sorting.stable_perm h
  refine ⟨?_, ?_⟩
  · simpa using hperm.map Prod.fst
  · simpa [List.range_eq_range'] using hperm.map Prod.snd

/-- The rows in window order have the columns that a running call reads. -/
theorem sortNumbered_inside {sorted : List (Row × Nat)}
    (hin : ∀ row ∈ rows, ∀ c ∈ partition ++ order.columns ++ call.columns, c < row.length)
    (h : sortNumbered order rows = .ok sorted) : ∀ p ∈ sorted, ∀ c ∈ partition ++ call.columns, c < p.1.length := by
  intro p hp c hc
  refine hin p.1 ((perm_of_sortNumbered h).1.subset (List.mem_map_of_mem hp)) c ?_
  rcases List.mem_append.1 hc with hc | hc <;> simp [hc]

/-- **A running call faults** over a sum, or if the rows cannot be sorted. It has a value per
row. -/
theorem runningValues_bounded (ha : allowed .arithmeticOverflow)
    (hsort : Bounded allowed (sortNumbered order rows) fun _ => True)
    (hin : ∀ row ∈ rows, ∀ c ∈ partition ++ order.columns ++ call.columns, c < row.length) :
    Bounded allowed (runningValues call partition order rows) fun values =>
      values.length = rows.length := by
  have hsort : Bounded allowed (sortNumbered order rows) fun sorted =>
      sortNumbered order rows = .ok sorted := ⟨hsort.1, fun _ h => h⟩
  unfold runningValues
  refine hsort.bind fun sorted hsorted => ?_
  refine (runningFrom_bounded ha (sortNumbered_inside hin hsorted) fun g hg => by cases hg).bind
    fun values hvalues => ?_
  -- every position has a value, and one only
  have hranks := hvalues ▸ (perm_of_sortNumbered hsorted).2
  refine ((Gives.mapM (R := fun _ _ => True) fun i hi => ?_).bounded).mono fun out hout => ?_
  · obtain ⟨⟨_, v⟩, hmem, rfl⟩ := List.mem_map.1 (hranks.symm.subset hi)
    rw [find?_of_nodup (hranks.nodup_iff.2 List.nodup_range) hmem]
    exact .ok trivial
  · rw [← hout.length_eq, List.length_range]

/-- The running values are those of the rows in window order, put where the rows were. -/
theorem runningValues_numbered {values : List Value}
    (hin : ∀ row ∈ rows, ∀ c ∈ partition ++ order.columns ++ call.columns, c < row.length)
    (h : runningValues call partition order rows = .ok values) :
    ∃ sorted numbered, sortNumbered order rows = .ok sorted ∧
      runningFrom call partition [] sorted = .ok numbered ∧
      ∀ i v, (i, v) ∈ numbered → values[i]? = some v := by
  obtain ⟨sorted, hsorted, h⟩ := bind_eq_ok.1 h
  obtain ⟨numbered, hnumbered, h⟩ := bind_eq_ok.1 h
  refine ⟨sorted, numbered, hsorted, hnumbered, fun i v hmem => ?_⟩
  have hbounded : Bounded (fun _ => True) (runningFrom call partition [] sorted) fun numbered =>
      numbered.map Prod.fst = sorted.map Prod.snd :=
    runningFrom_bounded trivial (sortNumbered_inside hin hsorted) fun g hg => by cases hg
  have hranks := hbounded.2 numbered hnumbered ▸ (perm_of_sortNumbered hsorted).2
  have hi : (List.range rows.length)[i]? = some i := by
    rw [List.getElem?_range]
    exact List.mem_range.1 (hranks.subset (List.mem_map_of_mem hmem))
  obtain ⟨w, hw, hv⟩ := getElem?_of_mapM_eq_ok h hi
  rw [find?_of_nodup (hranks.nodup_iff.2 List.nodup_range) hmem] at hv
  cases hv
  exact hw

/-- **A grouped call faults** over a sum alone. -/
theorem aggregateRows_bounded (ha : allowed .arithmeticOverflow) {keys : List Nat}
    {calls : List AggregateCall} (hkeys : ∀ row ∈ rows, ∀ c ∈ keys, c < row.length)
    (hcalls : ∀ row ∈ rows, ∀ call ∈ calls, ∀ c ∈ call.columns, c < row.length) :
    Bounded allowed (aggregateRows keys calls rows) fun _ => True := by
  have hgroups := groupRows_of_at fun row hrow => Row.at_of_inside (hkeys row hrow)
  have hvalues : ∀ g ∈ wholeGroups keys (groupsFrom (·.pick keys) [] rows), ∀ call ∈ calls,
      Bounded allowed (call.valueOn g.2) fun _ => True := by
    intro g hg call hcall
    refine AggregateCall.valueOn_bounded ha fun row hrow => hcalls row ?_ call hcall
    unfold wholeGroups at hg
    split at hg
    · rw [List.mem_singleton.1 hg] at hrow
      cases hrow
    · exact members_of_groupsFrom rows g hg row hrow
  rw [aggregateRows, hgroups, ok_bind]
  refine (Bounded.mapM_all (R := fun _ => True) fun g hg => ?_).mono fun _ _ => trivial
  exact (Bounded.mapM_all (hvalues g hg)).bind fun _ _ => .ok trivial

/-- The running value at the last row of a partition is the last one of an aggregated row. -/
def EndsAs (values : List Value) (part : Row × List (Row × Nat)) (row : Row) : Prop :=
  ∃ last i v, part.2.getLast? = some (last, i) ∧ values[i]? = some v ∧ row.getLast? = some v

/-- The groups of some rows have a row each. -/
theorem wholeGroups_of_rows {keys : List Nat} (hne : rows ≠ []) :
    wholeGroups keys (groupsFrom key [] rows) = groupsFrom key [] rows := by
  obtain _ | ⟨row, rows⟩ := rows
  · exact absurd rfl hne
  · rw [wholeGroups, groupsFrom_cons]
    rfl

/-- Partitions have the rows of the groups, and their last running values the grouped ones. -/
theorem partitions_of_groups {type : DataType} {sorted : List (Row × Nat)}
    {numbered : List (Nat × Value)} {values : List Value} {out : List Row} (hf : call.function ≠ .avg) (ht : call.Typed type rows)
    (hpartition : ∀ row ∈ rows, ∀ c ∈ partition, c < row.length)
    (hcolumns : ∀ row ∈ rows, ∀ c ∈ call.columns, c < row.length)
    (hperm : (sorted.map Prod.fst).Perm rows)
    (hnumbered : runningFrom call partition [] sorted = .ok numbered)
    (hvalues : ∀ i v, (i, v) ∈ numbered → values[i]? = some v)
    (hout : List.Forall₂ (AggregatesTo [call]) (groupsFrom (·.pick partition) [] rows) out) :
    ∃ parts, parts.Perm (partitionsFrom (·.pick partition) [] sorted) ∧
      List.Forall₂ (fun part group => (part.2.map Prod.fst).Perm group.2) parts
        (groupsFrom (·.pick partition) [] rows) ∧
      List.Forall₂ (EndsAs values) parts out := by
  have hsorted : ∀ p ∈ sorted, ∀ c ∈ partition, c < p.1.length := fun p hp =>
    hpartition p.1 (hperm.subset (List.mem_map_of_mem hp))
  have hlast : ∀ part ∈ partitionsFrom (·.pick partition) [] sorted,
      ∃ row i v, part.2.getLast? = some (row, i) ∧ (i, v) ∈ numbered ∧
        call.valueOn (part.2.map Prod.fst) = .ok v := fun part hpart =>
    (runningFrom_last hsorted hnumbered part hpart).resolve_left List.not_mem_nil
  obtain ⟨middle, hmembers, hmiddle⟩ :
      Reordered (groupsOf (partitionsFrom (·.pick partition) [] sorted))
        (groupsFrom (·.pick partition) [] rows) := by
    rw [groupsOf_partitionsFrom]
    exact groupsFrom_perm hperm
  -- the partitions in the order of the groups
  obtain ⟨parts, hparts, hpermuted⟩ := List.perm_comp_forall₂ hmiddle.symm
    ((List.forall₂_and_left _ _).2 ⟨hlast, List.forall₂_map_left_iff.1 hmembers⟩).flip
  refine ⟨parts, hpermuted, hparts.flip.imp fun _ _ h => h.2, ?_⟩
  refine forall₂_of_left hparts hout fun group hgroup part row hpart hrow => ?_
  obtain ⟨⟨last, i, v, hend, hmem, hv⟩, hsame⟩ := hpart
  obtain ⟨ws, hws, rfl⟩ := hrow
  obtain _ | ⟨hw, hnil⟩ := mapM_eq_ok.1 hws
  cases hnil
  have hrows : part.2.map Prod.fst ⊆ rows := fun row hrow =>
    members_of_groupsFrom rows group hgroup row (hsame.subset hrow)
  have hvalue := AggregateCall.valueOn_perm hf (ht.subset hrows)
    (fun row hrow => hcolumns row (hrows hrow)) hsame hv hw
  exact ⟨last, i, v, hend, hvalues i v hmem, hvalue ▸ List.getLast?_concat⟩

/-- **The running value at the last row of each partition**, in window order, is the grouped
value, and the partitions have the rows of the groups. The rows cannot be put in window
order only if they are more than 20 and a column does not compare consistently. -/
theorem running_ends_as_grouped {type : DataType} (hne : rows ≠ []) (hf : call.function ≠ .avg)
    (ht : call.Typed type rows)
    (hin : ∀ row ∈ rows, ∀ c ∈ partition ++ order.columns ++ call.columns, c < row.length)
    (hrunning : runningValues call partition order rows ≠ .error .arithmeticOverflow)
    (hgrouped : aggregateRows partition [call] rows ≠ .error .arithmeticOverflow) :
    (runningValues call partition order rows = .error .inconsistentOrder ∧ 20 < rows.length ∧
      ¬ order.Sorts rows) ∨
    ∃ sorted values groups out parts, sortNumbered order rows = .ok sorted ∧
      runningValues call partition order rows = .ok values ∧
      groupRows partition rows = .ok groups ∧
      aggregateRows partition [call] rows = .ok out ∧
      parts.Perm (partitionsFrom (·.pick partition) [] sorted) ∧
      List.Forall₂ (fun part group => (part.2.map Prod.fst).Perm group.2) parts groups ∧
      List.Forall₂ (EndsAs values) parts out := by
  have hpartition : ∀ row ∈ rows, ∀ c ∈ partition, c < row.length := fun row hrow c hc =>
    hin row hrow c (by simp [hc])
  have hcolumns : ∀ row ∈ rows, ∀ c ∈ call.columns, c < row.length := fun row hrow c hc =>
    hin row hrow c (by simp [hc])
  have horder : ∀ row ∈ rows, ∀ key ∈ order, key.column < row.length := fun row hrow key hk =>
    hin row hrow key.column (by simp [SortOrder.columns, List.mem_map_of_mem hk])
  have hgroups := groupRows_of_at fun row hrow => Row.at_of_inside (hpartition row hrow)
  obtain ⟨out, hout⟩ : ∃ out, aggregateRows partition [call] rows = .ok out := by
    cases hrows : aggregateRows partition [call] rows with
    | ok out => exact ⟨out, rfl⟩
    | error fault =>
      refine absurd ?_ hgrouped
      have hbounded : Bounded (.arithmeticOverflow = ·) (aggregateRows partition [call] rows)
          fun _ => True :=
        aggregateRows_bounded rfl hpartition fun row hrow other hother =>
          List.mem_singleton.1 hother ▸ hcolumns row hrow
      rw [hrows, ← hbounded.1 fault hrows]
  cases hvalues : runningValues call partition order rows with
  | error fault =>
    -- neither few rows nor rows that compare consistently fail to be sorted
    have hunsorted : ¬ (rows.length ≤ 20 ∨ order.Sorts rows) := fun h => by
      have hbounded : Bounded (.arithmeticOverflow = ·) (runningValues call partition order rows) _ :=
        runningValues_bounded rfl (sortNumbered_gives horder h).bounded hin
      exact hrunning ((hbounded.1 fault hvalues).symm ▸ hvalues)
    have hbounded : Bounded (fun f => f = .arithmeticOverflow ∨ f = .inconsistentOrder)
        (runningValues call partition order rows) _ :=
      runningValues_bounded (.inl rfl) (sortNumbered_bounded horder (.inr rfl)) hin
    obtain rfl := (hbounded.1 fault hvalues).resolve_left fun h => hrunning (h ▸ hvalues)
    exact .inl ⟨rfl, by omega, fun h => hunsorted (.inr h)⟩
  | ok values =>
    obtain ⟨sorted, numbered, hsorted, hnumbered, hplaces⟩ := runningValues_numbered hin hvalues
    obtain ⟨_, hgroups', hrows⟩ := aggregateRows_eq_ok.1 hout
    cases hgroups.symm.trans hgroups'
    rw [wholeGroups_of_rows hne] at hrows
    obtain ⟨parts, hparts, hmembers, hends⟩ := partitions_of_groups hf ht hpartition hcolumns
      (perm_of_sortNumbered hsorted).1 hnumbered hplaces hrows
    exact .inr ⟨sorted, values, _, out, parts, hsorted, rfl, hgroups, hout, hparts, hmembers, hends⟩

/-- Orders of two shops: the shop, the time, the amount, and whether it is paid. -/
def shopOrders : List Row :=
  [[.int 1, .timestamp 20, .int 5, .boolean true], [.int 1, .timestamp 10, .int 7, .boolean true],
    [.int 2, .timestamp 15, .int 4, .boolean true], [.int 1, .timestamp 30, .int 7, .boolean true],
    [.int 2, .timestamp 5, .int 9, .boolean false], [.int 1, .timestamp 20, .null, .boolean true]]

/-- The sum of the different amounts that are paid. -/
def paidAmounts : AggregateCall :=
  { AggregateCall.of .sum [2] "paid" .int64 with distinct := true, filter := some 3 }

/-- By shop, the different amounts that are paid add up to 12 and to 4, grouped and at the
last row of a running sum by time. -/
theorem shopOrders_end_as_grouped : ∃ sorted values groups out parts,
    sortNumbered [⟨1, .ascending⟩] shopOrders = .ok sorted ∧
    runningValues paidAmounts [0] [⟨1, .ascending⟩] shopOrders = .ok values ∧
    values = [.int 12, .int 7, .int 4, .int 12, .null, .int 12] ∧
    groupRows [0] shopOrders = .ok groups ∧
    aggregateRows [0] [paidAmounts] shopOrders = .ok out ∧
    out = [[.int 1, .int 12], [.int 2, .int 4]] ∧
    parts.Perm (partitionsFrom (·.pick [0]) [] sorted) ∧
    List.Forall₂ (fun part group => (part.2.map Prod.fst).Perm group.2) parts groups ∧
    List.Forall₂ (EndsAs values) parts out := by
  have hvalues : runningValues paidAmounts [0] [⟨1, .ascending⟩] shopOrders
      = .ok [.int 12, .int 7, .int 4, .int 12, .null, .int 12] := rfl
  have hout : aggregateRows [0] [paidAmounts] shopOrders
      = .ok [[.int 1, .int 12], [.int 2, .int 4]] := rfl
  have hne : shopOrders ≠ [] := List.cons_ne_nil _ _
  have htyped : paidAmounts.Typed .int64 shopOrders := by
    refine ⟨by rintro ⟨⟩, by rintro ⟨⟩, fun a ha => ?_⟩
    cases ha
    simp [shopOrders, Row.cell, Value.dataType]
  have hin : ∀ row ∈ shopOrders,
      ∀ c ∈ [0] ++ SortOrder.columns [⟨1, .ascending⟩] ++ paidAmounts.columns, c < row.length := by
    simp [shopOrders, paidAmounts, AggregateCall.columns, AggregateCall.of, SortOrder.columns]
  have hrunning : runningValues paidAmounts [0] [⟨1, .ascending⟩] shopOrders
      ≠ .error .arithmeticOverflow := by
    rw [hvalues]
    rintro ⟨⟩
  have hgrouped : aggregateRows [0] [paidAmounts] shopOrders ≠ .error .arithmeticOverflow := by
    rw [hout]
    rintro ⟨⟩
  have hsum : paidAmounts.function ≠ .avg := by rintro ⟨⟩
  have hmain := running_ends_as_grouped hne hsum htyped hin hrunning hgrouped
  obtain ⟨hfails, -⟩ | ⟨sorted, values, groups, out, parts, hsorted, hvalues', hgroups, hout',
    hrest⟩ := hmain
  · cases hvalues.symm.trans hfails
  · cases hvalues.symm.trans hvalues'
    cases hout.symm.trans hout'
    exact ⟨sorted, _, groups, _, parts, hsorted, hvalues, rfl, hgroups, hout, rfl, hrest⟩

/-- Numbered measurements that go down from 21 to 1, but for one that is no number. -/
def measurements : List Row :=
  (List.range 21).map fun i =>
    [.int (Int.ofNat i), if i = 10 then .float (0.0 / 0.0) else .float (Float.ofNat (21 - i))]

set_option maxRecDepth 100000 in
/-- The measurements cannot be counted in their order, but they can be counted. -/
theorem measurements_out_of_order :
    runningValues (.countRows "n") [] [⟨1, .ascending⟩] measurements = .error .inconsistentOrder ∧
    aggregateRows [] [.countRows "n"] measurements = .ok [[.int 21]] :=
  ⟨rfl, rfl⟩

end StreamPlan
