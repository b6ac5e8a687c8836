import Mathlib.Data.List.Perm.Basic
import StreamPlan.Proofs.Answers.Basic
import StreamPlan.Proofs.Rows.Group

/-!
# Groups of groups

The first group of some rows has all that are the same as the first row, and the other
groups are those of the rows that are left. So a group can be taken off at a time
(`groupsFrom_cons`), whether a row is the same as itself or not.

* `firstRowsOf_groups`: the first rows of the partitions are those of the groups.
* `groupsFrom_perm`: rows in another order have the same groups, in some order.
* `least_of_groups`: the first rows of the groups of ordered rows are the least ones.
* `groupsFrom_regroup`: **groups of groups.** What stands for groups by a finer key,
  grouped by a coarser one, stands for the finer groups of each coarser group.
-/

namespace StreamPlan

variable {key fine coarse : Row → Row} {rows others : List Row}

/-- The rows with the same key as a row, of those behind it. -/
def sameAs (key : Row → Row) (row : Row) (rows : List Row) : List Row :=
  rows.filter fun other => Value.sameRow (key row) (key other)

/-- The rows with another key than a row. -/
def otherThan (key : Row → Row) (row : Row) (rows : List Row) : List Row :=
  rows.filter fun other => !Value.sameRow (key row) (key other)

theorem sameAs_cons (row other : Row) (rows : List Row) :
    sameAs key row (other :: rows) = if Value.sameRow (key row) (key other) = true
      then other :: sameAs key row rows else sameAs key row rows :=
  List.filter_cons

theorem otherThan_cons (row other : Row) (rows : List Row) :
    otherThan key row (other :: rows) = if Value.sameRow (key row) (key other) = true
      then otherThan key row rows else other :: otherThan key row rows := by
  rw [otherThan, List.filter_cons]
  cases Value.sameRow (key row) (key other) <;> rfl

/-- A filter that lets less through needs no other below it. -/
theorem filter_of_imp {α : Type} {p q : α → Bool} {xs : List α} (h : ∀ x ∈ xs, q x = true → p x = true) :
    (xs.filter p).filter q = xs.filter q := by
  rw [List.filter_filter]
  refine List.filter_congr fun x hx => ?_
  cases hq : q x with
  | true => rw [h x hx hq]; rfl
  | false => rfl

/-- Of the rows with another key than one row, those with the key of a second one. -/
theorem sameAs_otherThan {a b : Row} (hab : Value.sameRow (key a) (key b) = false) (rows : List Row) :
    sameAs key b (otherThan key a rows) = sameAs key b rows := by
  refine filter_of_imp fun m _ hb => ?_
  rw [Bool.not_eq_true', ← hab]
  exact (Value.sameRow_comm ..).trans ((Value.sameRow_congr (Value.sameRow_symm hb) _).trans
    (Value.sameRow_comm ..))

theorem otherThan_comm (a b : Row) (rows : List Row) :
    otherThan key a (otherThan key b rows) = otherThan key b (otherThan key a rows) :=
  List.filter_comm ..

/-- The rows that join the first group do not open others. -/
theorem groupsFrom_first (k : Row) (members : List Row) (groups : List (Row × List Row))
    (rows : List Row) :
    groupsFrom key ((k, members) :: groups) rows
      = (k, members ++ rows.filter fun row => Value.sameRow k (key row))
        :: groupsFrom key groups (rows.filter fun row => !Value.sameRow k (key row)) := by
  induction rows generalizing members groups with
  | nil => rw [List.filter_nil, List.append_nil]; rfl
  | cons row rows ih =>
    rw [groupsFrom, List.foldl_cons, addToGroup, List.filter_cons, List.filter_cons]
    cases Value.sameRow k (key row) with
    | true =>
      rw [if_pos rfl, if_pos rfl, if_neg (by decide)]
      exact (ih (members ++ [row]) groups).trans (by rw [List.append_assoc]; rfl)
    | false =>
      rw [if_neg (by decide), if_neg (by decide), if_pos (by decide)]
      exact ih members (addToGroup (key row) row groups).2

/-- **One group at a time**: all rows that are the same as the first one, then the
groups of the others. -/
theorem groupsFrom_cons (row : Row) (rows : List Row) :
    groupsFrom key [] (row :: rows)
      = (key row, row :: sameAs key row rows) :: groupsFrom key [] (otherThan key row rows) :=
  groupsFrom_first (key row) [row] [] rows

/-- Induction over the groups of some rows. -/
theorem group_induction (key : Row → Row) {motive : List Row → Prop} (nil : motive [])
    (cons : ∀ row rows, motive (otherThan key row rows) → motive (row :: rows)) (rows : List Row) :
    motive rows := by
  induction hn : rows.length using Nat.strongRecOn generalizing rows with
  | _ n ih =>
    cases rows with
    | nil => exact nil
    | cons row rows =>
      refine cons row rows (ih _ ?_ _ rfl)
      rw [← hn, List.length_cons]
      exact Nat.lt_succ_of_le (List.length_filter_le _ rows)

/-- A group has the key of its first member, which is the same as the others. -/
theorem first_of_group : ∀ g ∈ groupsFrom key [] rows, ∃ first rest,
    g = (key first, first :: rest) ∧ (first :: rest).Sublist rows ∧
      ∀ m ∈ rest, Value.sameRow (key first) (key m) = true := by
  induction rows using group_induction key with
  | nil => exact nofun
  | cons row rows ih =>
    rw [groupsFrom_cons]
    refine List.forall_mem_cons.2 ⟨⟨row, _, rfl, (List.filter_sublist ..).cons_cons row,
      fun m hm => (List.mem_filter.1 hm).2⟩, fun g hg => ?_⟩
    obtain ⟨first, rest, he, hsub, hsame⟩ := ih g hg
    exact ⟨first, rest, he, (hsub.trans (List.filter_sublist ..)).cons row, hsame⟩

/-- Every row is in a group. -/
theorem group_of_mem : ∀ row ∈ rows, ∃ g ∈ groupsFrom key [] rows, row ∈ g.2 := by
  induction rows using group_induction key with
  | nil => exact nofun
  | cons row rows ih =>
    rw [groupsFrom_cons]
    refine List.forall_mem_cons.2 ⟨⟨_, List.mem_cons_self, List.mem_cons_self⟩, fun other hmem => ?_⟩
    cases hsame : Value.sameRow (key row) (key other) with
    | true =>
      exact ⟨_, List.mem_cons_self, List.mem_cons_of_mem row (List.mem_filter.2 ⟨hmem, hsame⟩)⟩
    | false =>
      obtain ⟨g, hg, hother⟩ := ih other (List.mem_filter.2 ⟨hmem, by rw [hsame]; rfl⟩)
      exact ⟨g, List.mem_cons_of_mem _ hg, hother⟩

/-- The members of a group are the same, unless there is one alone. -/
theorem alike_of_group {g : Row × List Row} (hg : g ∈ groupsFrom key [] rows) :
    (∃ m, g.2 = [m]) ∨ ∀ a ∈ g.2, ∀ b ∈ g.2, Value.sameRow (key a) (key b) = true := by
  obtain ⟨first, rest, rfl, -, hsame⟩ := first_of_group g hg
  cases rest with
  | nil => exact .inl ⟨first, rfl⟩
  | cons second rest =>
    have hsecond := hsame second List.mem_cons_self
    have hself := Value.sameRow_trans hsecond (Value.sameRow_symm hsecond)
    have hall : ∀ m ∈ first :: second :: rest, Value.sameRow (key first) (key m) = true :=
      List.forall_mem_cons.2 ⟨hself, hsame⟩
    exact .inr fun a ha b hb => Value.sameRow_trans (Value.sameRow_symm (hall a ha)) (hall b hb)

/-- A group of a row that is the same as itself has all rows that are the same as it. -/
theorem group_eq_sameAs {first : Row} {rest : List Row}
    (h : (key first, first :: rest) ∈ groupsFrom key [] rows)
    (hself : Value.sameRow (key first) (key first) = true) :
    first :: rest = sameAs key first rows := by
  induction rows using group_induction key with
  | nil => cases h
  | cons row rows ih =>
    rw [groupsFrom_cons] at h
    rcases List.mem_cons.1 h with he | h
    · obtain ⟨rfl, rfl⟩ := List.cons.inj (Prod.mk.inj he).2
      rw [sameAs_cons, if_pos hself]
    · obtain ⟨_, _, he, hsub, -⟩ := first_of_group _ h
      obtain ⟨rfl, rfl⟩ := List.cons.inj (Prod.mk.inj he).2
      have hother := (List.mem_filter.1 (hsub.subset List.mem_cons_self)).2
      rw [Bool.not_eq_true'] at hother
      rw [sameAs_cons, if_neg (by rw [Value.sameRow_comm, hother]; decide), ih h,
        sameAs_otherThan hother]

section First

variable {partition : List Nat}

/-- The rows of a partition with a row in front are not its first. -/
theorem firstRowsFrom_met (hin : ∀ row ∈ rows, ∀ c ∈ partition, c < row.length) {k : Row}
    {members : List Unit} (hmembers : members ≠ []) (seen : List (Row × List Unit)) :
    firstRowsFrom partition 1 ((k, members) :: seen) rows
      = firstRowsFrom partition 1 seen
        (rows.filter fun row => !Value.sameRow k (row.pick partition)) := by
  induction rows generalizing members seen with
  | nil => rfl
  | cons row rows ih =>
    obtain ⟨hrow, hin⟩ := List.forall_mem_cons.1 hin
    rw [firstRowsFrom, Row.at_of_inside hrow, ok_bind, addToGroup, List.filter_cons]
    cases Value.sameRow k (row.pick partition) with
    | true =>
      rw [if_pos rfl, if_neg (by decide)]
      have hmore : ¬(members ++ [()]).length ≤ 1 := by
        have := List.length_pos_of_ne_nil hmembers
        rw [List.length_append, List.length_singleton]
        omega
      simp only [hmore, if_false]
      rw [ih hin (by simp)]
      exact bind_pure _
    | false =>
      rw [if_neg (by decide), if_pos (by decide), firstRowsFrom, Row.at_of_inside hrow, ok_bind]
      simp only [ih hin hmembers]

/-- **The first rows of the partitions** are those of the groups. -/
theorem firstRowsOf_groups (hin : ∀ row ∈ rows, ∀ c ∈ partition, c < row.length) :
    ∃ out, firstRowsOf partition (some 1) false rows = .ok out ∧
      List.Forall₂ (fun g row => g.2.head? = some row) (groupsFrom (·.pick partition) [] rows)
        out := by
  induction rows using group_induction (·.pick partition) with
  | nil => exact ⟨[], rfl, .nil⟩
  | cons row rows ih =>
    obtain ⟨hrow, hin⟩ := List.forall_mem_cons.1 hin
    obtain ⟨out, hout, hfirst⟩ := ih fun other hother => hin other (List.mem_of_mem_filter hother)
    refine ⟨row :: out, ?_, groupsFrom_cons row rows ▸ .cons rfl hfirst⟩
    have hrest : firstRowsFrom partition 1 [(row.pick partition, [()])] rows = .ok out := by
      rw [firstRowsFrom_met hin (List.cons_ne_nil () [])]
      exact hout
    rw [firstRowsOf]
    simp only [Bool.false_eq_true, if_false]
    rw [firstRowsFrom, Row.at_of_inside hrow, ok_bind, addToGroup]
    simp only [hrest, ok_bind]
    rfl

/-- The latest row per key is the first of the sorted rows. -/
theorem TopN.onto_latestPerKey (key : List Nat) (timestamp : Nat) (rel : Rel) :
    (TopN.latestPerKey key timestamp).onto rel
      = .firstRows (.sort rel [⟨timestamp, .descending⟩] .none .none) key (some 1) false := by
  simp [onto, isEmpty, latestPerKey]

end First

/-- Groups with the same members, in another order, among groups in another order. -/
def Reordered (groups others : List (Row × List Row)) : Prop :=
  ∃ middle, List.Forall₂ (fun g h => g.2.Perm h.2) groups middle ∧ middle.Perm others

namespace Reordered

theorem refl (groups : List (Row × List Row)) : Reordered groups groups :=
  ⟨groups, List.forall₂_same.2 fun g _ => .refl g.2, .refl groups⟩

theorem cons {g h : Row × List Row} {groups others : List (Row × List Row)} (hgh : g.2.Perm h.2)
    (hrest : Reordered groups others) : Reordered (g :: groups) (h :: others) := by
  obtain ⟨middle, hmembers, hperm⟩ := hrest
  exact ⟨h :: middle, .cons hgh hmembers, hperm.cons h⟩

theorem trans {groups others last : List (Row × List Row)} (h : Reordered groups others)
    (h' : Reordered others last) : Reordered groups last := by
  obtain ⟨middle, hmembers, hperm⟩ := h
  obtain ⟨middle', hmembers', hperm'⟩ := h'
  obtain ⟨between, hbetween, hperm''⟩ := List.perm_comp_forall₂ hperm hmembers'
  exact ⟨between, forall₂_of_left hmembers.flip hbetween fun _ _ _ _ hg hh => hg.trans hh,
    hperm''.trans hperm'⟩

end Reordered

/-- Two rows in front may be exchanged. -/
theorem reordered_swap (a b : Row) (rows : List Row) :
    Reordered (groupsFrom key [] (a :: b :: rows)) (groupsFrom key [] (b :: a :: rows)) := by
  have hcomm := Value.sameRow_comm (key b) (key a)
  rw [groupsFrom_cons, groupsFrom_cons, sameAs_cons, sameAs_cons, otherThan_cons, otherThan_cons, hcomm]
  cases hab : Value.sameRow (key a) (key b) with
  | true =>
    -- one group has both
    have hsame : sameAs key a rows = sameAs key b rows ∧ otherThan key a rows = otherThan key b rows := by
      simp only [sameAs, otherThan, Value.sameRow_congr hab, and_self]
    rw [if_pos rfl, if_pos rfl, if_pos rfl, if_pos rfl, hsame.1, hsame.2]
    exact .cons (.swap ..) (.refl _)
  | false =>
    -- each has a group of its own
    rw [if_neg (by decide), if_neg (by decide), if_neg (by decide), if_neg (by decide),
      groupsFrom_cons, groupsFrom_cons, sameAs_otherThan hab, sameAs_otherThan (hcomm.trans hab),
      otherThan_comm a b]
    exact ⟨_, List.forall₂_same.2 fun g _ => .refl g.2, .swap ..⟩

/-- **Rows in another order** have the same groups, in some order. -/
theorem groupsFrom_perm (h : rows.Perm others) :
    Reordered (groupsFrom key [] rows) (groupsFrom key [] others) := by
  -- the groups of the rows behind the first are those of a part of them
  suffices hpart : ∀ p : Row → Bool,
      Reordered (groupsFrom key [] (rows.filter p)) (groupsFrom key [] (others.filter p)) by
    simpa only [List.filter_true] using hpart fun _ => true
  induction h with
  | nil => exact fun p => .refl _
  | @cons a rows others hperm ih =>
    intro p
    rw [List.filter_cons, List.filter_cons]
    split
    · rw [groupsFrom_cons, groupsFrom_cons]
      refine .cons (((hperm.filter p).filter _).cons a) ?_
      rw [otherThan, otherThan, List.filter_filter, List.filter_filter]
      exact ih _
    · exact ih p
  | swap a b rows =>
    intro p
    rw [List.filter_cons, List.filter_cons, List.filter_cons, List.filter_cons]
    cases p a <;> cases p b
    · exact .refl _
    · exact .refl _
    · exact .refl _
    · exact reordered_swap b a (rows.filter p)
  | trans _ _ ih ih' => exact fun p => (ih p).trans (ih' p)

/-- **The first rows of groups**, taken from the rows in an order, are the least of the
groups of the rows as they were. -/
theorem least_of_groups {le : Row → Row → Prop} {firsts : List Row} (hrefl : ∀ row, le row row)
    (hperm : others.Perm rows) (hsorted : others.Pairwise le)
    (hfirsts : List.Forall₂ (fun g row => g.2.head? = some row) (groupsFrom key [] others) firsts) :
    ∃ least, least.Perm firsts ∧
      List.Forall₂ (fun g row => row ∈ g.2 ∧ ∀ o ∈ g.2, le row o) (groupsFrom key [] rows) least := by
  obtain ⟨middle, hmembers, hmiddle⟩ : Reordered (groupsFrom key [] others) (groupsFrom key [] rows) :=
    groupsFrom_perm hperm
  have hleast : List.Forall₂ (fun g row => row ∈ g.2 ∧ ∀ o ∈ g.2, le row o) middle firsts := by
    refine forall₂_of_left hmembers hfirsts fun g hg h row hgh hrow => ?_
    obtain ⟨first, rest, rfl, hsub, -⟩ := first_of_group g hg
    obtain rfl := Option.some.inj hrow
    refine ⟨hgh.subset List.mem_cons_self, fun o ho => ?_⟩
    rcases List.mem_cons.1 (hgh.mem_iff.2 ho) with rfl | ho
    · exact hrefl o
    · exact (List.pairwise_cons.1 (hsorted.sublist hsub)).1 o ho
  obtain ⟨least, hall, hperm'⟩ := List.perm_comp_forall₂ hmiddle.symm hleast
  exact ⟨least, hperm', hall⟩

section Regroup

variable {R : Row × List Row → Row → Prop} {reps : List Row}

/-- What stands for the groups of the rows that are kept is kept itself. -/
theorem forall₂_groups_filter {keep keepRep : Row → Bool}
    (hkeep : ∀ a b, Value.sameRow (key a) (key b) = true → keep a = keep b)
    (hrep : ∀ first rest rep, R (key first, first :: rest) rep → keepRep rep = keep first)
    (h : List.Forall₂ R (groupsFrom key [] rows) reps) :
    List.Forall₂ R (groupsFrom key [] (rows.filter keep)) (reps.filter keepRep) := by
  induction rows using group_induction key generalizing reps with
  | nil =>
    cases h
    exact .nil
  | cons row rows ih =>
    rw [groupsFrom_cons] at h
    obtain - | ⟨hfirst, hrest⟩ := h
    have hothers := ih hrest
    rw [List.filter_cons, List.filter_cons, hrep _ _ _ hfirst]
    -- the group of the first row is kept whole or dropped whole
    cases hrow : keep row with
    | true =>
      rw [if_pos rfl, if_pos rfl, groupsFrom_cons]
      have hsame : sameAs key row (rows.filter keep) = sameAs key row rows :=
        filter_of_imp fun m _ hm => (hkeep row m hm).symm.trans hrow
      rw [hsame, otherThan, List.filter_comm]
      exact .cons hfirst hothers
    | false =>
      rw [if_neg (by decide), if_neg (by decide)]
      have hdropped : (otherThan key row rows).filter keep = rows.filter keep :=
        filter_of_imp fun m _ hm => by
          rw [Bool.not_eq_true', ← Bool.not_eq_true]
          exact fun hsame => by rw [← hkeep row m hsame, hrow] at hm; cases hm
      rw [← hdropped]
      exact hothers

/-- **Groups of groups.** Rows that stand for the groups by a finer key, grouped by a
coarser one, stand group by group for the finer groups of the rows of a coarser group. -/
theorem groupsFrom_regroup {repKey : Row → Row}
    (hfine : ∀ a b, Value.sameRow (fine a) (fine b) = true → Value.sameRow (coarse a) (coarse b) = true)
    (hrep : ∀ first rest rep, R (fine first, first :: rest) rep → repKey rep = coarse first)
    (h : List.Forall₂ R (groupsFrom fine [] rows) reps) :
    List.Forall₂ (fun g whole => List.Forall₂ R (groupsFrom fine [] whole.2) g.2)
      (groupsFrom repKey [] reps) (groupsFrom coarse [] rows) := by
  induction rows using group_induction coarse generalizing reps with
  | nil =>
    cases h
    exact .nil
  | cons row rows ih =>
    rw [groupsFrom_cons] at h
    obtain - | @⟨_, rep, _, reps, hfirst, hrest⟩ := h
    have hkey := hrep _ _ _ hfirst
    have hkeep : ∀ a b, Value.sameRow (fine a) (fine b) = true →
        Value.sameRow (coarse row) (coarse a) = Value.sameRow (coarse row) (coarse b) :=
      fun a b hab => (Value.sameRow_comm ..).trans ((Value.sameRow_congr (hfine a b hab) _).trans
        (Value.sameRow_comm ..))
    have hreps : ∀ first rest rep', R (fine first, first :: rest) rep' →
        Value.sameRow (repKey rep) (repKey rep') = Value.sameRow (coarse row) (coarse first) :=
      fun first rest rep' hR => by rw [hkey, hrep _ _ _ hR]
    -- the finer groups of the first coarser group, and those of the others
    have hmates := forall₂_groups_filter hkeep hreps hrest
    have hothers := forall₂_groups_filter (fun a b hab => congrArg not (hkeep a b hab))
      (fun first rest rep' hR => congrArg not (hreps first rest rep' hR)) hrest
    rw [otherThan, List.filter_comm] at hmates
    rw [otherThan, filter_of_imp fun m _ hm => by
      rw [Bool.not_eq_true', ← Bool.not_eq_true] at hm ⊢
      exact fun hsame => hm (hfine row m hsame)] at hothers
    rw [groupsFrom_cons, groupsFrom_cons]
    refine .cons ?_ (ih hothers)
    have hsame : sameAs fine row (sameAs coarse row rows) = sameAs fine row rows :=
      filter_of_imp fun m _ hm => hfine row m hm
    rw [groupsFrom_cons, hsame]
    exact .cons hfirst hmates

end Regroup

end StreamPlan
