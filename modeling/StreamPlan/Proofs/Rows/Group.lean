import StreamPlan.Proofs.Rows.Equality

/-!
# Groups of rows

* `groupsFrom`: the groups of rows by a key that every row has
  (`groupRows_of_at`).
* `groupsFrom_alike`: keys that tell the same rows apart give the same groups.
* `groupsFrom_filter`: filtering by the key, before or after the rows are
  grouped, is the same.
* `aggregateRows_eq_ok`: an aggregated row is a key and the values over its group.
-/

namespace StreamPlan

variable {rows out : List Row}

/-- Two rows are the same if they are so position by position. -/
theorem Value.sameRow_iff {as bs : Row} :
    Value.sameRow as bs = true ↔ List.Forall₂ (fun a b => Value.same a b = true) as bs := by
  induction as generalizing bs with
  | nil => cases bs <;> simp [Value.sameRow]
  | cons a as ih =>
    cases bs with
    | nil => simp [Value.sameRow]
    | cons b bs => simp [Value.sameRow, ih]

/-- Rows of values by column are the same if the values of every column are. -/
theorem Value.sameRow_map (f g : Nat → Value) (columns : List Nat) :
    Value.sameRow (columns.map f) (columns.map g) = columns.all fun c => (f c).same (g c) := by
  induction columns with
  | nil => rfl
  | cons c columns ih => rw [List.map_cons, List.map_cons, Value.sameRow, ih, List.all_cons]

/-- The groups of rows by a key, from the groups of earlier rows on. -/
def groupsFrom (key : Row → Row) (groups : List (Row × List Row)) (rows : List Row) :
    List (Row × List Row) :=
  rows.foldl (fun groups row => (addToGroup (key row) row groups).2) groups

theorem groupRows_of_at {keys : List Nat} {key : Row → Row}
    (h : ∀ row ∈ rows, row.at keys = .ok (key row)) :
    groupRows keys rows = .ok (groupsFrom key [] rows) := by
  have hfold : ∀ (rows : List Row) (groups : List (Row × List Row)),
      (∀ row ∈ rows, row.at keys = .ok (key row)) →
      rows.foldlM (fun groups row => do return (addToGroup (← row.at keys) row groups).2) groups
        = (.ok (groupsFrom key groups rows) : Except Fault _) := by
    intro rows
    induction rows with
    | nil => exact fun groups _ => rfl
    | cons row rows ih =>
      intro groups hrows
      obtain ⟨hrow, hrows⟩ := List.forall_mem_cons.1 hrows
      rw [List.foldlM_cons, hrow]
      exact ih _ hrows
  exact hfold rows [] h

/-- Rows that are grouped have a key. -/
theorem at_of_groupRows {keys : List Nat} {groups : List (Row × List Row)}
    (h : groupRows keys rows = .ok groups) : ∀ row ∈ rows, ∃ key, row.at keys = .ok key := by
  refine foldlM_run (I := fun done _ => ∀ row ∈ done, ∃ key, row.at keys = .ok key) nofun
    (fun done row groups next _ ih hnext => ?_) h
  obtain ⟨key, hkey, -⟩ := bind_eq_ok.1 hnext
  exact List.forall_mem_append.2 ⟨ih, List.forall_mem_singleton.2 ⟨key, hkey⟩⟩

theorem members_of_addToGroup {key row : Row} {groups : List (Row × List Row)} :
    ∀ g ∈ (addToGroup key row groups).2, ∀ m ∈ g.2, m = row ∨ ∃ g ∈ groups, m ∈ g.2 := by
  induction groups with
  | nil =>
    intro g hg m hm
    rw [addToGroup, List.mem_singleton] at hg
    subst hg
    exact .inl (List.mem_singleton.1 hm)
  | cons first groups ih =>
    intro g hg m hm
    rw [addToGroup] at hg
    split at hg
    · rcases List.mem_cons.1 hg with rfl | hg
      · rcases List.mem_append.1 hm with hm | hm
        · exact .inr ⟨_, List.mem_cons_self, hm⟩
        · exact .inl (List.mem_singleton.1 hm)
      · exact .inr ⟨g, List.mem_cons_of_mem _ hg, hm⟩
    · rcases List.mem_cons.1 hg with rfl | hg
      · exact .inr ⟨_, List.mem_cons_self, hm⟩
      · rcases ih g hg m hm with rfl | ⟨g, hg, hm⟩
        · exact .inl rfl
        · exact .inr ⟨g, List.mem_cons_of_mem _ hg, hm⟩

/-- The members of the groups are rows that were grouped. -/
theorem members_of_groupsFrom {key : Row → Row} (rows : List Row) :
    ∀ g ∈ groupsFrom key [] rows, ∀ m ∈ g.2, m ∈ rows := by
  refine foldl_run (I := fun done (groups : List (Row × List Row)) => ∀ g ∈ groups, ∀ m ∈ g.2, m ∈ done)
    nofun fun done row groups _ ih g hg m hm => ?_
  rcases members_of_addToGroup g hg m hm with rfl | ⟨other, hother, hm⟩
  · simp
  · exact List.mem_append_left _ (ih other hother m hm)

/-- Groups of rows by one key, and of what these rows show by another: each is
of the key of a row that it was opened for. -/
def AlikeGroups (key other : Row → Row) (seen : Row → Row) (g h : Row × List Row) : Prop :=
  ∃ row, g.1 = key row ∧ h.1 = other row ∧ h.2 = g.2.map seen

section Alike

variable {key other seen : Row → Row}

theorem addToGroup_alike (hsame : ∀ a b, Value.sameRow (key a) (key b) = Value.sameRow (other a) (other b))
    (row : Row) {gs hs : List (Row × List Row)}
    (h : List.Forall₂ (AlikeGroups key other seen) gs hs) :
    List.Forall₂ (AlikeGroups key other seen) (addToGroup (key row) row gs).2
      (addToGroup (other row) (seen row) hs).2 := by
  induction h with
  | nil =>
    rw [addToGroup, addToGroup]
    exact .cons ⟨row, rfl, rfl, rfl⟩ .nil
  | @cons g h gs hs hgh hrest ih =>
    obtain ⟨k, members⟩ := g
    obtain ⟨k', members'⟩ := h
    obtain ⟨first, rfl, rfl, rfl⟩ := hgh
    rw [addToGroup, addToGroup, hsame]
    split
    · exact .cons ⟨first, rfl, rfl, by simp⟩ hrest
    · exact .cons ⟨first, rfl, rfl, rfl⟩ ih

/-- **Keys that tell the same rows apart** give the same groups. -/
theorem groupsFrom_alike
    (hsame : ∀ a b, Value.sameRow (key a) (key b) = Value.sameRow (other a) (other b))
    {outer : Row → Row} (houter : ∀ row ∈ rows, outer (seen row) = other row) :
    List.Forall₂ (AlikeGroups key other seen) (groupsFrom key [] rows)
      (groupsFrom outer [] (rows.map seen)) := by
  have hfold : ∀ (rows : List Row) (gs hs : List (Row × List Row)),
      (∀ row ∈ rows, outer (seen row) = other row) →
      List.Forall₂ (AlikeGroups key other seen) gs hs →
      List.Forall₂ (AlikeGroups key other seen) (groupsFrom key gs rows)
        (groupsFrom outer hs (rows.map seen)) := by
    intro rows
    induction rows with
    | nil => exact fun gs hs _ h => h
    | cons row rows ih =>
      intro gs hs houter h
      obtain ⟨hrow, hrows⟩ := List.forall_mem_cons.1 houter
      have hstep := ih _ _ hrows (addToGroup_alike hsame row h)
      rw [← hrow] at hstep
      exact hstep
  exact hfold rows [] [] houter .nil

end Alike

section Filtered

variable {keep : Row → Bool}

theorem addToGroup_kept {α : Type} {key : Row} {member : α}
    (hsame : ∀ a b, Value.sameRow a b = true → keep a = keep b) (hkey : keep key = true)
    (groups : List (Row × List α)) :
    (addToGroup key member (groups.filter fun g => keep g.1)).2
      = (addToGroup key member groups).2.filter fun g => keep g.1 := by
  induction groups with
  | nil => simp [addToGroup, hkey]
  | cons g groups ih =>
    obtain ⟨k, members⟩ := g
    rw [List.filter_cons]
    cases hk : keep k with
    | true =>
      simp only [if_true]
      rw [addToGroup, addToGroup]
      split
      · rw [List.filter_cons, hk]
        rfl
      · rw [List.filter_cons, hk, ← ih]
        rfl
    | false =>
      have hother : Value.sameRow k key = false := by
        rw [← Bool.not_eq_true]
        exact fun h => by rw [hsame k key h, hkey] at hk; cases hk
      simp only [Bool.false_eq_true, if_false, addToGroup, hother, List.filter_cons, hk, ih]

theorem addToGroup_dropped {α : Type} {key : Row} {member : α}
    (hsame : ∀ a b, Value.sameRow a b = true → keep a = keep b) (hkey : keep key = false)
    (groups : List (Row × List α)) :
    (addToGroup key member groups).2.filter (fun g => keep g.1)
      = groups.filter fun g => keep g.1 := by
  induction groups with
  | nil => simp [addToGroup, hkey]
  | cons g groups ih =>
    obtain ⟨k, members⟩ := g
    rw [addToGroup]
    split
    · rename_i hk
      rw [List.filter_cons, List.filter_cons, hsame k key hk, hkey]
      rfl
    · rw [List.filter_cons, List.filter_cons, ih]

/-- **Filtering by the key** gives the same groups before as after the rows are grouped. -/
theorem groupsFrom_filter {key : Row → Row}
    (hsame : ∀ a b, Value.sameRow a b = true → keep a = keep b) (rows : List Row) :
    groupsFrom key [] (rows.filter fun row => keep (key row))
      = (groupsFrom key [] rows).filter fun g => keep g.1 := by
  have hfold : ∀ (rows : List Row) (groups : List (Row × List Row)),
      groupsFrom key (groups.filter fun g => keep g.1) (rows.filter fun row => keep (key row))
        = (groupsFrom key groups rows).filter fun g => keep g.1 := by
    intro rows
    induction rows with
    | nil => exact fun groups => rfl
    | cons row rows ih =>
      intro groups
      rw [List.filter_cons]
      cases hrow : keep (key row) with
      | true =>
        have hstep := ih (addToGroup (key row) row groups).2
        rw [← addToGroup_kept hsame hrow] at hstep
        exact hstep
      | false =>
        have hstep := ih (addToGroup (key row) row groups).2
        rw [addToGroup_dropped hsame hrow] at hstep
        exact hstep
  exact hfold rows []

end Filtered

/-- The groups that have a row: without keys there is one, even of no rows. -/
def wholeGroups (keys : List Nat) (groups : List (Row × List Row)) : List (Row × List Row) :=
  if groups.isEmpty && keys.isEmpty then [([], [])] else groups

theorem wholeGroups_of_ne_nil {keys : List Nat} (h : keys ≠ []) (groups : List (Row × List Row)) :
    wholeGroups keys groups = groups := by
  rw [wholeGroups, if_neg]
  simp [h]

/-- The row of a group: its key and the value of every call. -/
def AggregatesTo (calls : List AggregateCall) (group : Row × List Row) (row : Row) : Prop :=
  ∃ values, calls.mapM (·.valueOn group.2) = .ok values ∧ row = group.1 ++ values

/-- **Aggregated rows** are those of the groups, in order. -/
theorem aggregateRows_eq_ok {keys : List Nat} {calls : List AggregateCall} :
    aggregateRows keys calls rows = .ok out ↔ ∃ groups, groupRows keys rows = .ok groups ∧
      List.Forall₂ (AggregatesTo calls) (wholeGroups keys groups) out := by
  rw [aggregateRows, bind_eq_ok]
  refine exists_congr fun groups => and_congr_right fun _ => ?_
  rw [mapM_eq_ok]
  constructor <;> intro h <;> refine h.imp fun g row hrow => ?_
  · obtain ⟨values, hvalues, hrow⟩ := bind_eq_ok.1 hrow
    cases hrow
    exact ⟨values, hvalues, rfl⟩
  · obtain ⟨values, hvalues, rfl⟩ := hrow
    exact bind_eq_ok.2 ⟨values, hvalues, rfl⟩

namespace AggregateCall

variable {call moved : AggregateCall} {f : Nat → Except Fault Nat}

/-- A call over other columns gets the same from a row. -/
theorem contribution_remap {row seen : Row} (hsees : ∀ i t, f i = .ok t → seen[i]? = row[t]?)
    (hmoved : call.remap f = .ok moved) : call.contribution seen = moved.contribution row := by
  obtain ⟨args, hargs, hmoved⟩ := bind_eq_ok.1 hmoved
  obtain ⟨filter, hfilter, hmoved⟩ := bind_eq_ok.1 hmoved
  cases hmoved
  have hitem : ∀ i t, f i = .ok t → itemAt seen i = itemAt row t := fun i t ht => by
    rw [itemAt, itemAt, hsees i t ht]
  have hcounts : (call.filter = none ∧ filter = none) ∨
      ∃ i t, call.filter = some i ∧ filter = some t ∧ itemAt seen i = itemAt row t := by
    cases hf : call.filter with
    | none =>
      rw [hf] at hfilter
      cases hfilter
      exact .inl ⟨rfl, rfl⟩
    | some i =>
      rw [hf] at hfilter
      obtain ⟨t, ht, rfl⟩ := map_eq_ok.1 hfilter
      exact .inr ⟨i, t, rfl, rfl, hitem i t ht⟩
  have hfirst : (call.args.head? = none ∧ args.head? = none) ∨
      ∃ a t, call.args.head? = some a ∧ args.head? = some t ∧ itemAt seen a = itemAt row t := by
    have hall := mapM_eq_ok.1 hargs
    cases ha : call.args with
    | nil =>
      rw [ha] at hall
      cases hall
      exact .inl ⟨rfl, rfl⟩
    | cons a as =>
      rw [ha] at hall
      cases hall with
      | cons ht _ => exact .inr ⟨a, _, rfl, rfl, hitem a _ ht⟩
  rw [contribution, contribution]
  rcases hcounts with ⟨hf, rfl⟩ | ⟨i, t, hf, rfl, hcounts⟩ <;>
    rcases hfirst with ⟨ha, ha'⟩ | ⟨a, t', ha, ha', hvalue⟩ <;>
    simp only [*]

/-- **A call over other columns** has the same value over a group. -/
theorem valueOn_remap {seens : List Row}
    (hsees : List.Forall₂ (fun row seen : Row => ∀ i t, f i = .ok t → seen[i]? = row[t]?) rows seens)
    (hmoved : call.remap f = .ok moved) : call.valueOn seens = moved.valueOn rows := by
  have hcontributions : seens.mapM call.contribution = rows.mapM moved.contribution :=
    mapM_congr (hsees.flip.imp fun _ _ h => contribution_remap h hmoved)
  have hshape : moved.function = call.function ∧ moved.distinct = call.distinct := by
    obtain ⟨args, -, hmoved⟩ := bind_eq_ok.1 hmoved
    obtain ⟨filter, -, hmoved⟩ := bind_eq_ok.1 hmoved
    cases hmoved
    exact ⟨rfl, rfl⟩
  rw [valueOn, valueOn, hcontributions, hshape.1, hshape.2]

end AggregateCall

end StreamPlan
