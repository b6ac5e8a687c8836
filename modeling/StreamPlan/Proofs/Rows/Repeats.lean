import StreamPlan.Proofs.Answers.Basic
import StreamPlan.Proofs.Rows.Group
import StreamPlan.Proofs.Rows.Window

/-!
# Rows by columns that repeat

Columns that are written more than once tell no more rows apart than they do written
once, and a row has no more values there.

* `mapM_unrepeated`: a walk over columns ends as one over the columns without repeats.
* `addToGroup_rekeyed`: groups depend on which keys are the same and on nothing else.
* `firstRowsOf_members`, `runningValues_members`: **the partitions of rows** depend on
  which columns they are by, not on how often or in which order these are written.
* `projectRows_repeated`: rows of columns with windows beside those without repeats.
-/

namespace StreamPlan

variable {ε α : Type} {now : Int} {row : Row} {rows : List Row} {front back columns : List Nat}

/-- A walk that goes well over the columns kept so far ends at the first failure of the others. -/
theorem mapM_unrepeated_from {f : Nat → Except ε α} {kept : List Nat} {values : List α}
    (hkept : kept.mapM f = .ok values) :
    Alike (fun _ _ => True) (columns.mapM f) ((Selection.append kept columns).mapM f) := by
  induction columns generalizing kept values with
  | nil =>
    rw [show Selection.append kept [] = kept from rfl, hkept]
    exact .ok trivial
  | cons c columns ih =>
    rw [show Selection.append kept (c :: columns) = Selection.append (Selection.add kept c) columns
      from rfl, List.mapM_cons]
    cases hc : f c with
    | error e =>
      -- a column that fails cannot be among those that have gone well
      have hfresh : kept.contains c = false := by
        rw [← Bool.not_eq_true]
        intro hmem
        obtain ⟨v, -, hv⟩ := exists_of_mem_left (mapM_eq_ok.1 hkept) (List.contains_iff_mem.1 hmem)
        rw [hc] at hv
        cases hv
      obtain ⟨added, hadded, -⟩ := Selection.append_eq (Selection.add kept c) columns
      rw [hadded, Selection.add, if_neg (by simpa using hfresh), List.append_assoc, List.mapM_append,
        hkept, List.singleton_append, ok_bind, List.mapM_cons, hc]
      exact .error e
    | ok v =>
      obtain ⟨next, hnext⟩ : ∃ next, (Selection.add kept c).mapM f = .ok next := by
        unfold Selection.add
        split
        · exact ⟨values, hkept⟩
        · exact ⟨values ++ [v], by rw [List.mapM_append, hkept, List.mapM_cons, hc]; rfl⟩
      have hrest := ih hnext
      generalize columns.mapM f = walked at hrest ⊢
      generalize (Selection.append (Selection.add kept c) columns).mapM f = others at hrest ⊢
      cases hrest with
      | ok _ => exact .ok trivial
      | error e => exact .error e

/-- **A walk over columns** ends as the walk over the columns without repeats does. -/
theorem mapM_unrepeated (f : Nat → Except ε α) (columns : List Nat) :
    Alike (fun _ _ => True) (columns.mapM f) ((Selection.append [] columns).mapM f) :=
  mapM_unrepeated_from (rfl : [].mapM f = .ok [])

/-- A row has values at columns of it, and stops in one way at others. -/
theorem Row.at_eq (row : Row) (columns : List Nat) :
    row.at columns
      = if ∀ c ∈ columns, c < row.length then .ok (row.pick columns) else .error .indexOutOfBounds := by
  split
  · exact Row.at_of_inside ‹_›
  · rename_i hout
    have honly : Bounded (· = Fault.indexOutOfBounds) (row.at columns) fun _ => True :=
      (Bounded.mapM (R := fun _ _ => True) fun c _ => ⟨fun e he => by
        unfold itemAt at he
        split at he <;> cases he
        rfl, fun _ _ => trivial⟩).mono fun _ _ => trivial
    cases hat : row.at columns with
    | ok values => exact absurd (inside_of_at hat) hout
    | error e => rw [honly.1 e hat]

/-- Rows are the same in some columns if they are so in the columns, however they are written. -/
theorem Row.sameRow_pick_members (h : ∀ c, c ∈ front ↔ c ∈ back) (a b : Row) :
    Value.sameRow (a.pick front) (b.pick front) = Value.sameRow (a.pick back) (b.pick back) := by
  rw [pick, pick, pick, pick, Value.sameRow_map, Value.sameRow_map, Bool.eq_iff_iff,
    List.all_eq_true, List.all_eq_true]
  simp only [h]

/-- Groups of the same members by keys that are related. -/
def Rekeyed (R : Row → Row → Prop) (groups others : List (Row × List α)) : Prop :=
  List.Forall₂ (fun g h => R g.1 h.1 ∧ g.2 = h.2) groups others

/-- **Groups depend on which keys are the same** and on nothing else. -/
theorem addToGroup_rekeyed {R : Row → Row → Prop} {key other : Row} (hkey : R key other)
    (hsame : ∀ k k', R k k' → Value.sameRow k key = Value.sameRow k' other) (member : α)
    {groups others : List (Row × List α)} (h : Rekeyed R groups others) :
    (addToGroup key member groups).1 = (addToGroup other member others).1 ∧
      Rekeyed R (addToGroup key member groups).2 (addToGroup other member others).2 := by
  induction h with
  | nil => exact ⟨rfl, .cons ⟨hkey, rfl⟩ .nil⟩
  | @cons g g' groups others hg hrest ih =>
    obtain ⟨k, members⟩ := g
    obtain ⟨k', _⟩ := g'
    obtain ⟨hk, rfl⟩ := hg
    rw [addToGroup, addToGroup, hsame k k' hk]
    split
    · exact ⟨rfl, .cons ⟨hk, rfl⟩ hrest⟩
    · exact ⟨ih.1, .cons ⟨hk, rfl⟩ ih.2⟩

/-- The keys of one row by two lists of columns. -/
def KeysOfRow (front back : List Nat) (key other : Row) : Prop :=
  ∃ row : Row, key = row.pick front ∧ other = row.pick back

/-- A row joins the same group by columns that are written in another way. -/
theorem addToGroup_members (h : ∀ c, c ∈ front ↔ c ∈ back) (row : Row) (member : α)
    {groups others : List (Row × List α)} (hg : Rekeyed (KeysOfRow front back) groups others) :
    (addToGroup (row.pick front) member groups).1 = (addToGroup (row.pick back) member others).1 ∧
      Rekeyed (KeysOfRow front back) (addToGroup (row.pick front) member groups).2
        (addToGroup (row.pick back) member others).2 := by
  refine addToGroup_rekeyed ⟨row, rfl, rfl⟩ ?_ member hg
  rintro _ _ ⟨first, rfl, rfl⟩
  exact Row.sameRow_pick_members h first row

theorem firstRowsFrom_members (h : ∀ c, c ∈ front ↔ c ∈ back) {keep : Nat}
    {seen others : List (Row × List Unit)} (hs : Rekeyed (KeysOfRow front back) seen others) :
    firstRowsFrom front keep seen rows = firstRowsFrom back keep others rows := by
  induction rows generalizing seen others with
  | nil => rfl
  | cons row rows ih =>
    rw [firstRowsFrom, firstRowsFrom, Row.at_eq, Row.at_eq]
    simp only [h]
    split
    · obtain ⟨hfound, hgroups⟩ := addToGroup_members h row () hs
      simp only [ok_bind, hfound, ih hgroups]
    · rfl

/-- **The first rows of each partition** by columns that are written in another way. -/
theorem firstRowsOf_members (h : ∀ c, c ∈ front ↔ c ∈ back) {limit : Option Nat} {distinct : Bool} :
    firstRowsOf front limit distinct rows = firstRowsOf back limit distinct rows := by
  unfold firstRowsOf
  split
  · rfl
  · exact firstRowsFrom_members h .nil

variable {call : AggregateCall} {order : SortOrder}

theorem runningFrom_members (h : ∀ c, c ∈ front ↔ c ∈ back) {groups others : List (Row × List Row)}
    (hg : Rekeyed (KeysOfRow front back) groups others) {sorted : List (Row × Nat)} :
    runningFrom call front groups sorted = runningFrom call back others sorted := by
  induction sorted generalizing groups others with
  | nil => rfl
  | cons numbered sorted ih =>
    obtain ⟨row, i⟩ := numbered
    rw [runningFrom, runningFrom, Row.at_eq, Row.at_eq]
    simp only [h]
    split
    · obtain ⟨hfound, hgroups⟩ := addToGroup_members h row row hg
      simp only [ok_bind, hfound, ih hgroups]
    · rfl

/-- **A running call** by columns that are written in another way. -/
theorem runningValues_members (h : ∀ c, c ∈ front ↔ c ∈ back) :
    runningValues call front order rows = runningValues call back order rows := by
  rw [runningValues, runningValues]
  simp only [runningFrom_members h .nil]

theorem projectRow_append {position : Nat} (windows rest : List (Output × Option (List Value))) :
    projectRow now row position (windows ++ rest) = (do
      let values ← projectRow now row position windows
      let more ← projectRow now row position rest
      return values ++ more) := by
  induction windows with
  | nil =>
    rw [List.nil_append, projectRow, pure_bind]
    simp
  | cons w windows ih =>
    obtain ⟨output, window⟩ := w
    rw [List.cons_append]
    cases window <;> rw [projectRow, projectRow, ih] <;> simp

/-- Windows have their values whichever row they are looked up beside. -/
theorem projectRow_windows {position : Nat} {windows others : List (Output × Option (List Value))}
    (h : List.Forall₂ (fun w o => w.2 = o.2 ∧ w.2.isSome = true) windows others) (row other : Row) :
    projectRow now row position windows = projectRow now other position others := by
  induction h with
  | nil => rfl
  | @cons w o windows others hwo _ ih =>
    obtain ⟨output, window⟩ := w
    obtain ⟨output', _⟩ := o
    obtain ⟨rfl, hsome⟩ := hwo
    obtain ⟨values, rfl⟩ := Option.isSome_iff_exists.1 hsome
    rw [projectRow, projectRow, ih]

/-- A projected row has a value per output. -/
theorem length_of_projectRow {position : Nat} {windows : List (Output × Option (List Value))}
    {values : Row} (h : projectRow now row position windows = .ok values) :
    values.length = windows.length := by
  induction windows generalizing values with
  | nil =>
    cases h
    rfl
  | cons w windows ih =>
    obtain ⟨output, window⟩ := w
    cases window <;>
    · rw [projectRow] at h
      obtain ⟨value, -, h⟩ := bind_eq_ok.1 h
      obtain ⟨rest, hrest, h⟩ := bind_eq_ok.1 h
      cases h
      rw [List.length_cons, List.length_cons, ih hrest]

/-- A window aggregate has a window. -/
theorem isSome_of_windowValues {e : Expr} {window : Option (List Value)} (h : e.isWindow = true)
    (hw : windowValues rows e = .ok window) : window.isSome = true := by
  cases e with
  | window call partition order =>
    rw [windowValues] at hw
    obtain ⟨values, -, hw⟩ := bind_eq_ok.1 hw
    cases hw
    rfl
  | _ => cases h

/-- The values of a row in some columns and in others, both before as many more values. -/
def PickedBefore (columns others : List Nat) (more : Nat) (out other : Row) : Prop :=
  ∃ row values : Row, values.length = more ∧ out = row.pick columns ++ values ∧
    other = row.pick others ++ values

/-- The values of bare columns, and those of the columns without repeats. -/
theorem outputsOn_repeated {shown others : List Output} {timestamp : Nat}
    (hshown : shown.map Output.expr = (columns ++ [timestamp]).map Expr.column)
    (hothers : others.map Output.expr
      = (Selection.append [] columns ++ [timestamp]).map Expr.column) (row : Row) :
    Alike (fun a b => a = row.pick (columns ++ [timestamp]) ∧
        b = row.pick (Selection.append [] columns ++ [timestamp]))
      (outputsOn now shown row) (outputsOn now others row) := by
  have halike : Alike (fun _ _ => True) (outputsOn now shown row) (outputsOn now others row) := by
    rw [outputsOn_eq, outputsOn_eq, hshown, hothers, List.mapM_map, List.mapM_map, List.mapM_append,
      List.mapM_append]
    exact (mapM_unrepeated _ columns).bind fun _ _ _ => .step rfl fun _ => .ok trivial
  have hends := halike.results
  generalize hx : outputsOn now shown row = x at hends
  generalize hy : outputsOn now others row = y at hends
  cases hends with
  | ok h =>
    exact .ok ⟨eq_pick_of_at ((outputsOn_columns hshown).1 hx),
      eq_pick_of_at ((outputsOn_columns hothers).1 hy)⟩
  | error e => exact .error e

/-- **Rows of columns and windows** beside those of the columns without repeats. -/
theorem projectRows_repeated {shown others windows otherWindows : List Output} {timestamp : Nat}
    (hshown : shown.map Output.expr = (columns ++ [timestamp]).map Expr.column)
    (hothers : others.map Output.expr
      = (Selection.append [] columns ++ [timestamp]).map Expr.column)
    (hwindows : List.Forall₂ (fun o o' : Output => o.expr.isWindow = true ∧
      windowValues rows o.expr = windowValues rows o'.expr) windows otherWindows) :
    Alike (List.Forall₂ (PickedBefore (columns ++ [timestamp])
        (Selection.append [] columns ++ [timestamp]) windows.length))
      (projectRows now (shown ++ windows) rows) (projectRows now (others ++ otherWindows) rows) := by
  have hvalues : Alike (List.Forall₂ fun w o => w.2 = o.2 ∧ w.2.isSome = true)
      (windows.mapM fun o => do return (o, ← windowValues rows o.expr) : Eval _)
      (otherWindows.mapM fun o => do return (o, ← windowValues rows o.expr)) := by
    refine Alike.mapM hwindows ?_
    rintro o o' ⟨hwindow, hsame⟩
    rw [← hsame]
    cases hv : windowValues rows o.expr with
    | ok window => exact .ok ⟨rfl, isSome_of_windowValues hwindow hv⟩
    | error e => exact .error e
  rw [projectRows, projectRows, List.mapM_append, List.mapM_append,
    windows_of_plain (isWindow_of_columns hshown), windows_of_plain (isWindow_of_columns hothers)]
  simp only [ok_bind, bind_assoc, pure_bind]
  refine hvalues.results.bind ?_
  rintro ws os ⟨hws, -, hall⟩
  refine Alike.mapM (List.forall₂_same.2 fun p _ => rfl) ?_
  rintro ⟨row, i⟩ _ rfl
  rw [projectRow_append, projectRow_append, projectRow_eq, projectRow_eq,
    ← projectRow_windows hall row row]
  refine (outputsOn_repeated hshown hothers row).bind ?_
  rintro _ _ ⟨rfl, rfl⟩
  cases hmore : projectRow now row i ws with
  | ok values =>
    have hlength : values.length = windows.length :=
      (length_of_projectRow hmore).trans (length_of_mapM_eq_ok hws)
    exact .ok ⟨row, values, hlength, rfl, rfl⟩
  | error e => exact .error e

end StreamPlan
