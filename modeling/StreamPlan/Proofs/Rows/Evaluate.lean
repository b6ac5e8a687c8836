import StreamPlan.Proofs.Rows.Expr
import StreamPlan.Proofs.Rows.Sorting
import StreamPlan.Rows.Evaluate

/-!
# Rows of single operators

What an operator gives, in terms of its input rows, once it succeeds.

* `filterRows_eq_ok`: a filter keeps the rows on which its predicate is true.
* `Projects`, `projects_of_projectRows`: the values of a projected row.
* `joinRows_eq_ok`: a join of inner or left kind goes through the left rows.
* `mem_of_unnest`, `mem_of_firstRowsOf`, `mem_of_aggregateRows`, …: where the
  rows of the other operators come from.
-/

namespace StreamPlan

variable {now : Int} {rows out : List Row} {row : Row}

theorem at_eq_ok {columns : List Nat} {values : Row} :
    Row.at row columns = .ok values ↔ List.Forall₂ (fun c v => row[c]? = some v) columns values := by
  rw [Row.at, mapM_eq_ok]
  constructor <;> intro h <;> refine h.imp fun c v hv => ?_
  · exact itemAt_eq_ok.1 hv
  · exact itemAt_eq_ok.2 hv

theorem length_of_at {columns : List Nat} {values : Row} (h : Row.at row columns = .ok values) :
    values.length = columns.length := length_of_mapM_eq_ok h

/-- The values at columns of the row. -/
theorem at_gives {columns : List Nat} (h : ∀ c ∈ columns, c < row.length) :
    Gives (Row.at row columns) fun values =>
      List.Forall₂ (fun c v => row[c]? = some v) columns values :=
  Gives.mapM fun c hc => Gives.itemAt (h c hc)

/-- Whether a predicate is true on a row. -/
def trueOn (now : Int) (predicate : Expr) (row : Row) : Bool :=
  match evalExpr now row predicate with
  | .ok v => v.isTrue
  | .error _ => false

theorem trueOn_of_ok {predicate : Expr} {v : Value} (h : evalExpr now row predicate = .ok v) :
    trueOn now predicate row = v.isTrue := by
  rw [trueOn, h]

/-- A predicate is true where it has a true value. -/
theorem trueOn_iff {predicate : Expr} :
    trueOn now predicate row = true ↔ ∃ v, evalExpr now row predicate = .ok v ∧ v.isTrue = true := by
  rw [trueOn]
  cases evalExpr now row predicate with
  | error e => simp
  | ok v => simp

theorem trueOn_eq_true_iff {predicate : Expr} :
    trueOn now predicate row = true ↔ evalExpr now row predicate = .ok (.boolean true) := by
  rw [trueOn_iff]
  constructor
  · rintro ⟨v, hv, htrue⟩
    rw [hv, Value.isTrue_iff.1 htrue]
  · exact fun h => ⟨_, h, rfl⟩

/-- **A predicate is true where all its conditions are.** -/
theorem trueOn_iff_conjuncts (predicate : Expr) :
    trueOn now predicate row = true ↔ ∀ k ∈ predicate.conjuncts, trueOn now k row = true := by
  have hboth : (∀ k ∈ predicate.conjuncts, ∃ v, evalExpr now row k = .ok v) →
      (trueOn now predicate row = true ↔ ∀ k ∈ predicate.conjuncts, trueOn now k row = true) := by
    intro hvalues
    obtain ⟨v, hv, htrue⟩ := evalExpr_of_conjuncts predicate hvalues
    rw [trueOn_of_ok hv, htrue]
    refine forall₂_congr fun k hk => ?_
    obtain ⟨w, hw⟩ := hvalues k hk
    rw [trueOn_of_ok hw, hw]
    simp
  constructor
  · intro h
    obtain ⟨v, hv, -⟩ := trueOn_iff.1 h
    exact (hboth (conjuncts_of_evalExpr predicate hv)).1 h
  · intro h
    refine (hboth fun k hk => ?_).2 h
    obtain ⟨v, hv, -⟩ := trueOn_iff.1 (h k hk)
    exact ⟨v, hv⟩

theorem trueOn_and {left right : Expr} : trueOn now (.binary .and left right) row = true ↔
    trueOn now left row = true ∧ trueOn now right row = true := by
  rw [trueOn_iff_conjuncts, Expr.conjuncts, List.forall_mem_append, ← trueOn_iff_conjuncts,
    ← trueOn_iff_conjuncts]

/-- **The conjunction of a list** is true where all of it is. -/
theorem trueOn_all {es : List Expr} :
    trueOn now (.all es) row = true ↔ ∀ k ∈ es, trueOn now k row = true := by
  have hfold : ∀ (es : List Expr) (e : Expr), trueOn now (es.foldl (.binary .and) e) row = true ↔
      trueOn now e row = true ∧ ∀ k ∈ es, trueOn now k row = true := by
    intro es
    induction es with
    | nil => simp
    | cons k es ih =>
      intro e
      rw [List.foldl_cons, ih, trueOn_and, List.forall_mem_cons, and_assoc]
  cases es with
  | nil =>
    have htruth : evalExpr now row .truth = .ok (.boolean true) := by
      rw [Expr.truth, evalExpr]
      rfl
    exact iff_of_true (trueOn_iff.2 ⟨_, htruth, rfl⟩) (by simp)
  | cons e es => rw [Expr.all, hfold, List.forall_mem_cons]

/-- **A filter** succeeds if its predicate has a value on every row. -/
theorem filterRows_eq_ok {predicate : Expr} :
    filterRows now predicate rows = .ok out ↔
      (∀ row ∈ rows, ∃ v, evalExpr now row predicate = .ok v) ∧
        out = rows.filter (trueOn now predicate) := by
  have hchoice : ∀ row : Row, (do return (← evalExpr now row predicate).isTrue : Eval Bool)
      = (evalExpr now row predicate).map Value.isTrue := by
    intro row
    cases evalExpr now row predicate <;> rfl
  have htrue : (fun row => ((evalExpr now row predicate).map Value.isTrue).toOption.getD false)
      = trueOn now predicate := by
    funext row
    rw [trueOn]
    cases evalExpr now row predicate <;> rfl
  rw [filterRows]
  simp only [hchoice]
  rw [filterM_eq_ok, htrue]
  refine and_congr_left fun _ => forall₂_congr fun row _ => ?_
  cases evalExpr now row predicate <;> simp [Except.map]

/-- A filter whose predicate means something keeps the rows of which it holds,
unless its evaluation leaves 64 bits. -/
theorem filterRows_means {predicate : Expr} {keep : Row → Prop} [DecidablePred keep]
    (h : ∀ row ∈ rows, Means (evalExpr now row predicate) (keep row)) :
    filterRows now predicate rows = .error (.fault .arithmeticOverflow) ∨
      filterRows now predicate rows = .ok (rows.filter fun row => keep row) := by
  have hover : Bounded (· = .fault .arithmeticOverflow) (filterRows now predicate rows)
      fun _ => True := by
    refine Bounded.filterM fun row hrow => Bounded.bind (P := fun _ => True)
      ⟨fun failure hf => ?_, fun _ _ => trivial⟩ fun v _ => .ok trivial
    rcases h row hrow with he | ⟨v, hv, -⟩
    · exact Except.error.inj (hf.symm.trans he)
    · cases hv.symm.trans hf
  cases hout : filterRows now predicate rows with
  | error failure => exact .inl (congrArg _ (hover.1 failure hout))
  | ok out =>
    obtain ⟨hvalues, rfl⟩ := filterRows_eq_ok.1 hout
    refine .inr (congrArg _ (List.filter_congr fun row hrow => ?_))
    obtain ⟨v, hv⟩ := hvalues row hrow
    rw [trueOn_of_ok hv, Bool.eq_iff_iff, (h row hrow).of_ok hv, decide_eq_true_iff]

/-- Whether an expression is a window aggregate. -/
def Expr.isWindow : Expr → Bool
  | .window .. => true
  | _ => false

/-- A projected row: it has a value per output, which is the value of its
expression over the row unless that is a window aggregate. -/
structure Projects (now : Int) (outputs : List Output) (row out : Row) : Prop where
  length : out.length = outputs.length
  value : ∀ (i : Nat) (o : Output), outputs[i]? = some o → o.expr.isWindow = false →
    ∃ v, out[i]? = some v ∧ evalExpr now row o.expr = .ok v

theorem projects_of_projectRow {position : Nat} :
    ∀ {outputs : List Output} {windows : List (Output × Option (List Value))} {out : Row},
      List.Forall₂ (fun o w => w.1 = o ∧ (o.expr.isWindow = false → w.2 = none)) outputs windows →
      projectRow now row position windows = .ok out → Projects now outputs row out := by
  intro outputs windows out h
  induction h generalizing out with
  | nil =>
    intro ho
    rw [projectRow] at ho
    cases ho
    exact ⟨rfl, by simp⟩
  | @cons o w os ws how hrest ih =>
    intro ho
    obtain ⟨w, window⟩ := w
    obtain ⟨rfl, hnone⟩ := how
    unfold projectRow at ho
    -- a window has its values, anything else is evaluated over the row
    have hcons : ∃ v rest, out = v :: rest ∧ projectRow now row position ws = .ok rest ∧
        (window = none → evalExpr now row w.expr = .ok v) := by
      cases window with
      | none =>
        obtain ⟨v, hv, ho⟩ := bind_eq_ok.1 ho
        obtain ⟨rest, hr, ho⟩ := bind_eq_ok.1 ho
        cases ho
        exact ⟨v, rest, rfl, hr, fun _ => hv⟩
      | some values =>
        obtain ⟨v, hv, ho⟩ := bind_eq_ok.1 ho
        obtain ⟨rest, hr, ho⟩ := bind_eq_ok.1 ho
        cases ho
        exact ⟨v, rest, rfl, hr, by rintro ⟨⟩⟩
    obtain ⟨v, rest, rfl, hr, hv⟩ := hcons
    have hp := ih hr
    refine ⟨congrArg (· + 1) hp.length, fun i o' ho' hw => ?_⟩
    cases i with
    | zero =>
      cases ho'
      exact ⟨v, rfl, hv (hnone hw)⟩
    | succ i => exact hp.value i o' ho' hw

theorem windowValues_of_isWindow {e : Expr} {w : Option (List Value)} (h : e.isWindow = false)
    (hw : windowValues rows e = .ok w) : w = none := by
  cases e with
  | window => cases h
  | _ => rw [windowValues] at hw <;> first | (cases hw; rfl) | (rintro _ _ _ ⟨⟩)

/-- **A projection** gives one row per row. -/
theorem projects_of_projectRows {outputs : List Output}
    (h : projectRows now outputs rows = .ok out) : List.Forall₂ (Projects now outputs) rows out := by
  rw [projectRows] at h
  obtain ⟨windows, hwindows, h⟩ := bind_eq_ok.1 h
  have hw : List.Forall₂ (fun o w => w.1 = o ∧ (o.expr.isWindow = false → w.2 = none)) outputs
      windows := by
    refine (mapM_eq_ok.1 hwindows).imp fun o w how => ?_
    obtain ⟨values, hv, how⟩ := bind_eq_ok.1 how
    cases how
    exact ⟨rfl, fun hno => windowValues_of_isWindow hno hv⟩
  have hstep := mapM_eq_ok.1 h
  refine List.forall₂_iff_get.2 ⟨?_, fun i hi ho => ?_⟩
  · have := hstep.length_eq
    rwa [List.length_zipIdx] at this
  · have hz : i < rows.zipIdx.length := by rwa [List.length_zipIdx]
    have := (List.forall₂_iff_get.1 hstep).2 i hz ho
    simp only [List.get_eq_getElem, List.getElem_zipIdx] at this
    exact projects_of_projectRow hw this

/-- The value of every output on a row. -/
def outputsOn (now : Int) (outputs : List Output) (row : Row) : Eval Row :=
  outputs.mapM fun o => evalExpr now row o.expr

theorem outputsOn_eq (outputs : List Output) :
    outputsOn now outputs row = (outputs.map Output.expr).mapM (evalExpr now row) := by
  rw [outputsOn, List.mapM_map]
  rfl

theorem projectRow_eq {position : Nat} : ∀ outputs : List Output,
    projectRow now row position (outputs.map fun o => (o, none)) = outputsOn now outputs row
  | [] => rfl
  | o :: os => by
    rw [List.map_cons, projectRow, outputsOn, List.mapM_cons, projectRow_eq os]
    rfl

/-- Outputs that are no window aggregates have no windows. -/
theorem windows_of_plain {outputs : List Output} (h : ∀ o ∈ outputs, o.expr.isWindow = false) :
    outputs.mapM (fun output => do return (output, ← windowValues rows output.expr))
      = (.ok (outputs.map fun o => (o, none)) : Eval (List (Output × Option (List Value)))) := by
  refine mapM_eq_ok_map fun o ho => ?_
  have hw := h o ho
  cases he : o.expr with
  | window => rw [he] at hw; cases hw
  | _ => rw [windowValues] <;> first | rfl | (rintro _ _ _ ⟨⟩)

/-- A projection without window aggregates goes row by row. -/
theorem projectRows_eq {outputs : List Output} (h : ∀ o ∈ outputs, o.expr.isWindow = false) :
    projectRows now outputs rows = rows.mapM (outputsOn now outputs) := by
  rw [projectRows, windows_of_plain h]
  exact mapM_zipIdx (fun row i => projectRow_eq outputs) rows 0

/-- The joined rows of a left row with its partners. -/
def joinedWith (now : Int) (kind : JoinKind) (condition : Expr) (rightWidth : Nat)
    (right : List Row) (left : Row) : List Row :=
  let found := (right.filter fun r => trueOn now condition (left ++ r)).map (left ++ ·)
  if found.isEmpty && kind.keepsLeft then [left ++ padding rightWidth] else found

theorem partners_eq_ok {condition : Expr} {left : Row} {right found : List Row}
    {matched : List Bool} (h : partners now condition left right = .ok (found, matched)) :
    (∀ r ∈ right, ∃ v, evalExpr now (left ++ r) condition = .ok v) ∧
      found = (right.filter fun r => trueOn now condition (left ++ r)).map (left ++ ·) := by
  have hzip : ∀ (rs : List Row) (flags : List Bool), List.Forall₂ (fun r b =>
      (do return (← evalExpr now (left ++ r) condition).isTrue) = (.ok b : Eval Bool)) rs flags →
      (∀ r ∈ rs, ∃ v, evalExpr now (left ++ r) condition = .ok v) ∧
        ((rs.zip flags).filterMap fun p => if p.2 then some (left ++ p.1) else none)
          = (rs.filter fun r => trueOn now condition (left ++ r)).map (left ++ ·) := by
    intro rs flags hf
    induction hf with
    | nil => simp
    | @cons r b rs bs hr _ ih =>
      obtain ⟨v, hv, hb⟩ := bind_eq_ok.1 hr
      cases hb
      refine ⟨List.forall_mem_cons.2 ⟨⟨v, hv⟩, ih.1⟩, ?_⟩
      rw [List.zip_cons_cons, List.filterMap_cons, ih.2, List.filter_cons, trueOn_of_ok hv]
      cases v.isTrue <;> simp
  rw [partners] at h
  obtain ⟨flags, hflags, h⟩ := bind_eq_ok.1 h
  cases h
  exact hzip right _ (mapM_eq_ok.1 hflags)

theorem partners_ok {condition : Expr} {left : Row} {right : List Row}
    (h : ∀ r ∈ right, ∃ v, evalExpr now (left ++ r) condition = .ok v) :
    partners now condition left right
      = .ok ((right.filter fun r => trueOn now condition (left ++ r)).map (left ++ ·),
        right.map fun r => trueOn now condition (left ++ r)) := by
  have hflags : right.mapM (fun r => do return (← evalExpr now (left ++ r) condition).isTrue)
      = (.ok (right.map fun r => trueOn now condition (left ++ r)) : Eval (List Bool)) := by
    refine mapM_eq_ok_map fun r hr => ?_
    obtain ⟨v, hv⟩ := h r hr
    rw [hv, trueOn_of_ok hv]
    rfl
  have hok : ∃ found, partners now condition left right
      = .ok (found, right.map fun r => trueOn now condition (left ++ r)) := by
    rw [partners, hflags]
    exact ⟨_, rfl⟩
  obtain ⟨found, hfound⟩ := hok
  rw [hfound, (partners_eq_ok hfound).2]

/-- A join goes through the left rows and marks the partners of each. -/
theorem joinFrom_ok {kind : JoinKind} {condition : Expr} {w : Nat} {right : List Row} :
    ∀ {left : List Row} {used : List Bool},
      (∀ l ∈ left, ∀ r ∈ right, ∃ v, evalExpr now (l ++ r) condition = .ok v) →
        joinFrom now condition kind w right left used
          = .ok (left.flatMap (joinedWith now kind condition w right),
            left.foldl (fun used l => List.zipWith (· || ·) used
              (right.map fun r => trueOn now condition (l ++ r))) used)
  | [], used, _ => rfl
  | l :: ls, used, h => by
    obtain ⟨hl, hls⟩ := List.forall_mem_cons.1 h
    rw [joinFrom, partners_ok hl]
    simp only [ok_bind, joinFrom_ok hls, List.flatMap_cons, List.foldl_cons, joinedWith]
    rfl

theorem joinFrom_eq_ok {kind : JoinKind} {condition : Expr} {w : Nat} {right : List Row} :
    ∀ {left : List Row} {used : List Bool} {out : List Row},
      (∃ flags, joinFrom now condition kind w right left used = .ok (out, flags)) ↔
        (∀ l ∈ left, ∀ r ∈ right, ∃ v, evalExpr now (l ++ r) condition = .ok v) ∧
          out = left.flatMap (joinedWith now kind condition w right)
  | [], used, out => by
    simp [joinFrom, pure, Except.pure, eq_comm]
  | l :: ls, used, out => by
    constructor
    · rintro ⟨flags, h⟩
      rw [joinFrom] at h
      obtain ⟨⟨found, matched⟩, hp, h⟩ := bind_eq_ok.1 h
      obtain ⟨⟨rest, used'⟩, hrest, h⟩ := bind_eq_ok.1 h
      cases h
      obtain ⟨hall, rfl⟩ := partners_eq_ok hp
      obtain ⟨hls, rfl⟩ := joinFrom_eq_ok.1 ⟨_, hrest⟩
      refine ⟨List.forall_mem_cons.2 ⟨hall, hls⟩, ?_⟩
      rw [List.flatMap_cons, joinedWith]
    · rintro ⟨hall, rfl⟩
      exact ⟨_, joinFrom_ok hall⟩

/-- **A join** of inner or left kind goes through the left rows. -/
theorem joinRows_eq_ok {kind : JoinKind} (hk : kind.keepsRight = false) {condition : Expr}
    {lw rw' : Nat} {left right : List Row} :
    joinRows now kind condition lw rw' left right = .ok out ↔
      (∀ l ∈ left, ∀ r ∈ right, ∃ v, evalExpr now (l ++ r) condition = .ok v) ∧
        out = left.flatMap (joinedWith now kind condition rw' right) := by
  rw [← @joinFrom_eq_ok now kind condition rw' right left (right.map fun _ => false) out, joinRows]
  constructor
  · intro h
    obtain ⟨⟨rows, used⟩, hj, h⟩ := bind_eq_ok.1 h
    cases h
    exact ⟨used, by simpa [hk] using hj⟩
  · rintro ⟨flags, hj⟩
    rw [hj]
    simp [hk, bind, Except.bind, pure, Except.pure]

/-- A joined row is a pair of rows, or a left row beside nulls. -/
theorem mem_of_joinRows {kind : JoinKind} (hk : kind.keepsRight = false) {condition : Expr}
    {lw rw' : Nat} {left right : List Row}
    (h : joinRows now kind condition lw rw' left right = .ok out) (hr : row ∈ out) :
    ∃ l ∈ left, (∃ r ∈ right, row = l ++ r) ∨ row = l ++ padding rw' := by
  obtain ⟨-, rfl⟩ := (joinRows_eq_ok hk).1 h
  obtain ⟨l, hl, hr⟩ := List.mem_flatMap.1 hr
  refine ⟨l, hl, ?_⟩
  rw [joinedWith] at hr
  split at hr
  · exact .inr (List.mem_singleton.1 hr)
  · obtain ⟨r, hfound, rfl⟩ := List.mem_map.1 hr
    exact .inl ⟨r, (List.mem_filter.1 hfound).1, rfl⟩

/-- An unnested row is a row beside an element of its collection. -/
theorem mem_of_unnest {column w : Nat} {parts : List (List Row)}
    (h : rows.mapM (unnestRow column false w) = .ok parts) (hr : row ∈ parts.flatten) :
    ∃ base ∈ rows, ∃ elements element, base[column]? = some (.list elements) ∧
      element ∈ elements ∧ row = base ++ element := by
  obtain ⟨part, hpart, hr⟩ := List.mem_flatten.1 hr
  obtain ⟨base, hbase, hstep⟩ := mem_of_mapM_eq_ok h hpart
  refine ⟨base, hbase, ?_⟩
  rw [unnestRow] at hstep
  split at hstep
  · cases hstep
  · rename_i value hv
    obtain ⟨elements, he, hstep⟩ := bind_eq_ok.1 hstep
    cases hstep
    simp only [Bool.and_false, Bool.false_eq_true, if_false] at hr
    obtain ⟨element, hmem, rfl⟩ := List.mem_map.1 hr
    unfold elementsOf at he
    split at he
    · cases he
      exact ⟨elements, element, hv, hmem, rfl⟩
    · cases he
      cases hmem
    · cases he

theorem mem_of_firstRowsFrom {partition : List Nat} {keep : Nat} :
    ∀ {rows : List Row} {seen : List (Row × List Unit)} {out : List Row},
      firstRowsFrom partition keep seen rows = .ok out → ∀ row ∈ out, row ∈ rows
  | [], seen, out, h => by
    rw [firstRowsFrom] at h
    cases h
    exact fun row hr => hr
  | r :: rows, seen, out, h => by
    rw [firstRowsFrom] at h
    obtain ⟨key, -, h⟩ := bind_eq_ok.1 h
    obtain ⟨rest, hrest, h⟩ := bind_eq_ok.1 h
    intro row hr
    have hsub := mem_of_firstRowsFrom hrest
    cases h
    split at hr
    · rcases List.mem_cons.1 hr with rfl | hr
      · exact List.mem_cons_self
      · exact List.mem_cons_of_mem _ (hsub row hr)
    · exact List.mem_cons_of_mem _ (hsub row hr)

theorem mem_of_firstRowsOf {partition : List Nat} {limit : Option Nat} {distinct : Bool}
    (h : firstRowsOf partition limit distinct rows = .ok out) : ∀ row ∈ out, row ∈ rows := by
  rw [firstRowsOf] at h
  split at h
  · cases h
    exact fun row hr => hr
  · exact mem_of_firstRowsFrom h

theorem mem_of_rangeOf {limit offset : Option Nat} : ∀ row ∈ rangeOf limit offset rows, row ∈ rows := by
  intro row hr
  unfold rangeOf at hr
  simp only at hr
  split at hr
  · exact List.mem_of_mem_drop (List.mem_of_mem_take hr)
  · exact List.mem_of_mem_drop hr

theorem key_of_addToGroup {α : Type} {key : Row} {member : α} :
    ∀ {groups : List (Row × List α)} {g : Row × List α},
      g ∈ (addToGroup key member groups).2 → g.1 = key ∨ ∃ ms, (g.1, ms) ∈ groups
  | [], g, h => by
    rw [addToGroup] at h
    exact .inl (by rw [List.mem_singleton.1 h])
  | (k, ms) :: groups, g, h => by
    rw [addToGroup] at h
    split at h
    · rcases List.mem_cons.1 h with rfl | h
      · exact .inr ⟨ms, List.mem_cons_self⟩
      · exact .inr ⟨g.2, List.mem_cons_of_mem _ h⟩
    · rcases List.mem_cons.1 h with rfl | h
      · exact .inr ⟨ms, List.mem_cons_self⟩
      · exact (key_of_addToGroup h).imp_right fun ⟨ms, hms⟩ => ⟨ms, List.mem_cons_of_mem _ hms⟩

/-- The key of a group is that of a row. -/
theorem key_of_groupRows {keys : List Nat} {groups : List (Row × List Row)}
    (h : groupRows keys rows = .ok groups) :
    ∀ g ∈ groups, ∃ row ∈ rows, Row.at row keys = .ok g.1 := by
  refine foldlM_run (I := fun done groups => ∀ g ∈ groups, ∃ row ∈ done, Row.at row keys = .ok g.1)
    nofun (fun done row groups next _ ih hnext => ?_) h
  obtain ⟨key, hkey, hnext⟩ := bind_eq_ok.1 hnext
  cases hnext
  intro g hg
  rcases key_of_addToGroup hg with hk | ⟨ms, hms⟩
  · exact ⟨row, by simp, hkey.trans (congrArg _ hk.symm)⟩
  · obtain ⟨other, hother, hat⟩ := ih _ hms
    exact ⟨other, List.mem_append_left _ hother, hat⟩

/-- **An aggregated row** is the key of a row, if there are keys, followed by a
value per call. -/
theorem mem_of_aggregateRows {keys : List Nat} {calls : List AggregateCall}
    (h : aggregateRows keys calls rows = .ok out) (hr : row ∈ out) :
    ∃ key values, row = key ++ values ∧ key.length = keys.length ∧ values.length = calls.length ∧
      (keys ≠ [] → ∃ base ∈ rows, Row.at base keys = .ok key) := by
  rw [aggregateRows] at h
  obtain ⟨groups, hgroups, h⟩ := bind_eq_ok.1 h
  obtain ⟨⟨key, members⟩, hg, hstep⟩ := mem_of_mapM_eq_ok h hr
  obtain ⟨values, hvalues, hstep⟩ := bind_eq_ok.1 hstep
  cases hstep
  have hlen := length_of_mapM_eq_ok hvalues
  split at hg
  · rename_i hempty
    simp only [Bool.and_eq_true, List.isEmpty_iff] at hempty
    cases List.mem_singleton.1 hg
    exact ⟨[], values, rfl, by rw [hempty.2]; rfl, hlen, fun hne => absurd hempty.2 hne⟩
  · obtain ⟨base, hbase, hat⟩ := key_of_groupRows hgroups _ hg
    exact ⟨key, values, rfl, length_of_at hat, hlen, fun _ => ⟨base, hbase, hat⟩⟩

end StreamPlan
