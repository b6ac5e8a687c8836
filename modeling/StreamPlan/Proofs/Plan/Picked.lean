import StreamPlan.Proofs.Answers.Pending
import StreamPlan.Proofs.Plan.Keeps
import StreamPlan.Proofs.Schema.Names

/-!
# Projections that leave no operator

A projection of bare columns only changes which columns the query sees, as long as it keeps
their names.

* `Plan.renamed?_of_named`: a tree whose columns have the names of the outputs is not renamed.
* `Converter.convert_picked`: **a projection of bare columns** over a plan that shows the names of
  its query: only the select map changes.
* `Converter.picked_compose`: **two such projections are one**, of the composed columns.
-/

namespace StreamPlan

namespace Plan

variable {rel : Rel} {fields : Fields} {columns : List Nat} {outputs : List Output}
  {names next : List (Nat × String)}

/-- Names that are those of their columns. -/
def OwnNames (fields : Fields) (names : List (Nat × String)) : Prop :=
  ∀ p ∈ names, ∃ field, fields[p.1]? = some field ∧ field.name = p.2

/-- A column can be given its own name, whatever own names were given before. -/
theorem OwnNames.addName {column : Nat} {field : Field} (h : OwnNames fields names)
    (hfield : fields[column]? = some field) :
    ∃ next, addName names column field.name = some next ∧ OwnNames fields next := by
  unfold Plan.addName
  cases hl : names.lookup column with
  | none =>
    refine ⟨_, rfl, fun p hp => ?_⟩
    rcases List.mem_append.1 hp with hp | hp
    · exact h p hp
    · rw [List.mem_singleton.1 hp]
      exact ⟨field, hfield, rfl⟩
  | some other =>
    obtain ⟨field', hfield', hname⟩ := h _ (mem_of_lookup hl)
    have hsame : other = field.name := by
      rw [hfield] at hfield'
      rw [Option.some.inj hfield', hname]
    exact ⟨names, if_pos hsame, h⟩

/-- Outputs under the names of their columns give these names. -/
theorem namesGiven_of_own (h : ∀ pair ∈ columns.zip outputs,
    ∃ field, fields[pair.1]? = some field ∧ field.name = pair.2.field.name) :
    ∃ names, namesGiven columns outputs = some names ∧ OwnNames fields names := by
  have hrun : ∀ (pairs : List (Nat × Output)) (acc : List (Nat × String)), OwnNames fields acc →
      (∀ pair ∈ pairs, ∃ field, fields[pair.1]? = some field ∧ field.name = pair.2.field.name) →
      ∃ names, pairs.foldlM (fun names (p : Nat × Output) => Plan.addName names p.1 p.2.field.name) acc
        = some names ∧ OwnNames fields names := by
    intro pairs
    induction pairs with
    | nil => exact fun acc hacc _ => ⟨acc, rfl, hacc⟩
    | cons pair pairs ih =>
      intro acc hacc hown
      obtain ⟨⟨field, hfield, hname⟩, hrest⟩ := List.forall_mem_cons.1 hown
      obtain ⟨mid, hmid, howned⟩ := hacc.addName hfield
      obtain ⟨names, hnames, hout⟩ := ih mid howned hrest
      refine ⟨names, ?_, hout⟩
      rw [List.foldlM_cons, ← hname, hmid]
      exact hnames
  exact hrun _ [] (by rintro p ⟨⟩) h

/-- Own names are not new. -/
theorem newNames_of_own (h : OwnNames fields names) : newNames fields names = .ok [] := by
  obtain ⟨changed, hchanged, -⟩ : Gives (newNames fields names) fun _ => True := by
    refine Gives.filterM fun p hp => ?_
    obtain ⟨field, hfield, -⟩ := h p hp
    exact (Gives.itemAt (List.getElem?_eq_some_iff.1 hfield).1).bind fun _ _ => .ok trivial
  have hnone : changed = [] := by
    refine List.eq_nil_iff_forall_not_mem.2 fun p hp => ?_
    obtain ⟨hmem, field, hfield, hne⟩ := (mem_newNames hchanged).1 hp
    obtain ⟨field', hfield', hname⟩ := h p hmem
    rw [hfield] at hfield'
    exact hne (Option.some.inj hfield' ▸ hname)
  rw [hchanged, hnone]

/-- **A tree is not renamed** for outputs under the names of its columns. -/
theorem renamed?_of_named (hf : rel.fields = .ok fields) (h : ∀ pair ∈ columns.zip outputs,
    ∃ field, fields[pair.1]? = some field ∧ field.name = pair.2.field.name) :
    renamed? rel columns outputs = .ok (some rel) := by
  obtain ⟨names, hnames, hown⟩ := namesGiven_of_own h
  unfold renamed?
  rw [hf, ok_bind, hnames]
  simp only
  rw [newNames_of_own hown, ok_bind]
  rfl

/-- A plan that shows the columns of a query under their names. -/
def ShowsNamesOf (plan : Plan) (q : Rel) : Prop :=
  ∃ fields shown, q.fields = .ok fields ∧ plan.visibleFields = .ok shown ∧
    shown.map Field.name = fields.map Field.name

end Plan

namespace Converter

variable {c : Converter} {q : Rel} {plan : Plan} {columns first second : List Nat}

/-- A projection of columns shows them as they are. -/
theorem shows_projectColumns {fields : Fields} (hf : q.fields = .ok fields)
    (hlt : ∀ i ∈ columns, i < fields.length) :
    ∃ outputs, q.projectColumns columns none = .ok (.project q outputs none) ∧
      List.Forall₂ (fun i o => o.expr = .column i ∧ fields[i]? = some o.field) columns outputs := by
  obtain ⟨outputs, houtputs, hshow⟩ : Gives (columns.mapM (Output.column · fields))
      (List.Forall₂ (fun i o => Output.column i fields = .ok o) columns) := by
    refine Gives.mapM fun i hi => ?_
    exact ⟨_, by rw [Output.column, itemAt_eq_ok.2 (List.getElem?_eq_getElem (hlt i hi))]; rfl,
      by rw [Output.column, itemAt_eq_ok.2 (List.getElem?_eq_getElem (hlt i hi))]; rfl⟩
  refine ⟨outputs, ?_, hshow.imp fun i o ho => ?_⟩
  · rw [Rel.projectColumns, hf, ok_bind, houtputs]
    rfl
  · exact ⟨Output.expr_of_column ho, Output.field_of_column ho⟩

/-- Columns of a query and where its plan has them carry the same names. -/
theorem named_of_showsNamesOf {fields row shown : Fields} {targets : List Nat} {outputs : List Output}
    (hshown : Picks row plan.select.targets shown)
    (hnames : shown.map Field.name = fields.map Field.name)
    (htargets : Picks plan.select.targets columns targets)
    (houtputs : List.Forall₂ (fun i o => o.expr = .column i ∧ fields[i]? = some o.field) columns
      outputs) :
    List.Forall₂ (fun t o => ∃ field, row[t]? = some field ∧ field.name = o.field.name) targets
      outputs := by
  refine forall₂_of_left htargets houtputs fun i _ t o ht ho => ?_
  have hname : (shown[i]?).map Field.name = some o.field.name := by
    rw [← List.getElem?_map, hnames, List.getElem?_map, ho.2]
    rfl
  obtain ⟨field, hfield, hname⟩ := Option.map_eq_some_iff.1 hname
  exact ⟨field, by rw [← hshown.getElem? ht, hfield], hname⟩

/-- **A projection of bare columns** over a plan that shows the names of its query: only the
columns that the query sees change, and they still have the names of the query. -/
theorem convert_picked (h : c.convert q = .ok plan) (hn : plan.ShowsNamesOf q)
    (hlt : ∀ i ∈ columns, i < q.width) :
    ∃ picked select, q.projectColumns columns none = .ok picked ∧ picked.width = columns.length ∧
      Picks plan.select.targets columns select.targets ∧ select.width = plan.width ∧
      c.convert picked = .ok { plan with select } ∧ Plan.ShowsNamesOf { plan with select } picked := by
  obtain ⟨fields, shown, hfields, hvisible, hnames⟩ := hn
  obtain ⟨row, hrow, hvisible⟩ := bind_eq_ok.1 hvisible
  have hshown : Picks row plan.select.targets shown :=
    (mapM_eq_ok.1 hvisible).imp fun _ _ => itemAt_eq_ok.1
  have hsources : plan.select.sources = fields.length := by
    rw [ColumnMap.sources, hshown.length_eq]
    simpa using congrArg List.length hnames
  have hrange : ∀ i ∈ columns, i < fields.length := fun i hi =>
    (Rel.length_of_fields hfields).symm ▸ hlt i hi
  -- the outputs show columns of the query, the targets are where the plan has these
  obtain ⟨outputs, hpicked, houtputs⟩ := shows_projectColumns hfields hrange
  obtain ⟨targets, htargets, hmoved⟩ : Gives (columns.mapM plan.select.apply)
      (Picks plan.select.targets columns) :=
    Gives.mapM fun i hi => ColumnMap.apply_gives (by rw [hsources]; exact hrange i hi)
  have hnamed := named_of_showsNamesOf hshown hnames hmoved houtputs
  obtain ⟨select, hselect, hst, hsw⟩ : Gives (ColumnMap.of targets plan.width) fun m =>
      m.targets = targets ∧ m.width = plan.width := by
    refine ColumnMap.of_gives fun t ht => ?_
    obtain ⟨i, -, ht⟩ := exists_of_mem_right hmoved ht
    exact (sound_of_convert h).select_lt t (List.mem_of_getElem? ht)
  have hbare : bareOf q outputs = .ok (some columns) := by
    rw [bareOf, hfields]
    refine congrArg Except.ok (Plan.bareColumns_eq_some.2 (List.Forall₂.flip ?_))
    exact houtputs.imp fun i o ho => ⟨ho.1, (List.getElem?_eq_some_iff.1 ho.2).1⟩
  have hplan : projected plan (some columns) outputs = .ok { plan with select } := by
    have hrenamed : Plan.renamed? plan.rel targets outputs = .ok (some plan.rel) :=
      Plan.renamed?_of_named hrow fun pair hpair => (List.forall₂_iff_zip.1 hnamed).2 hpair
    simp only [projected, Plan.picked?, htargets, ok_bind, hrenamed, hselect]
    rfl
  refine ⟨_, select, hpicked, ?_, hst ▸ hmoved, hsw, ?_, outputs.map Output.field, ?_⟩
  · rw [Rel.width, houtputs.length_eq]
  · obtain ⟨below, hbelow⟩ := finishing_convert c q plan h
    have hs := sound_of_convert h
    rw [convert, hbare, ok_bind, h, ok_bind, hplan, ok_bind]
    exact finish_unchanged hbelow rfl (settled_of_isRead h) ⟨hs.key, hsw, hs.stateTime,
      hs.stateNowFilter, hs.time, hs.nowFilter, hs.sort, hs.topN⟩
  · obtain ⟨seen, hseen, hpicks⟩ : Gives (targets.mapM (itemAt row)) (Picks row targets) := by
      refine Gives.mapM fun t ht => ?_
      obtain ⟨o, -, field, hfield, -⟩ := exists_of_mem_left hnamed ht
      exact Gives.itemAt (List.getElem?_eq_some_iff.1 hfield).1
    refine ⟨seen, by rw [Rel.fields], ?_, ?_⟩
    · rw [Plan.visibleFields, hrow, ok_bind, hst, hseen]
    · rw [List.map_map]
      refine map_eq_map_of_forall₂ (forall₂_of_left hpicks hnamed fun t _ g o hg ho => ?_)
        fun g _ o _ hgo => hgo
      obtain ⟨field, hfield, hname⟩ := ho
      rw [hg] at hfield
      rw [Option.some.inj hfield, hname]
      rfl

/-- **Two projections of bare columns are one**, of the composed columns: over a plan that shows
the names of its query both give one plan, which differs from that of the query in the columns
that the query sees and in nothing else. -/
theorem picked_compose (h : c.convert q = .ok plan) (hn : plan.ShowsNamesOf q)
    (hfirst : ∀ i ∈ first, i < q.width) (hsecond : ∀ i ∈ second, i < first.length) :
    ∃ once twice composed select, q.projectColumns first none = .ok once ∧
      once.projectColumns second none = .ok twice ∧
      q.projectColumns (second.filterMap (first[·]?)) none = .ok composed ∧
      c.convert twice = c.convert composed ∧
      c.convert composed = .ok { plan with select } ∧
      Picks plan.select.targets (second.filterMap (first[·]?)) select.targets := by
  have hthrough : Picks first second (second.filterMap (first[·]?)) := picks_filterMap hsecond
  have hcomposed : ∀ i ∈ second.filterMap (first[·]?), i < q.width := fun i hi => by
    obtain ⟨j, -, hj⟩ := exists_of_mem_right hthrough hi
    exact hfirst i (List.mem_of_getElem? hj)
  obtain ⟨once, s₁, honce, hwidth, hpicks₁, hw₁, hconvert₁, hn₁⟩ := convert_picked h hn hfirst
  obtain ⟨twice, s₂, htwice, -, hpicks₂, hw₂, hconvert₂, -⟩ :=
    convert_picked hconvert₁ hn₁ (by rwa [hwidth])
  obtain ⟨composed, s, hpicked, -, hpicks, hw, hconvert, -⟩ := convert_picked h hn hcomposed
  have hselect : s₂ = s :=
    ColumnMap.eq_of_targets ((hpicks₁.compose hpicks₂ hthrough).unique hpicks) (hw₂.trans hw.symm)
  refine ⟨once, twice, composed, s, honce, htwice, hpicked, ?_, hconvert, hpicks⟩
  rw [hconvert, ← hselect, hconvert₂]

/-- Columns of the recent events, the time twice and then three times. The now-filter stays
pending, and no operator is left. -/
theorem picked_compose_events : ∃ plan once twice composed select,
    overEvents.convert scannedEvents = .ok plan ∧ plan.ShowsNamesOf scannedEvents ∧
      plan.nowFilter.isSome = true ∧
      scannedEvents.projectColumns [1, 0, 1] none = .ok once ∧
      once.projectColumns [2, 0, 1, 2] none = .ok twice ∧
      scannedEvents.projectColumns [1, 1, 0, 1] none = .ok composed ∧
      overEvents.convert twice = overEvents.convert composed ∧
      overEvents.convert composed = .ok { plan with select } ∧ select.targets = [1, 1, 0, 1] := by
  obtain ⟨plan, hplan, hnames, hpending, hselect⟩ : ∃ plan, overEvents.convert scannedEvents = .ok plan ∧
      plan.ShowsNamesOf scannedEvents ∧ plan.nowFilter.isSome = true ∧ plan.select.targets = [0, 1] :=
    ⟨_, rfl, ⟨_, _, rfl, rfl, rfl⟩, rfl, rfl⟩
  have hfirst : ∀ i ∈ [1, 0, 1], i < scannedEvents.width := by decide
  have hsecond : ∀ i ∈ [2, 0, 1, 2], i < [1, 0, 1].length := by decide
  obtain ⟨once, twice, composed, select, honce, htwice, hcomposed, hsame, hconvert, hpicks⟩ :=
    picked_compose hplan hnames hfirst hsecond
  refine ⟨plan, once, twice, composed, select, hplan, hnames, hpending, honce, htwice, hcomposed,
    hsame, hconvert, hpicks.unique ?_⟩
  rw [hselect]
  exact .cons rfl (.cons rfl (.cons rfl (.cons rfl .nil)))

end Converter

end StreamPlan
