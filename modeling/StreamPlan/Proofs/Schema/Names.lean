import StreamPlan.Catalog.Basic
import StreamPlan.Lineage
import StreamPlan.Proofs.Columns.ColumnMap
import StreamPlan.Proofs.Plan.Project
import StreamPlan.Query.Rel

/-!
# Fields that look alike, and their names

Two fields look alike if they have one type and, where names count, one name.
Flags for nulls are left out: outer joins change them. Columns of a tree are
renamed in place, for the outputs that show them; an output that shows a column
gives its name to every other place that shows it.

* `Field.Like`, `Fields.Show`: fields that look alike, and columns of a row type
  that look like given fields.
* `Fields.Show.along`: they still do when the row type changes into one that
  looks alike.
* `Fields.Show.joined`, `Show.joined_swapped`: the columns of a joined row.
* `Lineage.ShowsViews`: levels whose columns look like the fields of their views.
* `Plan.underNames`: a row type under other names (`renameColumns_fields`).
* `Plan.renamed?_fields`: **columns under the names of outputs** have these names.
  All fields keep their types, and if the outputs have the names that their
  columns had before, no field changes.
-/

namespace StreamPlan

/-- A field of the type of another one, and of its name if names count. -/
structure Field.Like (named : Prop) (f g : Field) : Prop where
  dataType : g.dataType = f.dataType
  name : named → g.name = f.name

namespace Field.Like

variable {named also : Prop} {f g k : Field}

theorem refl (named : Prop) (f : Field) : f.Like named f := ⟨rfl, fun _ => rfl⟩

theorem symm (h : f.Like named g) : g.Like named f := ⟨h.dataType.symm, fun hn => (h.name hn).symm⟩

theorem trans (h : f.Like named g) (h' : g.Like also k) : f.Like (named ∧ also) k :=
  ⟨h'.dataType.trans h.dataType, fun hn => (h'.name hn.2).trans (h.name hn.1)⟩

theorem mono (h : f.Like named g) (hn : also → named) : f.Like also g :=
  ⟨h.dataType, fun ha => h.name (hn ha)⟩

end Field.Like

/-- Fields that look alike have the same types, and the same names if these count. -/
theorem Field.like_iff {named : Prop} {fs gs : Fields} :
    List.Forall₂ (Field.Like named) fs gs ↔
      gs.map Field.dataType = fs.map Field.dataType ∧ (named → gs.map Field.name = fs.map Field.name) := by
  induction fs generalizing gs with
  | nil =>
    cases gs with
    | nil => simp
    | cons g gs => exact ⟨nofun, fun h => absurd h.1 (List.cons_ne_nil _ _)⟩
  | cons f fs ih =>
    cases gs with
    | nil => exact ⟨nofun, fun h => absurd h.1.symm (List.cons_ne_nil _ _)⟩
    | cons g gs =>
      simp only [List.forall₂_cons, ih, List.map_cons, List.cons.injEq]
      constructor
      · rintro ⟨hfg, htypes, hnames⟩
        exact ⟨⟨hfg.dataType, htypes⟩, fun hn => ⟨hfg.name hn, hnames hn⟩⟩
      · rintro ⟨⟨htype, htypes⟩, hnames⟩
        exact ⟨⟨htype, fun hn => (hnames hn).1⟩, htypes, fun hn => (hnames hn).2⟩

/-- Columns of a row type that look like the given fields. -/
def Fields.Show (named : Prop) (row : Fields) (columns : List Nat) (fs : Fields) : Prop :=
  ∃ shown, Picks row columns shown ∧ List.Forall₂ (Field.Like named) fs shown

namespace Fields

variable {named also : Prop} {row first second fs gs : Fields} {columns more : List Nat}

/-- Every column looks like its field. -/
theorem show_iff_forall₂ : Show named row columns fs ↔
    List.Forall₂ (fun t f => ∃ g, row[t]? = some g ∧ f.Like named g) columns fs := by
  constructor
  · rintro ⟨shown, hpicks, hlike⟩
    exact forall₂_of_left hpicks.flip hlike.flip fun g _ t f ht hf => ⟨g, ht, hf⟩
  · intro h
    induction h with
    | nil => exact ⟨[], .nil, .nil⟩
    | cons hg _ ih =>
      obtain ⟨g, ht, hf⟩ := hg
      obtain ⟨shown, hpicks, hlike⟩ := ih
      exact ⟨g :: shown, .cons ht hpicks, .cons hf hlike⟩

theorem show_of_picks (named : Prop) (h : Picks row columns fs) : Show named row columns fs :=
  ⟨fs, h, List.forall₂_same.2 fun f _ => .refl named f⟩

namespace Show

theorem mono (h : Show named row columns fs) (hn : also → named) : Show also row columns fs := by
  obtain ⟨shown, hpicks, hlike⟩ := h
  exact ⟨shown, hpicks, hlike.imp fun _ _ h => h.mono hn⟩

theorem append (h : Show named row columns fs) (h' : Show named row more gs) :
    Show named row (columns ++ more) (fs ++ gs) := by
  obtain ⟨shown, hpicks, hlike⟩ := h
  obtain ⟨shown', hpicks', hlike'⟩ := h'
  exact ⟨shown ++ shown', hpicks.append hpicks', List.rel_append hlike hlike'⟩

theorem left (h : Show named row columns fs) (behind : Fields) :
    Show named (row ++ behind) columns fs := by
  obtain ⟨shown, hpicks, hlike⟩ := h
  exact ⟨shown, hpicks.left behind, hlike⟩

theorem right (h : Show named row columns fs) (front : Fields) :
    Show named (front ++ row) (columns.map (front.length + ·)) fs := by
  obtain ⟨shown, hpicks, hlike⟩ := h
  exact ⟨shown, hpicks.right front, hlike⟩

/-- Columns look as before in a row type that looks as before. -/
theorem along (h : Show named row columns fs) (hrow : List.Forall₂ (Field.Like also) row gs) :
    Show (named ∧ also) gs columns fs := by
  obtain ⟨shown, hpicks, hlike⟩ := h
  obtain ⟨others, hothers, hshown⟩ := hpicks.related hrow
  refine ⟨others, hothers, ?_⟩
  exact forall₂_of_left hlike.flip hshown fun _ _ _ _ hf hg => hf.trans hg

/-- Columns that look like fields look like fields that look alike. -/
theorem like (h : Show named row columns fs) (hfs : List.Forall₂ (Field.Like named) fs gs) :
    Show named row columns gs := by
  obtain ⟨shown, hpicks, hlike⟩ := h
  refine ⟨shown, hpicks, forall₂_of_left hfs hlike fun _ _ _ _ hg hs => ?_⟩
  exact (hg.symm.trans hs).mono fun hn => ⟨hn, hn⟩

theorem length_eq (h : Show named row columns fs) : columns.length = fs.length := by
  obtain ⟨shown, hpicks, hlike⟩ := h
  rw [hpicks.length_eq, hlike.length_eq]

/-- The column that shows a field. -/
theorem at_position (h : Show named row columns fs) {i t : Nat} (ht : columns[i]? = some t) :
    ∃ f g, fs[i]? = some f ∧ row[t]? = some g ∧ f.Like named g := by
  obtain ⟨hi, rfl⟩ := List.getElem?_eq_some_iff.1 ht
  have hi' : i < fs.length := h.length_eq ▸ hi
  obtain ⟨g, hg, hfg⟩ := (List.forall₂_iff_get.1 (show_iff_forall₂.1 h)).2 i hi hi'
  exact ⟨fs[i], g, List.getElem?_eq_getElem hi', hg, hfg⟩

end Show

/-- A joined row has the fields of both sides but for nulls. -/
theorem like_joined (named : Prop) (kind : JoinKind) (first second : Fields) :
    List.Forall₂ (Field.Like named) (first ++ second) (Rel.joinedFields kind first second) := by
  have hside : ∀ (nulls : Bool) (fs : Fields),
      List.Forall₂ (Field.Like named) fs (if nulls then fs.map Field.asNullable else fs) := by
    intro nulls fs
    split
    · exact List.forall₂_map_right_iff.2 (List.forall₂_same.2 fun _ _ => ⟨rfl, fun _ => rfl⟩)
    · exact List.forall₂_same.2 fun f _ => .refl named f
  exact List.rel_append (hside _ first) (hside _ second)

/-- **The columns of both sides of a joined row**, however it was asked for. -/
theorem Show.joined (h : Show named first columns fs) (h' : Show named second more gs)
    (kind asked : JoinKind) :
    Show named (Rel.joinedFields kind first second) (columns ++ more.map (first.length + ·))
      (Rel.joinedFields asked fs gs) :=
  ((((h.left second).append (h'.right first)).along (like_joined True kind first second)).mono
    fun hn => ⟨hn, trivial⟩).like (like_joined named asked fs gs)

/-- The columns of both sides, those of the second side first. -/
theorem Show.joined_swapped (h : Show named first columns fs) (h' : Show named second more gs)
    (kind asked : JoinKind) :
    Show named (Rel.joinedFields kind first second) (more.map (first.length + ·) ++ columns)
      (Rel.joinedFields asked gs fs) :=
  ((((h'.right first).append (h.left second)).along (like_joined True kind first second)).mono
    fun hn => ⟨hn, trivial⟩).like (like_joined named asked gs fs)

end Fields

/-- Levels whose columns look like the fields of their views. -/
def Lineage.ShowsViews (catalog : Catalog) (named : Prop) (row : Fields) (lineage : Lineage) : Prop :=
  ∀ level ∈ lineage, ∃ view, catalog.views[level.view]? = some view ∧
    Fields.Show named row (List.range' level.offset level.width) view.levelFields

namespace Lineage.ShowsViews

variable {catalog : Catalog} {named also : Prop} {row next : Fields} {lineage : Lineage}

theorem mono (h : lineage.ShowsViews catalog named row) (hn : also → named) :
    lineage.ShowsViews catalog also row := by
  intro level hmem
  obtain ⟨view, hview, hshow⟩ := h level hmem
  exact ⟨view, hview, hshow.mono hn⟩

theorem along (h : lineage.ShowsViews catalog named row)
    (hrow : List.Forall₂ (Field.Like also) row next) :
    lineage.ShowsViews catalog (named ∧ also) next := by
  intro level hmem
  obtain ⟨view, hview, hshow⟩ := h level hmem
  exact ⟨view, hview, hshow.along hrow⟩

/-- One more level behind the row. -/
theorem addLevel {view : View} {level : Level} (h : lineage.ShowsViews catalog named row)
    (hview : catalog.views[level.view]? = some view) (hoffset : level.offset = row.length)
    (hwidth : level.width = view.levelFields.length) :
    ShowsViews catalog named (row ++ view.levelFields) (lineage ++ [level]) := by
  intro other hmem
  rcases List.mem_append.1 hmem with hmem | hmem
  · obtain ⟨view', hview', hshow⟩ := h other hmem
    exact ⟨view', hview', hshow.left _⟩
  · obtain rfl := List.mem_singleton.1 hmem
    refine ⟨view, hview, Fields.show_of_picks named ?_⟩
    rw [hoffset, hwidth]
    exact picks_behind row view.levelFields

end Lineage.ShowsViews

end StreamPlan

namespace StreamPlan

theorem Field.withName_name (field : Field) : field.withName field.name = field := by
  cases field
  rfl

namespace Output

/-- The fields of columns that are shown as they are. -/
theorem picks_of_columns {fields : Fields} {columns : List Nat} {outputs : List Output}
    (h : columns.mapM (column · fields) = .ok outputs) :
    Picks fields columns (outputs.map Output.field) :=
  List.forall₂_map_right_iff.2 ((mapM_eq_ok.1 h).imp fun _ _ ho => field_of_column ho)

end Output

namespace Plan

variable {rel out : Rel} {fields : Fields} {columns : List Nat} {outputs : List Output}
  {names changed : List (Nat × String)}

theorem mem_newNames (h : newNames fields names = .ok changed) {p : Nat × String} :
    p ∈ changed ↔ p ∈ names ∧ ∃ field, fields[p.1]? = some field ∧ field.name ≠ p.2 := by
  obtain ⟨hall, rfl⟩ := filterM_eq_ok.1 h
  rw [List.mem_filter]
  refine and_congr_right fun hp => ?_
  obtain ⟨b, hb⟩ := hall p hp
  obtain ⟨field, hfield, hdecided⟩ := bind_eq_ok.1 hb
  have hat := itemAt_eq_ok.1 hfield
  cases hdecided
  rw [hb, hat]
  simp [Except.toOption]

/-- A row type with the columns of a list under the names given there. -/
def underNames (names : List (Nat × String)) (fields : Fields) : Fields :=
  fields.mapIdx fun column field => field.withName ((names.lookup column).getD field.name)

theorem getElem?_underNames (column : Nat) :
    (underNames names fields)[column]?
      = fields[column]?.map fun field => field.withName ((names.lookup column).getD field.name) :=
  List.getElem?_mapIdx

/-- Renaming the columns of a tree changes its row type as it says. -/
theorem renameColumns_fields (hf : rel.fields = .ok fields) (h : renameColumns rel names = .ok out) :
    out.fields = .ok (underNames names fields) := by
  unfold renameColumns at h
  split at h
  · rename_i hnone
    cases h
    rw [hf, List.isEmpty_iff.1 hnone]
    refine congrArg _ (List.ext_getElem? fun column => ?_)
    rw [getElem?_underNames]
    simp [Field.withName_name]
  · rw [hf, ok_bind] at h
    obtain ⟨outputs, houtputs, h⟩ := bind_eq_ok.1 h
    cases h
    rw [Rel.fields]
    refine congrArg _ (List.ext_getElem? fun column => ?_)
    rw [getElem?_underNames, List.getElem?_map]
    rcases Nat.lt_or_ge column fields.length with hlt | hge
    · obtain ⟨output, houtput, hfield⟩ := getElem?_of_mapM_eq_ok houtputs
        (show (List.range fields.length)[column]? = some column by simp [hlt])
      rw [houtput, Option.map_some]
      split at hfield
      · rename_i name hname
        obtain ⟨field, hat, hrenamed⟩ := Output.field_of_renamed hfield
        rw [hat, hname, Option.map_some, hrenamed]
        rfl
      · rename_i hname
        rw [Output.field_of_column hfield, hname, Option.map_some, Option.getD_none,
          Field.withName_name]
    · have hlength := length_of_mapM_eq_ok houtputs
      rw [List.length_range] at hlength
      rw [List.getElem?_eq_none hge, List.getElem?_eq_none (by omega)]
      rfl

section Given

variable (hchanged : newNames fields names = .ok changed)
  (hgiven : GivenNames (columns.zip outputs) names)

include hchanged in
/-- A new name is one of those given, and not the one that its column had before. -/
theorem new_of_lookup {column : Nat} {name : String} (h : changed.lookup column = some name) :
    (column, name) ∈ names ∧ ∃ field, fields[column]? = some field ∧ field.name ≠ name :=
  (mem_newNames hchanged).1 (mem_of_lookup h)

include hchanged hgiven

/-- An output shows a field with its name. -/
theorem underNames_given {pair : Nat × Output} (hpair : pair ∈ columns.zip outputs) :
    (underNames changed fields)[pair.1]?
      = fields[pair.1]?.map (·.withName pair.2.field.name) := by
  rw [getElem?_underNames]
  refine Option.map_congr fun field hfield => congrArg _ ?_
  cases hlookup : changed.lookup pair.1 with
  | some name =>
    have hmem := (new_of_lookup hchanged hlookup).1
    exact Option.some.inj ((hgiven.once _ hmem).symm.trans (hgiven.lookup pair hpair))
  | none =>
    -- a name that is not new was there before
    by_contra hne
    have hmem := (mem_newNames hchanged).2 ⟨mem_of_lookup (hgiven.lookup pair hpair), field, hfield, hne⟩
    rw [List.lookup_eq_none_iff] at hlookup
    simpa using hlookup _ hmem

/-- All fields look as before, under their names too if the outputs have the names that
their columns had before. -/
theorem underNames_like : List.Forall₂ (Field.Like (∀ pair ∈ columns.zip outputs, ∀ field,
    fields[pair.1]? = some field → pair.2.field.name = field.name)) fields
    (underNames changed fields) := by
  refine List.forall₂_iff_get.2 ⟨(List.length_mapIdx ..).symm, fun i hi hi' => ?_⟩
  have hat := List.getElem?_eq_getElem hi'
  rw [getElem?_underNames, List.getElem?_eq_getElem hi, Option.map_some] at hat
  rw [List.get_eq_getElem, List.get_eq_getElem, ← Option.some.inj hat]
  refine ⟨rfl, fun hnamed => ?_⟩
  cases hlookup : changed.lookup i with
  | none => rfl
  | some name =>
    obtain ⟨hmem, field, hfield, hne⟩ := new_of_lookup hchanged hlookup
    obtain ⟨pair, hpair, hcolumn, hname⟩ := hgiven.given _ hmem
    subst hcolumn
    exact absurd ((hnamed pair hpair field hfield).symm.trans hname) hne

end Given

/-- **Columns under the names of outputs**: an output shows a field with its name. All
fields look as before, under their names too if the outputs have the names that their
columns had before. -/
theorem renamed?_fields (hf : rel.fields = .ok fields)
    (h : renamed? rel columns outputs = .ok (some out)) :
    ∃ next, out.fields = .ok next ∧
      (∀ pair ∈ columns.zip outputs,
        next[pair.1]? = fields[pair.1]?.map (·.withName pair.2.field.name)) ∧
      List.Forall₂ (Field.Like (∀ pair ∈ columns.zip outputs, ∀ field,
        fields[pair.1]? = some field → pair.2.field.name = field.name)) fields next := by
  unfold renamed? at h
  rw [hf, ok_bind] at h
  split at h
  · cases h
  · rename_i names hnames
    obtain ⟨changed, hchanged, h⟩ := bind_eq_ok.1 h
    obtain ⟨rel', hrel, h⟩ := bind_eq_ok.1 h
    cases h
    have hgiven := namesGiven_given hnames
    exact ⟨_, renameColumns_fields hf hrel, fun _ hpair => underNames_given hchanged hgiven hpair,
      underNames_like hchanged hgiven⟩

end Plan

end StreamPlan
