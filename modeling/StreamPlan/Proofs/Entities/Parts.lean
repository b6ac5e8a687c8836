import Mathlib.Data.List.Flatten
import StreamPlan.Proofs.Entities.Unrolling

/-!
# Rows of an entity, part by part

A row of an unrolled entity has one part per level, side by side. The part of
the root is a row of the base table, and that of any other level an element of
a collection in the part above.

* `Lineage.Chain`: levels each of which is the root or below an earlier one.
* `Lineage.unroll`: the ways to go on from some parts through further levels,
  and `Lineage.Unrollable`: there are collections on the way.
* `Lineage.Laid`: the part of a level stands in the columns of the level.
* `Unrolling.evaluate_parts`: **the rows of an entity are its parts side by side**,
  in the order of the collections.
-/

namespace StreamPlan

variable {catalog : Catalog} {fixture : Fixture} {base : List Row} {b : Nat} {rel : Rel}
  {l before front back levels : Lineage} {level : Level} {parts all : List Row} {rows : List Row}

/-- The collection that a level unrolls: the position of the level above and the
column there. A root unrolls none. -/
def Level.collection? (catalog : Catalog) (level : Level) : Option (Nat × Nat) := do
  let p ← level.parent
  let view ← catalog.views[level.view]?
  match view.place with
  | .root _ => none
  | .child _ column => some (p, column)

/-- A level behind others: the top level of the base table if there are none, and
else a collection of one of them. -/
inductive Level.Follows (catalog : Catalog) (b : Nat) (before : Lineage) (level : Level) : Prop
  | root {view : View} : before = [] → level.parent = none →
      catalog.views[level.view]? = some view → view.place = .root b → level.keys = view.ownKeys →
      Follows catalog b before level
  | below {p column : Nat} {above : Level} {view : View} : level.parent = some p →
      before[p]? = some above → catalog.views[level.view]? = some view →
      view.place = .child above.view column → level.keys = view.ownKeys →
      Follows catalog b before level

/-- Levels each of which follows those before it. -/
inductive Lineage.Chain (catalog : Catalog) (b : Nat) : Lineage → Lineage → Prop
  | nil {before : Lineage} : Chain catalog b before []
  | cons {before levels : Lineage} {level : Level} : level.Follows catalog b before →
      Chain catalog b (before ++ [level]) levels → Chain catalog b before (level :: levels)

theorem Level.collection?_root (h : level.parent = none) : level.collection? catalog = none := by
  rw [collection?, h]
  rfl

theorem Level.collection?_below {p q column : Nat} {view : View} (hp : level.parent = some p)
    (hv : catalog.views[level.view]? = some view) (hplace : view.place = .child q column) :
    level.collection? catalog = some (p, column) := by
  rw [collection?, hp, hv]
  simp [hplace]

/-- The key of a level is that of its view. -/
theorem Level.Follows.keys (h : level.Follows catalog b before) :
    ∃ view, catalog.views[level.view]? = some view ∧ level.keys = view.ownKeys := by
  cases h with
  | root _ _ hv _ hk | below _ _ hv _ hk => exact ⟨_, hv, hk⟩

/-- Levels of one view have as many key columns. -/
theorem Level.Follows.keys_eq {b' : Nat} {before' : Lineage} {other : Level}
    (h : level.Follows catalog b before) (h' : other.Follows catalog b' before')
    (hview : level.view = other.view) : level.keys = other.keys := by
  obtain ⟨view, hv, hk⟩ := h.keys
  obtain ⟨view', hv', hk'⟩ := h'.keys
  rw [hview] at hv
  rw [hk, hk', Option.some.inj (hv.symm.trans hv')]

namespace Lineage.Chain

theorem append_iff : Chain catalog b before (front ++ back) ↔
    Chain catalog b before front ∧ Chain catalog b (before ++ front) back := by
  induction front generalizing before with
  | nil => simp [Chain.nil]
  | cons level front ih =>
    rw [List.cons_append]
    constructor
    · rintro (_ | ⟨hlevel, hrest⟩)
      obtain ⟨hfront, hback⟩ := ih.1 hrest
      rw [List.append_assoc, List.singleton_append] at hback
      exact ⟨.cons hlevel hfront, hback⟩
    · rintro ⟨_ | ⟨hlevel, hfront⟩, hback⟩
      refine .cons hlevel (ih.2 ⟨hfront, ?_⟩)
      rwa [List.append_assoc, List.singleton_append]

/-- A level follows those in front of it. -/
theorem follows {i : Nat} (h : Chain catalog b [] l) (hi : l[i]? = some level) :
    level.Follows catalog b (l.take i) := by
  obtain ⟨hlt, rfl⟩ := List.getElem?_eq_some_iff.1 hi
  rw [← List.take_append_drop i l, append_iff, List.drop_eq_getElem_cons hlt] at h
  obtain ⟨-, _ | ⟨hlevel, -⟩⟩ := h
  exact hlevel

end Lineage.Chain

theorem Unrolling.chain {filters : List NowFilter} (h : Unrolling catalog filters l rel) :
    ∃ b, Lineage.Chain catalog b [] l := by
  induction h with
  | @scan id b view table hv hp ht => exact ⟨b, .cons (.root rfl rfl hv hp rfl) .nil⟩
  | level _ ha hv hp ih =>
    obtain ⟨b, hc⟩ := ih
    exact ⟨b, Lineage.Chain.append_iff.2 ⟨hc, .cons (.below rfl ha hv hp rfl) .nil⟩⟩
  | renamed _ _ ih | filtered _ _ ih => exact ih

/-- The rows that can be the part of a level: those of the base table for a root, and
else the elements of the collection in the part above. -/
def Level.candidates (catalog : Catalog) (base : List Row) (level : Level) (parts : List Row) :
    List Row :=
  match level.collection? catalog with
  | none => base
  | some (p, column) => (parts.getD p []).elementsAt column

theorem Level.candidates_none (h : level.collection? catalog = none) :
    level.candidates catalog base parts = base := by
  rw [candidates, h]

theorem Level.candidates_some {p column : Nat} (h : level.collection? catalog = some (p, column)) :
    level.candidates catalog base parts = (parts.getD p []).elementsAt column := by
  rw [candidates, h]

/-- There is a collection for a level, or null in its place. -/
def Level.Opens (catalog : Catalog) (level : Level) (parts : List Row) : Prop :=
  ∀ p column, level.collection? catalog = some (p, column) → (parts.getD p []).HasElements column

namespace Lineage

/-- The ways to go on from some parts through further levels. -/
def unroll (catalog : Catalog) (base : List Row) : Lineage → List Row → List (List Row)
  | [], parts => [parts]
  | level :: levels, parts =>
    (level.candidates catalog base parts).flatMap fun part =>
      unroll catalog base levels (parts ++ [part])

/-- There are collections wherever one goes on through further levels. -/
def Unrollable (catalog : Catalog) (base : List Row) : Lineage → List Row → Prop
  | [], _ => True
  | level :: levels, parts => level.Opens catalog parts ∧
    ∀ part ∈ level.candidates catalog base parts, Unrollable catalog base levels (parts ++ [part])

theorem unroll_append : ∀ {front parts}, unroll catalog base (front ++ back) parts
    = (unroll catalog base front parts).flatMap (unroll catalog base back)
  | [], parts => by simp [unroll]
  | level :: front, parts => by
    simp only [List.cons_append, unroll, List.flatMap_assoc]
    exact List.flatMap_congr fun part _ => unroll_append

theorem unrollable_append : ∀ {front parts}, Unrollable catalog base (front ++ back) parts ↔
    Unrollable catalog base front parts ∧
      ∀ all ∈ unroll catalog base front parts, Unrollable catalog base back all
  | [], parts => by simp [unroll, Unrollable]
  | level :: front, parts => by
    simp only [List.cons_append, unroll, Unrollable, unrollable_append, List.mem_flatMap]
    constructor
    · rintro ⟨hopens, h⟩
      exact ⟨⟨hopens, fun part hp => (h part hp).1⟩, fun all ⟨part, hp, ha⟩ => (h part hp).2 all ha⟩
    · rintro ⟨⟨hopens, hfront⟩, h⟩
      exact ⟨hopens, fun part hp => ⟨hfront part hp, fun all ha => h all ⟨part, hp, ha⟩⟩⟩

/-- One more level puts one of its candidates behind the parts. -/
theorem mem_unroll_concat : all ∈ unroll catalog base (front ++ [level]) parts ↔
    ∃ some ∈ unroll catalog base front parts, ∃ part ∈ level.candidates catalog base some,
      all = some ++ [part] := by
  rw [unroll_append, List.mem_flatMap]
  simp [unroll]

/-- What is gone through comes behind the parts that are there. -/
theorem front_of_unroll : ∀ {levels parts}, all ∈ unroll catalog base levels parts →
    ∃ more, all = parts ++ more
  | [], parts, h => ⟨[], by rw [List.mem_singleton.1 h, List.append_nil]⟩
  | level :: levels, parts, h => by
    obtain ⟨part, -, h⟩ := List.mem_flatMap.1 h
    obtain ⟨more, rfl⟩ := front_of_unroll h
    exact ⟨part :: more, by rw [List.append_assoc, List.singleton_append]⟩

/-- **What candidates hold, parts hold**, each at its level. -/
theorem Chain.forall₂ {P : Level → Row → Prop} (hc : Chain catalog b before levels)
    (hstep : ∀ before parts, ∀ level ∈ levels, level.Follows catalog b before →
      List.Forall₂ P before parts → ∀ part ∈ level.candidates catalog base parts, P level part)
    (h : List.Forall₂ P before parts) :
    ∀ all ∈ unroll catalog base levels parts, List.Forall₂ P (before ++ levels) all := by
  induction hc generalizing parts with
  | nil =>
    intro all ha
    rwa [List.mem_singleton.1 ha, List.append_nil]
  | @cons before levels level hlevel _ ih =>
    intro all ha
    obtain ⟨part, hpart, ha⟩ := List.mem_flatMap.1 ha
    have hp := hstep before parts level List.mem_cons_self hlevel h part hpart
    rw [List.append_cons]
    exact ih (fun before parts k hk => hstep before parts k (List.mem_cons_of_mem _ hk))
      (List.rel_append h (.cons hp .nil)) all ha

end Lineage

/-- What holds of the base table, and of the collections in the parts of earlier levels,
holds of the candidates of a level. -/
theorem Level.Follows.candidates_of {P : Level → Row → Prop} {Q : List Row → Prop}
    (h : level.Follows catalog b before) (hparts : List.Forall₂ P before parts)
    (hroot : ∀ view, catalog.views[level.view]? = some view → view.place = .root b →
      level.keys = view.ownKeys → Q base)
    (hbelow : ∀ above part view column, P above part → catalog.views[level.view]? = some view →
      view.place = .child above.view column → level.keys = view.ownKeys →
        Q (part.elementsAt column)) : Q (level.candidates catalog base parts) := by
  cases h with
  | @root view _ hp hv hplace hkeys =>
    rw [candidates_none (collection?_root hp)]
    exact hroot view hv hplace hkeys
  | @below p column above view hp ha hv hplace hkeys =>
    obtain ⟨hlt, rfl⟩ := List.getElem?_eq_some_iff.1 ha
    have hlt' : p < parts.length := hparts.length_eq ▸ hlt
    rw [candidates_some (collection?_below hp hv hplace), List.getD_eq_getElem?_getD,
      List.getElem?_eq_getElem hlt', Option.getD_some]
    exact hbelow _ _ view column ((List.forall₂_iff_get.1 hparts).2 p hlt hlt') hv hplace hkeys

theorem Row.elementsAt_congr {row other : Row} {c d : Nat} (h : row[c]? = other[d]?) :
    row.elementsAt c = other.elementsAt d := by
  rw [elementsAt, elementsAt, h]

theorem Row.hasElements_congr {row other : Row} {c d : Nat} (h : row[c]? = other[d]?) :
    row.HasElements c ↔ other.HasElements d := by
  rw [HasElements, HasElements, h]

section OneMore

variable {p column place : Nat} (hcoll : level.collection? catalog = some (p, column))
  (hcell : ∀ parts ∈ l.unroll catalog base [], parts.flatten[place]? = (parts.getD p [])[column]?)
include hcoll hcell

/-- There are collections to unnest where the level finds them. -/
theorem Lineage.opens_iff_hasElements :
    (∀ parts ∈ l.unroll catalog base [], level.Opens catalog parts) ↔
      ∀ row ∈ (l.unroll catalog base []).map List.flatten, Row.HasElements row place := by
  rw [List.forall_mem_map]
  refine forall₂_congr fun parts hparts => ?_
  rw [Row.hasElements_congr (hcell parts hparts), Level.Opens, hcoll]
  simp

/-- **Unnesting** the rows of an entity is going on through one more level. -/
theorem Lineage.flatMap_unnested :
    ((l.unroll catalog base []).map List.flatten).flatMap (Row.unnested place)
      = (unroll catalog base (l ++ [level]) []).map List.flatten := by
  rw [unroll_append, List.map_flatMap, List.flatMap_map]
  refine List.flatMap_congr fun parts hparts => ?_
  rw [Row.unnested, Row.elementsAt_congr (hcell parts hparts)]
  simp [unroll, Level.candidates_some hcoll, ← List.map_eq_flatMap]

end OneMore

/-- The part of a level stands in the columns of the level. -/
def Lineage.Laid (l : Lineage) (parts : List Row) : Prop :=
  ∀ (i : Nat) (level : Level) (part : Row), l[i]? = some level → parts[i]? = some part →
    part.length = level.width ∧ ∀ k < level.width, parts.flatten[level.offset + k]? = part[k]?

/-- One more part at the end of a row. -/
theorem Lineage.Laid.concat {part : Row} (h : l.Laid parts) (hlen : parts.length = l.length)
    (ho : level.offset = parts.flatten.length) (hw : part.length = level.width) :
    Lineage.Laid (l ++ [level]) (parts ++ [part]) := by
  intro i level' part' hi hp
  rw [List.flatten_concat]
  rcases Catalog.getElem?_concat_cases hi with hi | ⟨rfl, rfl⟩
  · rw [List.getElem?_append_left (hlen ▸ (List.getElem?_eq_some_iff.1 hi).1)] at hp
    obtain ⟨hlen', hat⟩ := h i level' part' hi hp
    refine ⟨hlen', fun k hk => ?_⟩
    have hin : parts.flatten[level'.offset + k]? = some part'[k] :=
      (hat k hk).trans (List.getElem?_eq_getElem (hlen'.symm ▸ hk))
    rw [List.getElem?_append_left (List.getElem?_eq_some_iff.1 hin).1, hat k hk]
  · rw [← hlen, List.getElem?_concat_length] at hp
    cases hp
    refine ⟨hw, fun k hk => ?_⟩
    rw [ho, List.getElem?_append_right (Nat.le_add_right _ _), Nat.add_sub_cancel_left]

/-- A part is a row of its level. -/
def Level.FitsPart (catalog : Catalog) (level : Level) (part : Row) : Prop :=
  ∀ view, catalog.views[level.view]? = some view → Row.Fits view.levelFields part

section Fitting

variable (hl : catalog.Linked) (hf : fixture.Conforms catalog)
  (hbase : fixture.rowsOf (.base b) = .ok base)
include hl hf hbase

/-- **The parts of a row** are rows of their levels. -/
theorem Lineage.Chain.fits (hc : Chain catalog b [] l) :
    ∀ parts ∈ l.unroll catalog base [], List.Forall₂ (Level.FitsPart catalog) l parts := by
  refine hc.forall₂ (fun before parts level _ hlevel hparts => ?_) .nil
  refine hlevel.candidates_of (Q := fun rows => ∀ part ∈ rows, level.FitsPart catalog part) hparts
    (fun view hv hplace _ part hpart view' hv' => ?_)
    fun above up view column hup hv hplace _ part hpart view' hv' => ?_
  · obtain rfl : view = view' := Option.some.inj (hv.symm.trans hv')
    obtain ⟨table, ht, hroot⟩ := (hl.view _ _ hv).root b hplace
    rw [hroot.level]
    exact hf b table base ht hbase part hpart
  · obtain rfl : view = view' := Option.some.inj (hv.symm.trans hv')
    obtain ⟨-, upper, hupper, hchild⟩ := (hl.view _ _ hv).child above.view column hplace
    obtain ⟨field, hfield, hnested⟩ := hchild.level
    rw [Row.elementsAt] at hpart
    obtain ⟨-, hcollections⟩ := hup upper hupper
    split at hpart
    · -- an element of a collection of the part above fits the row type of the child
      rename_i elements hcell
      exact hcollections column field view.levelFields elements hfield hnested hcell part hpart
    · cases hpart

namespace Unrolling

variable {filters : List NowFilter}

/-- **The part of a level stands in its columns.** -/
theorem laid (h : Unrolling catalog filters l rel) (hc : Lineage.Chain catalog b [] l) :
    ∀ parts ∈ l.unroll catalog base [], l.Laid parts ∧ parts.flatten.length = rel.width := by
  induction h with
  | @scan id b' view table hv hp ht =>
    intro parts hparts
    cases hc.fits hl hf hbase parts hparts with
    | @cons _ part _ _ hfits hnil =>
    cases hnil
    obtain ⟨table', ht', hr⟩ := (hl.view _ _ hv).root _ hp
    obtain rfl := Option.some.inj (ht'.symm.trans ht)
    obtain ⟨hlen, -⟩ := hfits view hv
    rw [hr.level] at hlen
    have hfront : Lineage.Laid [] [] := by
      rintro i _ _ ⟨⟩
    exact ⟨hfront.concat rfl rfl hlen, by simp [hlen, Rel.width]⟩
  | @level filters l rel id p column above view h ha hv hplace ih =>
    intro all hall
    obtain ⟨hfront, hback⟩ := Lineage.Chain.append_iff.1 hc
    obtain ⟨parts, hparts, part, hpart, rfl⟩ := Lineage.mem_unroll_concat.1 hall
    obtain ⟨hlaid, hlen⟩ := ih hfront parts hparts
    have hcount := (hfront.fits hl hf hbase parts hparts).length_eq
    -- the new part comes last among the parts of the row
    have hfits := List.forall₂_iff_get.1 (hc.fits hl hf hbase _ hall)
    have hlast := hfits.2 l.length (by simp) (by simp [hcount])
    simp only [List.get_eq_getElem, List.getElem_concat_length] at hlast
    simp only [hcount, List.getElem_concat_length] at hlast
    obtain ⟨hwidth, -⟩ := hlast view hv
    refine ⟨hlaid.concat hcount.symm hlen.symm hwidth, ?_⟩
    rw [List.flatten_concat, List.length_append, hlen, hwidth, Rel.width]
  | renamed h hr ih => rw [hr.width]; exact ih hc
  | filtered h _ ih => rw [NowFilter.onto, Rel.width]; exact ih hc

/-- A collection of a row is that of a part. -/
theorem cell {id p column : Nat} {above : Level} {view : View} (h : Unrolling catalog filters l rel)
    (hc : Lineage.Chain catalog b [] l) (ha : l[p]? = some above)
    (hv : catalog.views[id]? = some view) (hplace : view.place = .child above.view column) :
    ∀ parts ∈ l.unroll catalog base [],
      parts.flatten[above.offset + column]? = (parts.getD p [])[column]? := by
  intro parts hparts
  obtain ⟨hlaid, -⟩ := h.laid hl hf hbase hc parts hparts
  obtain ⟨hlt, rfl⟩ := List.getElem?_eq_some_iff.1 ha
  have hfits := hc.fits hl hf hbase parts hparts
  have hlt' : p < parts.length := hfits.length_eq ▸ hlt
  obtain ⟨-, upper, hupper, hchild⟩ := (hl.view _ _ hv).child _ column hplace
  obtain ⟨field, hfield, -⟩ := hchild.level
  obtain ⟨hlen, -⟩ := (List.forall₂_iff_get.1 hfits).2 p hlt hlt' upper hupper
  obtain ⟨hwidth, hat⟩ := hlaid p _ _ ha (List.getElem?_eq_getElem hlt')
  have hcolumn : column < upper.levelFields.length := (List.getElem?_eq_some_iff.1 hfield).1
  rw [hat column (hwidth ▸ hlen.symm ▸ hcolumn), List.getD_eq_getElem?_getD,
    List.getElem?_eq_getElem hlt', Option.getD_some]

omit hbase in
/-- **The rows of an entity** are its parts side by side. -/
theorem evaluate_parts (h : Unrolling catalog [] l rel) (hc : Lineage.Chain catalog b [] l) :
    StreamPlan.evaluate fixture rel = .ok rows ↔ ∃ base, fixture.rowsOf (.base b) = .ok base ∧
      l.Unrollable catalog base [] ∧ rows = (l.unroll catalog base []).map List.flatten := by
  generalize hnone : ([] : List NowFilter) = filters at h
  induction h generalizing rows with
  | @scan id b' view table hv hp ht =>
    obtain ⟨⟩ | ⟨⟨_, hparent, hv', hp', -⟩ | ⟨hparent, -⟩, -⟩ := hc
    · have hroot := @Level.collection?_root catalog
        ⟨id, none, .inner, 0, table.fields.length, view.ownKeys⟩ rfl
      cases hv.symm.trans hv'
      cases hp.symm.trans hp'
      simp [StreamPlan.evaluate, Lineage.root, Lineage.Unrollable, Lineage.unroll, Level.Opens,
        Level.candidates, hroot, List.map_flatMap]
    · cases hparent
  | @level filters l rel id p column above view h ha hv hplace ih =>
    obtain ⟨hfront, -⟩ := Lineage.Chain.append_iff.1 hc
    generalize hlevel :
      (⟨id, some p, .inner, rel.width, view.levelFields.length, view.ownKeys⟩ : Level) = level at *
    have hcoll : level.collection? catalog = some (p, column) := by
      subst hlevel
      exact Level.collection?_below rfl hv hplace
    -- what the level unrolls is a cell of the part of its parent
    have hcell : ∀ base, fixture.rowsOf (.base b) = .ok base → ∀ parts ∈ l.unroll catalog base [],
        parts.flatten[above.offset + column]? = (parts.getD p [])[column]? :=
      fun base hbase => h.cell hl hf hbase hfront ha hv hplace
    have hopens : ∀ base, Lineage.Unrollable catalog base (l ++ [level]) [] ↔
        l.Unrollable catalog base [] ∧
          ∀ parts ∈ l.unroll catalog base [], level.Opens catalog parts := by
      intro base
      simp [Lineage.unrollable_append, Lineage.Unrollable]
    rw [evaluate_unnest]
    constructor
    · rintro ⟨_, hbelow, hhas, rfl⟩
      obtain ⟨base, hbase, hopen, rfl⟩ := (ih hfront hnone).1 hbelow
      exact ⟨base, hbase,
        (hopens base).2 ⟨hopen, (Lineage.opens_iff_hasElements hcoll (hcell base hbase)).2 hhas⟩,
        Lineage.flatMap_unnested hcoll (hcell base hbase)⟩
    · rintro ⟨base, hbase, hopen, rfl⟩
      obtain ⟨hopen, hlast⟩ := (hopens base).1 hopen
      exact ⟨_, (ih hfront hnone).2 ⟨base, hbase, hopen, rfl⟩,
        (Lineage.opens_iff_hasElements hcoll (hcell base hbase)).1 hlast,
        (Lineage.flatMap_unnested hcoll (hcell base hbase)).symm⟩
  | renamed h hr ih => exact (hr.evaluate (h.shaped hl hf)).trans (ih hc hnone)
  | filtered => cases hnone

omit hbase in
/-- With now-filters on the way, the rows are some of the parts side by side. -/
theorem rows_sublist (h : Unrolling catalog filters l rel) (hc : Lineage.Chain catalog b [] l)
    (hrows : StreamPlan.evaluate fixture rel = .ok rows) :
    ∃ base, fixture.rowsOf (.base b) = .ok base ∧
      rows.Sublist ((l.unroll catalog base []).map List.flatten) := by
  induction h generalizing rows with
  | scan hv hp ht =>
    obtain ⟨base, hbase, -, rfl⟩ := (Unrolling.scan hv hp ht).evaluate_parts hl hf hc |>.1 hrows
    exact ⟨base, hbase, .refl _⟩
  | @level filters l rel id p column above view h ha hv hplace ih =>
    obtain ⟨hfront, -⟩ := Lineage.Chain.append_iff.1 hc
    obtain ⟨below, hbelow, -, rfl⟩ := evaluate_unnest.1 hrows
    obtain ⟨base, hbase, hsub⟩ := ih hfront hbelow
    refine ⟨base, hbase, ?_⟩
    rw [← Lineage.flatMap_unnested (Level.collection?_below rfl hv hplace)
      (h.cell hl hf hbase hfront ha hv hplace)]
    exact hsub.flatMap _
  | renamed h hr ih => exact ih hc ((hr.evaluate (h.shaped hl hf)).1 hrows)
  | filtered h hlt ih =>
    rw [NowFilter.onto, StreamPlan.evaluate] at hrows
    obtain ⟨below, hbelow, hrows⟩ := bind_eq_ok.1 hrows
    obtain ⟨base, hbase, hsub⟩ := ih hc hbelow
    obtain ⟨-, rfl⟩ := filterRows_eq_ok.1 hrows
    exact ⟨base, hbase, List.filter_sublist.trans hsub⟩

end Unrolling

end Fitting

end StreamPlan
