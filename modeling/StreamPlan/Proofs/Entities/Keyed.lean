import StreamPlan.Proofs.Entities.Parts
import StreamPlan.Proofs.Rows.Equality

/-!
# Keys that tell rows apart

* `Row.sameKey`: two rows have equal keys, as the query language compares values.
* `Row.DifferOn`: two rows differ in a column, by any notion of values that differ.
* `Fixture.Keyed`: no two rows of a base table have equal keys, nor two elements
  of one collection, and every key equals itself. A key of which a value is
  null, no number or a collection does not.
* `Fixture.Tells`: rows of a base table differ in their keys, and so do elements of
  one collection.
* `Unrolling.tells`, `Unrolling.distinct`: **the keys of all levels together** tell
  the rows of an unrolled entity apart.
-/

namespace StreamPlan

variable {catalog : Catalog} {fixture : Fixture} {base rows : List Row} {b : Nat} {rel : Rel}
  {l before levels : Lineage} {level : Level} {parts others : List Row} {views : List Nat}

/-- Whether two rows have equal values in some columns. -/
def Row.sameOn (columns : List Nat) (row other : Row) : Bool :=
  columns.all fun c =>
    match row[c]?, other[c]? with
    | some x, some y => x.compare? y = some .eq
    | _, _ => false

/-- Whether two rows of a level have equal keys, which are their first values. -/
def Row.sameKey (keys : Nat) (row other : Row) : Bool := Row.sameOn (List.range keys) row other

/-- Values that do not compare equal. Null does not, and neither does what is no number. -/
def Value.Unequal (v w : Value) : Prop := v.compare? w ≠ some .eq

instance : DecidableRel Value.Unequal :=
  fun v w => inferInstanceAs (Decidable (v.compare? w ≠ some .eq))

/-- Two rows differ in one of some columns. Outside of a row there are nulls. -/
def Row.DifferOn (differ : Value → Value → Prop) (columns : List Nat) (row other : Row) : Prop :=
  ∃ c ∈ columns, differ ((row[c]?).getD .null) ((other[c]?).getD .null)

instance (differ : Value → Value → Prop) [DecidableRel differ] (columns : List Nat) :
    DecidableRel (Row.DifferOn differ columns) :=
  fun _ _ => inferInstanceAs (Decidable (∃ c ∈ columns, _))

namespace Row

variable {row other : Row} {columns : List Nat} {keys : Nat}

theorem sameOn_iff : sameOn columns row other = true ↔
    ∀ c ∈ columns, ∃ x y, row[c]? = some x ∧ other[c]? = some y ∧ x.compare? y = some .eq := by
  rw [sameOn, List.all_eq_true]
  refine forall₂_congr fun c _ => ?_
  cases row[c]? with
  | none => simp
  | some x => cases other[c]? <;> simp

theorem sameKey_iff : sameKey keys row other = true ↔
    ∀ k < keys, ∃ x y, row[k]? = some x ∧ other[k]? = some y ∧ x.compare? y = some .eq := by
  rw [sameKey, sameOn_iff]
  simp only [List.mem_range]

theorem sameKey_comm (keys : Nat) (row other : Row) :
    sameKey keys row other = sameKey keys other row := by
  rw [Bool.eq_iff_iff, sameKey_iff, sameKey_iff]
  refine forall₂_congr fun k _ => ⟨?_, ?_⟩
  · rintro ⟨x, y, hx, hy, h⟩
    exact ⟨y, x, hy, hx, Value.compare?_eq_symm h⟩
  · rintro ⟨x, y, hx, hy, h⟩
    exact ⟨y, x, hy, hx, Value.compare?_eq_symm h⟩

/-- Rows have not all values equal in some columns if they have unequal ones in one. -/
theorem sameOn_eq_false : sameOn columns row other = false ↔
    DifferOn Value.Unequal columns row other := by
  have hcell : ∀ c : Nat, (∃ x y : Value, row[c]? = some x ∧ other[c]? = some y ∧
        x.compare? y = some .eq) ↔
      ((row[c]?).getD .null).compare? ((other[c]?).getD .null) = some .eq := by
    intro c
    cases row[c]? with
    | none => simp [Value.compare?]
    | some x =>
      cases other[c]? with
      | none => cases x <;> simp [Value.compare?]
      | some y => simp
  rw [Bool.eq_false_iff, Ne, sameOn_iff, DifferOn]
  simp only [hcell, Value.Unequal, not_forall, exists_prop]

/-- In a list of rows with different keys, what only the rows with a given key
lead to is what its row leads to. -/
theorem flatMap_of_distinct {α : Type} {elements : List Row} {f : Row → List α}
    (hd : elements.Pairwise fun a b => a.sameKey keys b = false) (hrow : row ∈ elements)
    (hf : ∀ element ∈ elements, row.sameKey keys element = false → f element = []) :
    elements.flatMap f = f row := by
  obtain ⟨front, back, rfl⟩ := List.append_of_mem hrow
  obtain ⟨-, hback, hfront⟩ := List.pairwise_append.1 hd
  have hnone : ∀ es : List Row, (∀ e ∈ es, e ∈ front ++ row :: back) →
      (∀ e ∈ es, row.sameKey keys e = false) → es.flatMap f = [] := fun es hmem hes =>
    List.flatMap_eq_nil_iff.2 fun e he => hf e (hmem e he) (hes e he)
  rw [List.flatMap_append, List.flatMap_cons,
    hnone front (fun e he => List.mem_append_left _ he) fun e he => by
      rw [sameKey_comm]
      exact hfront e he row List.mem_cons_self,
    hnone back (fun e he => List.mem_append_right _ (List.mem_cons_of_mem _ he))
      (List.pairwise_cons.1 hback).1]
  simp

/-- A row at a level of an entity whose keys tell rows apart: its key equals itself,
and so do those below it in the collections of some views, where no two elements of
a collection have equal keys. -/
inductive Keyed (catalog : Catalog) (views : List Nat) : Nat → Row → Prop
  | intro {id : Nat} {row : Row}
    (own : ∀ view, catalog.views[id]? = some view → row.sameKey view.ownKeys row = true)
    (distinct : ∀ child ∈ views, ∀ view column, catalog.views[child]? = some view →
      view.place = .child id column →
      (row.elementsAt column).Pairwise fun a b => a.sameKey view.ownKeys b = false)
    (below : ∀ child ∈ views, ∀ view column, catalog.views[child]? = some view →
      view.place = .child id column →
        ∀ element ∈ row.elementsAt column, Keyed catalog views child element) :
    Keyed catalog views id row

/-- A row at a level of an entity: in its collections of some views, and in those of
their elements, no two elements have keys that do not differ. -/
inductive Tells (differ : Value → Value → Prop) (catalog : Catalog) (views : Nat → Prop) :
    Nat → Row → Prop
  | intro {id : Nat} {row : Row}
    (distinct : ∀ child view column, views child → catalog.views[child]? = some view →
      view.place = .child id column →
      (row.elementsAt column).Pairwise (DifferOn differ (List.range view.ownKeys)))
    (below : ∀ child view column, views child → catalog.views[child]? = some view →
      view.place = .child id column →
        ∀ element ∈ row.elementsAt column, Tells differ catalog views child element) :
    Tells differ catalog views id row

end Row

/-- Rows of base tables, and in the collections of some views, whose keys tell them
apart. -/
structure Fixture.Keyed (fixture : Fixture) (catalog : Catalog) (views : List Nat) : Prop where
  distinct : ∀ id ∈ views, ∀ view b rows, catalog.views[id]? = some view → view.place = .root b →
    fixture.rowsOf (.base b) = .ok rows → rows.Pairwise fun a b => a.sameKey view.ownKeys b = false
  rows : ∀ id ∈ views, ∀ view b rows, catalog.views[id]? = some view → view.place = .root b →
    fixture.rowsOf (.base b) = .ok rows → ∀ row ∈ rows, row.Keyed catalog views id

/-- Rows of the base tables of some views, with keys that differ. In the collections of
the views no two elements have keys that do not. -/
structure Fixture.Tells (differ : Value → Value → Prop) (fixture : Fixture) (catalog : Catalog)
    (views : Nat → Prop) : Prop where
  distinct : ∀ id view b rows, views id → catalog.views[id]? = some view → view.place = .root b →
    fixture.rowsOf (.base b) = .ok rows → rows.Pairwise (Row.DifferOn differ (List.range view.ownKeys))
  rows : ∀ id view b rows, views id → catalog.views[id]? = some view → view.place = .root b →
    fixture.rowsOf (.base b) = .ok rows → ∀ row ∈ rows, row.Tells differ catalog views id

/-- A row at a level that has none below. -/
theorem Row.tells_of_leaf {differ : Value → Value → Prop} {inViews : Nat → Prop} {id : Nat}
    {row : Row} (h : ∀ (child : Nat) (view : View) (column : Nat),
      catalog.views[child]? = some view → view.place ≠ .child id column) : row.Tells differ catalog inViews id :=
  ⟨fun child view column _ hv hp => absurd hp (h child view column hv),
    fun child view column _ hv hp => absurd hp (h child view column hv)⟩

theorem Row.Keyed.tells {id : Nat} {row : Row} (h : row.Keyed catalog views id) :
    row.Tells Value.Unequal catalog (· ∈ views) id := by
  induction h with
  | intro own distinct below ih =>
    exact ⟨fun child view column hc hv hp => (distinct child hc view column hv hp).imp
      Row.sameOn_eq_false.1, fun child view column hc hv hp => ih child hc view column hv hp⟩

/-- Keys that are not all equal differ. -/
theorem Fixture.Keyed.tells (h : fixture.Keyed catalog views) :
    fixture.Tells Value.Unequal catalog (· ∈ views) where
  distinct id view b rows hid hv hp hrows :=
    (h.distinct id hid view b rows hv hp hrows).imp Row.sameOn_eq_false.1
  rows id view b rows hid hv hp hrows row hrow := (h.rows id hid view b rows hv hp hrows row hrow).tells

/-- A part whose keys, and those below it, tell rows apart. -/
def Level.KeyedPart (catalog : Catalog) (views : List Nat) (level : Level) (part : Row) : Prop :=
  part.Keyed catalog views level.view

/-- The key of such a part equals itself. -/
theorem Level.KeyedPart.own {part : Row} {view : View} (h : level.KeyedPart catalog views part)
    (hv : catalog.views[level.view]? = some view) : part.sameKey view.ownKeys part = true := by
  obtain ⟨own, -, -⟩ := h
  exact own view hv

section Keys

variable (hk : fixture.Keyed catalog views) (hbase : fixture.rowsOf (.base b) = .ok base)
include hk hbase

/-- **The candidates of a level** have different keys. -/
theorem Level.Follows.distinct (h : level.Follows catalog b before) (hmem : level.view ∈ views)
    (hparts : List.Forall₂ (Level.KeyedPart catalog views) before parts) :
    ((level.candidates catalog base parts).Pairwise fun a b => a.sameKey level.keys b = false) ∧
      ∀ part ∈ level.candidates catalog base parts, level.KeyedPart catalog views part := by
  refine h.candidates_of (Q := fun rows => (rows.Pairwise fun a b => a.sameKey level.keys b = false) ∧
    ∀ part ∈ rows, level.KeyedPart catalog views part) hparts (fun view hv hplace hkeys => ?_)
    fun above part view column hpart hv hplace hkeys => ?_
  · rw [hkeys]
    exact ⟨hk.distinct _ hmem view b base hv hplace hbase,
      hk.rows _ hmem view b base hv hplace hbase⟩
  · obtain ⟨-, hdistinct, hbelow⟩ := hpart
    rw [hkeys]
    exact ⟨hdistinct _ hmem view column hv hplace, hbelow _ hmem view column hv hplace⟩

theorem Lineage.Chain.keyed (hc : Chain catalog b before levels)
    (hmem : ∀ level ∈ levels, level.view ∈ views)
    (hparts : List.Forall₂ (Level.KeyedPart catalog views) before parts) :
    ∀ all ∈ levels.unroll catalog base parts,
      List.Forall₂ (Level.KeyedPart catalog views) (before ++ levels) all :=
  hc.forall₂ (fun _ _ level hl hlevel hparts =>
    (hlevel.distinct hk hbase (hmem level hl) hparts).2) hparts

end Keys

section Differ

variable {differ : Value → Value → Prop} {inViews : Nat → Prop}

/-- Parts that differ in the key of a level. -/
def Lineage.Differ (differ : Value → Value → Prop) (l : Lineage) (parts others : List Row) : Prop :=
  ∃ (i : Nat) (level : Level) (part other : Row), l[i]? = some level ∧ parts[i]? = some part ∧
    others[i]? = some other ∧ Row.DifferOn differ (List.range level.keys) part other

/-- A part below which keys differ. -/
def Level.TellsPart (differ : Value → Value → Prop) (catalog : Catalog) (inViews : Nat → Prop)
    (level : Level) (part : Row) : Prop := part.Tells differ catalog inViews level.view

/-- **The candidates of a level** differ in its key. -/
theorem Level.Follows.tells (hk : fixture.Tells differ catalog inViews)
    (hbase : fixture.rowsOf (.base b) = .ok base) (h : level.Follows catalog b before)
    (hmem : inViews level.view)
    (hparts : List.Forall₂ (Level.TellsPart differ catalog inViews) before parts) :
    (level.candidates catalog base parts).Pairwise (Row.DifferOn differ (List.range level.keys)) ∧
      ∀ part ∈ level.candidates catalog base parts,
        level.TellsPart differ catalog inViews part := by
  refine h.candidates_of (Q := fun rows => rows.Pairwise (Row.DifferOn differ (List.range level.keys)) ∧
    ∀ part ∈ rows, level.TellsPart differ catalog inViews part) hparts (fun view hv hplace hkeys => ?_)
    fun above part view column hpart hv hplace hkeys => ?_
  · rw [hkeys]
    exact ⟨hk.distinct _ view b base hmem hv hplace hbase,
      hk.rows _ view b base hmem hv hplace hbase⟩
  · obtain ⟨hdistinct, hbelow⟩ := hpart
    rw [hkeys]
    exact ⟨hdistinct _ view column hmem hv hplace, hbelow _ view column hmem hv hplace⟩

/-- **Parts differ in the key of a level.** -/
theorem Lineage.Chain.tells (hk : fixture.Tells differ catalog inViews)
    (hbase : fixture.rowsOf (.base b) = .ok base) (hc : Chain catalog b before levels)
    (hmem : ∀ level ∈ levels, inViews level.view)
    (hparts : List.Forall₂ (Level.TellsPart differ catalog inViews) before parts) :
    (levels.unroll catalog base parts).Pairwise ((before ++ levels).Differ differ) := by
  induction hc generalizing parts with
  | nil => exact List.pairwise_singleton _ _
  | @cons before levels level hlevel hrest ih =>
    obtain ⟨hl, hls⟩ := List.forall_mem_cons.1 hmem
    obtain ⟨hdiffer, htells⟩ := hlevel.tells hk hbase hl hparts
    have hlen : before.length = parts.length := hparts.length_eq
    rw [Lineage.unroll, List.pairwise_flatMap]
    constructor
    · intro part hpart
      rw [List.append_cons]
      exact ih hls (List.rel_append hparts (.cons (htells part hpart) .nil))
    · -- ways through different candidates differ at this level
      refine hdiffer.imp fun {part other} hne all hall rest hrest => ?_
      obtain ⟨more, rfl⟩ := Lineage.front_of_unroll hall
      obtain ⟨more', rfl⟩ := Lineage.front_of_unroll hrest
      exact ⟨before.length, level, part, other, by simp, by simp [hlen], by simp [hlen], hne⟩

/-- Rows whose parts differ in the key of a level differ in the keys of all levels. -/
theorem Lineage.Laid.differOn_keys (h : l.Laid parts) (h' : l.Laid others)
    (hkeys : ∀ level ∈ l, level.keys ≤ level.width) (hd : l.Differ differ parts others) :
    Row.DifferOn differ l.keys parts.flatten others.flatten := by
  obtain ⟨i, level, part, other, hl, hp, ho, k, hk, hne⟩ := hd
  have hmem := List.mem_of_getElem? hl
  obtain ⟨-, hat⟩ := h i level part hl hp
  obtain ⟨-, hat'⟩ := h' i level other hl ho
  have hk := List.mem_range.1 hk
  have hw := Nat.lt_of_lt_of_le hk (hkeys level hmem)
  refine ⟨level.offset + k, ?_, by rwa [hat k hw, hat' k hw]⟩
  exact List.mem_flatMap.2 ⟨level, hmem, List.mem_range'_1.2 ⟨Nat.le_add_right _ _, by omega⟩⟩

end Differ

namespace Unrolling

/-- The key of a level is within the level. -/
theorem keys_le {filters : List NowFilter} (hl : catalog.Linked)
    (h : Unrolling catalog filters l rel) :
    ∀ level ∈ l, level.keys ≤ level.width := by
  induction h with
  | scan hv hp ht =>
    obtain ⟨table, ht', hr⟩ := (hl.view _ _ hv).root _ hp
    obtain rfl := Option.some.inj (ht'.symm.trans ht)
    have := (hl.view _ _ hv).ownKeys_le
    rw [hr.level] at this
    simpa [Lineage.root] using this
  | level _ _ hv _ ih =>
    exact List.forall_mem_append.2 ⟨ih, List.forall_mem_singleton.2 (hl.view _ _ hv).ownKeys_le⟩
  | renamed _ _ ih | filtered _ _ ih => exact ih

/-- **Rows of an unrolled entity** differ in the keys of all levels. -/
theorem tells {differ : Value → Value → Prop} {inViews : Nat → Prop} {filters : List NowFilter}
    (hl : catalog.Linked) (hf : fixture.Conforms catalog) (hk : fixture.Tells differ catalog inViews)
    (h : Unrolling catalog filters l rel) (hmem : ∀ level ∈ l, inViews level.view)
    (hrows : StreamPlan.evaluate fixture rel = .ok rows) :
    rows.Pairwise (Row.DifferOn differ l.keys) := by
  obtain ⟨b, hc⟩ := h.chain
  obtain ⟨base, hbase, hsub⟩ := h.rows_sublist hl hf hc hrows
  refine List.Pairwise.sublist hsub (List.pairwise_map.2 ?_)
  refine (hc.tells hk hbase hmem .nil).imp_of_mem fun {parts others} hparts hothers hd => ?_
  exact (h.laid hl hf hbase hc parts hparts).1.differOn_keys
    (h.laid hl hf hbase hc others hothers).1 (h.keys_le hl) hd

/-- **The keys of all levels** tell the rows of an unrolled entity apart. -/
theorem distinct (hl : catalog.Linked) (hf : fixture.Conforms catalog)
    (hk : fixture.Keyed catalog views) (h : Unrolling catalog [] l rel)
    (hmem : ∀ level ∈ l, level.view ∈ views) (hrows : StreamPlan.evaluate fixture rel = .ok rows) :
    rows.Pairwise fun row other => Row.sameOn l.keys row other = false :=
  (h.tells hl hf hk.tells hmem hrows).imp Row.sameOn_eq_false.2

end Unrolling

end StreamPlan
