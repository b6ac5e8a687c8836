import StreamPlan.Proofs.Query.Rel
import StreamPlan.Proofs.Rows.Restricted

/-!
# Trees with rows of their width

* `Rel.WellFormed`: a tree that has a row type, in every operator.
* `Rel.Conforms`: known rows are as wide as the scans and the unnestings of a
  tree say.
* `Rel.shaped_of_conforms`: over such rows **every row of the tree has a value
  per column**.
-/

namespace StreamPlan

variable {fixture : Fixture} {now : Int} {rows out : List Row} {row : Row}

namespace Rel

mutual

/-- A tree that has a row type: the group keys of an aggregation are columns of
its input, and the branches of a union have as many columns as the first. -/
def WellFormed : Rel → Prop
  | .scan .. => True
  | .filter input _ | .project input _ _ | .sort input .. | .unnest input .. | .firstRows input .. =>
    WellFormed input
  | .join left right .. => WellFormed left ∧ WellFormed right
  | .aggregate input keys .. => WellFormed input ∧ ∀ i ∈ keys, i < input.width
  | .union inputs _ => WellFormedAll (firstWidth inputs) inputs

/-- Trees of one width that have row types. -/
def WellFormedAll (width : Nat) : List Rel → Prop
  | [] => True
  | r :: rs => r.width = width ∧ WellFormed r ∧ WellFormedAll width rs

end

mutual

/-- Known rows are as wide as the scans of a tree say, and the elements of a
collection as its unnesting says. -/
def Conforms (fixture : Fixture) : Rel → Prop
  | .scan relation _ fields =>
    ∀ rows, fixture.rowsOf relation = .ok rows → ∀ row ∈ rows, row.length = fields.length
  | .filter input _ | .project input _ _ | .aggregate input .. | .sort input ..
  | .firstRows input .. => Conforms fixture input
  | .join left right .. => Conforms fixture left ∧ Conforms fixture right
  | .union inputs _ => ConformsAll fixture inputs
  | .unnest input column _ element => Conforms fixture input ∧
    ∀ rows, evaluate fixture input = .ok rows → ∀ row ∈ rows, ∀ elements,
      row[column]? = some (.list elements) → ∀ e ∈ elements, e.length = element.length

/-- Known rows are as wide as several trees say. -/
def ConformsAll (fixture : Fixture) : List Rel → Prop
  | [] => True
  | r :: rs => Conforms fixture r ∧ ConformsAll fixture rs

end

mutual

/-- A well-formed tree has a row type. -/
theorem WellFormed.fields : ∀ {rel : Rel}, rel.WellFormed → ∃ fs, rel.fields = .ok fs
  | .scan .., _ => ⟨_, by rw [Rel.fields]⟩
  | .project .., _ => ⟨_, by rw [Rel.fields]⟩
  | .filter input _, h | .sort input .., h | .firstRows input .., h => by
    rw [WellFormed] at h
    rw [Rel.fields]
    exact h.fields
  | .join left right .., h => by
    rw [WellFormed] at h
    obtain ⟨l, hl⟩ := h.1.fields
    obtain ⟨r, hr⟩ := h.2.fields
    exact ⟨_, by rw [Rel.fields, hl, hr]; rfl⟩
  | .aggregate input keys _ calls _, h => by
    rw [WellFormed] at h
    obtain ⟨fs, hfs, hlength⟩ := fields_gives h.1.fields
    obtain ⟨ks, hks, -⟩ := Gives.mapM fun i hi => Gives.itemAt (hlength ▸ h.2 i hi)
    rw [Rel.fields]
    exact ⟨_, bind_eq_ok.2 ⟨fs, hfs, bind_eq_ok.2 ⟨ks, hks, rfl⟩⟩⟩
  | .union inputs _, h => by
    rw [WellFormed] at h
    rw [Rel.fields]
    exact h.firstFields
  | .unnest input .., h => by
    rw [WellFormed] at h
    obtain ⟨fs, hfs⟩ := h.fields
    exact ⟨_, by rw [Rel.fields, hfs]; rfl⟩

theorem WellFormedAll.firstFields {width : Nat} : ∀ {rels : List Rel}, WellFormedAll width rels →
    ∃ fs, Rel.firstFields rels = .ok fs
  | [], _ => ⟨_, by rw [Rel.firstFields]⟩
  | r :: _, h => by
    rw [WellFormedAll] at h
    rw [Rel.firstFields]
    exact h.2.1.fields

end

end Rel

/-- A joined row has the columns of both sides. -/
theorem length_of_joinRows {kind : JoinKind} {condition : Expr} {lw rw' : Nat}
    {left right : List Row} (hl : ∀ l ∈ left, l.length = lw) (hr : ∀ r ∈ right, r.length = rw')
    (h : joinRows now kind condition lw rw' left right = .ok out) :
    ∀ row ∈ out, row.length = lw + rw' := by
  rw [joinRows] at h
  obtain ⟨⟨found, used⟩, hfound, h⟩ := bind_eq_ok.1 h
  cases h
  obtain ⟨-, rfl⟩ := joinFrom_eq_ok.1 ⟨used, hfound⟩
  intro row hrow
  rcases List.mem_append.1 hrow with hrow | hrow
  · obtain ⟨l, hmem, hrow⟩ := List.mem_flatMap.1 hrow
    rw [joinedWith] at hrow
    split at hrow
    · rw [List.mem_singleton.1 hrow, List.length_append, hl l hmem, padding, List.length_replicate]
    · obtain ⟨r, hfiltered, rfl⟩ := List.mem_map.1 hrow
      rw [List.length_append, hl l hmem, hr r (List.mem_filter.1 hfiltered).1]
  · -- right rows without a partner
    split at hrow
    · obtain ⟨⟨r, flag⟩, hzip, hsome⟩ := List.mem_filterMap.1 hrow
      simp only at hsome
      split at hsome
      · cases hsome
      · cases hsome
        rw [List.length_append, padding, List.length_replicate, hr r (List.of_mem_zip hzip).1]
    · cases hrow

/-- An unnested row has the columns of the row and of an element. -/
theorem length_of_unnestRow {column width elementWidth : Nat} {outer : Bool}
    (hrow : row.length = width)
    (helements : ∀ elements, row[column]? = some (.list elements) →
      ∀ e ∈ elements, e.length = elementWidth)
    (h : unnestRow column outer elementWidth row = .ok out) :
    ∀ r ∈ out, r.length = width + elementWidth := by
  rw [unnestRow] at h
  split at h
  · cases h
  · rename_i value hvalue
    obtain ⟨elements, helem, h⟩ := bind_eq_ok.1 h
    cases h
    have hwide : ∀ e ∈ elements, e.length = elementWidth := by
      unfold elementsOf at helem
      split at helem
      · cases helem
        exact helements _ hvalue
      · cases helem
        simp
      · cases helem
    intro r hr
    split at hr
    · rw [List.mem_singleton.1 hr, List.length_append, hrow, padding, List.length_replicate]
    · obtain ⟨e, he, rfl⟩ := List.mem_map.1 hr
      rw [List.length_append, hrow, hwide e he]

theorem mem_of_distinctRows : ∀ row ∈ distinctRows rows, row ∈ rows := by
  refine foldl_run (I := fun done (kept : List Row) => ∀ row ∈ kept, row ∈ done) nofun
    fun done r kept _ ih row h => ?_
  split at h
  · exact List.mem_append_left _ (ih row h)
  · exact (List.mem_append.1 h).elim (fun h => List.mem_append_left _ (ih row h))
      (List.mem_append_right _)

namespace Rel

/-- An aggregated row has a key and a value per call, whatever is below. -/
theorem shaped_aggregate {input : Rel} {keys : List Nat} {groupingSets : List (List Nat)}
    {calls : List AggregateCall} {hint : Option AggregateHint} :
    (aggregate input keys groupingSets calls hint).Shaped fixture := by
  intro above h row hrow
  rw [evaluate] at h
  split at h
  · cases h
  · obtain ⟨below, -, h⟩ := bind_eq_ok.1 h
    obtain ⟨key, values, rfl, hkey, hvalues, -⟩ := mem_of_aggregateRows (lift_eq_ok.1 h) hrow
    rw [List.length_append, hkey, hvalues, width]

mutual

/-- **Every row of a well-formed tree has a value per column**, over rows that are
as wide as the tree says. -/
theorem shaped_of_conforms : ∀ {rel : Rel}, rel.WellFormed → rel.Conforms fixture →
    rel.Shaped fixture
  | .scan relation name fields, _, hc => by
    rw [Conforms] at hc
    intro rows h
    rw [evaluate] at h
    exact hc rows h
  | .filter input predicate, hw, hc => by
    rw [WellFormed] at hw
    rw [Conforms] at hc
    exact Restricted.same.filter.shaped (shaped_of_conforms hw hc)
  | .sort input order limit offset, hw, hc => by
    rw [WellFormed] at hw
    rw [Conforms] at hc
    exact Restricted.same.sort.shaped (shaped_of_conforms hw hc)
  | .firstRows input partition limit distinct, hw, hc => by
    rw [WellFormed] at hw
    rw [Conforms] at hc
    exact Restricted.same.firstRows.shaped (shaped_of_conforms hw hc)
  | .project input outputs hint, _, _ => by
    intro above h row hrow
    rw [evaluate] at h
    obtain ⟨below, -, h⟩ := bind_eq_ok.1 h
    have hf := projects_of_projectRows h
    obtain ⟨i, hi, rfl⟩ := List.getElem_of_mem hrow
    exact ((List.forall₂_iff_get.1 hf).2 i (hf.length_eq ▸ hi) hi).length.trans (by rw [width])
  | .join left right kind condition hint, hw, hc => by
    rw [WellFormed] at hw
    rw [Conforms] at hc
    intro above h row hrow
    rw [evaluate] at h
    obtain ⟨ls, hls, h⟩ := bind_eq_ok.1 h
    obtain ⟨rs, hrs, h⟩ := bind_eq_ok.1 h
    rw [width]
    exact length_of_joinRows (shaped_of_conforms hw.1 hc.1 ls hls)
      (shaped_of_conforms hw.2 hc.2 rs hrs) h row hrow
  | .aggregate .., _, _ => shaped_aggregate
  | .union inputs all, hw, hc => by
    rw [WellFormed] at hw
    rw [Conforms] at hc
    intro above h row hrow
    rw [evaluate] at h
    obtain ⟨below, hbelow, h⟩ := bind_eq_ok.1 h
    rw [width]
    refine shaped_of_conformsAll hw hc below hbelow row ?_
    cases h
    split at hrow
    · exact hrow
    · exact mem_of_distinctRows row hrow
  | .unnest input column outer element, hw, hc => by
    rw [WellFormed] at hw
    rw [Conforms] at hc
    intro above h row hrow
    rw [evaluate] at h
    obtain ⟨below, hbelow, h⟩ := bind_eq_ok.1 h
    obtain ⟨parts, hparts, h⟩ := bind_eq_ok.1 h
    cases h
    obtain ⟨part, hpart, hrow⟩ := List.mem_flatten.1 hrow
    obtain ⟨base, hbase, hstep⟩ := mem_of_mapM_eq_ok hparts hpart
    rw [width]
    exact length_of_unnestRow (shaped_of_conforms hw hc.1 below hbelow base hbase)
      (hc.2 below hbelow base hbase) hstep row hrow

theorem shaped_of_conformsAll {width : Nat} : ∀ {rels : List Rel}, WellFormedAll width rels →
    ConformsAll fixture rels → ∀ rows, evaluateAll fixture rels = .ok rows →
      ∀ row ∈ rows, row.length = width
  | [], _, _ => by
    intro rows h row hrow
    rw [evaluateAll] at h
    cases h
    cases hrow
  | r :: rs, hw, hc => by
    rw [WellFormedAll] at hw
    rw [ConformsAll] at hc
    intro rows h row hrow
    rw [evaluateAll] at h
    obtain ⟨first, hfirst, h⟩ := bind_eq_ok.1 h
    obtain ⟨rest, hrest, h⟩ := bind_eq_ok.1 h
    cases h
    rcases List.mem_append.1 hrow with hrow | hrow
    · exact (shaped_of_conforms hw.2.1 hc.1 first hfirst row hrow).trans hw.1
    · exact shaped_of_conformsAll hw.2.2 hc.2 rest hrest row hrow

end

end Rel

end StreamPlan
