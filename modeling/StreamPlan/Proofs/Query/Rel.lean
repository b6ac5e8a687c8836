import StreamPlan.Proofs.Catalog.Linked
import StreamPlan.Proofs.Query.Expr

/-!
# Queries whose columns exist

* `Rel.Fits`: a query over the relations of a catalog all of whose columns are
  columns of the operator's input.
* `Rel.span`: the lengths of time a query mentions, added up, with the pulled-up
  now-filters of the tables it scans.
* `Rel.Within`: a tree below another one.
* `Rel.length_of_fields`, `Rel.Fits.fields`: the row type of a tree has as many
  fields as the tree has columns, and such a query has one.
-/

namespace StreamPlan

namespace Rel

mutual

/-- A query whose scans carry the catalog's fields and whose column positions
are columns of the operator's input. -/
def Fits (catalog : Catalog) : Rel → Prop
  | .scan relation _ fields => catalog.fields relation = .ok fields
  | .filter input predicate => Fits catalog input ∧ ∀ i ∈ predicate.references, i < input.width
  | .project input outputs hint =>
    Fits catalog input ∧ (∀ o ∈ outputs, ∀ i ∈ o.expr.references, i < input.width) ∧
      ∀ h, hint = some h → ∀ i ∈ h.partition, i < input.width
  | .join left right _ condition _ =>
    Fits catalog left ∧ Fits catalog right ∧
      ∀ i ∈ condition.references, i < left.width + right.width
  | .aggregate input keys _ calls _ =>
    Fits catalog input ∧ (∀ i ∈ keys, i < input.width) ∧
      ∀ call ∈ calls, ∀ i ∈ call.columns, i < input.width
  | .union inputs _ => FitsAll catalog inputs
  | .sort input order _ _ => Fits catalog input ∧ ∀ i ∈ SortOrder.columns order, i < input.width
  | .unnest input column _ _ => Fits catalog input ∧ column < input.width
  | .firstRows input partition _ _ => Fits catalog input ∧ ∀ i ∈ partition, i < input.width

/-- Queries that all fit. -/
def FitsAll (catalog : Catalog) : List Rel → Prop
  | [] => True
  | r :: rs => Fits catalog r ∧ FitsAll catalog rs

end

/-- No operator of a query has more columns than can be numbered. -/
def Narrow (query : Rel) : Prop := ∀ r ∈ query.preorder, r.width < Position.countLimit

theorem mem_preorderOfAll {rels : List Rel} {r : Rel} :
    r ∈ preorderOfAll rels ↔ ∃ q ∈ rels, r ∈ q.preorder := by
  induction rels with
  | nil => simp [preorderOfAll]
  | cons q qs ih => simp [preorderOfAll, ih]

theorem self_mem_preorder (q : Rel) : q ∈ q.preorder := by
  cases q <;> rw [preorder] <;> exact List.mem_cons_self

/-- The operators of an input are operators of the tree. -/
theorem preorder_of_inputs {q input : Rel} (h : input ∈ q.inputs) :
    ∀ r ∈ input.preorder, r ∈ q.preorder := by
  intro r hr
  cases q with
  | scan => cases h
  | join left right =>
    rw [preorder]
    rcases List.mem_cons.1 h with rfl | h
    · exact List.mem_cons_of_mem _ (List.mem_append_left _ hr)
    · obtain rfl := List.mem_singleton.1 h
      exact List.mem_cons_of_mem _ (List.mem_append_right _ hr)
  | union inputs =>
    rw [preorder]
    exact List.mem_cons_of_mem _ (mem_preorderOfAll.2 ⟨input, h, hr⟩)
  | _ =>
    rw [preorder]
    obtain rfl := List.mem_singleton.1 h
    exact List.mem_cons_of_mem _ hr

/-- An operator of a tree is its root or an operator of an input. -/
theorem mem_preorder {q r : Rel} (h : r ∈ q.preorder) :
    r = q ∨ ∃ input ∈ q.inputs, r ∈ input.preorder := by
  cases q with
  | scan =>
    rw [preorder] at h
    exact .inl (List.mem_singleton.1 h)
  | join left right =>
    rw [preorder] at h
    rcases List.mem_cons.1 h with rfl | h
    · exact .inl rfl
    · rcases List.mem_append.1 h with h | h
      · exact .inr ⟨left, List.mem_cons_self, h⟩
      · exact .inr ⟨right, List.mem_cons_of_mem _ List.mem_cons_self, h⟩
  | union inputs =>
    rw [preorder] at h
    rcases List.mem_cons.1 h with rfl | h
    · exact .inl rfl
    · exact .inr (mem_preorderOfAll.1 h)
  | _ =>
    rw [preorder] at h
    rcases List.mem_cons.1 h with rfl | h
    · exact .inl rfl
    · exact .inr ⟨_, List.mem_cons_self, h⟩

/-- All operators of a tree are in another one. -/
def Within (rel out : Rel) : Prop := ∀ op ∈ rel.preorder, op ∈ out.preorder

namespace Within

variable {rel mid out : Rel}

theorem refl (rel : Rel) : rel.Within rel := fun _ h => h

theorem trans (h : rel.Within mid) (h' : mid.Within out) : rel.Within out := fun op hop => h' op (h op hop)

theorem below (h : rel ∈ out.inputs) : rel.Within out := preorder_of_inputs h

end Within

theorem Narrow.input {q input : Rel} (h : q.Narrow) (hi : input ∈ q.inputs) : input.Narrow :=
  fun r hr => h r (preorder_of_inputs hi r hr)

theorem Narrow.width {q : Rel} (h : q.Narrow) : q.width < Position.countLimit :=
  h q q.self_mem_preorder

/-- A query scans a relation. -/
def ScansIn (q : Rel) (relation : RelationId) : Prop :=
  ∃ name fields, .scan relation name fields ∈ q.preorder

theorem ScansIn.above {q input : Rel} {relation : RelationId} (h : input.ScansIn relation)
    (hi : input ∈ q.inputs) : q.ScansIn relation := by
  obtain ⟨name, fields, hmem⟩ := h
  exact ⟨name, fields, preorder_of_inputs hi _ hmem⟩

/-- An operator over inputs scans what these scan. -/
theorem ScansIn.below {q : Rel} {relation : RelationId} (h : q.ScansIn relation) (hq : q.inputs ≠ []) :
    ∃ input ∈ q.inputs, input.ScansIn relation := by
  obtain ⟨name, fields, hmem⟩ := h
  rcases mem_preorder hmem with rfl | ⟨input, hi, hbelow⟩
  · exact absurd rfl hq
  · exact ⟨input, hi, name, fields, hbelow⟩

end Rel

/-- The interval of the now-filter that was pulled up to a base table. -/
def BaseTable.pendingSpan (table : BaseTable) : Nat :=
  match table.pending.nowFilter with
  | some filter => filter.interval.natAbs
  | none => 0

/-- The interval of the now-filter that a scan of a relation takes up. -/
def Catalog.pendingSpan (catalog : Catalog) (relation : RelationId) : Nat :=
  let base : Except Fault Nat := match relation with
    | .base id => .ok id
    | .view id => catalog.baseOf id
  match base with
  | .ok id => ((catalog.bases[id]?).map BaseTable.pendingSpan).getD 0
  | .error _ => 0

namespace Rel

mutual

/-- The lengths of time a query mentions, added up: interval literals, bucket
widths, and the now-filters pulled up to the tables it scans. -/
def span (catalog : Catalog) : Rel → Nat
  | .scan relation _ _ => catalog.pendingSpan relation
  | .filter input predicate => span catalog input + predicate.span
  | .project input outputs _ => span catalog input + Expr.spanOfAll (outputs.map Output.expr)
  | .join left right _ condition _ => span catalog left + span catalog right + condition.span
  | .aggregate input .. | .sort input .. | .unnest input .. | .firstRows input .. =>
    span catalog input
  | .union inputs _ => spanOfAll catalog inputs

/-- The lengths of time that several queries mention, added up. -/
def spanOfAll (catalog : Catalog) : List Rel → Nat
  | [] => 0
  | r :: rs => span catalog r + spanOfAll catalog rs

end

theorem length_joinedFields (kind : JoinKind) (left right : Fields) :
    (joinedFields kind left right).length = left.length + right.length := by
  unfold joinedFields
  split <;> split <;> simp

mutual

/-- A row type has as many fields as the tree has columns. -/
theorem length_of_fields : ∀ {rel : Rel} {fs : Fields}, rel.fields = .ok fs → fs.length = rel.width
  | .scan .., fs, h => by
    cases h; simp [width]
  | .filter input _, fs, h => by
    rw [fields] at h; rw [width]; exact length_of_fields h
  | .sort input .., fs, h => by
    rw [fields] at h; rw [width]; exact length_of_fields h
  | .firstRows input .., fs, h => by
    rw [fields] at h; rw [width]; exact length_of_fields h
  | .project _ outputs _, fs, h => by
    cases h; simp [width]
  | .join left right kind _ _, fs, h => by
    rw [fields] at h
    obtain ⟨l, hl, h⟩ := bind_eq_ok.1 h
    obtain ⟨r, hr, h⟩ := bind_eq_ok.1 h
    cases h
    rw [length_joinedFields, length_of_fields hl, length_of_fields hr, width]
  | .aggregate input keys _ calls _, fs, h => by
    rw [fields] at h
    obtain ⟨inputFields, -, h⟩ := bind_eq_ok.1 h
    obtain ⟨keyFields, hk, h⟩ := bind_eq_ok.1 h
    cases h
    rw [List.length_append, length_of_mapM_eq_ok hk, List.length_map, width]
  | .union inputs _, fs, h => by
    rw [fields] at h; rw [width]; exact length_of_firstFields h
  | .unnest input _ outer element, fs, h => by
    rw [fields] at h
    obtain ⟨parent, hp, h⟩ := bind_eq_ok.1 h
    cases h
    rw [List.length_append, length_of_fields hp, width]
    split <;> simp

theorem length_of_firstFields : ∀ {rels : List Rel} {fs : Fields},
    firstFields rels = .ok fs → fs.length = firstWidth rels
  | [], fs, h => by cases h; simp [firstWidth]
  | r :: _, fs, h => by
    rw [firstFields] at h; rw [firstWidth]; exact length_of_fields h

end

/-- A tree with a row type has a row type of its width. -/
theorem fields_gives {rel : Rel} (h : ∃ fs, rel.fields = .ok fs) :
    Gives rel.fields fun fs => fs.length = rel.width := by
  obtain ⟨fs, hfs⟩ := h
  exact ⟨fs, hfs, length_of_fields hfs⟩

mutual

/-- **A query whose columns exist has a row type.** -/
theorem Fits.fields {catalog : Catalog} : ∀ {rel : Rel}, rel.Fits catalog → ∃ fs, rel.fields = .ok fs
  | .scan .., _ => ⟨_, by rw [Rel.fields]⟩
  | .filter input _, h => by
    rw [Fits] at h; rw [Rel.fields]; exact h.1.fields
  | .sort input .., h => by
    rw [Fits] at h; rw [Rel.fields]; exact h.1.fields
  | .firstRows input .., h => by
    rw [Fits] at h; rw [Rel.fields]; exact h.1.fields
  | .project .., _ => ⟨_, by rw [Rel.fields]⟩
  | .join left right .., h => by
    rw [Fits] at h
    obtain ⟨l, hl⟩ := h.1.fields
    obtain ⟨r, hr⟩ := h.2.1.fields
    exact ⟨_, by rw [Rel.fields, hl, hr]; rfl⟩
  | .aggregate input keys _ calls _, h => by
    rw [Fits] at h
    obtain ⟨fs, hfs, hlen⟩ := fields_gives h.1.fields
    have hkeys : Gives (keys.mapM (itemAt fs)) fun _ => True :=
      (Gives.mapM fun i hi => Gives.itemAt (hlen ▸ h.2.1 i hi)).mono fun _ _ => trivial
    obtain ⟨ks, hks, -⟩ := hkeys
    refine ⟨ks ++ calls.map AggregateCall.field, ?_⟩
    rw [Rel.fields]
    refine bind_eq_ok.2 ⟨fs, hfs, ?_⟩
    exact bind_eq_ok.2 ⟨ks, hks, rfl⟩
  | .union inputs _, h => by
    rw [Fits] at h; rw [Rel.fields]; exact h.firstFields
  | .unnest input _ outer element, h => by
    rw [Fits] at h
    obtain ⟨fs, hfs⟩ := h.1.fields
    exact ⟨_, by rw [Rel.fields, hfs]; rfl⟩

theorem FitsAll.firstFields {catalog : Catalog} : ∀ {rels : List Rel}, FitsAll catalog rels →
    ∃ fs, Rel.firstFields rels = .ok fs
  | [], _ => ⟨_, by rw [Rel.firstFields]⟩
  | r :: _, h => by
    rw [FitsAll] at h; rw [Rel.firstFields]; exact h.1.fields

end

end Rel

end StreamPlan
