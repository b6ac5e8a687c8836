import StreamPlan.Columns.ColumnMap
import StreamPlan.Proofs.Columns.Position
import StreamPlan.Proofs.Outcome

/-!
# Values at columns, and column maps that succeed

What each operation on column maps gives, and when it must give it. A map is
known by its targets and its width.

* `Picks`: values of a list, one for each of some columns of it. Rows and row
  types are both read this way.
-/

namespace StreamPlan

variable {α β : Type}

/-- The values of a list at columns of it. -/
def Picks (xs : List α) (columns : List Nat) (values : List α) : Prop :=
  List.Forall₂ (fun c v => xs[c]? = some v) columns values

variable {xs values : List α} {columns : List Nat}

theorem Picks.append {more : List Nat} {others : List α} (h : Picks xs columns values)
    (h' : Picks xs more others) : Picks xs (columns ++ more) (values ++ others) :=
  List.rel_append h h'

theorem Picks.left (h : Picks xs columns values) (more : List α) :
    Picks (xs ++ more) columns values :=
  h.imp fun _ _ hc => by rw [List.getElem?_append_left (List.getElem?_eq_some_iff.1 hc).1, hc]

theorem Picks.right (h : Picks xs columns values) (front : List α) :
    Picks (front ++ xs) (columns.map (front.length + ·)) values := by
  rw [Picks, List.forall₂_map_left_iff]
  refine h.imp fun c v hc => ?_
  rw [List.getElem?_append_right (Nat.le_add_right _ _), Nat.add_sub_cancel_left, hc]

/-- The images of a list at columns of it. -/
theorem Picks.map (h : Picks xs columns values) (f : α → β) :
    Picks (xs.map f) columns (values.map f) := by
  rw [Picks, List.forall₂_map_right_iff]
  exact h.imp fun c v hc => by rw [List.getElem?_map, hc, Option.map_some]

theorem Picks.lt (h : Picks xs columns values) : ∀ c ∈ columns, c < xs.length := by
  induction h with
  | nil => simp
  | cons hc _ ih => exact List.forall_mem_cons.2 ⟨(List.getElem?_eq_some_iff.1 hc).1, ih⟩

/-- Values at columns are determined by them. -/
theorem Picks.unique {others : List α} (h : Picks xs columns values) (h' : Picks xs columns others) :
    values = others := by
  induction h generalizing others with
  | nil =>
    cases h'
    rfl
  | cons hc _ ih =>
    cases h' with
    | cons hc' hrest => rw [Option.some.inj (hc.symm.trans hc'), ih hrest]

theorem Picks.getElem? (h : Picks xs columns values) {i c : Nat} (hi : columns[i]? = some c) :
    values[i]? = xs[c]? := by
  obtain ⟨hlt, rfl⟩ := List.getElem?_eq_some_iff.1 hi
  have hlt' : i < values.length := h.length_eq ▸ hlt
  rw [List.getElem?_eq_getElem hlt']
  exact ((List.forall₂_iff_get.1 h).2 i hlt hlt').symm

/-- The values of a list that is related to another one are related to its values. -/
theorem Picks.related {R : α → β → Prop} {ys : List β} (h : Picks xs columns values)
    (hR : List.Forall₂ R xs ys) : ∃ others, Picks ys columns others ∧ List.Forall₂ R values others := by
  induction h with
  | nil => exact ⟨[], .nil, .nil⟩
  | @cons c v _ _ hc _ ih =>
    obtain ⟨others, hpicks, hothers⟩ := ih
    obtain ⟨hlt, rfl⟩ := List.getElem?_eq_some_iff.1 hc
    have hlt' : c < ys.length := hR.length_eq ▸ hlt
    exact ⟨ys[c] :: others, .cons (List.getElem?_eq_getElem hlt') hpicks,
      .cons ((List.forall₂_iff_get.1 hR).2 c hlt hlt') hothers⟩

/-- Values at columns that were picked before are values at the composed columns. -/
theorem Picks.compose {more through : List Nat} {others : List α} (h : Picks xs columns values)
    (h' : Picks values more others) (hthrough : Picks columns more through) :
    Picks xs through others := by
  refine forall₂_of_left hthrough h' fun i _ c v hc hv => ?_
  rw [← h.getElem? hc, hv]

/-- Columns of a list of columns, one after another. -/
theorem picks_filterMap {more : List Nat} (h : ∀ i ∈ more, i < xs.length) :
    Picks xs more (more.filterMap (xs[·]?)) := by
  induction more with
  | nil => exact .nil
  | cons i more ih =>
    obtain ⟨hi, hmore⟩ := List.forall_mem_cons.1 h
    have hget := List.getElem?_eq_getElem hi
    rw [List.filterMap_cons, hget]
    exact .cons hget (ih hmore)

/-- The first values of a list. -/
theorem picks_take {k : Nat} (hk : k ≤ xs.length) : Picks xs (List.range k) (xs.take k) := by
  refine List.forall₂_iff_get.2 ⟨by simp [hk], fun i hi _ => ?_⟩
  have hlt : i < k := by simpa using hi
  simp [List.getElem?_eq_getElem (Nat.lt_of_lt_of_le hlt hk)]

/-- All values of a list. -/
theorem picks_all (xs : List α) : Picks xs (List.range xs.length) xs := by
  have hall : Picks xs _ _ := picks_take (Nat.le_refl xs.length)
  rwa [List.take_length] at hall

/-- A list in front of another one. -/
theorem picks_front (xs more : List α) : Picks (xs ++ more) (List.range xs.length) xs :=
  (picks_all xs).left more

/-- A list behind another one. -/
theorem picks_behind (front xs : List α) :
    Picks (front ++ xs) (List.range' front.length xs.length) xs := by
  have hall := (picks_all xs).right front
  rwa [← List.range'_eq_map_range] at hall

end StreamPlan

namespace StreamPlan.ColumnMap

variable {m n out : ColumnMap} {ts : List Nat} {w i t : Nat}

/-- Two maps with the same targets in relations of one width are the same. -/
theorem eq_of_targets (ht : m.targets = n.targets) (hw : m.width = n.width) : m = n := by
  cases m
  cases n
  cases ht
  cases hw
  rfl

theorem of_targets (h : of ts w = .ok m) : m.targets = ts ∧ m.width = w := by
  unfold of at h
  split at h
  · cases h
  · cases h; exact ⟨rfl, rfl⟩

theorem of_gives (h : ∀ t ∈ ts, t < w) : Gives (of ts w) fun m => m.targets = ts ∧ m.width = w :=
  ⟨_, of_eq_ok h, rfl, rfl⟩

theorem identityInto_targets {k : Nat} (h : identityInto k w = .ok m) :
    m.targets = List.range k ∧ m.width = w := by
  unfold identityInto at h
  split at h
  · obtain ⟨-, -, h⟩ := bind_eq_ok.1 h
    cases h; exact ⟨rfl, rfl⟩
  · cases h

theorem identityInto_gives {k : Nat} (hk : k ≤ w) (hc : k < Position.countLimit) :
    Gives (identityInto k w) fun m => m.targets = List.range k ∧ m.width = w := by
  unfold identityInto
  rw [dif_pos hk]
  simp only [Position.checkCount, if_pos hc]
  exact .ok ⟨rfl, rfl⟩

theorem apply_eq_ok : m.apply i = .ok t ↔ m.targets[i]? = some t := by
  unfold apply
  split <;> simp_all

theorem apply_gives (h : i < m.sources) : Gives (m.apply i) fun t => m.targets[i]? = some t :=
  ⟨m.targets[i], apply_eq_ok.2 (List.getElem?_eq_getElem h), List.getElem?_eq_getElem h⟩

/-- A target of a map is a column of its relation. -/
theorem lt_of_apply (h : m.apply i = .ok t) : t < m.width :=
  m.targets_lt t (List.mem_of_getElem? (apply_eq_ok.1 h))

theorem joinAt_targets {offset : Nat} (h : m.joinAt n offset = .ok out) :
    out.targets = m.targets ++ n.targets.map (offset + ·) ∧ out.width = offset + n.width := by
  unfold joinAt at h
  split at h
  · cases h; exact ⟨rfl, rfl⟩
  · cases h

theorem joinAt_gives {offset : Nat} (h : m.width ≤ offset) :
    Gives (m.joinAt n offset) fun out =>
      out.targets = m.targets ++ n.targets.map (offset + ·) ∧ out.width = offset + n.width := by
  unfold joinAt
  rw [dif_pos h]
  exact .ok ⟨rfl, rfl⟩

theorem extend_targets (h : m.extend ts w = .ok out) :
    out.targets = m.targets ++ ts ∧ out.width = w := of_targets h

theorem extend_gives (hm : m.width ≤ w) (h : ∀ t ∈ ts, t < w) :
    Gives (m.extend ts w) fun out => out.targets = m.targets ++ ts ∧ out.width = w := by
  refine of_gives fun t ht => ?_
  rcases List.mem_append.1 ht with ht | ht
  · exact Nat.lt_of_lt_of_le (m.targets_lt t ht) hm
  · exact h t ht

theorem tryRemap_targets {f : Nat → Option Nat} (h : m.tryRemap w f = .ok (some out)) :
    m.targets.mapM f = some out.targets ∧ out.width = w := by
  unfold tryRemap at h
  split at h
  · cases h
  · rename_i moved hm
    cases hof : of moved w with
    | error e => rw [hof] at h; cases h
    | ok k =>
      rw [hof] at h; cases h
      obtain ⟨hts, hw⟩ := of_targets hof
      exact ⟨by rw [hm, hts], hw⟩

/-- Moving the targets gives a map, or nothing, if moved columns lie in the relation. -/
theorem tryRemap_gives {f : Nat → Option Nat} (h : ∀ a ∈ m.targets, ∀ b, f a = some b → b < w) :
    Gives (m.tryRemap w f) fun o => ∀ out, o = some out →
      List.Forall₂ (fun a b => f a = some b) m.targets out.targets ∧ out.width = w := by
  unfold tryRemap
  split
  · exact .ok (by simp)
  · rename_i moved hm
    have hf := mapM_eq_some.1 hm
    have hlt : ∀ t ∈ moved, t < w := by
      intro b hb
      obtain ⟨j, hj, rfl⟩ := List.getElem_of_mem hb
      have hj' : j < m.targets.length := hf.length_eq ▸ hj
      exact h _ (List.getElem_mem hj') _ ((List.forall₂_iff_get.1 hf).2 j hj' hj)
    obtain ⟨k, hk, hts, hw⟩ := of_gives hlt
    rw [hk]
    refine .ok ?_
    rintro out ⟨⟩
    exact ⟨hts ▸ hf, hw⟩

end StreamPlan.ColumnMap
