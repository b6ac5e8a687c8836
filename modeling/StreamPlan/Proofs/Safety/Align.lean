import StreamPlan.Plan.Manifest
import StreamPlan.Proofs.Plan.Columns
import StreamPlan.Proofs.Safety.Project

/-!
# Aligned plans

* `Plan.Layout`: where the columns of an aligned plan come from
  (`alignedColumns_layout`).
* `Plan.align_safe`: a well-formed plan can be aligned, and then key and
  visible columns leave no gap.
* `Plan.materialize_safe`: so it can be given as a final result.
-/

namespace StreamPlan.Plan

variable {catalog : Catalog} {n : Nat} {allowed : Fault → Prop} {plan : Plan}

/-- The columns of an aligned plan are the visible ones, then those that only
the key has, each once, then others. -/
structure Layout (plan : Plan) (columns added others : List Nat) : Prop where
  columns_eq : columns = plan.select.targets ++ added ++ others
  added_mem : ∀ c, c ∈ plan.select.targets ++ added ↔ c ∈ plan.select.targets ∨ c ∈ plan.key.targets
  nodup : added.Nodup
  fresh : ∀ c ∈ added, c ∉ plan.select.targets

theorem alignedColumns_layout (plan : Plan) :
    ∃ added others, plan.Layout plan.alignedColumns added others := by
  obtain ⟨added, hadded, hnd, hfresh⟩ := Selection.append_eq plan.select.targets plan.key.targets
  obtain ⟨others, hothers, -, -⟩ := Selection.append_eq (plan.select.targets ++ added)
    (SortOrder.columns plan.sort ++ plan.time.bestColumn?.toList)
  refine ⟨added, others, ?_, fun c => ?_, hnd, hfresh⟩
  · rw [alignedColumns, List.append_assoc, Selection.append_append, hadded, hothers]
  · rw [← hadded, Selection.mem_append]

theorem mem_alignedColumns {c : Nat} :
    c ∈ plan.alignedColumns ↔ c ∈ plan.select.targets ∨ c ∈ plan.key.targets ∨
      c ∈ SortOrder.columns plan.sort ∨ plan.time.bestColumn? = some c := by
  rw [alignedColumns, Selection.mem_append]
  simp only [List.mem_append, Option.mem_toList, or_assoc]

theorem Sound.alignedColumns_lt (h : plan.Sound) : ∀ c ∈ plan.alignedColumns, c < plan.width := by
  intro c hc
  rcases mem_alignedColumns.1 hc with hc | hc | hc | hc
  · exact h.select_lt c hc
  · exact h.key_lt c hc
  · exact h.sort c hc
  · exact h.time c (EventTime.bestColumn?_mem hc)

/-- A prefix of a range is a range. -/
theorem eq_range_of_prefix {xs : List Nat} {k : Nat} (h : xs <+: List.range k) :
    xs = List.range xs.length := by
  have := List.prefix_iff_eq_take.1 h
  rwa [List.take_range,
    Nat.min_eq_left (Nat.le_trans h.length_le (Nat.le_of_eq List.length_range))] at this

/-- Visible columns and key leave no gap in a plan whose columns are laid out already. -/
theorem isContinuous_of_range {columns added others : List Nat} (h : plan.Layout columns added others)
    (hr : columns = List.range plan.width) : plan.isContinuous = true := by
  have hfront : plan.select.targets ++ added
      = List.range (plan.select.targets ++ added).length :=
    eq_range_of_prefix ⟨others, by rw [← hr, h.columns_eq]⟩
  refine isDenseRange_of_mem_iff (k := (plan.select.targets ++ added).length) fun c => ?_
  rw [List.mem_append, or_comm, ← h.added_mem, hfront]
  simp

/-- The first position of a key or visible column is in front of the others. -/
theorem Layout.position_lt {columns added others : List Nat} {c i : Nat}
    (h : plan.Layout columns added others) (hc : c ∈ plan.select.targets ∨ c ∈ plan.key.targets)
    (hi : Selection.position? columns c = some i) : i < (plan.select.targets ++ added).length := by
  have hmem := (h.added_mem c).2 hc
  rw [h.columns_eq, Selection.position?, position_append_left hmem] at hi
  exact StreamPlan.position_lt hi

/-- A column that only the key has stands right behind the visible ones. -/
theorem Layout.position_added {columns added others : List Nat} {c i : Nat}
    (h : plan.Layout columns added others) (hc : added[i]? = some c) :
    Selection.position? columns c = some (plan.select.targets.length + i) := by
  have hmem := List.mem_of_getElem? hc
  have hfirst : added.findIdx? (· == c) = some i := by
    obtain ⟨k, hk⟩ := position_of_mem hmem
    have hk' := find_position hk
    have hki : k = i := by
      obtain ⟨hklt, hkc⟩ := List.getElem?_eq_some_iff.1 hk'
      obtain ⟨hilt, hic⟩ := List.getElem?_eq_some_iff.1 hc
      exact (List.getElem_inj h.nodup).1 (hkc.trans hic.symm)
    exact hki ▸ hk
  rw [h.columns_eq, Selection.position?, List.append_assoc,
    position_append_right (h.fresh c hmem), position_append_left hmem, hfirst]
  simp [Nat.add_comm]

/-- Visible columns and key leave no gap once the columns are laid out. -/
theorem Layout.isDense {columns added others moved : List Nat} (h : plan.Layout columns added others)
    (hm : List.Forall₂ (MovedTo columns) plan.key.targets moved) :
    isDenseRange (moved ++ List.range plan.select.targets.length) = true := by
  refine isDenseRange_of_mem_iff (k := (plan.select.targets ++ added).length) fun x => ?_
  rw [List.mem_append, List.mem_range]
  constructor
  · rintro (hx | hx)
    · obtain ⟨i, hi, rfl⟩ := List.getElem_of_mem hx
      have hi' : i < plan.key.targets.length := hm.length_eq ▸ hi
      have := (List.forall₂_iff_get.1 hm).2 i hi' hi
      exact h.position_lt (.inr (List.getElem_mem hi')) this
    · rw [List.length_append]
      omega
  · intro hx
    -- below the visible columns a position is visible; above them it is of an added column, which
    -- is a key
    rcases Nat.lt_or_ge x plan.select.targets.length with hlt | hge
    · exact .inr hlt
    · left
      have hxa : x - plan.select.targets.length < added.length := by
        rw [List.length_append] at hx
        omega
      have hpos := h.position_added (List.getElem?_eq_getElem hxa)
      have hkey : added[x - plan.select.targets.length] ∈ plan.key.targets := by
        have hmem := List.getElem_mem hxa
        rcases (h.added_mem _).1 (List.mem_append_right _ hmem) with hs | hk
        · exact absurd hs (h.fresh _ hmem)
        · exact hk
      obtain ⟨i, hi, hic⟩ := List.getElem_of_mem hkey
      have hi' : i < moved.length := hm.length_eq ▸ hi
      have := (List.forall₂_iff_get.1 hm).2 i hi hi'
      simp only [MovedTo, List.get_eq_getElem, hic, hpos, Option.some.injEq] at this
      have hx' : x = moved[i] := by omega
      exact hx' ▸ List.getElem_mem hi'

/-- **Keeping columns** of a plan with nothing pending, the key and the sort
columns among them. -/
theorem keepColumns_gives {columns : List Nat} {visible : Nat} (h : plan.WellFormed catalog n)
    (hnone : plan.nowFilter = none) (he : plan.topN.isEmpty = true)
    (hlt : ∀ c ∈ columns, c < plan.width) (hk : ∀ c ∈ plan.key.targets, c ∈ columns)
    (hs : ∀ c ∈ SortOrder.columns plan.sort, c ∈ columns) (hv : visible ≤ columns.length)
    (hc : visible < Position.countLimit) :
    Gives (plan.keepColumns columns visible) fun out => out.Draft catalog n ∧
      out.select.targets = List.range visible ∧
      List.Forall₂ (MovedTo columns) plan.key.targets out.key.targets := by
  have hbounded := keepColumns_bounded h.fields hlt hk hv
  cases hout : plan.keepColumns columns visible with
  | error fault => exact absurd hc (Nat.not_lt.2 (hbounded.1 fault hout).2)
  | ok out =>
    have hsound := keepColumns_sound h.toSound hnone hs hout
    obtain ⟨outputs, key, select, -, hkts, hsts, rfl⟩ := keepColumns_eq_ok hout
    refine .ok ⟨⟨?_, h.stale⟩, hsts, hkts⟩
    simp only [cleared, he, if_true]
    refine ⟨hsound, ⟨_, by rw [Rel.fields]⟩, fun hst k hr => ?_, (by rintro l ⟨⟩), fun f hf => ?_,
      fun hst => absurd rfl hst.2⟩
    · change k ≤ key.sources
      rw [ColumnMap.sources, ← hkts.length_eq]
      exact h.rootKeys hst k hr
    · change plan.nowFilter = some f at hf
      rw [hnone] at hf
      cases hf

/-- **A well-formed plan can be aligned.** The aligned plan shows as many columns,
the first ones, in one range with its key. -/
theorem align_safe (h : plan.WellFormed catalog n)
    (hc : plan.select.sources < Position.countLimit) :
    Safe allowed plan.align fun out => out.Draft catalog n ∧
      out.select.targets = List.range plan.select.sources ∧ out.isContinuous = true := by
  unfold align
  refine plan.withoutPending_safe.bind fun base ⟨hs, hnone, he⟩ => ?_
  have hb := hs.wellFormed h
  rw [← hs.select] at hc ⊢
  obtain ⟨added, others, hlayout⟩ := base.alignedColumns_layout
  simp only
  split
  · rename_i hr
    refine .ok ⟨hb.draft, ?_, isContinuous_of_range hlayout hr⟩
    refine eq_range_of_prefix (k := base.width) ⟨added ++ others, ?_⟩
    rw [← hr, hlayout.columns_eq, List.append_assoc]
  · have hv : base.select.sources ≤ base.alignedColumns.length := by
      rw [hlayout.columns_eq, List.append_assoc, List.length_append]
      exact Nat.le_add_right _ _
    have hkept := keepColumns_gives hb hnone he hb.alignedColumns_lt
      (fun c hk => mem_alignedColumns.2 (.inr (.inl hk)))
      (fun c hk => mem_alignedColumns.2 (.inr (.inr (.inl hk)))) hv hc
    refine (Safe.lift hkept.bounded).mono fun out ⟨hd, hsts, hkts⟩ => ⟨hd, hsts, ?_⟩
    rw [isContinuous, hsts]
    exact hlayout.isDense hkts

/-- **A well-formed plan can be given as a final result.** -/
theorem materialize_safe (h : plan.WellFormed catalog n)
    (hc : plan.select.sources < Position.countLimit) :
    Safe allowed plan.materialize fun _ => True := by
  unfold materialize
  refine (align_safe h hc).bind fun aligned ⟨hd, _, hcont⟩ => ?_
  have hexpect : expect aligned.isContinuous
      (.notContinuous aligned.key.targets aligned.select.targets) = .ok () := by
    rw [hcont]; rfl
  rw [hexpect, lift_ok, ok_bind]
  have hmanifest : Gives (Manifest.ofPlan aligned) fun _ => True := by
    unfold Manifest.ofPlan
    obtain ⟨fs, hfs⟩ := hd.cleared.fields
    rw [show aligned.rel.fields = .ok fs from hfs]
    exact .ok trivial
  exact (Safe.lift hmanifest.bounded).bind fun _ _ => .ok trivial

end StreamPlan.Plan
