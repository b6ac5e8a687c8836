import StreamPlan.Proofs.EventTime.Leaders
import StreamPlan.Proofs.Plan.Project
import StreamPlan.Session.Publish

/-!
# Plans with some of their columns, and published plans

* `Plan.keepColumns_eq_ok`: what keeping columns gives.
* `Plan.keepColumns_bounded`: it succeeds if the columns exist and the key is
  among them, unless there are too many to be listed.
* `Plan.keepColumns_sound`: what it gives is sound but for a ranking that does
  nothing, whose columns do not move.

A published plan has its columns in the order of a table, and everything that
refers to columns refers to the same ones.

* `Plan.PublishedAs`: where the columns of everything a plan carries went.
* `Plan.published_as`: **a published plan** is the plan with its columns moved.
* `Plan.PublishedAs.sound`: it is as sound.
-/

namespace StreamPlan.Plan

variable {plan out : Plan} {columns : List Nat} {visible : Nat}

/-- Some columns of a plan, in order. -/
theorem keepColumns_eq_ok {columns : List Nat} {visible : Nat}
    (h : plan.keepColumns columns visible = .ok out) :
    ∃ outputs key select, outputs.map Output.expr = columns.map Expr.column ∧
      List.Forall₂ (MovedTo columns) plan.key.targets key.targets ∧
      select.targets = List.range visible ∧
      out = { plan with
        rel := .project plan.rel outputs none
        key, select
        time := plan.time.remap (Selection.position? columns)
        sort := SortOrder.moved plan.sort (Selection.position? columns)
        lineage := none } := by
  unfold keepColumns at h
  obtain ⟨key, hkey, h⟩ := bind_eq_ok.1 h
  obtain ⟨rel, hrel, h⟩ := bind_eq_ok.1 h
  obtain ⟨select, hselect, h⟩ := bind_eq_ok.1 h
  cases h
  obtain ⟨fields, -, hrel⟩ := bind_eq_ok.1 hrel
  obtain ⟨outputs, houtputs, hrel⟩ := bind_eq_ok.1 hrel
  cases hrel
  exact ⟨outputs, key, select,
    map_of_mapM_eq_ok (fun _ _ ho => Output.expr_of_column ho) houtputs, (movedKey_eq_ok hkey).1,
    (ColumnMap.identityInto_targets hselect).1, rfl⟩

/-- As many columns as are kept. -/
theorem keepColumns_width (h : plan.keepColumns columns visible = .ok out) :
    out.width = columns.length ∧ out.key.width = columns.length ∧
      out.select.width = columns.length := by
  obtain ⟨outputs, key, select, houtputs, -, -, hout⟩ := keepColumns_eq_ok h
  refine ⟨?_, ?_⟩
  · have hlength := congrArg List.length houtputs
    rw [List.length_map, List.length_map] at hlength
    rw [hout, width, Rel.width, hlength]
  · unfold keepColumns at h
    obtain ⟨key, hkey, h⟩ := bind_eq_ok.1 h
    obtain ⟨rel, -, h⟩ := bind_eq_ok.1 h
    obtain ⟨select, hselect, h⟩ := bind_eq_ok.1 h
    cases h
    exact ⟨(movedKey_eq_ok hkey).2, (ColumnMap.identityInto_targets hselect).2⟩

/-- Columns of a tree can be projected. -/
theorem projectColumns_gives {rel : Rel} (hf : ∃ fs, rel.fields = .ok fs)
    (hlt : ∀ c ∈ columns, c < rel.width) :
    Gives (rel.projectColumns columns none) fun out => out.width = columns.length := by
  unfold Rel.projectColumns
  refine (Rel.fields_gives hf).bind fun fields hlength => ?_
  have hmap : Gives (columns.mapM (Output.column · fields)) fun out => out.length = columns.length := by
    refine (Gives.mapM (R := fun _ _ => True) fun c hmem => ?_).mono fun out hf => hf.length_eq.symm
    exact (Gives.itemAt (hlength ▸ hlt c hmem)).bind fun _ _ => .ok trivial
  exact hmap.bind fun outputs houtputs => .ok (by rw [Rel.width, houtputs])

/-- **Keeping columns**, the key among them, faults over their number alone. -/
theorem keepColumns_bounded (hf : ∃ fs, plan.rel.fields = .ok fs)
    (hlt : ∀ c ∈ columns, c < plan.width) (hk : ∀ c ∈ plan.key.targets, c ∈ columns)
    (hv : visible ≤ columns.length) :
    Bounded (fun fault => fault = .tooManyItems ∧ Position.countLimit ≤ visible)
      (plan.keepColumns columns visible) fun _ => True := by
  unfold keepColumns
  refine (movedKey_gives fun i hi => Selection.position?_of_mem (hk i hi)).bounded.bind fun _ _ => ?_
  refine (projectColumns_gives hf hlt).bounded.bind fun _ _ => ?_
  have hselect : Bounded (fun fault => fault = .tooManyItems ∧ Position.countLimit ≤ visible)
      (ColumnMap.identityInto visible columns.length) fun _ => True := by
    rcases Nat.lt_or_ge visible Position.countLimit with hc | hc
    · exact ((ColumnMap.identityInto_gives hv hc).mono fun _ _ => trivial).bounded
    · have hmany : ColumnMap.identityInto visible columns.length = .error .tooManyItems := by
        rw [ColumnMap.identityInto, dif_pos hv, Position.checkCount, if_neg (Nat.not_lt.2 hc)]
        rfl
      rw [hmany]
      exact ⟨fun fault he => by cases he; exact ⟨rfl, hc⟩, fun _ he => by cases he⟩
  exact hselect.bind fun _ _ => .ok trivial

/-- **Kept columns of a sound plan** make a sound plan, once a ranking without
effect is left out. -/
theorem keepColumns_sound (hs : plan.Sound) (hnone : plan.nowFilter = none)
    (hsort : ∀ c ∈ SortOrder.columns plan.sort, c ∈ columns)
    (h : plan.keepColumns columns visible = .ok out) : Sound { out with topN := .none } := by
  obtain ⟨hwidth, hkey, hselect⟩ := keepColumns_width h
  obtain ⟨outputs, key, select, -, -, -, rfl⟩ := keepColumns_eq_ok h
  have hin : ∀ c i, Selection.position? columns c = some i → i < columns.length :=
    fun c i hi => position_lt hi
  refine ⟨hkey.trans hwidth.symm, hselect.trans hwidth.symm, fun hstate => ?_, fun _ => hnone,
    fun i hi => ?_, fun f hf => ?_, fun i hi => ?_, fun i hi => by cases hi⟩
  · change (plan.time.remap _).columns = []
    rw [EventTime.columns_remap, hs.stateTime hstate]
    rfl
  · change i ∈ (plan.time.remap _).columns at hi
    rw [EventTime.columns_remap, List.mem_filterMap] at hi
    obtain ⟨c, -, hc⟩ := hi
    exact Nat.lt_of_lt_of_eq (hin c i hc) hwidth.symm
  · change plan.nowFilter = some f at hf
    rw [hnone] at hf
    cases hf
  · change i ∈ SortOrder.columns (SortOrder.moved plan.sort _) at hi
    rw [SortOrder.columns_moved] at hi
    obtain ⟨c, hmem, rfl⟩ := List.mem_map.1 hi
    obtain ⟨p, hp, -⟩ := Selection.position?_of_mem (hsort c hmem)
    rw [hp]
    exact Nat.lt_of_lt_of_eq (hin c p hp) hwidth.symm

end StreamPlan.Plan

namespace StreamPlan

/-- Constraints whose columns all have new ones are about these. -/
theorem Pending.remap_of_isSome {pending : Pending} {f : Nat → Option Nat}
    (ht : ∀ c ∈ pending.topN.columns, (f c).isSome = true)
    (hs : ∀ c ∈ SortOrder.columns pending.sort, (f c).isSome = true) :
    pending.remap f = {
      nowFilter := pending.nowFilter.bind (·.remap f)
      topN := { pending.topN with
        partition := pending.topN.partition.map fun c => (f c).getD c
        order := SortOrder.moved pending.topN.order f }
      sort := SortOrder.moved pending.sort f } := by
  rw [remap]
  simp only [List.all_eq_true.2 ht, List.all_eq_true.2 hs, if_true]

theorem isEmpty_of_forall₂ {α β : Type} {R : α → β → Prop} {as : List α} {bs : List β}
    (h : List.Forall₂ R as bs) : bs.isEmpty = as.isEmpty := by
  cases h <;> rfl

namespace Plan

variable {plan out : Plan} {c : Nat}

theorem mem_publishedColumns :
    c ∈ plan.publishedColumns ↔ c ∈ plan.key.targets ∨ c ∈ plan.select.targets ∨
      plan.time.bestColumn? = some c ∨ (∃ f, plan.nowFilter = some f ∧ f.timestamp = c) ∨
      c ∈ plan.topN.columns ∨ c ∈ SortOrder.columns plan.sort := by
  rw [publishedColumns, Selection.mem_append]
  simp only [List.mem_append, Option.mem_toList, Option.map_eq_some_iff, List.not_mem_nil, false_or,
    or_assoc]

/-- Where the columns of everything a plan carries went when it was published. -/
structure PublishedAs (plan out : Plan) : Prop where
  kind : out.kind = plan.kind
  needs : out.needs = plan.needs
  rootKeys : out.rootKeys = plan.rootKeys
  key : List.Forall₂ (MovedTo plan.publishedColumns) plan.key.targets out.key.targets
  select : List.Forall₂ (MovedTo plan.publishedColumns) plan.select.targets out.select.targets
  time : plan.time.Moved (Selection.position? plan.publishedColumns) out.time
  timeCases : out.time = plan.time ∨
    out.time = plan.time.remap (Selection.position? plan.publishedColumns)
  nowFilter : out.nowFilter
    = plan.nowFilter.bind (·.remap (Selection.position? plan.publishedColumns))
  partition : List.Forall₂ (MovedTo plan.publishedColumns) plan.topN.partition out.topN.partition
  order : List.Forall₂ (SortKey.MovedTo plan.publishedColumns) plan.topN.order out.topN.order
  topN : out.topN.distinct = plan.topN.distinct ∧ out.topN.limit = plan.topN.limit ∧
    out.topN.source = plan.topN.source
  sort : List.Forall₂ (SortKey.MovedTo plan.publishedColumns) plan.sort out.sort
  width : out.width = plan.publishedColumns.length
  maps : out.key.width = out.width ∧ out.select.width = out.width
  rel : plan.publishedColumns = List.range plan.width ∧ out.rel = plan.rel ∨
    ∃ outputs, outputs.map Output.expr = plan.publishedColumns.map Expr.column ∧
      out.rel = .project plan.rel outputs none

/-- **A published plan** is the plan with the columns of everything moved. -/
theorem published_as (hs : plan.Sound) (h : plan.published = .ok out) : plan.PublishedAs out := by
  unfold published at h
  simp only at h
  -- the columns may be in place already; else they all move
  split at h
  · rename_i hrange
    cases h
    have hposition : ∀ c < plan.width, Selection.position? plan.publishedColumns c = some c :=
      fun c hc => hrange ▸ movedTo_range hc
    exact {
      kind := rfl, needs := rfl, rootKeys := rfl
      key := hrange ▸ forall₂_movedTo_range hs.key_lt
      select := hrange ▸ forall₂_movedTo_range hs.select_lt
      time := EventTime.moved_of_fixed_columns fun c hc => hposition c (hs.time c hc)
      timeCases := .inl rfl
      nowFilter := by
        cases hn : plan.nowFilter with
        | none => rfl
        | some f =>
          rw [Option.bind_some, NowFilter.remap, hposition _ (hs.time _ (hs.nowFilter f hn))]
          rfl
      partition := hrange ▸ forall₂_movedTo_range fun c hc => hs.topN c (List.mem_append_left _ hc)
      order := hrange ▸ forall₂_keyMovedTo_range fun c hc => hs.topN c (List.mem_append_right _ hc)
      topN := ⟨rfl, rfl, rfl⟩
      sort := hrange ▸ forall₂_keyMovedTo_range hs.sort
      width := by rw [hrange, List.length_range]; rfl
      maps := ⟨hs.key, hs.select⟩
      rel := .inl ⟨hrange, rfl⟩ }
  · obtain ⟨key, hkey, h⟩ := bind_eq_ok.1 h
    obtain ⟨select, hselect, h⟩ := bind_eq_ok.1 h
    obtain ⟨rel, hrel, h⟩ := bind_eq_ok.1 h
    cases h
    obtain ⟨fields, -, hrel⟩ := bind_eq_ok.1 hrel
    obtain ⟨outputs, houtputs, hrel⟩ := bind_eq_ok.1 hrel
    cases hrel
    have hexprs : outputs.map Output.expr = plan.publishedColumns.map Expr.column :=
      map_of_mapM_eq_ok (fun _ _ ho => Output.expr_of_column ho) houtputs
    have hwidth : outputs.length = plan.publishedColumns.length := by
      have hlength := congrArg List.length hexprs
      rwa [List.length_map, List.length_map] at hlength
    have htopN : ∀ c ∈ plan.pending.topN.columns, c ∈ plan.publishedColumns := fun c hc =>
      mem_publishedColumns.2 (.inr (.inr (.inr (.inr (.inl hc)))))
    have hsort : ∀ c ∈ SortOrder.columns plan.pending.sort, c ∈ plan.publishedColumns := fun c hc =>
      mem_publishedColumns.2 (.inr (.inr (.inr (.inr (.inr hc)))))
    have hkept : ∀ c ∈ plan.publishedColumns,
        (Selection.position? plan.publishedColumns c).isSome = true := fun c hc => by
      obtain ⟨i, hi, -⟩ := Selection.position?_of_mem hc
      rw [hi]
      rfl
    rw [Pending.remap_of_isSome (fun c hc => hkept c (htopN c hc)) fun c hc => hkept c (hsort c hc)]
    exact {
      kind := rfl, needs := rfl, rootKeys := rfl
      key := (movedKey_eq_ok hkey).1
      select := (movedKey_eq_ok hselect).1
      time := EventTime.moved_remap _ _
      timeCases := .inr rfl
      nowFilter := rfl
      partition := forall₂_movedTo fun c hc => htopN c (List.mem_append_left _ hc)
      order := forall₂_keyMovedTo fun c hc => htopN c (List.mem_append_right _ hc)
      topN := ⟨rfl, rfl, rfl⟩
      sort := forall₂_keyMovedTo hsort
      width := by rw [width, Rel.width, hwidth]
      maps := ⟨(movedKey_eq_ok hkey).2.trans (by rw [width, Rel.width, hwidth]),
        (movedKey_eq_ok hselect).2.trans (by rw [width, Rel.width, hwidth])⟩
      rel := .inr ⟨outputs, hexprs, rfl⟩ }

namespace PublishedAs

variable (h : plan.PublishedAs out)
include h

/-- A published ranking has an effect if the plan's has one. -/
theorem isEmpty_topN : out.topN.isEmpty = plan.topN.isEmpty := by
  rw [TopN.isEmpty, TopN.isEmpty, isEmpty_of_forall₂ h.partition, h.topN.1, h.topN.2.1]

/-- **A published plan is sound.** -/
theorem sound (hs : plan.Sound) : out.Sound where
  key := h.maps.1
  select := h.maps.2
  stateTime hstate := by
    have hnone := hs.stateTime (h.kind ▸ hstate)
    rw [EventTime.columns, List.map_eq_nil_iff] at hnone ⊢
    rw [h.time.candidates, hnone, List.filterMap_nil]
  stateNowFilter hstate := by
    rw [h.nowFilter, hs.stateNowFilter (h.kind ▸ hstate)]
    rfl
  time i hi := by
    obtain ⟨moved, hmoved, rfl⟩ := List.mem_map.1 hi
    obtain ⟨d, -, c, hc, rfl⟩ := h.time.mem_candidates.1 hmoved
    exact h.width ▸ position_lt hc
  nowFilter f hf := by
    rw [h.nowFilter, Option.bind_eq_some_iff] at hf
    obtain ⟨below, hbelow, hf⟩ := hf
    obtain ⟨i, hi, rfl⟩ := Option.map_eq_some_iff.1 hf
    obtain ⟨d, hd, hcolumn⟩ := List.mem_map.1 (hs.nowFilter below hbelow)
    exact List.mem_map.2 ⟨_, h.time.mem_candidates.2 ⟨d, hd, i, hcolumn ▸ hi, rfl⟩, rfl⟩
  sort i hi := h.width ▸ lt_of_movedTo (columns_of_keyMovedTo h.sort) i hi
  topN i hi := by
    rw [h.width]
    rcases List.mem_append.1 hi with hi | hi
    · exact lt_of_movedTo h.partition i hi
    · exact lt_of_movedTo (columns_of_keyMovedTo h.order) i hi

end PublishedAs

end Plan

end StreamPlan
