import StreamPlan.Plan.Join
import StreamPlan.Plan.SelfJoin
import StreamPlan.Proofs.Lineage
import StreamPlan.Proofs.Plan.Join
import StreamPlan.Proofs.Safety.WellFormed

/-!
# Joins do not fault

* `JoinInputs.FitsIn`: the inputs of a join as every rule finds them
  (`JoinInputs.of_safe`).
* `JoinInputs.Settled`: its sides once their pending constraints apply.
* `JoinInputs.statePlan_safe`: the join of current values is well formed.
* `JoinInputs.Merged.Reaches`: what holds of a left row while right levels are
  unrolled below it (`mergeLevels_safe`).
* `JoinInputs.selfJoin?_safe`: the plan of the merged row of an entity with itself is
  well formed.
* `JoinInputs.temporalJoin?_safe`: so is the join of a stream with versions.
-/

namespace StreamPlan

variable {catalog : Catalog} {n : Nat} {allowed : Fault → Prop}

namespace JoinCondition

variable {leftWidth width : Nat} {isTimestamp : Nat → Bool} {parts : JoinCondition}

/-- A bound between a timestamp of the left and one of the right input. -/
structure BoundFits (leftWidth n : Nat) (isTimestamp : Nat → Bool) (bound : TimeBound) : Prop where
  crosses : crosses leftWidth bound = true
  isBound : TimeBound.IsBoundOf isTimestamp n bound

/-- Parts that are about columns of a joined row. -/
structure PartsFit (leftWidth width n : Nat) (isTimestamp : Nat → Bool) (parts : JoinCondition) :
    Prop where
  equalities : ∀ p ∈ parts.equalities, p.1 < leftWidth ∧ p.2 + leftWidth < width
  timeBounds : ∀ b ∈ parts.timeBounds, BoundFits leftWidth n isTimestamp b

theorem equality?_lt {e : Expr} {p : Nat × Nat} (h : equality? leftWidth e = some p)
    (he : ∀ i ∈ e.references, i < width) : p.1 < leftWidth ∧ p.2 + leftWidth < width := by
  unfold equality? at h
  split at h
  · rename_i a b
    have ha := he a (by simp [Expr.references])
    have hb := he b (by simp [Expr.references])
    split at h
    · split at h
      · cases h
      · cases h; simp only; omega
    · split at h
      · cases h; simp only; omega
      · cases h
  · cases h

theorem add_bounded {condition : Expr} (h : PartsFit leftWidth width n isTimestamp parts)
    (hc : ∀ i ∈ condition.references, i < width) (hn : condition.span ≤ n)
    (hl : Millis.greatest < n → allowed .arithmeticOverflow) :
    Bounded allowed (add leftWidth isTimestamp parts condition)
      (PartsFit leftWidth width n isTimestamp) := by
  unfold add
  have hspan : Millis.greatest < condition.span → allowed .arithmeticOverflow :=
    fun hg => hl (by omega)
  refine Bounded.bind (TimeBound.ofExpr?_bounded condition hspan) fun o ho => ?_
  simp only
  split
  · rename_i bound hbound
    obtain ⟨rfl, hcross⟩ := Option.filter_eq_some_iff.1 hbound
    obtain ⟨hm, hlarger, hsmaller⟩ := ho bound rfl
    refine .ok ⟨h.equalities, fun b hb => ?_⟩
    rcases List.mem_append.1 hb with hb | hb
    · exact h.timeBounds b hb
    · rw [List.mem_singleton.1 hb]
      exact ⟨hcross, Nat.le_trans hm hn, hlarger, hsmaller⟩
  · rename_i pair _ hpair
    refine .ok ⟨fun p hp => ?_, h.timeBounds⟩
    rcases List.mem_append.1 hp with hp | hp
    · exact h.equalities p hp
    · rw [List.mem_singleton.1 hp]
      exact equality?_lt hpair hc
  · exact .ok ⟨h.equalities, h.timeBounds⟩

/-- **The parts of a condition** over a joined row are about its columns. -/
theorem ofExpr_bounded {condition : Expr} (hc : ∀ i ∈ condition.references, i < width)
    (hn : condition.span ≤ n) (hl : Millis.greatest < n → allowed .arithmeticOverflow) :
    Bounded allowed (ofExpr condition leftWidth isTimestamp)
      (PartsFit leftWidth width n isTimestamp) := by
  refine Bounded.foldlM ⟨nofun, nofun⟩ fun parts k hk hparts => ?_
  have hspan := Expr.span_le_spanOfAll hk
  have hall := Expr.span_conjuncts condition
  exact add_bounded hparts (fun i hi => hc i (Expr.mem_conjuncts hk i hi)) (by omega) hl

end JoinCondition

namespace JoinInputs

variable {j : JoinInputs}

/-- The inputs of a join as every rule finds them. -/
structure FitsIn (catalog : Catalog) (n : Nat) (j : JoinInputs) : Prop where
  left : j.left.WellFormed catalog n
  right : j.right.WellFormed catalog n
  parts : JoinCondition.PartsFit j.left.width j.width n (isTimestamp j.left j.right) j.parts

theorem joinedColumn_gives {left right : Plan} {i : Nat} (hl : left.WellFormed catalog n)
    (hr : right.WellFormed catalog n) (hi : i < left.select.sources + right.select.sources) :
    Gives (joinedColumn left right i) (· < left.width + right.width) := by
  unfold joinedColumn
  split
  · rename_i hlt
    exact (hl.apply_gives hlt).mono fun t ht => Nat.lt_of_lt_of_le ht (Nat.le_add_right _ _)
  · rename_i hge
    refine (hr.apply_gives (by omega)).bind fun t ht => ?_
    exact .ok (by omega)

/-- **The inputs of a join** on a condition over their visible columns. -/
theorem of_safe {left right : Plan} {kind : JoinKind} {condition : Expr} {nl nr : Nat}
    (hl : left.WellFormed catalog nl) (hr : right.WellFormed catalog nr)
    (hc : ∀ i ∈ condition.references, i < left.select.sources + right.select.sources)
    (hn : nl + nr + condition.span ≤ n)
    (ho : Millis.greatest < n → allowed .arithmeticOverflow) :
    Safe allowed (JoinInputs.of left right kind condition) fun j =>
      j.FitsIn catalog n ∧ j.left = left ∧ j.right = right ∧ j.kind = kind := by
  unfold JoinInputs.of
  have hl' := hl.mono (by omega : nl ≤ n)
  have hr' := hr.mono (by omega : nr ≤ n)
  refine (Converter.combine_safe left.needs right.needs).bind fun needs _ => ?_
  have hmove : ∀ i ∈ condition.references,
      Gives (joinedColumn left right i) (· < left.width + right.width) :=
    fun i hi => joinedColumn_gives hl' hr' (hc i hi)
  refine (Safe.lift (Expr.remap_gives hmove).bounded).bind fun moved ⟨hrefs, hspan⟩ => ?_
  have hparts : Bounded allowed (JoinCondition.ofExpr moved left.width (isTimestamp left right))
      (JoinCondition.PartsFit left.width (left.width + right.width) n (isTimestamp left right)) :=
    JoinCondition.ofExpr_bounded hrefs (by omega) ho
  refine (Safe.lift hparts).bind fun parts hp => ?_
  exact .ok ⟨⟨hl', hr', hp⟩, rfl, rfl, rfl⟩

/-- The sort columns of a joined row are columns of it. -/
theorem joinedSort_lt {left right : SortOrder} {lw rw : Nat}
    (hl : ∀ i ∈ SortOrder.columns left, i < lw) (hr : ∀ i ∈ SortOrder.columns right, i < rw) :
    ∀ i ∈ SortOrder.columns (joinedSort left right lw), i < lw + rw := by
  intro i hi
  rcases SortOrder.mem_columns_join.1 hi with hi | hi
  · exact Nat.lt_of_lt_of_le (hl i hi) (Nat.le_add_right _ _)
  · rw [SortOrder.columns_shift] at hi
    obtain ⟨k, hk, rfl⟩ := List.mem_map.1 hi
    exact Nat.add_lt_add_left (hr k hk) lw

/-- The row type of a join of two trees that have one. -/
theorem join_fields {left right : Plan} {kind : JoinKind} {condition : Expr}
    {hint : Option JoinHint} (hl : left.WellFormed catalog n) (hr : right.WellFormed catalog n) :
    ∃ fs, (Rel.join left.rel right.rel kind condition hint).fields = .ok fs := by
  obtain ⟨l, hl⟩ := hl.fields
  obtain ⟨r, hr⟩ := hr.fields
  exact ⟨_, by rw [Rel.fields, hl, hr]; rfl⟩

theorem stateKey_gives {left right : Plan} (hl : left.key.width = j.left.width)
    (hr : right.key.width = j.right.width) :
    Gives (j.stateKey left right) fun key => key.width = j.width := by
  unfold stateKey
  split
  · refine (ColumnMap.of_gives fun t ht => ?_).mono fun key hk => hk.2
    have := left.key.targets_lt t ht
    rw [JoinInputs.width]
    omega
  · refine (ColumnMap.joinAt_gives (by omega)).mono fun key hk => ?_
    rw [hk.2, hr, JoinInputs.width]

/-- The sides of a join once their pending constraints apply. -/
structure Settled (j : JoinInputs) (left right : Plan) : Prop where
  left : j.left.Settled left
  right : j.right.Settled right

section Settled

variable {left right : Plan}

theorem Settled.width_join (h : j.Settled left right) (kind : JoinKind) (condition : Expr)
    (hint : Option JoinHint) :
    (Rel.join left.rel right.rel kind condition hint).width = j.width := by
  rw [Rel.width, h.left.width, h.right.width]
  rfl

theorem Settled.sort_lt (h : j.Settled left right) (hj : j.FitsIn catalog n) :
    ∀ i ∈ SortOrder.columns (joinedSort left.sort right.sort j.left.width), i < j.width := by
  rw [h.left.sort, h.right.sort]
  exact joinedSort_lt hj.left.sort hj.right.sort

/-- The visible columns of both sides, one after the other. -/
theorem Settled.select_gives (h : j.Settled left right) (hj : j.FitsIn catalog n) :
    Gives (left.select.joinAt right.select j.left.width) fun select =>
      select.width = j.width ∧
        select.sources = j.left.select.sources + j.right.select.sources := by
  rw [h.left.select, h.right.select]
  refine (ColumnMap.joinAt_gives (Nat.le_of_eq hj.left.select)).mono fun select hselect => ?_
  obtain ⟨hts, hw⟩ := hselect
  refine ⟨hw.trans (congrArg (j.left.width + ·) hj.right.select), ?_⟩
  rw [ColumnMap.sources, hts, List.length_append, List.length_map]
  rfl

end Settled

/-- **The plan of a join of current values** shows the columns of both inputs. -/
theorem statePlan_safe (h : j.FitsIn catalog n) :
    Safe allowed j.statePlan fun out =>
      out.WellFormed catalog n ∧
        out.select.sources = j.left.select.sources + j.right.select.sources := by
  unfold statePlan
  refine j.left.withoutPending_safe.bind fun left ⟨hls, _, _⟩ => ?_
  refine j.right.withoutPending_safe.bind fun right ⟨hrs, _, _⟩ => ?_
  have hsides : j.Settled left right := ⟨hls, hrs⟩
  have hl := hls.wellFormed h.left
  have hr := hrs.wellFormed h.right
  have hkeys := stateKey_gives (hl.key.trans hls.width) (hr.key.trans hrs.width)
  refine (Safe.lift hkeys.bounded).bind fun key hkw => ?_
  refine (Safe.lift (hsides.select_gives h).bounded).bind fun select ⟨hsw, hsources⟩ => ?_
  refine (Safe.lift (Plan.ofRel_gives (by simp)).bounded).bind fun plan ⟨m, _, _, hplan⟩ => ?_
  subst hplan
  refine .ok ⟨⟨⟨?_, ?_, fun _ => rfl, fun _ => rfl, (fun i hi => by cases hi), ?_, ?_,
    (fun i hi => by cases hi)⟩, join_fields hl hr, ?_, ?_, ?_, fun hst => absurd rfl hst.2⟩,
    hsources⟩
  · exact hkw.trans (hsides.width_join _ _ _).symm
  · exact hsw.trans (hsides.width_join _ _ _).symm
  · rintro f ⟨⟩
  · exact fun i hi => Nat.lt_of_lt_of_eq (hsides.sort_lt h i hi) (hsides.width_join _ _ _).symm
  · rintro ⟨⟩
  · rintro l ⟨⟩
  · rintro f ⟨⟩

end JoinInputs

end StreamPlan

namespace StreamPlan.JoinInputs

variable {c : Converter} {catalog : Catalog} {n : Nat} {allowed : Fault → Prop} {j : JoinInputs}

/-- What holds of a left row of some width and lineage while the levels of a
right lineage are unrolled below it. -/
structure Merged.Reaches (merged : Merged) (catalog : Catalog) (width : Nat) (right : Lineage) :
    Prop where
  fields : ∃ fs, merged.rel.fields = .ok fs
  width_le : width ≤ merged.rel.width
  levels : ∀ level ∈ merged.lineage, level.FitsIn catalog merged.rel.width
  stands : ∀ pair ∈ merged.matching, Lineage.Stands merged.lineage right pair
  added : ∀ i ∈ merged.added, i < merged.rel.width

/-- A right level unrolled below the row: its columns come after all the others. -/
theorem Merged.Reaches.below {merged : Merged} {right : Lineage} {width position column : Nat}
    {level added : Level} {view : View} {needs : Requirements}
    (h : merged.Reaches c.catalog width right) (hlevel : right[position]? = some level)
    (hview : added.view = level.view)
    (hfits : added.FitsIn c.catalog (merged.rel.width + view.levelFields.length))
    (hkeys : view.ownKeys ≤ view.levelFields.length) :
    Merged.Reaches
      { rel := .unnest merged.rel column false view.levelFields
        lineage := merged.lineage ++ [added]
        needs
        matching := merged.matching ++ [(position, merged.lineage.length)]
        added := merged.added ++ List.range' merged.rel.width view.ownKeys }
      c.catalog width right := by
  obtain ⟨fs, hfs⟩ := h.fields
  refine ⟨⟨_, by rw [Rel.fields, hfs]; rfl⟩, ?_, ?_, ?_, ?_⟩
  · rw [Rel.width]
    exact Nat.le_trans h.width_le (Nat.le_add_right _ _)
  · intro l hl
    rw [Rel.width]
    rcases List.mem_append.1 hl with hl | hl
    · exact (h.levels l hl).mono (Nat.le_add_right _ _)
    · exact List.mem_singleton.1 hl ▸ hfits
  · intro pair hpair
    rcases List.mem_append.1 hpair with hpair | hpair
    · obtain ⟨l, r, hr, hl, hv⟩ := h.stands pair hpair
      exact ⟨l, r, hr, Catalog.getElem?_append_some hl, hv⟩
    · rw [List.mem_singleton.1 hpair]
      exact ⟨_, level, hlevel, List.getElem?_concat_length, hview⟩
  · intro i hi
    rw [Rel.width]
    rcases List.mem_append.1 hi with hi | hi
    · exact Nat.lt_of_lt_of_le (h.added i hi) (Nat.le_add_right _ _)
    · have := (List.mem_range'_1.1 hi).2
      omega

theorem mergeLevel_safe {merged : Merged} {right : Lineage} {width position : Nat} {level : Level}
    (h : merged.Reaches c.catalog width right) (hl : c.catalog.Linked)
    (hlevel : right[position]? = some level) (hfit : level.FitsIn c.catalog n) :
    Safe allowed (mergeLevel c merged level position) fun o =>
      ∀ out, o = some out → out.Reaches c.catalog width right := by
  unfold mergeLevel
  split
  · exact .ok (by rintro _ ⟨⟩)
  · rename_i parent hparent
    obtain ⟨p, -, hp⟩ := Option.bind_eq_some_iff.1 hparent
    obtain ⟨l, r, -, hparentAt, -⟩ := h.stands _ (mem_of_lookup hp)
    obtain ⟨view, hview, -, -⟩ := hfit.view
    have hlink := hl.view _ _ hview
    rw [show c.catalog.view level.view = .ok view from itemAt_eq_ok.2 hview, lift_ok, ok_bind]
    split
    · exact .ok (by rintro _ ⟨⟩)
    · rename_i column _
      refine (Safe.needing fun needs _ => trivial).bind fun needs _ => ?_
      have hlt : parent < merged.lineage.length := (List.getElem?_eq_some_iff.1 hparentAt).1
      have hadd : ∀ view join offset width keys, Lineage.addLevel merged.lineage parent view join
          offset width keys = .ok _ := fun _ _ _ _ _ => if_pos hlt
      rw [show itemAt merged.lineage parent = .ok l from itemAt_eq_ok.2 hparentAt, orFault_ok,
        ok_bind, hadd, lift_ok, ok_bind]
      refine .ok ?_
      rintro out ⟨⟩
      exact h.below hlevel rfl ⟨⟨view, hview, rfl, rfl⟩, hlink.ownKeys_le, Nat.le_refl _⟩
        hlink.ownKeys_le

theorem mergeLevels_safe {right : Lineage} {width : Nat} (hl : c.catalog.Linked)
    (levels : List (Level × Nat))
    (hlevels : ∀ level ∈ levels, right[level.2]? = some level.1 ∧ level.1.FitsIn c.catalog n) :
    ∀ {merged : Merged}, merged.Reaches c.catalog width right →
      Safe allowed (mergeLevels c merged levels) fun o =>
        ∀ out, o = some out → out.Reaches c.catalog width right := by
  induction levels with
  | nil =>
    intro merged h
    exact .ok (by rintro _ ⟨⟩; exact h)
  | cons level levels ih =>
    intro merged h
    obtain ⟨hat, hfit⟩ := hlevels level List.mem_cons_self
    unfold mergeLevels
    refine (mergeLevel_safe h hl hat hfit).bind fun o ho => ?_
    rcases o with _ | next
    · exact .ok (by rintro _ ⟨⟩)
    · exact ih (fun k hk => hlevels k (List.mem_cons_of_mem _ hk)) (ho next rfl)

/-- A column of the right row stands for one of the merged row. -/
theorem mergedColumn_lt {merged : Merged} {right : Lineage} {width column t : Nat}
    (h : merged.Reaches c.catalog width right)
    (hr : ∀ level ∈ right, level.FitsIn c.catalog n)
    (ht : mergedColumn merged right column = some t) : t < merged.rel.width := by
  unfold mergedColumn at ht
  obtain ⟨position, hpos, ht⟩ := Option.bind_eq_some_iff.1 ht
  obtain ⟨level, hlevel, ht⟩ := Option.bind_eq_some_iff.1 ht
  obtain ⟨q, hq, ht⟩ := Option.bind_eq_some_iff.1 ht
  obtain ⟨target, htarget, ht⟩ := Option.bind_eq_some_iff.1 ht
  cases ht
  obtain ⟨level', hlevel', hge, hlt⟩ := Lineage.owns_of_locate? hpos
  obtain rfl : level = level' := Option.some.inj (hlevel.symm.trans hlevel')
  obtain ⟨l, r, hr', hl', hview⟩ := h.stands _ (mem_of_lookup hq)
  obtain rfl : level = r := Option.some.inj (hlevel.symm.trans hr')
  obtain rfl : target = l := Option.some.inj (htarget.symm.trans hl')
  -- levels of one view are of one width
  have hfitL := h.levels target (List.mem_of_getElem? htarget)
  have hfitR := hr level (List.mem_of_getElem? hlevel)
  obtain ⟨v, hv, hvw, -⟩ := hfitL.view
  obtain ⟨w, hw, hww, -⟩ := hfitR.view
  rw [hview, hw] at hv
  cases hv
  have hstop := hfitL.stop_le
  rw [Level.stop] at hstop hlt
  omega

/-- The left plan over the merged row, with the right columns shown and the new keys added. -/
theorem Merged.Reaches.wellFormed {merged : Merged} {right : Lineage} {select key : ColumnMap}
    (h : merged.Reaches catalog j.left.width right) (hl : j.left.WellFormed catalog n)
    (hsw : select.width = merged.rel.width) (hkw : key.width = merged.rel.width)
    (hkts : key.targets = j.left.key.targets ++ merged.added) :
    Plan.WellFormed catalog n { j.left with
      rel := merged.rel
      needs := merged.needs
      lineage := some merged.lineage
      select, key } := by
  have hin : ∀ i < j.left.width, i < merged.rel.width :=
    fun i hi => Nat.lt_of_lt_of_le hi h.width_le
  refine ⟨⟨hkw, hsw, hl.stateTime, hl.stateNowFilter, fun i hi => hin i (hl.time i hi),
    hl.nowFilter, fun i hi => hin i (hl.sort i hi), fun i hi => hin i (hl.topN i hi)⟩,
    h.fields, ?_, ?_, hl.interval, hl.stale⟩
  · intro hk r hr
    change r ≤ key.sources
    have hle := hl.rootKeys hk r hr
    rw [ColumnMap.sources] at hle ⊢
    rw [hkts, List.length_append]
    omega
  · rintro l ⟨⟩
    exact h.levels

/-- **The plan of a merged row** shows the columns of both inputs. -/
theorem mergedPlan_safe {left right : Lineage} {matching : Lineage.Matching}
    (h : j.FitsIn c.catalog n) (hl : c.catalog.Linked)
    (hleft : j.left.lineage = some left) (hright : j.right.lineage = some right)
    (hm : ∀ pair ∈ matching, Lineage.Stands left right pair) :
    Safe allowed (j.mergedPlan c left right matching) fun o => ∀ out, o = some out →
      out.WellFormed c.catalog n ∧
        out.select.sources = j.left.select.sources + j.right.select.sources := by
  have hright' := h.right.lineage right hright
  unfold mergedPlan
  simp only
  split
  · exact .ok (by rintro _ ⟨⟩)
  · have hstart : (⟨j.left.rel, left, matching, j.needs, []⟩ : Merged).Reaches c.catalog
        j.left.width right :=
      ⟨h.left.fields, Nat.le_refl _, h.left.lineage left hleft, hm, by simp⟩
    have hlacking : ∀ level ∈ right.zipIdx.filter fun level => (matching.lookup level.2).isNone,
        right[level.2]? = some level.1 ∧ level.1.FitsIn c.catalog j.right.width := by
      intro level hmem
      have hat := List.mem_zipIdx_iff_getElem?.1 (List.mem_of_mem_filter hmem)
      exact ⟨hat, hright' _ (List.mem_of_getElem? hat)⟩
    refine (mergeLevels_safe hl _ hlacking hstart).bind fun o ho => ?_
    rcases o with _ | merged
    · exact .ok (by rintro _ ⟨⟩)
    · have hmerged := ho merged rfl
      have hmap := ColumnMap.tryRemap_gives (m := j.right.select) (w := merged.rel.width)
        (f := mergedColumn merged right) fun a _ t ht => mergedColumn_lt hmerged hright' ht
      refine (Safe.orFault hmap.bounded).bind fun o' ho' => ?_
      rcases o' with _ | rightSelect
      · exact .ok (by rintro _ ⟨⟩)
      · obtain ⟨hts, htw⟩ := ho' rightSelect rfl
        have hsel : j.left.select.width ≤ merged.rel.width := h.left.select ▸ hmerged.width_le
        have hkeyw : j.left.key.width ≤ merged.rel.width := h.left.key ▸ hmerged.width_le
        refine (Safe.lift (ColumnMap.extend_gives hsel fun t ht =>
          htw ▸ rightSelect.targets_lt t ht).bounded).bind fun select hselect => ?_
        obtain ⟨hsts, hsw⟩ := hselect
        refine (Safe.lift (ColumnMap.extend_gives hkeyw hmerged.added).bounded).bind
          fun key hkey => ?_
        obtain ⟨hkts, hkw⟩ := hkey
        refine .ok ?_
        rintro out ⟨⟩
        refine ⟨hmerged.wellFormed h.left hsw hkw hkts, ?_⟩
        change select.sources = _
        rw [ColumnMap.sources, hsts, List.length_append, ← hts.length_eq]
        rfl

/-- **The join of an entity with itself**, if the inputs fit, does not fault. -/
theorem selfJoin?_safe (h : j.FitsIn c.catalog n) (hl : c.catalog.Linked) :
    Safe allowed (j.selfJoin? c) fun o => ∀ out, o = some out →
      out.WellFormed c.catalog n ∧
        out.select.sources = j.left.select.sources + j.right.select.sources := by
  unfold selfJoin?
  split
  · rename_i left right hleft hright
    split
    · split
      · rename_i matching hmatch
        exact mergedPlan_safe h hl hleft hright (Lineage.match?_stands hmatch)
      · exact .ok (by rintro _ ⟨⟩)
    · exact .ok (by rintro _ ⟨⟩)
  · exact .ok (by rintro _ ⟨⟩)

end StreamPlan.JoinInputs

namespace StreamPlan.JoinInputs

variable {catalog : Catalog} {n : Nat} {allowed : Fault → Prop} {j : JoinInputs}

theorem readyStream_safe (stream : Plan) :
    Safe allowed (readyStream stream) fun out => stream.Settled out ∧ out.topN.isEmpty = true := by
  unfold readyStream
  split
  · rename_i he
    exact .ok ⟨.refl stream, he⟩
  · exact stream.withoutPending_safe.mono fun out ho => ⟨ho.1, ho.2.2⟩

/-- The timestamp of a stream is one of its candidates, and the one of its
now-filter. -/
theorem streamTime_gives {stream : Plan} (h : stream.Sound) :
    Gives (streamTime stream) fun time => (∀ i ∈ time.columns, i ∈ stream.time.columns) ∧
      ∀ f, stream.nowFilter = some f → f.timestamp ∈ time.columns := by
  unfold streamTime
  split
  · rename_i f hf
    have hmem := h.nowFilter f hf
    rw [if_pos (EventTime.isCandidate_iff.2 hmem)]
    refine (EventTime.fix_gives hmem).mono fun time ht => ?_
    rw [ht]
    refine ⟨fun i hi => List.mem_singleton.1 hi ▸ hmem, fun g hg => ?_⟩
    rw [hf] at hg
    cases hg
    exact List.mem_cons_self
  · rename_i hf
    refine EventTime.fixBest_gives.mono fun time ht => ⟨ht, fun g hg => ?_⟩
    rw [hf] at hg
    cases hg

/-- The visible columns of a join by time are those of both inputs. -/
theorem temporalSelect_gives {swapped : Bool} {stream table : Plan} (hs : stream.Sound)
    (ht : table.Sound) (hw : j.width = stream.width + table.width) :
    Gives (j.temporalSelect swapped stream table) fun select =>
      select.width = stream.width + table.width ∧
        select.sources = stream.select.sources + table.select.sources := by
  unfold temporalSelect
  split
  · refine (ColumnMap.of_gives fun t hmem => ?_).mono fun select hsel => ⟨hsel.2.trans hw, ?_⟩
    · rcases List.mem_append.1 hmem with hmem | hmem
      · obtain ⟨c, hc, rfl⟩ := List.mem_map.1 hmem
        have := ht.select_lt c hc
        omega
      · have := hs.select_lt t hmem
        omega
    · rw [ColumnMap.sources, hsel.1, List.length_append, List.length_map, Nat.add_comm]
      rfl
  · refine (ColumnMap.joinAt_gives (Nat.le_of_eq hs.select)).mono fun select hsel => ⟨?_, ?_⟩
    · rw [hsel.2, ht.select]
    · rw [ColumnMap.sources, hsel.1, List.length_append, List.length_map]
      rfl

/-- **The plan of a join by time** shows the columns of both inputs. -/
theorem temporalPlan_safe {sides : TemporalSides} (h : j.FitsIn catalog n) (hof : sides.Of j) :
    Safe allowed (j.temporalPlan sides) fun out =>
      out.WellFormed catalog n ∧
        out.select.sources = j.left.select.sources + j.right.select.sources := by
  have hsides : sides.stream.WellFormed catalog n ∧ sides.table.WellFormed catalog n ∧
      j.width = sides.stream.width + sides.table.width ∧
      sides.stream.select.sources + sides.table.select.sources
        = j.left.select.sources + j.right.select.sources := by
    rcases hof.roles with ⟨-, hs, ht, -⟩ | ⟨-, -, hs, ht, -⟩
    · rw [hs, ht]
      exact ⟨h.left, h.right, rfl, rfl⟩
    · rw [hs, ht]
      exact ⟨h.right, h.left, Nat.add_comm _ _, Nat.add_comm _ _⟩
  obtain ⟨hsw, htw, hwidth, hsources⟩ := hsides
  unfold temporalPlan
  refine (readyStream_safe sides.stream).bind fun stream ⟨hss, _⟩ => ?_
  refine sides.table.withoutPending_safe.bind fun table ⟨hts, _, _⟩ => ?_
  have hs := hss.wellFormed hsw
  have ht := hts.wellFormed htw
  have hw : j.width = stream.width + table.width := by
    rw [hwidth, ← show stream.width = sides.stream.width from hss.width,
      ← show table.width = sides.table.width from hts.width]
  refine (Plan.require_safe j.needs .temporalJoin).bind fun needs _ => ?_
  simp only
  refine (Safe.lift (streamTime_gives hs.toSound).bounded).bind fun time ⟨htime, hnow⟩ => ?_
  refine (Safe.lift (temporalSelect_gives hs.toSound ht.toSound hw).bounded).bind
    fun select ⟨hselw, hsels⟩ => ?_
  have hjoin : ∀ (kind : JoinKind) (condition : Expr) (hint : Option JoinHint),
      (Rel.join stream.rel table.rel kind condition hint).width = stream.width + table.width := by
    intro kind condition hint
    rw [Rel.width]
    rfl
  have hin : ∀ i < stream.width, i < stream.width + table.width := by intro i hi; omega
  refine (Safe.lift (Plan.ofRel_gives fun i hi => ?_).bounded).bind
    fun plan ⟨m, hmts, hmw, hplan⟩ => ?_
  · rw [hjoin]
    exact hin i (hs.key_lt i hi)
  subst hplan
  refine .ok ⟨⟨⟨hmw, ?_, (by rintro ⟨⟩), (by rintro ⟨⟩), ?_, hnow, ?_, (fun i hi => by cases hi)⟩,
    join_fields hs ht, ?_, ?_, hs.interval, fun hst => absurd rfl hst.2⟩, ?_⟩
  · exact hselw.trans (hjoin _ _ _).symm
  · intro i hi
    exact Nat.lt_of_lt_of_eq (hin i (hs.time i (htime i hi))) (hjoin _ _ _).symm
  · intro i hi
    refine Nat.lt_of_lt_of_eq ?_ (hjoin _ _ _).symm
    simp only at hi
    split at hi
    · rcases SortOrder.mem_columns_join.1 hi with hi | hi
      · rw [SortOrder.columns_shift] at hi
        obtain ⟨k, hk, rfl⟩ := List.mem_map.1 hi
        exact Nat.add_lt_add_left (ht.sort k hk) stream.width
      · exact hin i (hs.sort i hi)
    · exact joinedSort_lt hs.sort ht.sort i hi
  · rintro - k hk
    change k ≤ m.sources
    rw [ColumnMap.sources, hmts]
    exact hs.rootKeys (hss.kind.trans hof.stream) k hk
  · rintro l ⟨⟩
  · change select.sources = _
    rw [hsels, hss.select, hts.select, hsources]

/-- **The join by time**, if the inputs fit, does not fault. -/
theorem temporalJoin?_safe (h : j.FitsIn catalog n) :
    Safe allowed j.temporalJoin? fun o => ∀ out, o = some out →
      out.WellFormed catalog n ∧
        out.select.sources = j.left.select.sources + j.right.select.sources := by
  unfold temporalJoin?
  split
  · rename_i sides hsides
    refine (temporalPlan_safe h (temporalShape_eq_ok hsides).1).bind fun plan hplan => ?_
    exact .ok (by rintro _ ⟨⟩; exact hplan)
  · split
    · exact .refuse
    · exact .ok (by rintro _ ⟨⟩)

end StreamPlan.JoinInputs
