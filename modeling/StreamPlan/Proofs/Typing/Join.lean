import StreamPlan.Proofs.Lineage
import StreamPlan.Proofs.Plan.Join
import StreamPlan.Proofs.Typing.Plan

/-!
# Joins of regular plans

* `rows_of_join`: a joined row is a pair of rows, or a left row beside nulls.
* `Plan.Regular.join`: a join of the trees of regular plans, with timestamps of
  either side.
* `Plan.Regular.joined`: the plan of a join of regular plans is regular,
  whichever rule it comes from.
-/

namespace StreamPlan

variable {catalog : Catalog} {fixture : Fixture} {left right : Rel} {above : List Row} {row : Row}

/-- **A joined row** is a pair of rows, or a left row beside nulls. -/
theorem rows_of_join {kind : JoinKind} (hk : kind.keepsRight = false) {condition : Expr}
    {hint : Option JoinHint} (h : evaluate fixture (.join left right kind condition hint) = .ok above)
    (hr : row ∈ above) : ∃ ls rs, evaluate fixture left = .ok ls ∧ evaluate fixture right = .ok rs ∧
      ∃ l ∈ ls, (∃ r ∈ rs, row = l ++ r) ∨ row = l ++ padding right.width := by
  rw [evaluate] at h
  obtain ⟨ls, hls, h⟩ := bind_eq_ok.1 h
  obtain ⟨rs, hrs, h⟩ := bind_eq_ok.1 h
  exact ⟨ls, rs, hls, hrs, mem_of_joinRows hk h hr⟩

/-- A missing row has null everywhere. -/
theorem timed_padding {width i : Nat} (hi : i < width) : Row.Timed (padding width) i :=
  ⟨.null, by simp [padding, hi], .inl rfl⟩

namespace Plan

variable {l r out : Plan}

/-- **A join of the trees of regular plans**, with timestamps of either side. -/
theorem Regular.join {kind : JoinKind} (hk : kind.keepsRight = false) {condition : Expr}
    {hint : Option JoinHint} (hl : l.Regular catalog fixture) (hr : r.Regular catalog fixture)
    (hrel : out.rel = .join l.rel r.rel kind condition hint)
    (hright : ∀ i ∈ r.time.columns, i < r.width)
    (ht : ∀ i ∈ out.time.columns, i ∈ l.time.columns ∨ ∃ k ∈ r.time.columns, i = l.width + k)
    (hlineage : out.lineage = none) (hc : out.time.Coherent)
    (hs : catalog.PullsOne → out.nowFilter = none ∨ out.topN.isEmpty = true) :
    out.Regular catalog fixture := by
  have hrows : ∀ above, evaluate fixture out.rel = .ok above → ∀ row ∈ above, ∃ a b,
      row = a ++ b ∧ a.length = l.width ∧ b.length = r.width ∧
        (∀ i ∈ l.time.columns, Row.Timed a i) ∧ ∀ i ∈ r.time.columns, Row.Timed b i := by
    intro above ha row hrow
    rw [hrel] at ha
    obtain ⟨ls, rs, hls, hrs, a, hamem, hcase⟩ := rows_of_join hk ha hrow
    have hlen := hl.shaped ls hls a hamem
    have htimed := hl.timed ls hls a hamem
    -- a left row stands beside a partner or beside nulls, and a null may be a timestamp
    rcases hcase with ⟨b, hbmem, rfl⟩ | rfl
    · exact ⟨a, b, rfl, hlen, hr.shaped rs hrs b hbmem, htimed, hr.timed rs hrs b hbmem⟩
    · exact ⟨a, padding r.width, rfl, hlen, List.length_replicate, htimed,
        fun i hi => timed_padding (hright i hi)⟩
  refine ⟨?_, ?_, ?_, hc, hs⟩
  · intro above ha row hrow
    obtain ⟨a, b, rfl, hla, hlb, -⟩ := hrows above ha row hrow
    rw [List.length_append, hla, hlb, hrel, Rel.width]
    rfl
  · intro above ha row hrow i hi
    obtain ⟨a, b, rfl, hla, -, hta, htb⟩ := hrows above ha row hrow
    rcases ht i hi with hi | ⟨k, hk, rfl⟩
    · exact (hta i hi).append_left b
    · exact hla ▸ (htb k hk).append_right a
  · intro lineage hsome
    rw [hlineage] at hsome
    cases hsome

/-- A stream as it is joined is as regular as the stream. -/
theorem Regular.ready {plan out : Plan} (h : plan.Regular catalog fixture)
    (ho : JoinInputs.readyStream plan = .ok out) : out.Regular catalog fixture :=
  JoinInputs.readyStream_keeps h (fun _ => h.settle) ho

end Plan

namespace JoinInputs

variable {j : JoinInputs} {out : Plan}

section Rules

variable (hl : j.left.Regular catalog fixture) (hr : j.right.Regular catalog fixture)
include hl hr

theorem statePlan_regular (h : j.statePlan = .ok out) : out.Regular catalog fixture := by
  obtain ⟨left, right, hint, hleft, hright, -, hrel, htime, hnow, -, hlineage, -⟩ := statePlan_eq_ok h
  have hnone : out.time.columns = [] := by rw [htime]; rfl
  refine ⟨?_, ?_, ?_, htime ▸ EventTime.coherent_none, fun _ => .inl hnow⟩
  · intro above ha row hrow
    rw [hrel] at ha
    obtain ⟨ls, rs, hls, hrs, l, hlmem, hcase⟩ := rows_of_join j.keepsRight_plannedKind ha hrow
    have hlen := (hl.settle hleft).shaped ls hls l hlmem
    rw [hrel, Rel.width, ← hlen]
    rcases hcase with ⟨r, hrmem, rfl⟩ | rfl
    · rw [List.length_append, (hr.settle hright).shaped rs hrs r hrmem]
    · rw [List.length_append, padding, List.length_replicate]
  · intro above ha row hrow i hi
    rw [hnone] at hi
    cases hi
  · intro l hsome
    rw [hlineage] at hsome
    cases hsome

theorem intervalPlan_regular (hs : j.right.Sound) {window : ClosedWindow}
    (h : j.intervalPlan window = .ok out) : out.Regular catalog fixture := by
  obtain ⟨left, right, hint, hleft, hright, htime, -, hrel, hnow, -, hlineage, -⟩ :=
    intervalPlan_eq_ok h
  have hls := (Plan.withoutPending_settled hleft).1
  have hrs := (Plan.withoutPending_settled hright).1
  obtain ⟨hcolumns, hcoherent⟩ := intervalTime_columns htime
  refine (hl.settle hleft).join j.keepsRight_plannedKind (hr.settle hright) hrel
    (hrs.sound hs).time (fun i hi => ?_) hlineage hcoherent fun _ => .inl hnow
  rw [hls.time, hrs.time, show left.width = j.left.width from hls.width]
  rcases hcolumns with hcolumns | hcolumns
  · exact .inl (hcolumns i hi)
  · exact .inr (hcolumns i hi)

theorem temporalPlan_regular (hsl : j.left.Sound) (hsr : j.right.Sound) {sides : TemporalSides}
    (hof : sides.Of j) (h : j.temporalPlan sides = .ok out) : out.Regular catalog fixture := by
  obtain ⟨stream, table, hint, hstream, htable, htime, -, hrel, -, htopN, hlineage, -⟩ :=
    temporalPlan_eq_ok h
  obtain ⟨hstreamed, htabled⟩ := hof.both hl hr
  have htableSound := (hof.both hsl hsr).2
  obtain ⟨hcolumns, hcoherent⟩ := streamTime_columns htime
  refine (hstreamed.ready hstream).join j.keepsRight_plannedKind (htabled.settle htable) hrel
    ((Plan.withoutPending_settled htable).1.sound htableSound).time
    (fun i hi => .inl (hcolumns i hi)) hlineage hcoherent fun _ => .inr ?_
  rw [htopN]
  rfl

end Rules

variable {c : Converter}

/-- One more right level is a level below the one that its parent stands for. -/
theorem mergeLevel_below {right : Lineage} {width position : Nat}
    (hlinked : right.Linked c.catalog width) {state next : Merged} {level : Level}
    (hat : right[position]? = some level)
    (hstands : ∀ pair ∈ state.matching, Lineage.Stands state.lineage right pair)
    (h : mergeLevel c state level position = .ok (some next)) :
    ∃ p parent view column above, level.parent = some p ∧ state.matching.lookup p = some parent ∧
      c.catalog.views[level.view]? = some view ∧ state.lineage[parent]? = some above ∧
      view.place = .child above.view column ∧
      next.rel = .unnest state.rel (above.offset + column) false view.levelFields ∧
      next.lineage = state.lineage ++ [⟨level.view, some parent, .inner, state.rel.width,
        view.levelFields.length, view.ownKeys⟩] ∧
      next.matching = state.matching ++ [(position, state.lineage.length)] ∧
      next.added = state.added ++ List.range' state.rel.width view.ownKeys ∧
      state.needs.require .denormalize = .ok next.needs ∧
      ∀ pair ∈ next.matching, Lineage.Stands next.lineage right pair := by
  obtain ⟨p, parent, view, q, column, above, hp, hlookup, hview, hplace, habove, hrel, hlineage,
    hmatching, hadded, hneeds⟩ := mergeLevel_eq_ok h
  -- the level above on the left is of the view above on the right
  obtain ⟨aboveR, view', column', haboveR, hview', hplace'⟩ :=
    hlinked.above level (List.mem_of_getElem? hat) p hp
  obtain ⟨l, r, hr, hlat, hsame⟩ := hstands _ (mem_of_lookup hlookup)
  obtain rfl : view = view' := Option.some.inj (hview.symm.trans hview')
  obtain rfl : above = l := Option.some.inj (habove.symm.trans hlat)
  obtain rfl : aboveR = r := Option.some.inj (haboveR.symm.trans hr)
  rw [hplace] at hplace'
  cases hplace'
  exact ⟨p, parent, view, column, above, hp, hlookup, hview, habove, hsame.symm ▸ hplace, hrel,
    hlineage, hmatching, hadded, hneeds, mergeLevel_stands hat hstands h⟩

/-- Right levels that are unrolled below a left row keep it an unrolled entity. -/
theorem mergeLevels_unrolls (hl : c.catalog.Linked) {right : Lineage} {width : Nat}
    (hlinked : right.Linked c.catalog width) {times : List Nat} {levels : List (Level × Nat)}
    (hlevels : ∀ level ∈ levels, right[level.2]? = some level.1) {state merged : Merged}
    (h : Unrolls c.catalog fixture times state.rel state.lineage)
    (hstands : ∀ pair ∈ state.matching, Lineage.Stands state.lineage right pair)
    (hm : mergeLevels c state levels = .ok (some merged)) :
    Unrolls c.catalog fixture times merged.rel merged.lineage := by
  refine (mergeLevels_keeps (I := fun state => Unrolls c.catalog fixture times state.rel state.lineage ∧
    ∀ pair ∈ state.matching, Lineage.Stands state.lineage right pair) ?_ ⟨h, hstands⟩ hm).1
  rintro state next level hmem ⟨h, hstands⟩ hnext
  obtain ⟨p, parent, view, column, above, -, -, hview, habove, hplace, hrel, hlineage, -, -, -, hnext⟩ :=
    mergeLevel_below hlinked (hlevels level hmem) hstands hnext
  refine ⟨?_, hnext⟩
  rw [hrel, hlineage]
  exact h.addLevel hl hview rfl rfl habove hplace

theorem selfJoin?_regular (hc : c.catalog.Linked) (hl : j.left.Regular c.catalog fixture)
    (hr : j.right.Regular c.catalog fixture) (h : j.selfJoin? c = .ok (some out)) :
    out.Regular c.catalog fixture := by
  obtain ⟨left, right, matching, hleft, hright, hmay, hmatch, hplan⟩ := selfJoin?_eq_ok h
  obtain ⟨merged, shown, select, key, -, hmerged, -, -, -, rfl⟩ := mergedPlan_eq_ok hplan
  have hmatching := Lineage.match?_stands hmatch
  have hunrolls := mergeLevels_unrolls hc (hr.lineage right hright).linked
    (fun level hmem => (mem_lackingLevels.1 hmem).1) (hl.lineage left hleft) hmatching hmerged
  refine ⟨hunrolls.shaped, hunrolls.timed, ?_, hl.coherent, hl.single⟩
  rintro l ⟨⟩
  exact hunrolls

end JoinInputs

/-- **The plan of a join** of regular plans is regular. -/
theorem Plan.Regular.joined {c : Converter} {left right out : Plan} {kind : JoinKind}
    {condition : Expr} {j : JoinInputs} (hc : c.catalog.Linked) (hsl : left.Sound)
    (hsr : right.Sound) (hl : left.Regular c.catalog fixture) (hr : right.Regular c.catalog fixture)
    (hj : JoinInputs.of left right kind condition = .ok j) (ho : c.joined j = .ok out) :
    out.Regular c.catalog fixture := by
  obtain ⟨rfl, rfl, -⟩ := JoinInputs.of_eq_ok hj
  rcases Converter.joined_eq_ok ho with h | h | h | h
  · exact JoinInputs.selfJoin?_regular hc hl hr (Converter.attempt_eq_ok h)
  · obtain ⟨sides, hshape, hplan⟩ := JoinInputs.temporalJoin?_eq_ok (Converter.attempt_eq_ok h)
    exact JoinInputs.temporalPlan_regular hl hr hsl hsr (JoinInputs.temporalShape_eq_ok hshape).1 hplan
  · obtain ⟨window, -, hplan⟩ := JoinInputs.intervalJoin?_eq_ok (Converter.attempt_eq_ok h)
    exact JoinInputs.intervalPlan_regular hl hr hsr hplan
  · exact JoinInputs.statePlan_regular hl hr h

end StreamPlan
