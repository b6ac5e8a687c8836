import StreamPlan.Proofs.Plan.Aggregate
import StreamPlan.Proofs.Safety.Project

/-!
# Aggregations do not fault

`Plan.aggregated_safe`: over a well-formed plan and columns that exist,
whichever aggregation is chosen gives a well-formed plan.
-/

namespace StreamPlan

namespace Plan

variable {catalog : Catalog} {n : Nat} {allowed : Fault → Prop} {plan : Plan}

/-- **A grouped tree** with the columns of a layout, and nothing else known about it. -/
theorem groupedAs_gives {kind : TableKind} {keys hidden : List Nat} {calls : List AggregateCall}
    {hint : Option AggregateHint} (h : plan.WellFormed catalog n) (hk : ∀ i ∈ keys, i < plan.width)
    (hh : ∀ i ∈ hidden, i < plan.width) :
    Gives (plan.groupedAs kind (.of keys hidden calls.length) calls hint) fun out =>
      ∃ rel key select, out = { bare rel kind key plan.needs with select } ∧
        rel.width = (GroupLayout.of keys hidden calls.length).keys.length + calls.length ∧
        (∃ fs, rel.fields = .ok fs) ∧ key.width = rel.width ∧ select.width = rel.width ∧
        key.targets = (GroupLayout.of keys hidden calls.length).key ∧
        select.targets = (GroupLayout.of keys hidden calls.length).select := by
  refine (groupedAs_bare plan kind keys hidden calls hint).mono ?_
  rintro _ ⟨_, key, select, rfl, rfl, hw, hkw, hsw, hkts, hsts⟩
  refine ⟨_, key, select, rfl, hw, ?_, hkw, hsw, hkts, hsts⟩
  obtain ⟨fs, hfs, hlen⟩ := h.fields_gives
  have hkeys : ∀ i ∈ (GroupLayout.of keys hidden calls.length).keys, i < fs.length := fun i hi =>
    hlen ▸ (GroupLayout.mem_of_keys.1 hi).elim (hk i) (hh i)
  obtain ⟨ks, hks, -⟩ := Gives.mapM fun i hi => Gives.itemAt (hkeys i hi)
  refine ⟨ks ++ calls.map AggregateCall.field, ?_⟩
  rw [Rel.fields]
  exact bind_eq_ok.2 ⟨fs, hfs, bind_eq_ok.2 ⟨ks, hks, rfl⟩⟩

/-- A grouped tree whose groups have a timestamp, with the output that it becomes. -/
theorem timedGroups_gives {kind : TableKind} {keys hidden : List Nat} {calls : List AggregateCall}
    {hint : Option AggregateHint} {timestamp : Nat} (h : plan.WellFormed catalog n)
    (hk : ∀ i ∈ keys, i < plan.width) (hh : ∀ i ∈ hidden, i < plan.width)
    (ht : timestamp ∈ keys ∨ timestamp ∈ hidden) :
    Gives (plan.groupedAs kind (.of keys hidden calls.length) calls hint) fun out =>
      ∃ rel key select p, out = { bare rel kind key plan.needs with select } ∧
        (∃ fs, rel.fields = .ok fs) ∧ key.width = rel.width ∧ select.width = rel.width ∧
        (GroupLayout.of keys hidden calls.length).position? timestamp = some p ∧ p < rel.width ∧
        key.targets = (GroupLayout.of keys hidden calls.length).key ∧
        select.sources = keys.length + calls.length := by
  refine (groupedAs_gives h hk hh).mono ?_
  rintro _ ⟨rel, key, select, rfl, hw, hf, hkw, hsw, hkts, hsts⟩
  obtain ⟨p, hp, hlt⟩ := @GroupLayout.position?_of_mem keys hidden calls.length timestamp ht
  refine ⟨rel, key, select, p, rfl, hf, hkw, hsw, hp, ?_, hkts, ?_⟩
  · exact hw ▸ Nat.lt_of_lt_of_le hlt (Nat.le_add_right _ _)
  · rw [ColumnMap.sources, hsts, GroupLayout.length_of_select]

/-- A plan of a tree with one timestamp and a pending constraint that is about it. -/
theorem wellFormed_of_bare {rel : Rel} {kind : TableKind} {key select : ColumnMap}
    {needs : Requirements} {time : EventTime} {nowFilter : Option NowFilter} {topN : TopN}
    {rootKeys : Option Nat} (hf : ∃ fs, rel.fields = .ok fs) (hk : key.width = rel.width)
    (hs : select.width = rel.width) (hst : kind = .state → time.columns = [] ∧ nowFilter = none)
    (ht : ∀ i ∈ time.columns, i < rel.width)
    (hn : ∀ f, nowFilter = some f → f.timestamp ∈ time.columns ∧ f.interval.natAbs ≤ n)
    (htop : ∀ i ∈ topN.columns, i < rel.width) (hstale : ¬ topN.Stale)
    (hr : ∀ k, rootKeys = some k → k ≤ key.sources) :
    ({ bare rel kind key needs with select, time, nowFilter, topN, rootKeys } : Plan).WellFormed
      catalog n :=
  ⟨⟨hk, hs, fun h => (hst h).1, fun h => (hst h).2, ht, fun f hf => (hn f hf).1,
    (fun i hi => by cases hi), htop⟩, hf, fun _ => hr, (fun l hl => by cases hl),
    fun f hf => (hn f hf).2, fun h => absurd h hstale⟩

theorem not_stale_none : ¬ TopN.none.Stale := fun h => h.2 rfl

/-- The now-filter that goes over an aggregation is about the timestamp it groups by. -/
theorem carryOver_safe {timestamp : Nat} (h : plan.WellFormed catalog n) :
    Safe allowed (plan.carryOver timestamp) fun out =>
      plan.Settled out.1 ∧ ∀ f, out.2 = some f →
        f.timestamp = timestamp ∧ f.interval.natAbs ≤ n := by
  unfold carryOver
  split
  · exact .ok ⟨.refl plan, by rintro f ⟨⟩⟩
  · rename_i filter hf
    split
    · rename_i hts
      refine .ok ⟨⟨rfl, rfl, rfl, rfl, rfl, rfl, rfl, rfl, rfl, rfl, .inl rfl, .inr rfl⟩, ?_⟩
      rintro f ⟨⟩
      exact ⟨hts, h.interval filter hf⟩
    · refine plan.withoutNowFilter_safe.bind fun out ⟨hs, _, _⟩ => ?_
      exact .ok ⟨hs, by rintro f ⟨⟩⟩

/-- The now-filter above an aggregation is about the output that the timestamp becomes. -/
theorem carried_remap {nowFilter : Option NowFilter} {timestamp p : Nat} {f : NowFilter}
    {position : Nat → Option Nat}
    (hn : ∀ g, nowFilter = some g → g.timestamp = timestamp ∧ g.interval.natAbs ≤ n)
    (hp : position timestamp = some p) (hf : nowFilter.bind (·.remap position) = some f) :
    f.timestamp ∈ (EventTime.single p .source).columns ∧ f.interval.natAbs ≤ n := by
  obtain ⟨g, hg, hf⟩ := Option.bind_eq_some_iff.1 hf
  obtain ⟨q, hq, rfl⟩ := Option.map_eq_some_iff.1 hf
  obtain ⟨hts, hi⟩ := hn g hg
  rw [hts, hp] at hq
  cases hq
  exact ⟨List.mem_cons_self, hi⟩

/-- What every aggregation gives. -/
def Aggregates (catalog : Catalog) (n : Nat) (keys : List Nat) (calls : List AggregateCall)
    (out : Plan) : Prop :=
  out.WellFormed catalog n ∧ out.select.sources = keys.length + calls.length

theorem tumbling_safe {keys : List Nat} {calls : List AggregateCall} {timestamp : Nat}
    (h : plan.WellFormed catalog n) (hk : ∀ i ∈ keys, i < plan.width) (ht : timestamp ∈ keys) :
    Safe allowed (plan.tumbling keys calls timestamp) (Aggregates catalog n keys calls) := by
  unfold tumbling
  refine (require_safe plan.needs .windowAggregate).bind fun needs _ => ?_
  simp only
  refine (carryOver_safe (h.withNeeds needs)).bind fun ⟨below, nowFilter⟩ ⟨hs, hn⟩ => ?_
  simp only at hs hn ⊢
  have hb := hs.wellFormed (h.withNeeds needs)
  have hkb : ∀ i ∈ keys, i < below.width := fun i hi => Nat.lt_of_lt_of_eq (hk i hi) hs.width.symm
  refine (Safe.lift (timedGroups_gives hb hkb (by simp) (.inl ht)).bounded).bind
    fun grouped hgrouped => ?_
  obtain ⟨rel, key, select, p, rfl, hf, hkw, hsw, hp, hlt, -, hsources⟩ := hgrouped
  rw [hp, Option.getD_some]
  refine .ok ⟨wellFormed_of_bare hf hkw hsw (by rintro ⟨⟩) ?_ ?_ (fun i hi => by cases hi)
    not_stale_none (by rintro k ⟨⟩), hsources⟩
  · exact fun i hi => List.mem_singleton.1 hi ▸ hlt
  · exact fun f hf' => carried_remap hn hp hf'

/-- A quotient by a positive number fits if the dividend does. -/
theorem fits_tdiv {x y : Int} (hx : Millis.Fits x) (hy : 0 < y) : Millis.Fits (x.tdiv y) := by
  have hle := Int.natAbs_tdiv_le_natAbs x y
  unfold Millis.Fits Millis.least Millis.greatest at hx ⊢
  rcases Int.le_total 0 x with hpos | hneg
  · have hquotient := Int.tdiv_nonneg hpos (Int.le_of_lt hy)
    omega
  · have hquotient := Int.tdiv_nonneg (Int.neg_nonneg_of_nonpos hneg) (Int.le_of_lt hy)
    rw [Int.neg_tdiv] at hquotient
    omega

theorem slideOf_safe {window : Int} {panes : Nat}
    (hl : ¬Millis.Fits window → allowed .arithmeticOverflow) :
    Safe allowed (slideOf window panes) fun _ => True := by
  unfold slideOf
  have hquotient : Bounded allowed (Millis.quotient window (max (panes : Int) 1)) fun _ => True := by
    unfold Millis.quotient
    have hpos : 0 < max (panes : Int) 1 := by omega
    rw [if_neg (by omega), Millis.checked]
    by_cases hfits : Millis.Fits window
    · rw [if_pos (fits_tdiv hfits hpos)]
      exact .ok trivial
    · refine ⟨fun fault he => ?_, fun _ _ => trivial⟩
      split at he
      · cases he
      · cases he
        exact hl hfits
  refine (Safe.orFault hquotient).bind fun slide _ => ?_
  split
  · exact .refuse
  · exact .ok trivial

theorem sliding_safe {keys : List Nat} {calls : List AggregateCall} {filter : NowFilter}
    {panes : Nat} (h : plan.WellFormed catalog n) (hk : ∀ i ∈ keys, i < plan.width)
    (hf : plan.nowFilter = some filter)
    (hl : ¬Millis.Fits filter.interval → allowed .arithmeticOverflow) :
    Safe allowed (plan.sliding keys calls filter panes) (Aggregates catalog n keys calls) := by
  unfold sliding
  refine (slideOf_safe hl).bind fun slide _ => ?_
  refine (require_safe plan.needs .windowAggregate).bind fun needs _ => ?_
  simp only
  have hts : filter.timestamp < plan.width := h.time _ (h.nowFilter filter hf)
  have hhidden : ∀ i ∈ [filter.timestamp], i < plan.width :=
    fun i hi => List.mem_singleton.1 hi ▸ hts
  refine (Safe.lift (timedGroups_gives (h.withNeeds needs) hk hhidden
    (.inr List.mem_cons_self)).bounded).bind fun grouped hgrouped => ?_
  obtain ⟨rel, key, select, p, rfl, hrf, hkw, hsw, hp, hlt, hkts, hsources⟩ := hgrouped
  rw [hp, Option.getD_some]
  refine .ok ⟨wellFormed_of_bare hrf hkw hsw (by rintro ⟨⟩) ?_ (by rintro f ⟨⟩) ?_
    (by simp [TopN.Stale, TopN.isEmpty, TopN.latestPerKey]) (by rintro k ⟨⟩), hsources⟩
  · exact fun i hi => List.mem_singleton.1 hi ▸ hlt
  · intro i hi
    rcases List.mem_append.1 hi with hi | hi
    · exact hkw ▸ key.targets_lt i (hkts ▸ hi)
    · exact List.mem_singleton.1 hi ▸ hlt

theorem byRootKey_safe {keys : List Nat} {calls : List AggregateCall}
    (h : plan.WellFormed catalog n) (hk : ∀ i ∈ keys, i < plan.width)
    (ht : plan.time.hasCandidates = true) :
    Safe allowed (plan.byRootKey keys calls) (Aggregates catalog n keys calls) := by
  unfold byRootKey
  refine (require_safe plan.needs .directWrite).bind fun needs _ => ?_
  simp only
  have hlead : plan.leadingTime < plan.width := h.time _ (leadingTime_mem h.toSound ht)
  rw [show ({ plan with needs } : Plan).leadingTime = plan.leadingTime from rfl]
  refine (carryOver_safe (h.withNeeds needs)).bind fun ⟨below, nowFilter⟩ ⟨hs, hn⟩ => ?_
  simp only at hs hn ⊢
  have hb := hs.wellFormed (h.withNeeds needs)
  have hkb : ∀ i ∈ keys, i < below.width := fun i hi => Nat.lt_of_lt_of_eq (hk i hi) hs.width.symm
  have hhb : ∀ i ∈ [plan.leadingTime], i < below.width :=
    fun i hi => List.mem_singleton.1 hi ▸ Nat.lt_of_lt_of_eq hlead hs.width.symm
  refine (Safe.lift (timedGroups_gives hb hkb hhb (.inr List.mem_cons_self)).bounded).bind
    fun grouped hgrouped => ?_
  obtain ⟨rel, key, select, p, rfl, hf, hkw, hsw, hp, hlt, hkts, hsources⟩ := hgrouped
  rw [hp, Option.getD_some]
  refine .ok ⟨wellFormed_of_bare hf hkw hsw (by rintro ⟨⟩) ?_ ?_ (fun i hi => by cases hi)
    not_stale_none ?_, hsources⟩
  · exact fun i hi => List.mem_singleton.1 hi ▸ hlt
  · exact fun f hf' => carried_remap hn hp hf'
  · rintro k ⟨⟩
    change _ ≤ key.targets.length
    exact Nat.le_of_eq (by rw [hkts, GroupLayout.length_of_key])

theorem running_safe {keys : List Nat} {calls : List AggregateCall}
    (h : plan.WellFormed catalog n) (hk : ∀ i ∈ keys, i < plan.width)
    (ht : plan.time.hasCandidates = true) :
    Safe allowed (plan.running keys calls) (Aggregates catalog n keys calls) := by
  unfold running
  refine (require_safe plan.needs .windowAggregate).bind fun needs _ => ?_
  simp only
  have hlead : plan.leadingTime < plan.width := h.time _ (leadingTime_mem h.toSound ht)
  rw [show ({ plan with needs } : Plan).leadingTime = plan.leadingTime from rfl]
  refine (withoutNowFilter_safe _).bind fun below ⟨hs, _, _⟩ => ?_
  have hb := hs.wellFormed (h.withNeeds needs)
  refine (Safe.lift hb.fields_gives.bounded).bind fun fields hlen => ?_
  have hshown : Gives ((keys ++ [plan.leadingTime]).mapM (Output.column · fields)) fun out =>
      out.length = keys.length + 1 := by
    refine (Gives.mapM (R := fun _ _ => True) fun c hc => ?_).mono fun out hf => ?_
    · have hlt : c < fields.length := by
        rw [hlen, show below.width = plan.width from hs.width]
        rcases List.mem_append.1 hc with hc | hc
        · exact hk c hc
        · exact List.mem_singleton.1 hc ▸ hlead
      exact (Gives.itemAt hlt).bind fun _ _ => .ok trivial
    · rw [← hf.length_eq, List.length_append, List.length_singleton]
  refine (Safe.orFault hshown.bounded).bind fun shown hshownLen => ?_
  -- the key columns and the timestamp come first, then one window for each call
  generalize hwindows : calls.map (fun call => Output.named
    (.window call keys [⟨plan.leadingTime, .ascending⟩]) call.name fields) = windows
  have hwlen : windows.length = calls.length := by rw [← hwindows, List.length_map]
  have hwidth : (Rel.project below.rel (shown ++ windows) none).width
      = keys.length + 1 + calls.length := by
    rw [Rel.width, List.length_append, hshownLen, hwlen]
  refine (Safe.lift (ofRel_gives fun i hi => ?_).bounded).bind fun plan' ⟨key, _, hkw, hplan⟩ => ?_
  · rw [hwidth]
    have := List.mem_range.1 hi
    omega
  subst hplan
  refine (Safe.lift (ColumnMap.of_gives fun i hi => ?_).bounded).bind fun select ⟨hsts, hsw⟩ => ?_
  · rcases List.mem_append.1 hi with hi | hi
    · have := List.mem_range.1 hi
      omega
    · have := (List.mem_range'_1.1 hi).2
      omega
  refine .ok ⟨wellFormed_of_bare ⟨_, by rw [Rel.fields]⟩ hkw (hsw.trans hwidth.symm)
    (by rintro ⟨⟩) ?_ (by rintro f ⟨⟩) (fun i hi => by cases hi) not_stale_none
    (by rintro k ⟨⟩), ?_⟩
  · intro i hi
    rw [show i = keys.length from List.mem_singleton.1 hi, hwidth]
    omega
  · change select.sources = _
    rw [ColumnMap.sources, hsts, List.length_append, List.length_range, List.length_range']

theorem plain_safe {keys : List Nat} {calls : List AggregateCall}
    (h : plan.WellFormed catalog n) (hk : ∀ i ∈ keys, i < plan.width) :
    Safe allowed (plan.plain keys calls) (Aggregates catalog n keys calls) := by
  unfold plain
  refine plan.withoutPending_safe.bind fun below ⟨hs, _, _⟩ => ?_
  have hb := hs.wellFormed h
  have hkb : ∀ i ∈ keys, i < below.width := fun i hi => Nat.lt_of_lt_of_eq (hk i hi) hs.width.symm
  refine (Safe.lift (groupedAs_gives hb hkb (by simp)).bounded).mono fun grouped hgrouped => ?_
  obtain ⟨rel, key, select, rfl, hw, hf, hkw, hsw, hkts, hsts⟩ := hgrouped
  refine ⟨wellFormed_of_bare hf hkw hsw (fun _ => ⟨rfl, rfl⟩) (fun i hi => by cases hi)
    (by rintro f ⟨⟩) (fun i hi => by cases hi) not_stale_none (by rintro k ⟨⟩), ?_⟩
  change select.sources = _
  rw [ColumnMap.sources, hsts, GroupLayout.length_of_select]

theorem streamAggregate?_safe {c : Converter} {keys : List Nat} {calls : List AggregateCall}
    (h : plan.WellFormed catalog n) (hk : ∀ i ∈ keys, i < plan.width)
    (hl : ∀ f, plan.nowFilter = some f → ¬Millis.Fits f.interval → allowed .arithmeticOverflow) :
    Safe allowed (streamAggregate? c plan keys calls) fun o => ∀ out, o = some out →
      Aggregates catalog n keys calls out := by
  have hsome : ∀ {x : Planning Plan}, Safe allowed x (Aggregates catalog n keys calls) →
      Safe allowed (some <$> x) fun o => ∀ out, o = some out → Aggregates catalog n keys calls out :=
    fun hx => hx.bind fun plan hp => .ok (by rintro _ ⟨⟩; exact hp)
  unfold streamAggregate?
  split
  · rename_i timestamp hts
    have hmem : timestamp ∈ keys.filter plan.time.isCandidate := hts ▸ List.mem_cons_self
    exact hsome (tumbling_safe h hk (List.mem_of_mem_filter hmem))
  · split
    · rename_i filter hf
      have hpending := (Option.filter_eq_some_iff.1 hf).1
      exact hsome (sliding_safe h hk hpending (hl filter hpending))
    · split
      · rename_i hroot
        refine hsome (byRootKey_safe h hk ?_)
        unfold groupsByRootKey at hroot
        split at hroot
        · cases hroot
        · simp only [Bool.and_eq_true] at hroot
          exact hroot.1.1.1.2
      · exact .ok (by rintro _ ⟨⟩)
  · exact .refuse

/-- **The plan of an aggregation** of columns that exist. -/
theorem aggregated_safe {c : Converter} {keys : List Nat} {calls : List AggregateCall}
    (h : plan.WellFormed catalog n) (hk : ∀ i ∈ keys, i < plan.select.sources)
    (hc : ∀ call ∈ calls, ∀ i ∈ call.columns, i < plan.select.sources)
    (hl : ∀ f, plan.nowFilter = some f → ¬Millis.Fits f.interval → allowed .arithmeticOverflow) :
    Safe allowed (plan.aggregated c keys calls) fun out =>
      out.WellFormed catalog n ∧ out.select.sources = keys.length + calls.length := by
  unfold aggregated
  refine plan.withoutTopN_safe.bind fun base ⟨hs, _, hnow⟩ => ?_
  have hb := hs.wellFormed h
  have hunsorted : ({ base with sort := [] } : Plan).WellFormed catalog n :=
    ⟨⟨hb.key, hb.select, hb.stateTime, hb.stateNowFilter, hb.time, hb.nowFilter,
      (fun i hi => by cases hi), hb.topN⟩, hb.fields, hb.rootKeys, hb.lineage, hb.interval, hb.stale⟩
  have hkb : ∀ i ∈ keys, i < base.select.sources := by rw [hs.select]; exact hk
  refine (Safe.orFault (hunsorted.columns_gives hkb).bounded).bind fun moved ⟨hmlt, hmlen⟩ => ?_
  have hcalls : Gives (calls.mapM (·.remap base.select.apply)) fun out => out.length = calls.length := by
    refine (Gives.mapM (R := fun _ _ => True) fun call hcall => ?_).mono fun out hf =>
      hf.length_eq.symm
    refine (AggregateCall.remap_gives (P := fun _ => True) fun i hi => ?_).mono fun _ _ => trivial
    refine (hb.apply_gives ?_).mono fun _ _ => trivial
    rw [hs.select]
    exact hc call hcall i hi
  refine (Safe.orFault hcalls.bounded).bind fun movedCalls hclen => ?_
  refine (Safe.needing fun needs _ => trivial).bind fun needs _ => ?_
  have hn := hunsorted.withNeeds needs
  have hwidth : ∀ out, Aggregates catalog n moved movedCalls out →
      out.WellFormed catalog n ∧ out.select.sources = keys.length + calls.length :=
    fun out ho => ⟨ho.1, by rw [ho.2, hmlen, hclen]⟩
  simp only
  have hspecial : Safe allowed (special? c { base with sort := [], needs } moved movedCalls) fun o =>
      ∀ out, o = some out → Aggregates catalog n moved movedCalls out := by
    unfold special?
    split
    · exact streamAggregate?_safe hn hmlt fun f hf => hl f (hnow.symm.trans hf)
    · exact .ok (by rintro _ ⟨⟩)
  refine hspecial.bind fun o ho => ?_
  rcases o with _ | grouped
  · simp only
    split
    · rename_i hmay
      unfold mayRun at hmay
      simp only [Bool.and_eq_true] at hmay
      exact (running_safe hn hmlt hmay.1.1.2).mono hwidth
    · exact (plain_safe hn hmlt).mono hwidth
  · exact .ok (hwidth grouped (ho grouped rfl))

end Plan

end StreamPlan
