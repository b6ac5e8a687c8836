import StreamPlan.Proofs.Plan.Ranking
import StreamPlan.Proofs.Safety.Project

/-!
# Rankings do not fault

Over a well-formed plan and columns that exist, the plan of a ranking is well
formed and shows the columns of the ranking (`Plan.ranked_safe`).
-/

namespace StreamPlan.Plan

variable {catalog : Catalog} {n : Nat} {allowed : Fault → Prop} {plan : Plan}

/-- A ranking about columns of a plan and about one of its timestamps. One that
makes a key keeps its rows apart. -/
structure Ranking.FitsIn (ranking : Ranking) (plan : Plan) : Prop where
  columns : ∀ i ∈ ranking.constraint.columns, i < plan.width
  key : ∀ k, ranking.key = some k → (∀ i ∈ k, i < plan.width) ∧
    (ranking.constraint.partition ≠ [] ∨ ranking.constraint.distinct = true)
  timestamp : ∀ c, ranking.timestamp = some c → c ∈ plan.time.columns
  source : ranking.constraint.source = plan.kind

theorem rankingTopN_fitsIn {partition : List Nat} {order : SortOrder} {limit : Option Nat}
    (hp : ∀ i ∈ partition, i < plan.width) (ho : ∀ i ∈ SortOrder.columns order, i < plan.width) :
    (plan.rankingTopN partition order limit).FitsIn plan := by
  unfold rankingTopN
  simp only
  refine ⟨?_, ?_, ?_, rfl⟩
  · intro i hi
    rcases List.mem_append.1 hi with hi | hi
    · exact hp i hi
    · exact ho i hi
  · intro k hk
    by_cases hkeyed : (limit == some 1 && !partition.isEmpty) = true
    · rw [if_pos hkeyed] at hk
      cases hk
      simp only [Bool.and_eq_true, Bool.not_eq_true', List.isEmpty_eq_false_iff] at hkeyed
      exact ⟨hp, .inl hkeyed.2⟩
    · rw [if_neg hkeyed] at hk
      cases hk
  · intro c hc
    simp only at hc
    split at hc
    · exact (latestFirst_eq_some hc).2
    · cases hc

theorem rankingDistinct_fitsIn {partition visible : List Nat}
    (hp : ∀ i ∈ partition, i < plan.width) (hv : ∀ i ∈ visible, i < plan.width)
    (ht : ∀ i ∈ plan.time.columns, i < plan.width) :
    (plan.rankingDistinct partition visible).FitsIn plan := by
  have hpart : ∀ i ∈ (if partition.isEmpty then visible else partition), i < plan.width := by
    split
    · exact hv
    · exact hp
  unfold rankingDistinct
  refine ⟨?_, ?_, fun c hc => EventTime.bestColumn?_mem hc, rfl⟩
  · intro i hi
    rcases List.mem_append.1 hi with hi | hi
    · exact hpart i hi
    · simp only [SortOrder.columns, List.map_map, List.mem_map, Option.mem_toList] at hi
      obtain ⟨c, hc, rfl⟩ := hi
      exact ht c (EventTime.bestColumn?_mem hc)
  · rintro k ⟨⟩
    exact ⟨hpart, .inr rfl⟩

theorem rankingDistinctOn_fitsIn {partition : List Nat} {order : SortOrder} {ranking : Ranking}
    (hp : ∀ i ∈ partition, i < plan.width) (ho : ∀ i ∈ SortOrder.columns order, i < plan.width)
    (h : plan.rankingDistinctOn partition order = .ok ranking) : ranking.FitsIn plan := by
  unfold rankingDistinctOn at h
  split at h
  · cases h
  · split at h
    · cases h
    · split at h
      · cases h
      · rename_i latest hl
        cases h
        refine ⟨?_, ?_, ?_, rfl⟩
        · intro i hi
          rcases List.mem_append.1 hi with hi | hi
          · exact hp i hi
          · exact ho i hi
        · rintro k ⟨⟩
          exact ⟨hp, .inr rfl⟩
        · rintro c ⟨⟩
          exact (latestFirst_eq_some hl).2

/-- **What a ranking turns into** is about columns of the plan. -/
theorem ranking_fitsIn {kind : RankingKind} {partition visible : List Nat} {order : SortOrder}
    {limit : Option Nat} {ranking : Ranking} (hp : ∀ i ∈ partition, i < plan.width)
    (hv : ∀ i ∈ visible, i < plan.width) (ho : ∀ i ∈ SortOrder.columns order, i < plan.width)
    (ht : ∀ i ∈ plan.time.columns, i < plan.width)
    (h : plan.ranking kind partition visible order limit = .ok ranking) : ranking.FitsIn plan := by
  unfold Plan.ranking at h
  split at h
  · cases h; exact rankingTopN_fitsIn hp ho
  · cases h; exact rankingDistinct_fitsIn hp hv ht
  · exact rankingDistinctOn_fitsIn hp ho h

theorem rankedKey_gives {ranking : Ranking} (h : plan.WellFormed catalog n)
    (hr : ranking.FitsIn plan) :
    Gives (plan.rankedKey ranking) fun key =>
      key.width = plan.width ∧ (ranking.key = none → key = plan.key) := by
  unfold rankedKey
  split
  · rename_i k hk
    refine (ColumnMap.of_gives (hr.key k hk).1).mono fun key ⟨_, hw⟩ => ⟨hw, ?_⟩
    rw [hk]
    rintro ⟨⟩
  · exact .ok ⟨h.key, fun _ => rfl⟩

/-- The plan with a ranking pending, given its event time. -/
theorem withRanking_wellFormed {ranking : Ranking} {key : ColumnMap} {time : EventTime}
    (h : plan.WellFormed catalog n) (hr : ranking.FitsIn plan) (hnow : plan.nowFilter = none)
    (hkw : key.width = plan.width) (hkey : ranking.key = none → key = plan.key)
    (hst : (({ plan with key } : Plan).withRanking ranking).kind = .state → time.columns = [])
    (ht : ∀ i ∈ time.columns, i < plan.width) :
    ({ ({ plan with key } : Plan).withRanking ranking with time } : Plan).WellFormed catalog n := by
  unfold withRanking at hst ⊢
  by_cases he : ranking.constraint.isEmpty = true
  · rw [if_pos he] at hst
    rw [if_pos he]
    have hkeyNone : ranking.key = none := by
      refine Option.eq_none_iff_forall_ne_some.2 fun k hk => ?_
      simp only [TopN.isEmpty, Bool.and_eq_true, List.isEmpty_iff, Bool.not_eq_true'] at he
      rcases (hr.key k hk).2 with hp | hd
      · exact hp he.1.1
      · rw [he.1.2] at hd; cases hd
    refine ⟨⟨hkw, h.select, hst, fun _ => hnow, ht, ?_, ?_, h.topN⟩, h.fields, ?_, h.lineage,
      h.interval, h.stale⟩
    · intro f hf
      rw [show plan.nowFilter = some f from hf] at hnow
      cases hnow
    · exact fun i hi => hr.columns i (List.mem_append_right _ hi)
    · rw [hkey hkeyNone]; exact h.rootKeys
  · rw [if_neg he] at hst
    rw [if_neg he]
    refine ⟨⟨hkw, h.select, hst, fun _ => hnow, ht, ?_, (fun i hi => by cases hi),
      hr.columns⟩,
      h.fields, ?_, ?_, h.interval, fun hs => absurd hs.1 he⟩
    · intro f hf
      rw [show plan.nowFilter = some f from hf] at hnow
      cases hnow
    · intro hk k hroot
      change ranking.constraint.resultKind = .stream at hk
      -- only a limit over all rows leaves a stream, and it makes no key
      have hstream : plan.kind = .stream ∧ ranking.constraint.distinct = false ∧
          ranking.constraint.partition = [] := by
        unfold TopN.resultKind TopN.hasPartition at hk
        rw [hr.source] at hk
        split at hk
        · cases hk
        · split at hk
          · cases hk
          · split at hk
            · cases hk
            · rename_i hd hp
              exact ⟨hk, by simpa using hd, by simpa using hp⟩
      have hkeyNone : ranking.key = none := by
        refine Option.eq_none_iff_forall_ne_some.2 fun k' hk' => ?_
        rcases (hr.key k' hk').2 with hp | hd
        · exact hp hstream.2.2
        · rw [hstream.2.1] at hd; cases hd
      change k ≤ key.sources
      rw [hkey hkeyNone]
      exact h.rootKeys hstream.1 k hroot
    · rintro l ⟨⟩

theorem withTimestamp_gives {ranking : Ranking} {key : ColumnMap} (h : plan.WellFormed catalog n)
    (hr : ranking.FitsIn plan) (hnow : plan.nowFilter = none) (hkw : key.width = plan.width)
    (hkey : ranking.key = none → key = plan.key) :
    Gives ((({ plan with key } : Plan).withRanking ranking).withTimestamp ranking.timestamp)
      fun out => out.WellFormed catalog n ∧ out.width = plan.width := by
  have hrel : (({ plan with key } : Plan).withRanking ranking).rel = plan.rel := by
    unfold withRanking; split <;> rfl
  have htime : (({ plan with key } : Plan).withRanking ranking).time = plan.time := by
    unfold withRanking; split <;> rfl
  have hwf := fun time => @withRanking_wellFormed catalog n plan ranking key time h hr hnow hkw hkey
  generalize ({ plan with key } : Plan).withRanking ranking = mid at hwf hrel htime ⊢
  have hw : mid.width = plan.width := by rw [Plan.width, hrel]; rfl
  unfold withTimestamp
  split
  · exact .ok ⟨hwf .none (fun _ => rfl) (fun i hi => by cases hi), hw⟩
  · rename_i hk
    split
    · rename_i c hc
      have hmem : c ∈ mid.time.columns := htime ▸ hr.timestamp c hc
      refine (EventTime.fix_gives hmem).bind fun time ht => ?_
      refine .ok ⟨hwf time (fun hs => absurd hs hk) fun i hi => ?_, hw⟩
      rw [ht, List.mem_singleton] at hi
      exact hi ▸ h.time c (htime ▸ hmem)
    · have := hwf mid.time (fun hs => absurd hs hk) (by rw [htime]; exact h.time)
      exact .ok ⟨this, hw⟩

/-- **The plan of a ranking** of columns that exist. -/
theorem ranked_safe {hint : RankingHint} {columns : List Nat} {outputs : List Output}
    {order : SortOrder} {limit : Option Nat} (h : plan.WellFormed catalog n)
    (hp : ∀ i ∈ hint.partition, i < plan.select.sources)
    (hc : ∀ i ∈ columns, i < plan.select.sources)
    (ho : ∀ i ∈ SortOrder.columns order, i < plan.select.sources) :
    Safe allowed (plan.ranked hint columns outputs order limit) fun out =>
      out.WellFormed catalog n ∧ out.select.sources = columns.length := by
  unfold ranked
  refine plan.withoutPending_safe.bind fun base ⟨hs, hnow, _⟩ => ?_
  have hb := hs.wellFormed h
  rw [← hs.select] at hp hc ho
  refine (Safe.orFault (hb.columns_gives hp).bounded).bind fun partition ⟨hplt, _⟩ => ?_
  refine (Safe.lift (SortOrder.remap_gives fun i hi => hb.apply_gives (ho i hi)).bounded).bind
    fun moved hmoved => ?_
  refine (Safe.orFault (hb.columns_gives hc).bounded).bind fun visible ⟨hvlt, hvlen⟩ => ?_
  split
  · exact .refuse
  · rename_i ranking hranking
    have hfits := ranking_fitsIn hplt hvlt hmoved hb.time hranking
    refine (Safe.lift (renamed?_gives hb.fields hvlt).bounded).bind fun o hrenamed => ?_
    rcases o with _ | rel
    · exact .refuse
    · have hr := hrenamed rel rfl
      have hbr := hb.renamed hr
      have hw : ({ base with rel } : Plan).width = base.width := hr.width
      have hfits' : ranking.FitsIn { base with rel } :=
        ⟨hw ▸ hfits.columns, fun k hk => hw ▸ hfits.key k hk, hfits.timestamp, hfits.source⟩
      refine (Safe.lift (rankedKey_gives hbr hfits').bounded).bind fun key ⟨hkw, hkey⟩ => ?_
      refine (Safe.lift (withTimestamp_gives hbr hfits' hnow hkw hkey).bounded).bind
        fun out ⟨hout, houtw⟩ => ?_
      refine (Safe.lift (ColumnMap.of_gives (houtw.trans hw ▸ hvlt)).bounded).bind
        fun select ⟨hts, hsw⟩ => ?_
      refine .ok ⟨hout.withSelect hsw, ?_⟩
      change select.sources = _
      rw [ColumnMap.sources, hts, hvlen]

end StreamPlan.Plan
