import StreamPlan.Plan.Filter
import StreamPlan.Proofs.Safety.WellFormed

/-!
# Filters and sorts do not fault

Over a well-formed plan and columns that exist, the plan of a filter
(`Plan.filtered_safe`) and that of a sort (`Plan.sorted_safe`) is well formed.
-/

namespace StreamPlan.Plan

variable {catalog : Catalog} {n : Nat} {allowed : Fault → Prop} {plan : Plan}

/-- A now-filter that a condition states is on a candidate and no longer than
what the condition mentions. -/
theorem statedNowFilter_bounded {time : EventTime} {condition : Expr}
    (hl : Millis.greatest < condition.span → allowed .arithmeticOverflow) :
    Bounded allowed (statedNowFilter time condition) fun o => ∀ filter, o = some filter →
      filter.timestamp ∈ time.columns ∧ filter.interval.natAbs ≤ condition.span := by
  unfold statedNowFilter
  split
  · refine Bounded.bind (TimeBound.ofExpr?_bounded condition hl) fun o ho => ?_
    rcases o with _ | bound
    · exact .ok (by rintro _ ⟨⟩)
    · obtain ⟨hn, hlarger, hsmaller⟩ := ho bound rfl
      refine (NowFilter.ofBound?_bounded hn hl).mono fun o' ho' filter hf => ?_
      obtain ⟨hi, hcol | hcol⟩ := ho' filter hf
      · exact ⟨EventTime.isCandidate_iff.1 (hlarger _ hcol), hi⟩
      · exact ⟨EventTime.isCandidate_iff.1 (hsmaller _ hcol), hi⟩
  · exact .ok (by rintro _ ⟨⟩)

/-- Two now-filters in one, which is on the timestamp of both. -/
theorem mergedWith_safe {filter : NowFilter} (h : plan.WellFormed catalog n)
    (hn : filter.interval.natAbs ≤ n) :
    Safe allowed (plan.mergedWith filter) fun merged =>
      merged.timestamp = filter.timestamp ∧ merged.interval.natAbs ≤ n := by
  unfold mergedWith
  split
  · exact .ok ⟨rfl, hn⟩
  · rename_i pending hp
    split
    · rename_i merged hm
      obtain ⟨hts, -, rfl⟩ := NowFilter.merge?_eq_some hm
      rcases NowFilter.tighter_eq pending filter with ht | ht
      · exact .ok ⟨by rw [ht, hts], by rw [ht]; exact h.interval _ hp⟩
      · exact .ok ⟨by rw [ht], by rw [ht]; exact hn⟩
    · exact .refuse

/-- One more now-filter on a candidate becomes pending or conflicts. -/
theorem addNowFilter_safe {filter : NowFilter} (h : plan.WellFormed catalog n)
    (hts : filter.timestamp ∈ plan.time.columns) (hn : filter.interval.natAbs ≤ n) :
    Safe allowed (plan.addNowFilter filter) fun out =>
      out.WellFormed catalog n ∧ out.select = plan.select ∧ out.rel = plan.rel := by
  unfold addNowFilter
  refine (mergedWith_safe h hn).bind fun merged ⟨hmts, hmn⟩ => ?_
  refine (Safe.lift (EventTime.fix_gives hts).bounded).bind fun time htime => ?_
  refine .ok ⟨⟨⟨h.key, h.select, ?_, ?_, ?_, ?_, h.sort, h.topN⟩, h.fields, h.rootKeys, h.lineage,
    ?_, h.stale⟩, rfl, rfl⟩
  · intro hk
    rw [h.stateTime hk] at hts
    cases hts
  · intro hk
    rw [h.stateTime hk] at hts
    cases hts
  · intro i hi
    rw [htime, List.mem_singleton] at hi
    exact hi ▸ h.time _ hts
  · rintro f ⟨⟩
    rw [htime, hmts]
    exact List.mem_cons_self
  · rintro f ⟨⟩
    exact hmn

theorem extractNowFilters_safe (conditions : List Expr)
    (hn : ∀ k ∈ conditions, k.span ≤ n) (hl : Millis.greatest < n → allowed .arithmeticOverflow) :
    ∀ {plan : Plan}, plan.WellFormed catalog n →
      Safe allowed (plan.extractNowFilters conditions) fun out =>
        out.1.WellFormed catalog n ∧ out.1.select = plan.select ∧ out.1.rel = plan.rel := by
  induction conditions with
  | nil => intro plan h; exact .ok ⟨h, rfl, rfl⟩
  | cons condition conditions ih =>
    intro plan h
    have hspan := hn condition List.mem_cons_self
    have ih := @ih fun k hk => hn k (List.mem_cons_of_mem _ hk)
    unfold extractNowFilters
    have hg : Millis.greatest < condition.span → allowed .arithmeticOverflow := fun hg => hl (by omega)
    refine (Safe.lift (statedNowFilter_bounded hg)).bind fun o ho => ?_
    rcases o with _ | filter
    · refine (ih h).bind fun out hout => ?_
      exact .ok hout
    · obtain ⟨hts, hi⟩ := ho filter rfl
      refine (addNowFilter_safe h hts (Nat.le_trans hi hspan)).bind fun next hnext => ?_
      refine (ih hnext.1).mono fun out hout => ?_
      exact ⟨hout.1, hout.2.1.trans hnext.2.1, hout.2.2.trans hnext.2.2⟩

/-- **The plan of a filter** over columns that exist. -/
theorem filtered_safe {predicate : Expr} (h : plan.WellFormed catalog n)
    (hp : ∀ i ∈ predicate.references, i < plan.select.sources)
    (hl : Millis.greatest < n + predicate.span → allowed .arithmeticOverflow) :
    Safe allowed (plan.filtered predicate) fun out =>
      out.WellFormed catalog (n + predicate.span) ∧ out.select = plan.select := by
  unfold filtered
  refine plan.withoutTopN_safe.bind fun base ⟨hs, _⟩ => ?_
  have hb := hs.wellFormed (h.mono (Nat.le_add_right n predicate.span))
  refine (Safe.lift (Expr.remap_gives (P := (· < base.width)) fun i hi => ?_).bounded).bind
    fun moved ⟨hrefs, hspan⟩ => ?_
  · exact hb.apply_gives (by rw [hs.select]; exact hp i hi)
  have hk : ∀ k ∈ moved.conjuncts, k.span ≤ n + predicate.span := fun k hk => by
    have h1 := Expr.span_le_spanOfAll hk
    have h2 := Expr.span_conjuncts moved
    omega
  refine (extractNowFilters_safe moved.conjuncts hk hl hb).bind fun out ⟨hw, hsel, hrel⟩ => ?_
  obtain ⟨next, remaining⟩ := out
  simp only at hw hsel hrel ⊢
  split
  · exact .ok ⟨hw, hsel.trans hs.select⟩
  · refine (Safe.needing fun needs _ => trivial).bind fun needs _ => ?_
    refine .ok ⟨⟨⟨?_, ?_, hw.stateTime, hw.stateNowFilter, ?_, hw.nowFilter, ?_, ?_⟩, ?_,
      hw.rootKeys, ?_, hw.interval, hw.stale⟩, hsel.trans hs.select⟩
    · exact hw.key
    · exact hw.select
    · exact hw.time
    · exact hw.sort
    · exact hw.topN
    · rw [Rel.fields]; exact hw.fields
    · rintro l ⟨⟩

/-- **The plan of a sort** by columns that exist. -/
theorem sorted_safe {order : SortOrder} {limit : Option Nat} (h : plan.WellFormed catalog n)
    (ho : ∀ i ∈ SortOrder.columns order, i < plan.select.sources) :
    Safe allowed (plan.sorted order limit) fun out =>
      out.WellFormed catalog n ∧ out.select = plan.select := by
  unfold sorted
  refine (Safe.lift (SortOrder.remap_gives (P := (· < plan.width)) fun i hi =>
    h.apply_gives (ho i hi)).bounded).bind fun moved hm => ?_
  rcases limit with _ | k
  · exact .ok ⟨⟨⟨h.key, h.select, h.stateTime, h.stateNowFilter, h.time, h.nowFilter, hm, h.topN⟩,
      h.fields, h.rootKeys, h.lineage, h.interval, h.stale⟩, rfl⟩
  · refine plan.withoutPending_safe.bind fun base ⟨hs, hnf, _⟩ => ?_
    have hb := hs.wellFormed h
    refine (require_safe base.needs .sort).bind fun needs _ => ?_
    have hkind : TopN.resultKind ⟨[], false, moved, some k, base.kind⟩ = base.kind := by
      simp only [TopN.resultKind, TopN.hasPartition]
      split <;> simp_all
    simp only [hkind]
    refine .ok ⟨⟨⟨hb.key, hb.select, ?_, fun _ => hnf, ?_, ?_, ?_, ?_⟩, hb.fields, hb.rootKeys, ?_, ?_,
      ?_⟩, hs.select⟩
    · intro hk
      simp only [if_pos hk, EventTime.columns_none]
    · simp only
      split
      · intro i hi; cases hi
      · exact hb.time
    · intro f hf
      simp only [hnf] at hf
      cases hf
    · intro i hi; cases hi
    · intro i hi
      have hw : base.width = plan.width := hs.width
      exact hw ▸ hm i hi
    · rintro l ⟨⟩
    · intro f hf
      simp only [hnf] at hf
      cases hf
    · intro hst
      simp [TopN.Stale, TopN.isEmpty] at hst

end StreamPlan.Plan
