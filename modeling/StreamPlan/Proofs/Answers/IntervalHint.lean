import StreamPlan.Proofs.Answers.Join
import StreamPlan.Proofs.Answers.TimeWindow

/-!
# The hint of a join within a bounded time

Such a join has its time bounds twice: in its condition, and as a hint for the operator
that runs it. Both say the same of right time less left time, but for the ends.

* `JoinInputs.closedWindow_eq_ok`: the bounds that a window is closed from.
* `JoinInputs.times_of_closedWindow`: a window is between candidates of the two inputs.
* `JoinInputs.Describes`: two limits describe a condition.
* `JoinInputs.describes_of_closedWindow`: the limits of a window describe its condition.
* `Converter.interval_hint_describes`: **the hint of a join within a bounded time**
  describes the condition of the join, and an open side by 999 years.
-/

namespace StreamPlan

theorem Row.timeAt_left {l : Row} {i : Nat} (h : i < l.length) (r : Row) :
    (l ++ r).timeAt i = l.timeAt i := by
  rw [timeAt, timeAt, List.getElem?_append_left h]

theorem Row.timeAt_right (l r : Row) (i : Nat) : (l ++ r).timeAt (l.length + i) = r.timeAt i := by
  rw [timeAt, timeAt, List.getElem?_append_right (Nat.le_add_right _ _), Nat.add_sub_cancel_left]

namespace JoinInputs

variable {j : JoinInputs} {out : Plan} {window : ClosedWindow} {now : Int} {row l r : Row}

/-- **A window is closed** from the written bounds, or from an equality of the best times
if there are none. -/
theorem closedWindow_eq_ok (h : j.closedWindow = .ok window) :
    ∃ bounds found rootKeys, TimeWindow.ofBounds bounds j.left.width = .ok found ∧
      close bounds found rootKeys = .ok window ∧
      (j.parts.timeBounds ≠ [] ∧ bounds = j.parts.timeBounds ∨
        j.parts.timeBounds = [] ∧ ∃ lt rt, j.left.time.bestColumn? = some lt ∧
          j.right.time.bestColumn? = some rt ∧
          bounds = [⟨.column (rt + j.left.width), .column lt, .eq, 0⟩]) := by
  unfold closedWindow at h
  obtain ⟨⟨bounds, rootKeys⟩, hwritten, h⟩ := bind_eq_ok.1 h
  obtain ⟨found, hfound, h⟩ := bind_eq_ok.1 h
  refine ⟨bounds, found, rootKeys, hfound, h, ?_⟩
  unfold writtenBounds at hwritten
  split at hwritten
  · exact absurd hwritten refuse_ne_ok
  · split at hwritten
    · rename_i hne
      cases hwritten
      exact .inl ⟨by simpa using hne, rfl⟩
    · rename_i hnone
      obtain ⟨⟨bound, n⟩, hbound, hwritten⟩ := bind_eq_ok.1 hwritten
      cases hwritten
      obtain ⟨-, lt, rt, hlt, hrt, rfl⟩ := rootBound_eq_ok hbound
      exact .inr ⟨by simpa using hnone, lt, rt, hlt, hrt, rfl⟩

/-- **The times of a window** are candidates of the two inputs. -/
theorem times_of_closedWindow (hparts : JoinCondition.ofExpr j.condition j.left.width
      (isTimestamp j.left j.right) = .ok j.parts) (h : j.closedWindow = .ok window) :
    window.leftTime ∈ j.left.time.columns ∧
      ∃ rc ∈ j.right.time.columns, window.rightTime = j.left.width + rc := by
  obtain ⟨bounds, found, rootKeys, hfound, hclose, hbounds⟩ := closedWindow_eq_ok h
  have hw := TimeWindow.gathers_of_ofBounds hfound
  obtain ⟨-, hcolumns, -⟩ := limited_of_close hw hclose
  -- written bounds make the window, or the leading times of one root entity
  rcases hbounds with ⟨hne, rfl⟩ | ⟨-, lt, rt, hlt, hrt, rfl⟩
  · obtain ⟨b, hb⟩ := List.exists_mem_of_ne_nil _ hne
    obtain ⟨lt, rt, limits, hc, hlimits, -⟩ := hw.keeps b hb
    cases hcolumns.symm.trans hc
    obtain ⟨hcross, k, -, hk⟩ : JoinCondition.crosses j.left.width b = true ∧
        ∃ k ∈ j.condition.conjuncts, TimeBound.ofExpr? (isTimestamp j.left j.right) k = .ok (some b) := by
      rcases (JoinCondition.adds_of_ofExpr hparts).timeBounds b hb with hb | hb
      · cases hb
      · exact hb
    have hcandidate := TimeBound.candidate_of_ofExpr? hk
    -- a bound has the columns of the window, in some order, and one on each side of the join
    have hsides : window.leftTime < j.left.width ∧ j.left.width ≤ window.rightTime := by
      have hside := hw.columns _ _ hcolumns
      unfold JoinCondition.crosses at hcross
      rcases hlimits.columns with he | he <;> rw [he] at hcross <;> simp at hcross <;> omega
    have hleft : isTimestamp j.left j.right window.leftTime = true :=
      hcandidate _ (by rcases hlimits.columns with he | he <;> simp [he])
    have hright : isTimestamp j.left j.right window.rightTime = true :=
      hcandidate _ (by rcases hlimits.columns with he | he <;> simp [he])
    rw [isTimestamp, if_pos hsides.1] at hleft
    rw [isTimestamp, if_neg (Nat.not_lt.2 hsides.2)] at hright
    exact ⟨EventTime.isCandidate_iff.1 hleft, _, EventTime.isCandidate_iff.1 hright,
      (Nat.add_sub_cancel' hsides.2).symm⟩
  · cases (ofBounds_equality j.left.width lt rt).symm.trans hfound
    obtain ⟨hleft, hright⟩ := Prod.mk.inj (Option.some.inj hcolumns)
    rw [← hleft, ← hright]
    exact ⟨EventTime.bestColumn?_mem hlt, rt, EventTime.bestColumn?_mem hrt, Nat.add_comm _ _⟩

/-- **A side without a written bound** is open. -/
theorem openLimit_of_closedWindow (hne : j.parts.timeBounds ≠ []) (h : j.closedWindow = .ok window) :
    ((∀ b ∈ j.parts.timeBounds, ¬b.Caps window.leftTime) → window.lower = -unboundedMillis) ∧
      ((∀ b ∈ j.parts.timeBounds, ¬b.Caps window.rightTime) → window.upper = unboundedMillis) := by
  obtain ⟨bounds, found, rootKeys, hfound, hclose, hbounds⟩ := closedWindow_eq_ok h
  obtain ⟨-, rfl⟩ := hbounds.resolve_right fun hnone => hne hnone.1
  have hw := TimeWindow.gathers_of_ofBounds hfound
  obtain ⟨-, hcolumns, -, hopen⟩ := limited_of_close hw hclose
  -- a limit that was found is of a written bound, which would cap the time
  have hside : ∀ side column, (∀ (b : TimeBound) limits,
      b.Limits window.leftTime window.rightTime limits → ∀ x ∈ limits side, b.Caps column) →
      (∀ b ∈ j.parts.timeBounds, ¬b.Caps column) → window.limitAt side = side.openLimit := by
    intro side column hcaps hnone
    refine hopen side (Option.eq_none_iff_forall_not_mem.2 fun ⟨b, x⟩ hfoundAt => ?_)
    obtain ⟨hmem, lt, rt, limits, hc, hb, hx⟩ := hw.comes side b x hfoundAt
    cases hcolumns.symm.trans hc
    exact hnone b hmem (hcaps b limits hb x hx)
  exact ⟨hside .lower _ fun _ _ hb => hb.caps.1, hside .upper _ fun _ _ hb => hb.caps.2⟩

/-- Without written bounds the window is of no length. -/
theorem limits_of_rootWindow (hnone : j.parts.timeBounds = []) (h : j.closedWindow = .ok window) :
    window.lower = 0 ∧ window.upper = 0 := by
  obtain ⟨bounds, found, rootKeys, hfound, hclose, hbounds⟩ := closedWindow_eq_ok h
  obtain ⟨-, lt, rt, -, -, rfl⟩ := hbounds.resolve_left fun hne => hne.1 hnone
  cases (ofBounds_equality j.left.width lt rt).symm.trans hfound
  cases hclose
  exact ⟨rfl, rfl⟩

/-- The condition bounds the times of an interval by an equality. -/
def EquatesTimes (j : JoinInputs) : Prop :=
  j.parts.timeBounds = [] ∨ ∃ b ∈ j.parts.timeBounds, b.isEquality = true

/-- A row of each input, with times or nulls in the timestamps. -/
structure TimedPair (j : JoinInputs) (l r : Row) : Prop where
  width : l.length = j.left.width
  left : ∀ i ∈ j.left.time.columns, l.Timed i
  right : ∀ i ∈ j.right.time.columns, r.Timed i

/-- Two limits on right time less left time describe a condition up to the strictness of
its ends: no pair that it is true of is beyond them, and of the pairs between them it is
as true as its parts that are no time bounds, unless it leaves 64 bits. -/
structure Describes (j : JoinInputs) (condition : Expr) (lc rc : Nat) (lower upper : Int) :
    Prop where
  within : ∀ now l r, j.TimedPair l r → trueOn now condition (l ++ r) = true →
    ∃ s t, l.timeAt lc = some s ∧ r.timeAt rc = some t ∧ lower ≤ t - s ∧ t - s ≤ upper
  between : ∀ now l r s t, j.TimedPair l r → l.timeAt lc = some s → r.timeAt rc = some t →
    (∀ k ∈ j.parts.untimed j.left.width, trueOn now k (l ++ r) = true) →
    (lower < t - s ∧ t - s < upper ∨ j.EquatesTimes ∧ t - s = lower ∧ t - s = upper) →
    Overflows (evalExpr now (l ++ r) condition) ∨ trueOn now condition (l ++ r) = true

namespace ClosedWindow

variable {s t : Int}

/-- A pair on which the condition of a window is true has its times within the limits. -/
theorem Limited.within (h : window.Limited) (hl : row.Timed window.leftTime)
    (hr : row.Timed window.rightTime) (htrue : trueOn now (window.condition j) row = true) :
    ∃ s t, row.timeAt window.leftTime = some s ∧ row.timeAt window.rightTime = some t ∧
      window.lower ≤ t - s ∧ t - s ≤ window.upper := by
  obtain ⟨-, hexprs⟩ := window.trueOn_condition.1 htrue
  have hholds : ∀ b ∈ window.bounds, b.Holds now row := by
    intro b hb
    obtain ⟨limits, hlimits, -⟩ := h.keeps b hb
    obtain ⟨v, hv, -⟩ := trueOn_iff.1 (hexprs b hb)
    exact (trueOn_bound (hlimits.timed hl hr) ⟨v, hv⟩).1 (hexprs b hb)
  obtain ⟨b, hb, limits, hlimits, hlower⟩ := h.reached .lower
  obtain ⟨s, t, hs, ht, hbelow, -⟩ := hlimits.within (hholds b hb)
  obtain ⟨b', hb', limits', hlimits', hupper⟩ := h.reached .upper
  obtain ⟨s', t', hs', ht', -, habove⟩ := hlimits'.within (hholds b' hb')
  cases hs.symm.trans hs'
  cases ht.symm.trans ht'
  exact ⟨s, t, hs, ht, hbelow _ hlower, habove _ hupper⟩

/-- A pair with its times between the limits satisfies every bound of a window. -/
theorem Limited.holds (h : window.Limited) (hs : row.timeAt window.leftTime = some s)
    (ht : row.timeAt window.rightTime = some t)
    (hin : window.lower < t - s ∧ t - s < window.upper ∨
      (∃ b ∈ window.bounds, b.comparison = .eq) ∧ t - s = window.lower ∧ t - s = window.upper) :
    ∀ b ∈ window.bounds, b.Holds now row := by
  intro b hb
  obtain ⟨limits, hlimits, hkeep⟩ := h.keeps b hb
  refine hlimits.holds hs ht (hin.imp ?_ ?_)
  · rintro ⟨hlower, hupper⟩
    exact ⟨fun x hx => hkeep .lower x hx ▸ hlower, fun x hx => hkeep .upper x hx ▸ hupper⟩
  · rintro ⟨⟨b', hb', he⟩, hlower, hupper⟩
    refine ⟨h.alone b' hb' he b hb, fun side x hx => ?_⟩
    rw [hkeep side x hx]
    cases side
    · exact hlower
    · exact hupper

/-- The condition of a window is true where its parts are and its bounds hold. -/
theorem overflows_or_trueOn (hl : row.Timed window.leftTime) (hr : row.Timed window.rightTime)
    (hw : window.Limited)
    (huntimed : ∀ k ∈ j.parts.untimed j.left.width, trueOn now k row = true)
    (hholds : ∀ b ∈ window.bounds, b.Holds now row) :
    Overflows (evalExpr now row (window.condition j)) ∨
      trueOn now (window.condition j) row = true := by
  -- each conjunct has a value here, so only an overflow can keep the condition from one
  have hall : ∀ k ∈ (j.parts.withoutTime j.left.width).conjuncts ++ window.bounds.map TimeBound.expr,
      Means (evalExpr now row k) True := by
    refine List.forall_mem_append.2 ⟨fun k hk => ?_, List.forall_mem_map.2 fun b hb => ?_⟩
    · have htrue := (trueOn_iff_conjuncts _).1 (trueOn_all.2 huntimed) k hk
      obtain ⟨v, hv, -⟩ := trueOn_iff.1 htrue
      exact (JoinCondition.means_of_ok ⟨v, hv⟩).congr (iff_true_intro htrue)
    · obtain ⟨limits, hlimits, -⟩ := hw.keeps b hb
      exact (TimeBound.expr_means (hlimits.timed hl hr)).congr (iff_true_intro (hholds b hb))
  rcases means_all hall with he | ⟨v, hv, htrue⟩
  · exact .inl he
  · refine .inr ?_
    rw [condition, trueOn_of_ok hv]
    exact htrue.2 fun _ _ => trivial

end ClosedWindow

/-- **The limits of a window** describe its condition. -/
theorem describes_of_closedWindow {rc : Nat} (h : j.closedWindow = .ok window)
    (hleft : window.leftTime ∈ j.left.time.columns) (hrc : rc ∈ j.right.time.columns)
    (hright : window.rightTime = j.left.width + rc) :
    j.Describes (window.condition j) window.leftTime rc window.lower window.upper := by
  obtain ⟨bounds, found, rootKeys, hfound, hclose, hbounds⟩ := closedWindow_eq_ok h
  obtain ⟨hlimited, -, hmem, -⟩ := limited_of_close (TimeWindow.gathers_of_ofBounds hfound) hclose
  have hequality : j.EquatesTimes → ∃ b ∈ window.bounds, b.comparison = .eq := by
    intro he
    rcases hbounds with ⟨hne, rfl⟩ | ⟨-, lt, rt, -, -, rfl⟩
    · obtain ⟨b, hb, he⟩ := he.resolve_left hne
      exact ⟨b, hmem b hb, of_decide_eq_true he⟩
    · exact ⟨_, hmem _ (List.mem_singleton.2 rfl), rfl⟩
  -- the columns of the window show the times of the two rows
  have hsides : ∀ {l r : Row}, j.TimedPair l r →
      (l ++ r).Timed window.leftTime ∧ (l ++ r).Timed window.rightTime ∧
        (l ++ r).timeAt window.leftTime = l.timeAt window.leftTime ∧
        (l ++ r).timeAt window.rightTime = r.timeAt rc := by
    intro l r hpair
    have hl := hpair.left _ hleft
    obtain ⟨v, hv, -⟩ := id hl
    rw [hright, ← hpair.width]
    exact ⟨hl.append_left r, (hpair.right _ hrc).append_right l,
      Row.timeAt_left (List.getElem?_eq_some_iff.1 hv).1 r, Row.timeAt_right l r rc⟩
  constructor
  · intro now l r hpair htrue
    obtain ⟨htl, htr, hl, hr⟩ := hsides hpair
    have hwithin := hlimited.within htl htr htrue
    rwa [hl, hr] at hwithin
  · intro now l r s t hpair hs ht huntimed hin
    obtain ⟨htl, htr, hl, hr⟩ := hsides hpair
    refine ClosedWindow.overflows_or_trueOn htl htr hlimited huntimed ?_
    exact hlimited.holds (hl.trans hs) (hr.trans ht) (hin.imp_right (And.imp_left hequality))

/-- **The plan of a join within a window** has the limits of the window as its hint. -/
theorem hint_of_intervalPlan (h : j.intervalPlan window = .ok out) :
    ∃ left right, out.rel = .join left right j.plannedKind (window.condition j)
        (some (.interval window.leftTime window.rightTime window.lower window.upper)) ∧
      out.nowFilter = none ∧ out.topN = .none := by
  unfold intervalPlan at h
  obtain ⟨left, -, h⟩ := bind_eq_ok.1 h
  obtain ⟨right, -, h⟩ := bind_eq_ok.1 h
  obtain ⟨needs, -, h⟩ := bind_eq_ok.1 h
  obtain ⟨time, -, h⟩ := bind_eq_ok.1 h
  obtain ⟨key, -, h⟩ := bind_eq_ok.1 h
  obtain ⟨plan, hplan, h⟩ := bind_eq_ok.1 h
  obtain ⟨select, -, h⟩ := bind_eq_ok.1 h
  cases h
  obtain ⟨m, -, rfl⟩ := Plan.ofRel_eq_ok.1 (lift_eq_ok.1 hplan)
  exact ⟨left.rel, right.rel, rfl, rfl, rfl⟩

end JoinInputs

namespace Converter

variable {c : Converter} {q p : Rel} {left right plan : Plan} {kind : JoinKind} {condition : Expr}
  {hint : Option JoinHint} {j : JoinInputs}

/-- **The hint of a join within a bounded time** is between timestamps of its inputs and
describes the condition of the join. A side that no written bound limits is limited by
999 years, and events of one root entity are joined at equal times. -/
theorem interval_hint_describes (hleft : c.convert q = .ok left) (hright : c.convert p = .ok right)
    (hj : JoinInputs.of left right kind condition = .ok j) (hrule : j.rule c = .interval)
    (hplan : c.convert (.join q p kind condition hint) = .ok plan) :
    ∃ lrel rrel rebuilt lc rc lower upper,
      plan.rel = .join lrel rrel j.plannedKind rebuilt
        (some (.interval lc (left.width + rc) lower upper)) ∧
      lc ∈ left.time.columns ∧ rc ∈ right.time.columns ∧
      j.Describes rebuilt lc rc lower upper ∧
      (j.parts.timeBounds ≠ [] →
        ((∀ b ∈ j.parts.timeBounds, ¬b.Caps lc) → lower = -unboundedMillis) ∧
        ((∀ b ∈ j.parts.timeBounds, ¬b.Caps (left.width + rc)) → upper = unboundedMillis)) ∧
      (j.parts.timeBounds = [] → lower = 0 ∧ upper = 0) := by
  rw [convert, hleft, hright] at hplan
  obtain ⟨_, -, hplan⟩ := bind_eq_ok.1 hplan
  rw [ok_bind, ok_bind, hj, ok_bind] at hplan
  obtain ⟨out, hout, hfinish⟩ := bind_eq_ok.1 hplan
  obtain ⟨rfl, rfl, -, -, hparts⟩ := JoinInputs.of_eq_ok hj
  have hinterval := joined_by_rule hout
  rw [hrule] at hinterval
  obtain ⟨window, hwindow, hout⟩ := JoinInputs.intervalJoin?_eq_ok hinterval
  obtain ⟨lrel, rrel, hrel, hnow, htop⟩ := JoinInputs.hint_of_intervalPlan hout
  obtain ⟨hlc, rc, hrc, hright⟩ := JoinInputs.times_of_closedWindow hparts hwindow
  refine ⟨lrel, rrel, window.condition j, window.leftTime, rc, window.lower, window.upper, ?_,
    hlc, hrc, JoinInputs.describes_of_closedWindow hwindow hlc hrc hright, fun hne => ?_,
    fun hnone => JoinInputs.limits_of_rootWindow hnone hwindow⟩
  · rw [finish_of_idle hnow (by rw [htop]; rfl) hfinish, hrel, hright]
  · rw [← hright]
    exact JoinInputs.openLimit_of_closedWindow hne hwindow

/-- Pairs of events of which the first is not after the second have a written bound on
one side. -/
theorem later_events_are_within_years :
    let converter := overPlainEvents (.stream "stream")
    ∃ events plan j lrel rrel rebuilt, converter.convert scannedEvents = .ok events ∧
      JoinInputs.of events events .inner notAfter = .ok j ∧ j.rule converter = .interval ∧
      j.parts.timeBounds = [⟨.column 1, .column 3, .le, 0⟩] ∧
      converter.convert (.join scannedEvents scannedEvents .inner notAfter none) = .ok plan ∧
      plan.rel = .join lrel rrel .inner rebuilt (some (.interval 1 3 0 unboundedMillis)) ∧
      j.Describes rebuilt 1 1 0 unboundedMillis := by
  intro converter
  obtain ⟨events, j, hevents, hj, hrule, hbounds, hkind, hwidth⟩ : ∃ events j,
      converter.convert scannedEvents = .ok events ∧
        JoinInputs.of events events .inner notAfter = .ok j ∧ j.rule converter = .interval ∧
        j.parts.timeBounds = [⟨.column 1, .column 3, .le, 0⟩] ∧ j.plannedKind = .inner ∧
        events.width = 2 := ⟨_, _, rfl, rfl, rfl, rfl, rfl, rfl⟩
  have hhint : (ManifestHint.ofRoot? ∘ Plan.rel) <$>
      converter.convert (.join scannedEvents scannedEvents .inner notAfter none)
      = .ok (some (.join (.interval 1 3 0 unboundedMillis))) := by decide +kernel
  obtain ⟨plan, hplan, hhint⟩ := map_eq_ok.1 hhint
  obtain ⟨lrel, rrel, rebuilt, lc, rc, lower, upper, hrel, -, -, hdescribes, -⟩ :=
    interval_hint_describes hevents hevents hj hrule hplan
  rw [Function.comp_apply, hrel, hwidth] at hhint
  obtain ⟨rfl, hrc, rfl, rfl⟩ :=
    JoinHint.interval.inj (ManifestHint.join.inj (Option.some.inj hhint))
  obtain rfl : rc = 1 := by omega
  rw [hwidth, hkind] at hrel
  exact ⟨events, plan, j, lrel, rrel, rebuilt, hevents, hj, hrule, hbounds, hplan, hrel, hdescribes⟩

end Converter

end StreamPlan
