import StreamPlan.Plan.IntervalJoin
import StreamPlan.Proofs.Safety.Join

/-!
# Joins within a bounded time do not fault

* `TimeWindow.FitsIn`: a window between a timestamp of each input
  (`TimeWindow.ofBounds_safe`).
* `JoinInputs.closedWindow_safe`: the window of a join has both its timestamps
  and, if it comes from a root entity, the root keys of both inputs.
* `JoinInputs.intervalJoin?_safe`: the plan of the join is well formed.
-/

namespace StreamPlan

variable {catalog : Catalog} {n : Nat} {allowed : Fault → Prop}

namespace TimeWindow

variable {leftWidth : Nat} {isTimestamp : Nat → Bool} {window : TimeWindow}

/-- The columns of a window are a timestamp of the left and one of the right input. -/
def FitsIn (leftWidth : Nat) (isTimestamp : Nat → Bool) (window : TimeWindow) : Prop :=
  ∀ lt rt, window.columns = some (lt, rt) →
    lt < leftWidth ∧ leftWidth ≤ rt ∧ isTimestamp lt = true ∧ isTimestamp rt = true

theorem place_columns {bound : TimeBound} {rightLarger : Bool} {value : Int} {out : TimeWindow}
    (h : place window bound rightLarger value = .ok out) : out.columns = window.columns := by
  unfold place at h
  split at h
  · split at h
    · cases h
    · cases h; rfl
  · split at h
    · split at h
      · cases h
      · cases h; rfl
    · split at h
      · cases h
      · cases h; rfl

/-- The columns of a bound between the two inputs, the left one first. -/
theorem fitsIn_of_bound {bound : TimeBound} {a b : Nat}
    (hb : JoinCondition.BoundFits leftWidth n isTimestamp bound) (ha : bound.larger.column? = some a)
    (hs : bound.smaller.column? = some b) :
    ∀ lt rt, (if leftWidth ≤ a then (b, a) else (a, b)) = (lt, rt) →
      lt < leftWidth ∧ leftWidth ≤ rt ∧ isTimestamp lt = true ∧ isTimestamp rt = true := by
  have hcolumn : ∀ {operand : TimeOperand} {i : Nat}, operand.column? = some i →
      operand = .column i := by
    intro operand i h
    cases operand with
    | column k => cases h; rfl
    | now => cases h
  have hla := hb.isBound.2.1 a (hcolumn ha)
  have hsb := hb.isBound.2.2 b (hcolumn hs)
  have hcross := hb.crosses
  simp only [JoinCondition.crosses, TimeBound.columns, ha, hs, Option.toList_some,
    List.singleton_append, bne_iff_ne, ne_eq, decide_eq_decide] at hcross
  intro lt rt h
  split at h
  · cases h
    exact ⟨by omega, by omega, hsb, hla⟩
  · cases h
    exact ⟨by omega, by omega, hla, hsb⟩

theorem boundValue_bounded {bound : TimeBound} {rightLarger : Bool} (hm : bound.millis.natAbs ≤ n)
    (hl : Millis.greatest < n → allowed .arithmeticOverflow) :
    Bounded allowed (boundValue bound rightLarger) fun _ => True := by
  unfold boundValue
  split
  · exact .ok trivial
  · exact (Millis.neg_bounded hm hl).mono fun _ _ => trivial

theorem add_safe {bound : TimeBound} (hb : JoinCondition.BoundFits leftWidth n isTimestamp bound)
    (hl : Millis.greatest < n → allowed .arithmeticOverflow) :
    Safe allowed (add leftWidth window bound) (FitsIn leftWidth isTimestamp) := by
  unfold add
  split
  · rename_i a b ha hs
    have hfit := fitsIn_of_bound hb ha hs
    simp only [decide_eq_true_eq]
    generalize (if leftWidth ≤ a then (b, a) else (a, b)) = columns at hfit ⊢
    split
    · exact .refuse
    · refine (Safe.orFault (boundValue_bounded hb.isBound.1 hl)).bind fun value _ => ?_
      refine (Safe.orRefuse _).mono fun out hout => ?_
      have hcols := place_columns hout
      intro lt rt hlr
      rw [hcols] at hlr
      exact hfit lt rt (Option.some.inj hlr)
  · exact .refuse

/-- **The window of bounds** between the two inputs is between a timestamp of each. -/
theorem ofBounds_safe {bounds : List TimeBound}
    (hb : ∀ b ∈ bounds, JoinCondition.BoundFits leftWidth n isTimestamp b)
    (hl : Millis.greatest < n → allowed .arithmeticOverflow) :
    Safe allowed (ofBounds bounds leftWidth) (FitsIn leftWidth isTimestamp) := by
  unfold ofBounds
  refine Safe.bind (Safe.foldlM (I := FitsIn leftWidth isTimestamp) ?_ fun w b hmem _ => ?_)
    fun window hw => ?_
  · rintro lt rt ⟨⟩
  · exact add_safe (hb b hmem) hl
  · split
    · exact .refuse
    · exact .ok hw

end TimeWindow

namespace JoinInputs

variable {j : JoinInputs}

theorem equatesRootKeys_gives {k : Nat} (hl : k ≤ j.left.key.sources)
    (hr : k ≤ j.right.key.sources) : Gives (j.equatesRootKeys k) fun _ => True := by
  induction k with
  | zero => exact .ok trivial
  | succ k ih =>
    unfold equatesRootKeys
    refine (ih (by omega) (by omega)).bind fun b _ => ?_
    split
    · refine (ColumnMap.apply_gives hl).bind fun a _ => ?_
      exact (ColumnMap.apply_gives hr).bind fun b _ => .ok trivial
    · exact .ok trivial

theorem isTimestamp_left {left right : Plan} {i : Nat} (hi : i < left.width) :
    isTimestamp left right i = left.time.isCandidate i := if_pos hi

theorem isTimestamp_right {left right : Plan} {i : Nat} (hi : left.width ≤ i) :
    isTimestamp left right i = right.time.isCandidate (i - left.width) :=
  if_neg (Nat.not_lt.2 hi)

/-- The bound of events of one root entity is between timestamps of both inputs. -/
theorem rootBound_safe (h : j.FitsIn catalog n) (hk : j.areTimedStreams = true) :
    Safe allowed j.rootBound fun out =>
      JoinCondition.BoundFits j.left.width n (isTimestamp j.left j.right) out.1 ∧
        out.2 ≤ j.left.key.sources ∧ out.2 ≤ j.right.key.sources := by
  simp only [areTimedStreams, Bool.and_eq_true, decide_eq_true_eq] at hk
  obtain ⟨⟨⟨hlk, hrk⟩, -⟩, -⟩ := hk
  unfold rootBound
  split
  · rename_i a b ha hb
    split
    · rename_i hab
      obtain ⟨rfl, -⟩ := hab
      have hla := h.left.rootKeys hlk a ha
      have hra := h.right.rootKeys hrk a hb
      refine (Safe.orFault (equatesRootKeys_gives hla hra).bounded).bind fun equates _ => ?_
      split
      · split
        · rename_i lt rt hlt hrt
          have hlmem := EventTime.bestColumn?_mem hlt
          have hrmem := EventTime.bestColumn?_mem hrt
          have hllt := h.left.time lt hlmem
          refine .ok ⟨⟨?_, Nat.zero_le _, ?_, ?_⟩, hla, hra⟩
          · have hge : ¬ rt + j.left.width < j.left.width := by omega
            simp [JoinCondition.crosses, TimeBound.columns, TimeOperand.column?, hllt, hge]
          · rintro i ⟨⟩
            rw [isTimestamp_right (Nat.le_add_left _ _), Nat.add_sub_cancel]
            exact EventTime.isCandidate_iff.2 hrmem
          · rintro i ⟨⟩
            rw [isTimestamp_left hllt]
            exact EventTime.isCandidate_iff.2 hlmem
        · exact .refuse
      · exact .refuse
    · exact .refuse
  · exact .refuse

/-- A closed window between timestamps of both inputs, with the root keys of both
if it comes from a root entity. -/
structure ClosedWindow.FitsIn (window : ClosedWindow) (j : JoinInputs) : Prop where
  streams : j.areTimedStreams = true
  left : window.leftTime < j.left.width ∧ window.leftTime ∈ j.left.time.columns
  right : j.left.width ≤ window.rightTime ∧
    window.rightTime - j.left.width ∈ j.right.time.columns
  rootKeys : ∀ k, window.rootKeys = some k → k ≤ j.left.key.sources ∧ k ≤ j.right.key.sources

theorem writtenBounds_safe (h : j.FitsIn catalog n) :
    Safe allowed j.writtenBounds fun out => j.areTimedStreams = true ∧
      (∀ b ∈ out.1, JoinCondition.BoundFits j.left.width n (isTimestamp j.left j.right) b) ∧
      ∀ k, out.2 = some k → k ≤ j.left.key.sources ∧ k ≤ j.right.key.sources := by
  unfold writtenBounds
  by_cases hs : j.areTimedStreams = true
  · simp only [hs, Bool.not_true, Bool.false_eq_true, if_false]
    split
    · exact .ok ⟨trivial, h.parts.timeBounds, by rintro _ ⟨⟩⟩
    · refine (rootBound_safe h hs).bind fun ⟨bound, k⟩ ⟨hb, hl, hr⟩ => ?_
      refine .ok ⟨trivial, fun b hmem => ?_, by rintro _ ⟨⟩; exact ⟨hl, hr⟩⟩
      rw [List.mem_singleton.1 hmem]
      exact hb
  · simp only [hs, Bool.not_false, if_true]
    exact .refuse

theorem close_columns {bounds : List TimeBound} {window : TimeWindow} {rootKeys : Option Nat}
    {closed : ClosedWindow} (h : close bounds window rootKeys = .ok closed) :
    window.columns = some (closed.leftTime, closed.rightTime) ∧ closed.rootKeys = rootKeys := by
  unfold close at h
  split at h
  · rename_i hc _ _; cases h; exact ⟨hc, rfl⟩
  · rename_i hc _ _; cases h; exact ⟨hc, rfl⟩
  · rename_i hc _ _; cases h; exact ⟨hc, rfl⟩
  · exact absurd h refuse_ne_ok

theorem close_safe {bounds : List TimeBound} {window : TimeWindow} {rootKeys : Option Nat} :
    Safe allowed (close bounds window rootKeys) fun closed =>
      close bounds window rootKeys = .ok closed := by
  refine ⟨fun f hf => ?_, fun closed h => h⟩
  unfold close at hf
  split at hf <;> cases hf

/-- **The window of a join** is between timestamps of both inputs. -/
theorem closedWindow_safe (h : j.FitsIn catalog n)
    (hl : Millis.greatest < n → allowed .arithmeticOverflow) :
    Safe allowed j.closedWindow fun window => window.FitsIn j := by
  unfold closedWindow
  refine (writtenBounds_safe h).bind fun ⟨bounds, rootKeys⟩ ⟨hs, hb, hk⟩ => ?_
  refine (TimeWindow.ofBounds_safe hb hl).bind fun window hw => ?_
  refine close_safe.mono fun closed hclosed => ?_
  obtain ⟨hcols, hroot⟩ := close_columns hclosed
  obtain ⟨hlt, hrt, hlts, hrts⟩ := hw _ _ hcols
  rw [isTimestamp_left hlt] at hlts
  rw [isTimestamp_right hrt] at hrts
  exact ⟨hs, ⟨hlt, EventTime.isCandidate_iff.1 hlts⟩, ⟨hrt, EventTime.isCandidate_iff.1 hrts⟩,
    fun k hc => hk k (hroot ▸ hc)⟩

/-- The timestamp of the result is one of either input. -/
theorem intervalTime_gives {window : ClosedWindow} (h : j.FitsIn catalog n)
    (hw : window.FitsIn j) : Gives (j.intervalTime window) fun time =>
      ∀ i ∈ time.columns, i < j.width := by
  have hleft : window.leftTime < j.width := Nat.lt_of_lt_of_le hw.left.1 (Nat.le_add_right _ _)
  unfold intervalTime
  simp only
  -- the timestamp of the result is of the left or of the right input, and its position says which
  generalize hcol : (if (j.kind = .left || !window.rightLeads) = true then window.leftTime
    else window.rightTime) = column
  split
  · rename_i hlt
    have hmem : column ∈ j.left.time.columns := by
      split at hcol
      · exact hcol ▸ hw.left.2
      · have := hw.right.1
        omega
    refine (EventTime.fix_gives hmem).mono fun time ht i hi => ?_
    rw [ht, List.mem_singleton] at hi
    exact hi ▸ Nat.lt_of_lt_of_le hlt (Nat.le_add_right _ _)
  · rename_i hge
    have hmem : column ∈ (j.right.time.shift j.left.width).columns := by
      rw [EventTime.columns_shift, List.mem_map]
      split at hcol
      · have := hw.left.1
        omega
      · exact ⟨window.rightTime - j.left.width, hw.right.2, by have := hw.right.1; omega⟩
    refine (EventTime.fix_gives hmem).mono fun time ht i hi => ?_
    rw [ht, List.mem_singleton] at hi
    rw [EventTime.columns_shift, List.mem_map] at hmem
    obtain ⟨c, hc, hcw⟩ := hmem
    have := h.right.time c hc
    rw [hi, JoinInputs.width]
    omega

theorem intervalKey_gives {rootKeys : Option Nat} (h : j.FitsIn catalog n)
    (hk : ∀ k, rootKeys = some k → k ≤ j.right.key.sources) :
    Gives (j.intervalKey rootKeys) fun key =>
      key.width = j.width ∧ j.left.key.sources ≤ key.sources := by
  unfold intervalKey
  split
  · rename_i k
    rw [if_neg (Nat.not_lt.2 (hk k rfl))]
    have hle : j.left.key.width ≤ j.width := by rw [h.left.key]; exact Nat.le_add_right _ _
    refine (ColumnMap.extend_gives hle fun t ht => ?_).mono fun key hkey => ⟨hkey.2, ?_⟩
    · obtain ⟨c, hc, rfl⟩ := List.mem_map.1 ht
      have := h.right.key_lt c (List.mem_of_mem_drop hc)
      rw [JoinInputs.width]
      omega
    · rw [ColumnMap.sources, ColumnMap.sources, hkey.1, List.length_append]
      exact Nat.le_add_right _ _
  · refine (ColumnMap.joinAt_gives (Nat.le_of_eq h.left.key)).mono fun key hkey => ⟨?_, ?_⟩
    · rw [hkey.2, h.right.key]; rfl
    · rw [ColumnMap.sources, ColumnMap.sources, hkey.1, List.length_append]
      exact Nat.le_add_right _ _

/-- **The plan of a join within a window** shows the columns of both inputs. -/
theorem intervalPlan_safe {window : ClosedWindow} (h : j.FitsIn catalog n) (hw : window.FitsIn j) :
    Safe allowed (j.intervalPlan window) fun out =>
      out.WellFormed catalog n ∧
        out.select.sources = j.left.select.sources + j.right.select.sources := by
  unfold intervalPlan
  refine j.left.withoutPending_safe.bind fun left hleft => ?_
  obtain ⟨hls, -, -⟩ := hleft
  refine j.right.withoutPending_safe.bind fun right hright => ?_
  obtain ⟨hrs, -, -⟩ := hright
  have hsides : j.Settled left right := ⟨hls, hrs⟩
  have hl := hls.wellFormed h.left
  have hr := hrs.wellFormed h.right
  refine (Plan.require_safe j.needs .intervalJoin).bind fun needs _ => ?_
  simp only
  refine (Safe.lift (intervalTime_gives h hw).bounded).bind fun time htime => ?_
  have hkey := intervalKey_gives h fun k hk => (hw.rootKeys k hk).2
  refine (Safe.lift hkey.bounded).bind fun key hkeys => ?_
  obtain ⟨hkw, hks⟩ := hkeys
  refine (Safe.lift (Plan.ofRel_gives (by simp)).bounded).bind fun plan hplan => ?_
  obtain ⟨m, -, -, rfl⟩ := hplan
  refine (Safe.lift (hsides.select_gives h).bounded).bind fun select hselect => ?_
  obtain ⟨hsw, hsources⟩ := hselect
  refine .ok ⟨⟨⟨?_, ?_, (by rintro ⟨⟩), (by rintro ⟨⟩), ?_, (by rintro f ⟨⟩), ?_,
    (fun i hi => by cases hi)⟩, join_fields hl hr, ?_, (by rintro l ⟨⟩), (by rintro f ⟨⟩),
    fun hst => absurd rfl hst.2⟩, hsources⟩
  · exact hkw.trans (hsides.width_join _ _ _).symm
  · exact hsw.trans (hsides.width_join _ _ _).symm
  · exact fun i hi => Nat.lt_of_lt_of_eq (htime i hi) (hsides.width_join _ _ _).symm
  · exact fun i hi => Nat.lt_of_lt_of_eq (hsides.sort_lt h i hi) (hsides.width_join _ _ _).symm
  · rintro - k hk
    exact Nat.le_trans (hw.rootKeys k hk).1 hks

/-- **The join within a bounded time**, if the inputs fit, faults by overflow alone. -/
theorem intervalJoin?_safe (h : j.FitsIn catalog n)
    (hl : Millis.greatest < n → allowed .arithmeticOverflow) :
    Safe allowed j.intervalJoin? fun o => ∀ out, o = some out →
      out.WellFormed catalog n ∧
        out.select.sources = j.left.select.sources + j.right.select.sources := by
  have hwindow := closedWindow_safe h hl
  unfold intervalJoin?
  split
  · rename_i window hw
    refine (intervalPlan_safe h (hwindow.2 window hw)).bind fun plan hplan => ?_
    exact .ok (by rintro _ ⟨⟩; exact hplan)
  · split
    · exact .refuse
    · exact .ok (by rintro _ ⟨⟩)
  · rename_i fault hf
    exact ⟨fun f he => by cases he; exact hwindow.1 fault hf, fun _ ho => by cases ho⟩

end JoinInputs

end StreamPlan
