import StreamPlan.Proofs.EventTime.Meaning

/-!
# Ends of time buckets

A grid of buckets cuts time into cells of one width, numbered from the cell at its offset on.

* `Bucket.Covers`, `SameCell`: times in a cell, and in the same one.
* `Bucket.endOf_bounded`: the end of a bucket is the last millisecond of its cell, or it leaves
  64 bits.
* `NowFilter.holdsOf_of_widen`: a now-filter that moved to the end of a bucket, and back.
* `Bucket.endOf_grid`: **ends of buckets are a grid** that lies at most a width ahead of time, and a
  now-filter moved onto it loses no row and admits rows at most two widths beyond its bound.
-/

namespace StreamPlan

namespace Bucket

variable {bucket : Bucket} {t u first last k l : Int}

/-- A time in a cell of the grid. -/
def Covers (bucket : Bucket) (k t : Int) : Prop :=
  bucket.offset + k * bucket.width ≤ t ∧ t < bucket.offset + (k + 1) * bucket.width

/-- Two times in one cell of the grid. -/
def SameCell (bucket : Bucket) (t u : Int) : Prop := ∃ k, bucket.Covers k t ∧ bucket.Covers k u

/-- The last millisecond of a cell. -/
def lastOf (bucket : Bucket) (k : Int) : Int := bucket.offset + (k + 1) * bucket.width - 1

/-- Later times are in later cells. -/
theorem Covers.le_of_le (hw : 0 < bucket.width) (ht : bucket.Covers k t) (hu : bucket.Covers l u)
    (h : t ≤ u) : k ≤ l := by
  by_contra hlt
  have hcells : (l + 1) * bucket.width ≤ k * bucket.width :=
    Int.mul_le_mul_of_nonneg_right (by omega) (by omega)
  obtain ⟨hlow, -⟩ := ht
  obtain ⟨-, hhigh⟩ := hu
  omega

/-- A time is in one cell only. -/
theorem Covers.unique (hw : 0 < bucket.width) (hk : bucket.Covers k t) (hl : bucket.Covers l t) :
    k = l :=
  Int.le_antisymm (hk.le_of_le hw hl (Int.le_refl t)) (hl.le_of_le hw hk (Int.le_refl t))

theorem lastOf_eq : bucket.lastOf k = bucket.offset + k * bucket.width + bucket.width - 1 := by
  rw [lastOf, Int.add_mul, Int.one_mul, Int.add_assoc]

/-- The last millisecond of a cell is in it. -/
theorem covers_lastOf (hw : 0 < bucket.width) : bucket.Covers k (bucket.lastOf k) := by
  refine ⟨?_, ?_⟩
  · rw [lastOf_eq]
    omega
  · rw [lastOf]
    omega

/-- Later cells end later. -/
theorem lastOf_le_lastOf (hw : 0 < bucket.width) (h : k ≤ l) : bucket.lastOf k ≤ bucket.lastOf l := by
  have hcells : (k + 1) * bucket.width ≤ (l + 1) * bucket.width :=
    Int.mul_le_mul_of_nonneg_right (by omega) (by omega)
  rw [lastOf, lastOf]
  omega

/-- The last millisecond of a cell is less than a width away from every time in it. -/
theorem Covers.le_lastOf (h : bucket.Covers k t) :
    t ≤ bucket.lastOf k ∧ bucket.lastOf k ≤ t + bucket.width - 1 := by
  obtain ⟨hlow, hhigh⟩ := h
  refine ⟨?_, ?_⟩
  · rw [lastOf]
    omega
  · rw [lastOf_eq]
    omega

/-- The cell of a time by division. -/
theorem covers_div (hw : 0 < bucket.width) (t : Int) :
    bucket.Covers ((t - bucket.offset) / bucket.width) t := by
  have hdiv := Int.ediv_mul_add_emod (t - bucket.offset) bucket.width
  have hlow := Int.emod_nonneg (t - bucket.offset) (show bucket.width ≠ 0 by omega)
  have hhigh := Int.emod_lt_of_pos (t - bucket.offset) hw
  refine ⟨by omega, ?_⟩
  rw [Int.add_mul, Int.one_mul]
  omega

/-- **The end of a bucket** of positive width is the last millisecond of its cell, or it leaves
64 bits. -/
theorem endOf_bounded (hw : 0 < bucket.width) (t : Int) :
    Bounded (· = .arithmeticOverflow) (bucket.endOf t) fun last =>
      ∃ k, bucket.Covers k t ∧ last = bucket.lastOf k := by
  have hexact : ∀ x : Int, Bounded (· = .arithmeticOverflow) (Millis.checked x) (· = x) := fun x =>
    Millis.checked_bounded (Nat.le_refl _) fun _ => rfl
  unfold endOf
  refine (hexact _).bind fun shifted hshifted => ?_
  have hcell : Millis.cell shifted bucket.width = Millis.checked (shifted / bucket.width) :=
    if_neg (by omega)
  rw [hcell]
  refine (hexact _).bind fun cell hcell => ?_
  refine (hexact _).bind fun start hstart => ?_
  refine (hexact _).bind fun first hfirst => ?_
  refine (hexact _).bind fun next hnext => ?_
  refine (hexact _).mono fun last hlast => ⟨_, covers_div hw t, ?_⟩
  rw [lastOf_eq, ← hshifted, ← hcell, ← hstart]
  omega

/-- The end of a bucket exists, or it leaves 64 bits. -/
theorem endOf_ok_or_overflow (hw : 0 < bucket.width) (t : Int) :
    (∃ last, bucket.endOf t = .ok last) ∨ bucket.endOf t = .error .arithmeticOverflow := by
  cases h : bucket.endOf t with
  | ok last => exact .inl ⟨last, rfl⟩
  | error fault => exact .inr (congrArg Except.error ((endOf_bounded hw t).1 fault h))

/-- The end of a bucket is less than a width away. -/
theorem endOf_bounds (hw : 0 < bucket.width) (h : bucket.endOf t = .ok last) :
    t ≤ last ∧ last < t + bucket.width := by
  obtain ⟨k, hk, rfl⟩ := (endOf_bounded hw t).2 last h
  obtain ⟨hlow, hhigh⟩ := hk.le_lastOf
  exact ⟨hlow, by omega⟩

/-- The end of a bucket is the end of its own bucket. -/
theorem endOf_last (hw : 0 < bucket.width) {again : Int} (h : bucket.endOf t = .ok last)
    (hagain : bucket.endOf last = .ok again) : again = last := by
  obtain ⟨k, -, rfl⟩ := (endOf_bounded hw t).2 last h
  obtain ⟨l, hl, rfl⟩ := (endOf_bounded hw _).2 again hagain
  rw [hl.unique hw (covers_lastOf hw)]

/-- Ends of buckets are in the order of the times. -/
theorem endOf_mono (hw : 0 < bucket.width) (hfirst : bucket.endOf t = .ok first)
    (hlast : bucket.endOf u = .ok last) (h : t ≤ u) : first ≤ last := by
  obtain ⟨k, hk, rfl⟩ := (endOf_bounded hw t).2 first hfirst
  obtain ⟨l, hl, rfl⟩ := (endOf_bounded hw u).2 last hlast
  exact lastOf_le_lastOf hw (hk.le_of_le hw hl h)

/-- Buckets have one end if and only if they are one cell. -/
theorem endOf_eq_iff (hw : 0 < bucket.width) (hfirst : bucket.endOf t = .ok first)
    (hlast : bucket.endOf u = .ok last) : first = last ↔ bucket.SameCell t u := by
  obtain ⟨k, hk, rfl⟩ := (endOf_bounded hw t).2 first hfirst
  obtain ⟨l, hl, rfl⟩ := (endOf_bounded hw u).2 last hlast
  constructor
  · intro hends
    have hcovers : bucket.Covers k (bucket.lastOf l) := hends ▸ covers_lastOf hw
    have hkl : k = l := hcovers.unique hw (covers_lastOf hw)
    exact ⟨k, hk, hkl ▸ hl⟩
  · rintro ⟨m, ht, hu⟩
    rw [hk.unique hw ht, hl.unique hw hu]

end Bucket

namespace NowFilter

variable {filter wide : NowFilter} {now t last : Int}

/-- What a now-filter says of a time. -/
def HoldsOf (now : Int) (filter : NowFilter) (t : Int) : Prop :=
  filter.comparison.op.OnTimes t (now - filter.interval)

/-- A wider filter has its bound moved in the direction that keeps more. -/
theorem widen_eq_ok {millis : Int} (h : filter.widen millis = .ok wide) :
    wide = { filter with
      interval := if filter.isRecent then filter.interval + millis else filter.interval - millis } := by
  unfold widen at h
  split at h <;> obtain ⟨interval, hinterval, h⟩ := bind_eq_ok.1 h <;> cases h
  · rename_i hrecent
    rw [if_pos hrecent, Millis.eq_of_checked hinterval]
  · rename_i hold
    rw [if_neg hold, Millis.eq_of_checked hinterval]

theorem timestamp_of_widen {millis : Int} (h : filter.widen millis = .ok wide) :
    wide.timestamp = filter.timestamp := by
  rw [widen_eq_ok h]

/-- **A wider filter keeps times that moved** to another column and up to a width ahead, and back
again if it is wider by another width. -/
theorem holdsOf_of_widen {output : Nat} {width : Int} (hlow : t ≤ last) (hhigh : last < t + width)
    (hwide : widen { filter with timestamp := output } width = .ok wide) :
    (filter.HoldsOf now t → wide.HoldsOf now last) ∧
      ∀ twice, filter.widen (2 * width) = .ok twice → wide.HoldsOf now last → twice.HoldsOf now t := by
  obtain rfl := widen_eq_ok hwide
  obtain ⟨ts, comparison, interval⟩ := filter
  refine ⟨?_, fun twice htwice => ?_⟩
  · cases comparison <;>
      simp only [HoldsOf, isRecent, NowComparison.isRecent, NowComparison.op, BinaryOp.OnTimes,
        if_true, if_false, Bool.false_eq_true] <;>
      omega
  · obtain rfl := widen_eq_ok htwice
    cases comparison <;>
      simp only [HoldsOf, isRecent, NowComparison.isRecent, NowComparison.op, BinaryOp.OnTimes,
        if_true, if_false, Bool.false_eq_true] <;>
      omega

/-- A now-filter keeps the rows of whose time it holds. -/
theorem holds_iff_holdsOf {row : Row} (h : row[filter.timestamp]? = some (.timestamp t)) :
    filter.Holds now row ↔ filter.HoldsOf now t := by
  simp only [Holds, Row.timeAt_eq_some.2 h, HoldsOf, Option.some.injEq, exists_eq_left']

/-- The expression of a now-filter on a time says what the filter says of it. -/
theorem expr_means_holdsOf {row : Row} (h : row[filter.timestamp]? = some (.timestamp t)) :
    Means (evalExpr now row filter.expr) (filter.HoldsOf now t) :=
  (expr_means ⟨_, h, .inr ⟨t, rfl⟩⟩).congr (holds_iff_holdsOf h)

end NowFilter

namespace Bucket

/-- **Ends of buckets are a grid.** For every grid of positive width and every offset:

* the end of a bucket, unless it leaves 64 bits, is not before its time, less than a width after it,
  and its own end;
* ends are in the order of their times, and two of them are one exactly for times in one cell;
* a now-filter that is moved onto the end of a bucket and widened by the width is true on every row
  that the filter was true on, and where it is true the filter widened by two widths is. -/
theorem endOf_grid {bucket : Bucket} (hw : 0 < bucket.width) :
    (∀ t, bucket.endOf t = .error .arithmeticOverflow ∨ ∃ last, bucket.endOf t = .ok last ∧
      t ≤ last ∧ last ≤ t + bucket.width - 1 ∧
      (bucket.endOf last = .error .arithmeticOverflow ∨ bucket.endOf last = .ok last)) ∧
    (∀ t u first last, bucket.endOf t = .ok first → bucket.endOf u = .ok last →
      (t ≤ u → first ≤ last) ∧ (first = last ↔ bucket.SameCell t u)) ∧
    ∀ (now t last : Int) (filter wide : NowFilter) (output : Nat) (row above : Row),
      row[filter.timestamp]? = some (.timestamp t) → bucket.endOf t = .ok last →
      above[output]? = some (.timestamp last) →
      NowFilter.widen { filter with timestamp := output } bucket.width = .ok wide →
      (evalExpr now row filter.expr = .ok (.boolean true) →
        evalExpr now above wide.expr = .error (.fault .arithmeticOverflow) ∨
          evalExpr now above wide.expr = .ok (.boolean true)) ∧
      (evalExpr now above wide.expr = .ok (.boolean true) →
        ∀ twice, filter.widen (2 * bucket.width) = .ok twice →
          evalExpr now row twice.expr = .error (.fault .arithmeticOverflow) ∨
            evalExpr now row twice.expr = .ok (.boolean true)) := by
  refine ⟨fun t => ?_, fun t u first last hfirst hlast =>
    ⟨endOf_mono hw hfirst hlast, endOf_eq_iff hw hfirst hlast⟩, ?_⟩
  · rcases endOf_ok_or_overflow hw t with ⟨last, hlast⟩ | hover
    · obtain ⟨hlow, hhigh⟩ := endOf_bounds hw hlast
      refine .inr ⟨last, hlast, hlow, by omega, ?_⟩
      rcases endOf_ok_or_overflow hw last with ⟨again, hagain⟩ | hover
      · exact .inr (endOf_last hw hlast hagain ▸ hagain)
      · exact .inl hover
    · exact .inl hover
  · intro now t last filter wide output row above hrow hlast habove hwide
    obtain ⟨hlow, hhigh⟩ := endOf_bounds hw hlast
    have hts : wide.timestamp = output := NowFilter.timestamp_of_widen hwide
    have hbelow : Means (evalExpr now row filter.expr) (filter.HoldsOf now t) :=
      NowFilter.expr_means_holdsOf hrow
    have hmoved : Means (evalExpr now above wide.expr) (wide.HoldsOf now last) :=
      NowFilter.expr_means_holdsOf (hts ▸ habove)
    refine ⟨fun htrue => ?_, fun htrue twice htwice => ?_⟩
    · have hkeeps := (NowFilter.holdsOf_of_widen hlow hhigh hwide).1 ((hbelow.of_ok htrue).1 rfl)
      exact hmoved.eq_true hkeeps
    · have hts' : twice.timestamp = filter.timestamp := NowFilter.timestamp_of_widen htwice
      have hback : Means (evalExpr now row twice.expr) (twice.HoldsOf now t) :=
        NowFilter.expr_means_holdsOf (hts' ▸ hrow)
      have hadmits := (NowFilter.holdsOf_of_widen hlow hhigh hwide).2 twice htwice
        ((hmoved.of_ok htrue).1 rfl)
      exact hback.eq_true hadmits

/-- A grid of ten milliseconds that is shifted by three: a time before the epoch, the time one cell
earlier, and a filter of old rows that moves onto the ends of their buckets. -/
theorem endOf_grid_shifted :
    let grid : Bucket := ⟨10, 3⟩
    let filter : NowFilter := ⟨0, .lt, 5⟩
    let wide : NowFilter := ⟨1, .lt, -5⟩
    0 < grid.width ∧ grid.endOf (-25) = .ok (-18) ∧ grid.endOf (-18) = .ok (-18) ∧
      grid.endOf (-28) = .ok (-28) ∧ ¬grid.SameCell (-28) (-25) ∧
      NowFilter.widen { filter with timestamp := 1 } grid.width = .ok wide ∧
      evalExpr (-19) [.timestamp (-25)] filter.expr = .ok (.boolean true) ∧
      evalExpr (-19) [.null, .timestamp (-18)] wide.expr = .ok (.boolean true) := by
  intro grid filter wide
  have hw : 0 < grid.width := by decide
  obtain ⟨hends, hcells, hfilters⟩ := endOf_grid hw
  have hfilter : evalExpr (-19) [.timestamp (-25)] filter.expr = .ok (.boolean true) := rfl
  refine ⟨hw, rfl, rfl, rfl, ?_, rfl, hfilter, ?_⟩
  · rw [← (hcells (-28) (-25) (-28) (-18) rfl rfl).2]
    decide
  · obtain ⟨hkeeps, -⟩ := hfilters (-19) (-25) (-18) filter wide 1 [.timestamp (-25)]
      [.null, .timestamp (-18)] rfl rfl rfl rfl
    exact (hkeeps hfilter).resolve_left nofun

end Bucket

end StreamPlan
