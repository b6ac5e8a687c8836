import StreamPlan.Proofs.Answers.JoinCondition

/-!
# The limits of a time window

Each bound between a left and a right time limits right time less left time from one
side, or from both if it is an equality. A window gathers at most one limit of each side.

* `TimeBound.Limits`: the limits that a bound sets.
* `TimeWindow.add_eq_ok`: what one more bound does to a window.
* `TimeWindow.gathers_of_ofBounds`: **the window of bounds** has their limits.
* `JoinInputs.ClosedWindow.Limited`, `limited_of_close`: the bounds of a closed window
  limit the distance from both sides.
-/

namespace StreamPlan

variable {now : Int} {row : Row} {leftWidth lt rt : Nat}

/-- A side of a window of time. -/
inductive Side where
  | lower
  | upper

/-- The other side. -/
def Side.opposite : Side → Side
  | lower => upper
  | upper => lower

/-- The limit of a side that no bound sets. -/
def Side.openLimit : Side → Int
  | lower => -unboundedMillis
  | upper => unboundedMillis

theorem Side.eq_or_eq_opposite (side other : Side) : other = side ∨ other = side.opposite := by
  cases side <;> cases other <;> simp [opposite]

theorem BoundComparison.holds_iff {comparison : BoundComparison} {distance millis : Int} :
    comparison.Holds distance millis ↔
      (distance ≤ millis ∧ comparison ≠ .lt ∨ distance < millis) ∧
        (comparison = .eq → millis ≤ distance) := by
  cases comparison <;> simp only [Holds] <;> simp <;> omega

namespace TimeBound

variable {bound : TimeBound} {limits : Side → Option Int}

/-- The limit that an equality sets on its other side. -/
def otherLimit (bound : TimeBound) (limit : Int) : Option Int :=
  if bound.isEquality then some limit else none

theorem mem_otherLimit {limit x : Int} :
    x ∈ bound.otherLimit limit ↔ bound.comparison = .eq ∧ x = limit := by
  unfold otherLimit isEquality
  split
  · rename_i h
    simp_all [eq_comm]
  · simp_all

/-- A bound says how late a time may be, if it is an equality or its larger operand. -/
def Caps (column : Nat) (bound : TimeBound) : Prop :=
  bound.isEquality = true ∨ bound.larger = .column column

/-- The limits of a bound with the larger operand on the right. -/
def limitsAbove (bound : TimeBound) (value : Int) : Side → Option Int
  | .lower => bound.otherLimit value
  | .upper => some value

/-- The limits of a bound with the larger operand on the left. -/
def limitsBelow (bound : TimeBound) (value : Int) : Side → Option Int
  | .lower => some value
  | .upper => bound.otherLimit value

/-- The limits that a bound sets on the time at `rt` less the time at `lt`. -/
inductive Limits (lt rt : Nat) (bound : TimeBound) : (Side → Option Int) → Prop
  | above : bound.larger = .column rt → bound.smaller = .column lt →
      Limits lt rt bound (bound.limitsAbove bound.millis)
  | below : bound.larger = .column lt → bound.smaller = .column rt →
      Limits lt rt bound (bound.limitsBelow (-bound.millis))

namespace Limits

/-- A bound that limits the lower side caps the left time, and one that limits the upper
side the right time. -/
theorem caps (h : bound.Limits lt rt limits) :
    (∀ x ∈ limits .lower, bound.Caps lt) ∧ ∀ x ∈ limits .upper, bound.Caps rt := by
  have hother : ∀ {limit x : Int} {column : Nat}, x ∈ bound.otherLimit limit → bound.Caps column :=
    fun hx => .inl (decide_eq_true (mem_otherLimit.1 hx).1)
  cases h with
  | above hl hs => exact ⟨fun _ hx => hother hx, fun _ _ => .inr hl⟩
  | below hl hs => exact ⟨fun _ _ => .inr hl, fun _ hx => hother hx⟩

/-- The columns of a bound are those of its times. -/
theorem columns (h : bound.Limits lt rt limits) :
    bound.columns = [rt, lt] ∨ bound.columns = [lt, rt] := by
  cases h with
  | above hl hs => exact .inl (by rw [TimeBound.columns, hl, hs]; rfl)
  | below hl hs => exact .inr (by rw [TimeBound.columns, hl, hs]; rfl)

/-- They hold times or nulls if those of the two times do. -/
theorem timed (h : bound.Limits lt rt limits) (hl : row.Timed lt) (hr : row.Timed rt) :
    ∀ i ∈ bound.columns, row.Timed i := by
  rcases h.columns with he | he <;> rw [he] <;> simp [hl, hr]

/-- The distance of times of which a bound holds is within its limits. -/
theorem within (h : bound.Limits lt rt limits) (hb : bound.Holds now row) :
    ∃ s t, row.timeAt lt = some s ∧ row.timeAt rt = some t ∧
      (∀ x ∈ limits .lower, x ≤ t - s) ∧ ∀ x ∈ limits .upper, t - s ≤ x := by
  obtain ⟨a, b, ha, hb, hab⟩ := hb
  rw [BoundComparison.holds_iff] at hab
  cases h with
  | above hl hs =>
    rw [hl] at ha
    rw [hs] at hb
    refine ⟨b, a, hb, ha, fun x hx => ?_, fun x hx => ?_⟩
    · obtain ⟨he, rfl⟩ := mem_otherLimit.1 hx
      exact hab.2 he
    · cases hx
      omega
  | below hl hs =>
    rw [hl] at ha
    rw [hs] at hb
    refine ⟨a, b, ha, hb, fun x hx => ?_, fun x hx => ?_⟩
    · cases hx
      omega
    · obtain ⟨he, rfl⟩ := mem_otherLimit.1 hx
      have := hab.2 he
      omega

/-- A bound holds of times whose distance is inside its limits, and one that is an
equality where the distance is the limit. -/
theorem holds {s t : Int} (h : bound.Limits lt rt limits) (hs : row.timeAt lt = some s)
    (ht : row.timeAt rt = some t)
    (hin : ((∀ x ∈ limits .lower, x < t - s) ∧ ∀ x ∈ limits .upper, t - s < x) ∨
      bound.comparison = .eq ∧ ∀ side, ∀ x ∈ limits side, t - s = x) : bound.Holds now row := by
  cases h with
  | above hl hsm =>
    refine ⟨t, s, by rw [hl]; exact ht, by rw [hsm]; exact hs, BoundComparison.holds_iff.2 ?_⟩
    rcases hin with ⟨hlower, hupper⟩ | ⟨he, hexact⟩
    · have hlt := hupper _ rfl
      refine ⟨.inr hlt, fun he => ?_⟩
      have := hlower _ (mem_otherLimit.2 ⟨he, rfl⟩)
      omega
    · have := hexact .upper _ rfl
      rw [he]
      exact ⟨.inl ⟨by omega, by decide⟩, fun _ => by omega⟩
  | below hl hsm =>
    refine ⟨s, t, by rw [hl]; exact hs, by rw [hsm]; exact ht, BoundComparison.holds_iff.2 ?_⟩
    rcases hin with ⟨hlower, hupper⟩ | ⟨he, hexact⟩
    · have hlt := hlower _ rfl
      refine ⟨.inr (by omega), fun he => ?_⟩
      have := hupper _ (mem_otherLimit.2 ⟨he, rfl⟩)
      omega
    · have := hexact .lower _ rfl
      rw [he]
      exact ⟨.inl ⟨by omega, by decide⟩, fun _ => by omega⟩

/-- Each bound limits a side, and an equality limits both. -/
theorem sides (h : bound.Limits lt rt limits) :
    (∃ side, (limits side).isSome) ∧ (bound.comparison = .eq → ∀ side, (limits side).isSome) := by
  cases h with
  | above =>
    refine ⟨⟨.upper, rfl⟩, fun he side => ?_⟩
    cases side
    · exact Option.isSome_iff_exists.2 ⟨_, mem_otherLimit.2 ⟨he, rfl⟩⟩
    · rfl
  | below =>
    refine ⟨⟨.lower, rfl⟩, fun he side => ?_⟩
    cases side
    · rfl
    · exact Option.isSome_iff_exists.2 ⟨_, mem_otherLimit.2 ⟨he, rfl⟩⟩

/-- The inverse of a bound that limits a side alone opens the other side. -/
theorem inverse {side : Side} (h : bound.Limits lt rt limits) (hne : bound.comparison ≠ .eq)
    (hside : (limits side).isSome) :
    ∃ others, (bound.inverse unboundedMillis).Limits lt rt others ∧
      others side = none ∧ others side.opposite = some side.opposite.openLimit := by
  have hnone : ∀ limit, bound.otherLimit limit = none := fun limit =>
    if_neg fun he => hne (of_decide_eq_true he)
  cases h with
  | above hl hs =>
    obtain rfl : side = .upper := by
      cases side
      · cases (congrArg Option.isSome (hnone bound.millis)).symm.trans hside
      · rfl
    exact ⟨_, .below hs hl, rfl, rfl⟩
  | below hl hs =>
    obtain rfl : side = .lower := by
      cases side
      · rfl
      · cases (congrArg Option.isSome (hnone (-bound.millis))).symm.trans hside
    exact ⟨_, .above hs hl, rfl, rfl⟩

end Limits

end TimeBound

namespace TimeWindow

variable {window out : TimeWindow} {bound : TimeBound} {bounds : List TimeBound}

/-- The limit of a side of a window, with the bound that it comes from. -/
def limitAt (window : TimeWindow) : Side → Option (TimeBound × Int)
  | .lower => window.lower
  | .upper => window.upper

/-- A window with the limits that a bound sets on sides that had none. -/
structure Takes (window : TimeWindow) (bound : TimeBound) (limits : Side → Option Int)
    (out : TimeWindow) : Prop where
  columns : out.columns = window.columns
  limitAt : ∀ side, out.limitAt side = ((limits side).map (bound, ·)).or (window.limitAt side)
  free : ∀ side, (limits side).isSome → window.limitAt side = .none

theorem Takes.limitAt_iff {limits : Side → Option Int} (h : window.Takes bound limits out)
    {side : Side} {b : TimeBound} {x : Int} :
    out.limitAt side = some (b, x) ↔
      b = bound ∧ x ∈ limits side ∨ window.limitAt side = some (b, x) := by
  rw [h.limitAt]
  cases hside : limits side with
  | none => simp
  | some y =>
    rw [h.free side (by rw [hside]; rfl)]
    simp [eq_comm]

theorem takes_of_place {rightLarger : Bool} {value : Int}
    (h : place window bound rightLarger value = .ok out) :
    window.Takes bound
      (if rightLarger then bound.limitsAbove value else bound.limitsBelow value) out := by
  unfold place at h
  split at h
  · rename_i he
    -- an equality sets both sides, whichever operand is larger
    have hother : bound.otherLimit value = some value := if_pos he
    have hboth : ∀ side, (if rightLarger then bound.limitsAbove value
        else bound.limitsBelow value) side = some value := by
      intro side
      cases rightLarger <;> cases side <;> first | rfl | exact hother
    split at h
    · cases h
    · rename_i hopen
      cases h
      obtain ⟨hlower, hupper⟩ : window.lower = .none ∧ window.upper = .none := by simpa using hopen
      refine ⟨rfl, fun side => ?_, fun side _ => ?_⟩
      · rw [hboth]
        cases side <;> rfl
      · cases side
        · exact hlower
        · exact hupper
  · rename_i he
    have hother : bound.otherLimit value = .none := if_neg he
    split at h
    · rename_i hright
      split at h
      · cases h
      · rename_i hopen
        cases h
        have hupper : window.upper = .none := by simpa using hopen
        rw [if_pos hright]
        refine ⟨rfl, fun side => ?_, fun side => ?_⟩ <;> cases side <;>
          simp [limitAt, TimeBound.limitsAbove, hother, hupper]
    · rename_i hright
      split at h
      · cases h
      · rename_i hopen
        cases h
        have hlower : window.lower = .none := by simpa using hopen
        rw [if_neg hright]
        refine ⟨rfl, fun side => ?_, fun side => ?_⟩ <;> cases side <;>
          simp [limitAt, TimeBound.limitsBelow, hother, hlower]

/-- **One more bound** is between the columns of the window, and its limits are of sides
that had none. -/
theorem add_eq_ok (h : add leftWidth window bound = .ok out) :
    ∃ lt rt limits, bound.Limits lt rt limits ∧ (∀ c ∈ window.columns, c = (lt, rt)) ∧
      (leftWidth ≤ rt ∨ lt < leftWidth) ∧
      Takes { window with columns := some (lt, rt) } bound limits out := by
  unfold add at h
  split at h
  · rename_i a b ha hb
    have hlarger := TimeOperand.mem_column?.1 (Option.mem_toList.2 ha)
    have hsmaller := TimeOperand.mem_column?.1 (Option.mem_toList.2 hb)
    have hsame : ∀ {columns : Nat × Nat}, ¬window.columns.any (· ≠ columns) = true →
        ∀ c ∈ window.columns, c = columns := by
      intro columns hany c hc
      rw [Option.mem_def.1 hc] at hany
      simpa using hany
    simp only at h
    -- the value counts from the left time to the right one, so it turns with the sides
    by_cases hright : leftWidth ≤ a
    · simp only [hright, decide_true, if_true] at h
      split at h
      · exact absurd h refuse_ne_ok
      · rename_i hcolumns
        obtain ⟨value, hvalue, h⟩ := bind_eq_ok.1 h
        cases orFault_eq_ok.1 hvalue
        exact ⟨b, a, _, .above hlarger hsmaller, hsame hcolumns, .inl hright,
          takes_of_place (orRefuse_eq_ok.1 h)⟩
    · simp only [hright, decide_false, Bool.false_eq_true, if_false] at h
      split at h
      · exact absurd h refuse_ne_ok
      · rename_i hcolumns
        obtain ⟨value, hvalue, h⟩ := bind_eq_ok.1 h
        obtain rfl := Millis.eq_of_checked (orFault_eq_ok.1 hvalue)
        exact ⟨a, b, _, .below hlarger hsmaller, hsame hcolumns,
          .inr (Nat.lt_of_not_le hright), takes_of_place (orRefuse_eq_ok.1 h)⟩
  · exact absurd h refuse_ne_ok

/-- What a window has gathered from bounds: they are all between its columns, and each of
their limits is that of a side. No other bound comes with an equality. -/
structure Gathers (leftWidth : Nat) (bounds : List TimeBound) (window : TimeWindow) : Prop where
  columns : ∀ lt rt, window.columns = some (lt, rt) → leftWidth ≤ rt ∨ lt < leftWidth
  keeps : ∀ b ∈ bounds, ∃ lt rt limits, window.columns = some (lt, rt) ∧ b.Limits lt rt limits ∧
    ∀ side, ∀ x ∈ limits side, ∃ b', window.limitAt side = some (b', x)
  comes : ∀ side b x, window.limitAt side = some (b, x) → b ∈ bounds ∧ ∃ lt rt limits,
    window.columns = some (lt, rt) ∧ b.Limits lt rt limits ∧ x ∈ limits side
  alone : ∀ b ∈ bounds, b.comparison = .eq → ∀ b' ∈ bounds, b'.comparison = .eq

theorem gathers_none : none.Gathers leftWidth [] where
  columns := nofun
  keeps := nofun
  comes side _ _ h := by cases side <;> cases h
  alone := nofun

/-- A bound that comes after others is no equality, and neither are they. -/
theorem Gathers.mixed {limits : Side → Option Int} (hw : window.Gathers leftWidth bounds)
    (hlimits : bound.Limits lt rt limits)
    (hfree : ∀ side, (limits side).isSome → window.limitAt side = .none) :
    ∀ b ∈ bounds, b.comparison ≠ .eq ∧ bound.comparison ≠ .eq := by
  intro b hb
  obtain ⟨_, _, others, -, hothers, hkeep⟩ := hw.keeps b hb
  -- two bounds cannot limit the same side, and an equality limits both
  have hclash : ∀ side, (others side).isSome → (limits side).isSome → False := by
    intro side hother hlimit
    obtain ⟨x, hx⟩ := Option.isSome_iff_exists.1 hother
    obtain ⟨b', hb'⟩ := hkeep side x hx
    cases (hfree side hlimit).symm.trans hb'
  obtain ⟨⟨side, hside⟩, hall⟩ := hlimits.sides
  obtain ⟨⟨other, hother⟩, hothers⟩ := hothers.sides
  exact ⟨fun he => hclash side (hothers he side) hside, fun he => hclash other hother (hall he other)⟩

/-- One more bound is gathered. -/
theorem Gathers.add (hw : window.Gathers leftWidth bounds)
    (h : add leftWidth window bound = .ok out) : out.Gathers leftWidth (bounds ++ [bound]) := by
  obtain ⟨lt, rt, limits, hlimits, hcolumns, hside, htakes⟩ := add_eq_ok h
  have hpair : out.columns = some (lt, rt) := htakes.columns
  have hmixed := hw.mixed hlimits htakes.free
  refine ⟨fun lt' rt' hc => ?_, List.forall_mem_append.2 ⟨fun b hb => ?_, ?_⟩,
    fun side b x hb => ?_, fun b hb he b' hb' => ?_⟩
  · cases hpair.symm.trans hc
    exact hside
  · obtain ⟨_, _, others, hc, hb, hkeep⟩ := hw.keeps b hb
    cases hcolumns _ hc
    exact ⟨lt, rt, others, hpair, hb, fun side x hx =>
      (hkeep side x hx).imp fun _ hb' => htakes.limitAt_iff.2 (.inr hb')⟩
  · exact List.forall_mem_singleton.2 ⟨lt, rt, limits, hpair, hlimits, fun side x hx =>
      ⟨bound, htakes.limitAt_iff.2 (.inl ⟨rfl, hx⟩)⟩⟩
  · rcases htakes.limitAt_iff.1 hb with ⟨rfl, hx⟩ | hb
    · exact ⟨List.mem_append_right _ (List.mem_singleton.2 rfl), lt, rt, limits, hpair, hlimits, hx⟩
    · obtain ⟨hmem, _, _, others, hc, hb, hx⟩ := hw.comes side b x hb
      cases hcolumns _ hc
      exact ⟨List.mem_append_left _ hmem, lt, rt, others, hpair, hb, hx⟩
  · rcases List.mem_append.1 hb with hb | hb
    · exact absurd he (hmixed b hb).1
    · cases List.mem_singleton.1 hb
      rcases List.mem_append.1 hb' with hb' | hb'
      · exact absurd he (hmixed b' hb').2
      · cases List.mem_singleton.1 hb'
        exact he

/-- **The window of bounds** has the limits that they set. -/
theorem gathers_of_ofBounds (h : ofBounds bounds leftWidth = .ok window) :
    window.Gathers leftWidth bounds := by
  unfold ofBounds at h
  obtain ⟨found, hfound, h⟩ := bind_eq_ok.1 h
  split at h
  · exact absurd h refuse_ne_ok
  · cases h
    exact foldlM_run (I := fun done (window : TimeWindow) => window.Gathers leftWidth done)
      gathers_none (fun _ _ _ _ _ hdone hnext => hdone.add hnext) hfound

end TimeWindow

namespace JoinInputs

variable {found : TimeWindow} {bounds : List TimeBound} {rootKeys : Option Nat}

/-- The limit of a side of a closed window. -/
def ClosedWindow.limitAt (window : ClosedWindow) : Side → Int
  | .lower => window.lower
  | .upper => window.upper

/-- The bounds of a closed window set its two limits and no other. -/
structure ClosedWindow.Limited (window : ClosedWindow) : Prop where
  keeps : ∀ b ∈ window.bounds, ∃ limits, b.Limits window.leftTime window.rightTime limits ∧
    ∀ side, ∀ x ∈ limits side, x = window.limitAt side
  reached : ∀ side, ∃ b ∈ window.bounds, ∃ limits,
    b.Limits window.leftTime window.rightTime limits ∧ window.limitAt side ∈ limits side
  alone : ∀ b ∈ window.bounds, b.comparison = .eq → ∀ b' ∈ window.bounds, b'.comparison = .eq

/-- A window that has a limit of each side is closed as it is. -/
theorem limited_of_both {window : ClosedWindow} (hw : found.Gathers leftWidth bounds)
    (hcolumns : found.columns = some (window.leftTime, window.rightTime))
    (hlimits : ∀ side, ∃ b, found.limitAt side = some (b, window.limitAt side))
    (hbounds : window.bounds = bounds) : window.Limited := by
  refine ⟨fun b hb => ?_, fun side => ?_, by rw [hbounds]; exact hw.alone⟩
  · obtain ⟨lt, rt, limits, hc, hb, hkeep⟩ := hw.keeps b (hbounds ▸ hb)
    cases hcolumns.symm.trans hc
    refine ⟨limits, hb, fun side x hx => ?_⟩
    obtain ⟨_, hfound⟩ := hkeep side x hx
    obtain ⟨_, hlimit⟩ := hlimits side
    cases hfound.symm.trans hlimit
    rfl
  · obtain ⟨b, hlimit⟩ := hlimits side
    obtain ⟨hmem, lt, rt, limits, hc, hb, hx⟩ := hw.comes side b _ hlimit
    cases hcolumns.symm.trans hc
    exact ⟨b, hbounds ▸ hmem, limits, hb, hx⟩

/-- If a side of a window is open, all bounds limit the other side alone. -/
theorem limits_of_open {side : Side} {b : TimeBound} {value : Int}
    (hw : found.Gathers leftWidth bounds) (hcolumns : found.columns = some (lt, rt))
    (hset : found.limitAt side = some (b, value)) (hopen : found.limitAt side.opposite = none) :
    ∀ b' ∈ bounds, b'.comparison ≠ .eq ∧ ∃ limits, b'.Limits lt rt limits ∧
      (∀ x ∈ limits side, x = value) ∧ limits side.opposite = none := by
  intro b' hb'
  obtain ⟨_, _, limits, hc, hlimits, hkeep⟩ := hw.keeps b' hb'
  cases hcolumns.symm.trans hc
  have hnone : limits side.opposite = none := by
    refine Option.eq_none_iff_forall_not_mem.2 fun x hx => ?_
    obtain ⟨_, hfound⟩ := hkeep side.opposite x hx
    cases hopen.symm.trans hfound
  refine ⟨fun he => ?_, limits, hlimits, fun x hx => ?_, hnone⟩
  · have hsome := hlimits.sides.2 he side.opposite
    rw [hnone] at hsome
    cases hsome
  · obtain ⟨_, hfound⟩ := hkeep side x hx
    cases hset.symm.trans hfound
    rfl

/-- A window that has a limit of one side is closed by the inverse of the bound that
sets it. -/
theorem limited_of_one {window : ClosedWindow} (side : Side) {b : TimeBound}
    (hw : found.Gathers leftWidth bounds)
    (hcolumns : found.columns = some (window.leftTime, window.rightTime))
    (hset : found.limitAt side = some (b, window.limitAt side))
    (hopen : found.limitAt side.opposite = none)
    (hlimit : window.limitAt side.opposite = side.opposite.openLimit)
    (hbounds : window.bounds = bounds ++ [b.inverse unboundedMillis]) : window.Limited := by
  have hkeeps := limits_of_open hw hcolumns hset hopen
  obtain ⟨hmem, lt, rt, limits, hc, hb, hx⟩ := hw.comes side b _ hset
  cases hcolumns.symm.trans hc
  obtain ⟨others, hinverse, hnone, hother⟩ :=
    hb.inverse (hkeeps b hmem).1 (Option.isSome_iff_exists.2 ⟨_, hx⟩)
  -- the inverse limits the open side, and every other bound the side that was set
  refine ⟨?_, fun other => ?_, ?_⟩
  · rw [hbounds, List.forall_mem_append, List.forall_mem_singleton]
    refine ⟨fun b' hb' => ?_, others, hinverse, fun other y hy => ?_⟩
    · obtain ⟨-, limits, hlimits, hside, hnone⟩ := hkeeps b' hb'
      refine ⟨limits, hlimits, fun other y hy => ?_⟩
      rcases side.eq_or_eq_opposite other with rfl | rfl
      · exact hside y hy
      · cases hnone.symm.trans hy
    · rcases side.eq_or_eq_opposite other with rfl | rfl
      · cases hnone.symm.trans hy
      · cases hother.symm.trans hy
        exact hlimit.symm
  · rw [hbounds]
    rcases side.eq_or_eq_opposite other with rfl | rfl
    · exact ⟨b, List.mem_append_left _ hmem, limits, hb, hx⟩
    · exact ⟨_, List.mem_append_right _ (List.mem_singleton.2 rfl), others, hinverse,
        hlimit ▸ hother⟩
  · rw [hbounds]
    rintro b' hb' he
    rcases List.mem_append.1 hb' with hb' | hb'
    · exact absurd he (hkeeps b' hb').1
    · cases List.mem_singleton.1 hb'
      cases he

/-- **A closed window** is limited by its bounds, and by 999 years on a side where no
bound was found. -/
theorem limited_of_close {window : ClosedWindow} (hw : found.Gathers leftWidth bounds)
    (h : close bounds found rootKeys = .ok window) :
    window.Limited ∧ found.columns = some (window.leftTime, window.rightTime) ∧
      (∀ b ∈ bounds, b ∈ window.bounds) ∧
      ∀ side, found.limitAt side = none → window.limitAt side = side.openLimit := by
  unfold close at h
  -- bounds on both sides, on the lower one alone, on the upper one alone, or on none
  split at h
  · rename_i lt rt lower lowerLimit upper upperLimit hcolumns hlower hupper
    cases h
    refine ⟨limited_of_both hw hcolumns (fun side => ?_) rfl, hcolumns, fun _ hb => hb,
      fun side hnone => ?_⟩
    · cases side
      · exact ⟨lower, hlower⟩
      · exact ⟨upper, hupper⟩
    · cases side
      · cases hlower.symm.trans hnone
      · cases hupper.symm.trans hnone
  · rename_i lt rt bound limit hcolumns hlower hupper
    cases h
    refine ⟨limited_of_one .lower hw hcolumns hlower hupper rfl rfl, hcolumns,
      fun _ hb => List.mem_append_left _ hb, fun side hnone => ?_⟩
    cases side
    · cases hlower.symm.trans hnone
    · rfl
  · rename_i lt rt bound limit hcolumns hlower hupper
    cases h
    refine ⟨limited_of_one .upper hw hcolumns hupper hlower rfl rfl, hcolumns,
      fun _ hb => List.mem_append_left _ hb, fun side hnone => ?_⟩
    cases side
    · rfl
    · cases hupper.symm.trans hnone
  · exact absurd h refuse_ne_ok

end JoinInputs

end StreamPlan
