import StreamPlan.Proofs.Answers.Join
import StreamPlan.Proofs.Entities.Keyed
import StreamPlan.Proofs.Rows.Join

/-!
# Keys of joins

Equality of values is not transitive: one float equals several integers. A row of a
stream may then have several partners in a table, although no two keys of the table are
equal. Keys are therefore told apart by a stronger notion, which joins keep.

* `Value.Apart`: values that are not both null, and that no value equals both of.
* `Value.apart_iff`: **what values are apart**.
* `Row.DifferOn.of_equates`: rows are not apart in columns that a left row equates.
* `pairwise_joined`: **the rows of a join** differ in its key if the left rows do, and
  the partners of each left row.
* `pairwise_partners`: partners are apart in the columns that are not equated.
* `Plan.Keyed`: the key of a plan tells the rows of its tree apart.
* `Plan.Keyed.settle`: so it does after what is pending was applied.
* `Plan.Keyed.join`, `Plan.Keyed.equiJoin`: the key of a join holds the left key, and
  of the right key the columns that the condition does not equate.
* `JoinInputs.MatchesOnce`: inputs that match each left row at most once.
* `JoinInputs.keyed_of_statePlan`, `keyed_of_temporalPlan`, `keyed_of_intervalPlan`: **the
  key of a planned join tells its rows apart** if those of its inputs do. A left join of
  current values has the left key alone, so it must match each left row at most once.
-/

namespace StreamPlan

/-- Values that are not both null, and that no value equals both of. -/
def Value.Apart (v w : Value) : Prop :=
  ¬(v = .null ∧ w = .null) ∧ ∀ x : Value, x.compare? v = some .eq → x.compare? w ≠ some .eq

/-- Values that are apart are not equal. -/
theorem Value.Apart.unequal {v w : Value} (h : v.Apart w) : v.Unequal w := fun he =>
  h.2 w (Value.compare?_eq_symm he) (Value.compare?_self he)

/-- **Values are apart** if they are not both null, nor equal, nor equal as floats. -/
theorem Value.apart_iff {v w : Value} : v.Apart w ↔ (v.isNull && w.isNull) = false ∧
    v.compare? w ≠ some .eq ∧
      (v.asFloat?.bind fun a => w.asFloat?.bind fun b => compareFloats a b) ≠ some .eq := by
  have hnull : ∀ u : Value, u.isNull = true ↔ u = .null := fun u => by cases u <;> simp [isNull]
  have hnot : (v.isNull && w.isNull) = false ↔ ¬(v = .null ∧ w = .null) := by
    rw [← hnull, ← hnull, ← Bool.and_eq_true, Bool.not_eq_true]
  rw [hnot]
  constructor
  · refine fun h => ⟨h.1, h.unequal, fun hfloats => ?_⟩
    obtain ⟨a, ha, hfloats⟩ := Option.bind_eq_some_iff.1 hfloats
    obtain ⟨b, hb, hab⟩ := Option.bind_eq_some_iff.1 hfloats
    refine h.2 (.float a) ?_ ?_
    · rw [compare?_float, ha]
      exact compareFloats_eq_trans hab (compareFloats_eq_symm hab)
    · rw [compare?_float, hb]
      exact hab
  · rintro ⟨hsome, hne, hfloats⟩
    refine ⟨hsome, fun x hv hw => ?_⟩
    -- a value that equals both compares like one of them, or is a number like both
    rcases compare?_eq_cases hv with halike | ⟨a, b, ha, hb, hab⟩
    · exact hne (halike w ▸ hw)
    · rcases compare?_eq_cases hw with halike | ⟨a', c, ha', hc, hac⟩
      · exact hne (compare?_eq_symm (halike v ▸ hv))
      · obtain rfl := Option.some.inj (ha.symm.trans ha')
        refine hfloats ?_
        rw [hb, hc]
        exact compareFloats_eq_trans (compareFloats_eq_symm hab) hac

instance : DecidableRel Value.Apart := fun _ _ => decidable_of_iff _ Value.apart_iff.symm

variable {differ : Value → Value → Prop} {now : Int} {kind : JoinKind} {condition : Expr} {width : Nat}
  {columns key : List Nat} {l l' r r' : Row} {ls rs : List Row}

namespace Row.DifferOn

theorem mono (h : DifferOn differ columns l l') (hsub : columns ⊆ key) : DifferOn differ key l l' := by
  obtain ⟨c, hc, hne⟩ := h
  exact ⟨c, hsub hc, hne⟩

/-- Rows that differ in columns of theirs differ there with other rows behind them. -/
theorem append_left (h : DifferOn differ columns l l') (hl : ∀ c ∈ columns, c < l.length)
    (hl' : ∀ c ∈ columns, c < l'.length) : DifferOn differ columns (l ++ r) (l' ++ r') := by
  obtain ⟨c, hc, hne⟩ := h
  refine ⟨c, hc, ?_⟩
  rwa [List.getElem?_append_left (hl c hc), List.getElem?_append_left (hl' c hc)]

/-- Rows that differ, behind one row. -/
theorem append_right (h : DifferOn differ columns r r') (l : Row) :
    DifferOn differ (columns.map (l.length + ·)) (l ++ r) (l ++ r') := by
  obtain ⟨c, hc, hne⟩ := h
  refine ⟨l.length + c, List.mem_map_of_mem hc, ?_⟩
  rwa [List.getElem?_append_right (Nat.le_add_right _ _), List.getElem?_append_right
    (Nat.le_add_right _ _), Nat.add_sub_cancel_left]

/-- **Rows are not apart in columns that a left row equates.** Then they are apart in
the other ones. -/
theorem of_equates {front back : List Nat} (h : DifferOn Value.Apart (front ++ back) r r')
    (hequates : ∀ t ∈ front, ∃ a < l.length, (l ++ r).equates a (t + l.length) = true ∧
      (l ++ r').equates a (t + l.length) = true) : DifferOn Value.Apart back r r' := by
  obtain ⟨t, ht, hapart⟩ := h
  refine ⟨t, (List.mem_append.1 ht).resolve_left fun ht => ?_, hapart⟩
  obtain ⟨a, ha, heq, heq'⟩ := hequates t ht
  obtain ⟨x, y, hx, hy, hxy⟩ := (Row.equates_append ha).1 heq
  obtain ⟨x', y', hx', hy', hxy'⟩ := (Row.equates_append ha).1 heq'
  obtain rfl := Option.some.inj (hx.symm.trans hx')
  rw [hy, hy'] at hapart
  exact hapart.2 x hxy hxy'

/-- Rows differ where the columns moved to in which other rows differ. -/
theorem of_moved {moved : List Nat} (h : DifferOn differ columns l l')
    (hmoved : List.Forall₂ (fun c i => r[i]? = l[c]? ∧ r'[i]? = l'[c]?) columns moved) :
    DifferOn differ moved r r' := by
  obtain ⟨c, hc, hne⟩ := h
  obtain ⟨i, hi, heq, heq'⟩ := exists_of_mem_left hmoved hc
  exact ⟨i, hi, by rwa [heq, heq']⟩

end Row.DifferOn

/-- **The rows of a join** differ in its key if the left rows do, and the partners of
each left row. -/
theorem pairwise_joined (hls : ls.Pairwise (Row.DifferOn differ columns))
    (hin : ∀ l ∈ ls, ∀ c ∈ columns, c < l.length) (hsub : columns ⊆ key)
    (hpartners : ∀ l ∈ ls, (rs.filter fun r => trueOn now condition (l ++ r)).Pairwise fun r r' =>
      Row.DifferOn differ key (l ++ r) (l ++ r')) :
    (ls.flatMap (joinedWith now kind condition width rs)).Pairwise (Row.DifferOn differ key) := by
  rw [List.pairwise_flatMap]
  constructor
  · intro l hl
    rw [joinedWith]
    split
    · exact List.pairwise_singleton _ _
    · exact List.pairwise_map.2 (hpartners l hl)
  · -- rows of different left rows differ on the left
    refine hls.imp_of_mem fun {l l'} hl hl' hne row hrow other hother => ?_
    obtain ⟨rest, rfl⟩ := front_of_joinedWith hrow
    obtain ⟨rest', rfl⟩ := front_of_joinedWith hother
    exact (hne.append_left (hin l hl) (hin l' hl')).mono hsub

/-- **Partners of a left row** that are apart in a key are apart in the columns of it that
the condition does not equate. -/
theorem pairwise_partners {front back : List Nat}
    (hrs : rs.Pairwise (Row.DifferOn Value.Apart (front ++ back)))
    (hequates : ∀ t ∈ front, ∃ a < l.length, ∀ row, trueOn now condition row = true →
      row.equates a (t + l.length) = true)
    (hsub : back.map (l.length + ·) ⊆ key) :
    (rs.filter fun r => trueOn now condition (l ++ r)).Pairwise fun r r' =>
      Row.DifferOn Value.Apart key (l ++ r) (l ++ r') := by
  refine (hrs.filter _).imp_of_mem fun {r r'} hr hr' hne => ?_
  have htrue := (List.mem_filter.1 hr).2
  have htrue' := (List.mem_filter.1 hr').2
  have hback : Row.DifferOn Value.Apart back r r' := hne.of_equates fun t ht => by
    obtain ⟨a, ha, hequal⟩ := hequates t ht
    exact ⟨a, ha, hequal _ htrue, hequal _ htrue'⟩
  exact (hback.append_right l).mono hsub

/-- Where a left row has at most one partner, its partners differ in any key. -/
theorem pairwise_of_length_le_one {α : Type} {R : α → α → Prop} {xs : List α} (h : xs.length ≤ 1) :
    xs.Pairwise R := by
  match xs, h with
  | [], _ => exact .nil
  | [x], _ => exact List.pairwise_singleton _ _

/-- Lists that correspond item by item differ item by item alike. -/
theorem pairwise_of_forall₂ {α β : Type} {P : α → β → Prop} {R : α → α → Prop} {S : β → β → Prop}
    {xs : List α} {ys : List β} (h : List.Forall₂ P xs ys) (hxs : xs.Pairwise R)
    (hstep : ∀ x x' y y', P x y → P x' y' → R x x' → S y y') : ys.Pairwise S := by
  induction h with
  | nil => exact .nil
  | @cons x y xs ys hxy hrest ih =>
    obtain ⟨hx, hxs⟩ := List.pairwise_cons.1 hxs
    refine List.pairwise_cons.2 ⟨fun y' hy' => ?_, ih hxs⟩
    obtain ⟨x', hx', hx'y'⟩ := exists_of_mem_right hrest hy'
    exact hstep x x' y y' hxy hx'y' (hx x' hx')

end StreamPlan

namespace StreamPlan

namespace Plan

variable {plan out l r : Plan} {fixture : Fixture}

/-- A plan without a ranking, whose key tells the rows of its tree apart. -/
structure Keyed (fixture : Fixture) (plan : Plan) : Prop where
  unranked : plan.topN.isEmpty = true
  apart : ∀ rows, evaluate fixture plan.rel = .ok rows →
    rows.Pairwise (Row.DifferOn Value.Apart plan.key.targets)

theorem Keyed.congr (h : plan.Keyed fixture) (htop : out.topN.isEmpty = true)
    (hrel : out.rel = plan.rel) (hkey : out.key = plan.key) : out.Keyed fixture :=
  ⟨htop, by rw [hrel, hkey]; exact h.apart⟩

/-- **A filter** keeps some of the rows, and the key. -/
theorem Keyed.filter (h : plan.Keyed fixture) {predicate : Expr} (htop : out.topN.isEmpty = true)
    (hrel : out.rel = .filter plan.rel predicate) (hkey : out.key = plan.key) :
    out.Keyed fixture := by
  refine ⟨htop, fun above habove => ?_⟩
  rw [hrel, evaluate] at habove
  obtain ⟨rows, hrows, habove⟩ := bind_eq_ok.1 habove
  obtain ⟨-, rfl⟩ := filterRows_eq_ok.1 habove
  rw [hkey]
  exact (h.apart rows hrows).filter _

/-- An applied now-filter is a filter. -/
theorem Keyed.withoutNowFilter (h : plan.Keyed fixture) (ho : plan.withoutNowFilter = .ok out) :
    out.Keyed fixture := by
  rcases withoutNowFilter_eq_ok ho with ⟨-, rfl⟩ | ⟨f, needs, -, -, rfl⟩
  · exact h
  · exact h.filter h.unranked rfl rfl

/-- Without a ranking none is applied. -/
theorem eq_of_withoutTopN (h : plan.topN.isEmpty = true) (ho : plan.withoutTopN = .ok out) :
    out = plan := by
  rcases withoutTopN_eq_ok ho with ⟨-, rfl⟩ | ⟨_, hne, -⟩
  · rfl
  · rw [h] at hne
    cases hne

theorem Keyed.settle (h : plan.Keyed fixture) (ho : plan.withoutPending = .ok out) :
    out.Keyed fixture := by
  obtain ⟨mid, hmid, ho⟩ := withoutPending_eq_ok.1 ho
  have hkeyed := h.withoutNowFilter hmid
  exact eq_of_withoutTopN hkeyed.unranked ho ▸ hkeyed

theorem Keyed.ready (h : plan.Keyed fixture) (ho : JoinInputs.readyStream plan = .ok out) :
    out.Keyed fixture := JoinInputs.readyStream_keeps h (fun _ => h.settle) ho

section Join

variable {kind : JoinKind} {condition : Expr} {hint : Option JoinHint}
  (hk : kind.keepsRight = false) (hl : l.Keyed fixture) (hs : l.Sound) (hshaped : l.rel.Shaped fixture)
  (hrel : out.rel = .join l.rel r.rel kind condition hint) (htop : out.topN = .none)
include hk hl hs hshaped hrel htop

/-- **The key of a join** tells its rows apart if it holds the left key and tells the
partners of each left row apart. -/
theorem Keyed.join (hsub : l.key.targets ⊆ out.key.targets)
    (hpartners : ∀ ls rs, evaluate fixture l.rel = .ok ls → evaluate fixture r.rel = .ok rs →
      ∀ a ∈ ls, (rs.filter fun b => trueOn fixture.now condition (a ++ b)).Pairwise fun b b' =>
        Row.DifferOn Value.Apart out.key.targets (a ++ b) (a ++ b')) : out.Keyed fixture := by
  refine ⟨by rw [htop]; rfl, fun above habove => ?_⟩
  rw [hrel, evaluate] at habove
  obtain ⟨ls, hls, habove⟩ := bind_eq_ok.1 habove
  obtain ⟨rs, hrs, habove⟩ := bind_eq_ok.1 habove
  obtain ⟨-, rfl⟩ := (joinRows_eq_ok hk).1 habove
  refine pairwise_joined (hl.apart ls hls) (fun a ha c hc => ?_) hsub (hpartners ls rs hls hrs)
  rw [hshaped ls hls a ha]
  exact hs.key_lt c hc

/-- **The key of a join** need not hold the first columns of the right key if the
condition equates them. -/
theorem Keyed.equiJoin (hr : r.Keyed fixture) (n : Nat)
    (hequates : ∀ t ∈ r.key.targets.take n, ∃ a < l.width, ∀ row,
      trueOn fixture.now condition row = true → row.equates a (t + l.width) = true)
    (hsub : l.key.targets ++ (r.key.targets.drop n).map (l.width + ·) ⊆ out.key.targets) :
    out.Keyed fixture := by
  obtain ⟨hleft, hright⟩ := List.append_subset.1 hsub
  refine Keyed.join hk hl hs hshaped hrel htop hleft fun ls rs hls hrs a ha => ?_
  have hlength : a.length = l.width := hshaped ls hls a ha
  have hapart := hr.apart rs hrs
  rw [← List.take_append_drop n r.key.targets] at hapart
  rw [← hlength] at hequates hright
  exact pairwise_partners hapart hequates hright

end Join

end Plan

namespace JoinInputs

variable {fixture : Fixture} {catalog : Catalog} {j : JoinInputs} {left right out : Plan}
  {kind : JoinKind} {condition : Expr}

/-- The equalities of the condition are with every column of the right key, or the
condition is true of each left row and one right row at most. -/
def MatchesOnce (fixture : Fixture) (j : JoinInputs) : Prop :=
  (∀ t ∈ j.right.key.targets, ∃ p ∈ j.parts.equalities, p.2 = t) ∨
    ∀ ls rs, evaluate fixture j.left.settledRel = .ok ls →
      evaluate fixture j.right.settledRel = .ok rs →
        ∀ l ∈ ls, (rs.filter fun r => trueOn fixture.now j.condition (l ++ r)).length ≤ 1

section Rules

variable (hj : of left right kind condition = .ok j) (hsl : left.Sound) (hsr : right.Sound)
  (hrl : left.Regular catalog fixture) (hrr : right.Regular catalog fixture)
  (hl : left.Keyed fixture) (hr : right.Keyed fixture)
include hj hsl hrl hl hr

/-- **A join of current values** has both keys, or the left one if left rows are kept. -/
theorem keyed_of_statePlan (honce : j.plannedKind = .left → j.MatchesOnce fixture)
    (h : j.statePlan = .ok out) : out.Keyed fixture := by
  obtain ⟨rfl, rfl, -, -, hparts⟩ := of_eq_ok hj
  obtain ⟨ls, rs, hint, hleft, hright, -, hrel, -, -, htop, -, hkey⟩ := statePlan_eq_ok h
  have hsettledL := (Plan.withoutPending_settled hleft).1
  have hsettledR := (Plan.withoutPending_settled hright).1
  have hwidth : ls.width = j.left.width := hsettledL.width
  have hlk := hl.settle hleft
  have hsound := hsettledL.sound hsl
  have hshaped := (hrl.settle hleft).shaped
  split at hkey
  · rename_i hkind
    rcases honce hkind with hcovers | hone
    · refine Plan.Keyed.equiJoin j.keepsRight_plannedKind hlk hsound hshaped hrel htop
        (hr.settle hright) rs.key.targets.length (fun t ht => ?_) (by simp [hkey])
      rw [List.take_length, hsettledR.key] at ht
      obtain ⟨p, hp, rfl⟩ := hcovers t ht
      rw [hwidth]
      exact ⟨p.1, JoinCondition.left_of_equality hparts p hp, fun row htrue =>
        JoinCondition.equates_of_trueOn hparts htrue p hp⟩
    · -- the key of the right row is lost, but a left row has one at most
      refine Plan.Keyed.join j.keepsRight_plannedKind hlk hsound hshaped hrel htop
        (by simp [hkey]) fun as bs has hbs a ha => pairwise_of_length_le_one ?_
      rw [Plan.rel_of_withoutPending hleft] at has
      rw [Plan.rel_of_withoutPending hright] at hbs
      exact hone as bs has hbs a ha
  · exact Plan.Keyed.equiJoin j.keepsRight_plannedKind hlk hsound hshaped hrel htop
      (hr.settle hright) 0 (by simp) (by simp [hkey, hwidth])

/-- **A join within a bounded time** has both keys, with the root key once. -/
theorem keyed_of_intervalPlan {window : ClosedWindow} (hwindow : j.closedWindow = .ok window)
    (h : j.intervalPlan window = .ok out) : out.Keyed fixture := by
  obtain ⟨rfl, rfl, -, -, hparts⟩ := of_eq_ok hj
  obtain ⟨ls, rs, hint, hleft, hright, -, -, hrel, -, htop, -, hkey⟩ := intervalPlan_eq_ok h
  have hsettledL := (Plan.withoutPending_settled hleft).1
  have hsettledR := (Plan.withoutPending_settled hright).1
  have hwidth : ls.width = j.left.width := hsettledL.width
  refine Plan.Keyed.equiJoin j.keepsRight_plannedKind (hl.settle hleft) (hsettledL.sound hsl)
    (hrl.settle hleft).shaped hrel htop (hr.settle hright) (window.rootKeys.getD 0)
    (fun t ht => ?_) (by simp [hkey, hwidth, hsettledL.key, hsettledR.key])
  rw [hsettledR.key] at ht
  obtain ⟨p, hp, rfl⟩ := equated_of_closedWindow hwindow t ht
  rw [hwidth]
  refine ⟨p.1, JoinCondition.left_of_equality hparts p hp, fun row htrue => ?_⟩
  -- the bounds of the window stand behind the condition without its time bounds
  have huntimed := (trueOn_iff_conjuncts _).2 fun k hk =>
    trueOn_all.1 htrue k (List.mem_append_left _ hk)
  exact JoinCondition.equates_of_withoutTime huntimed p hp

include hsr hrr

/-- **A join by time** has the key of the stream. -/
theorem keyed_of_temporalPlan {sides : TemporalSides} (hshape : j.temporalShape = .ok sides)
    (h : j.temporalPlan sides = .ok out) : out.Keyed fixture := by
  obtain ⟨hof, hproblem⟩ := temporalShape_eq_ok hshape
  have hinside := hof.inside hj hsl hsr
  obtain ⟨rfl, rfl, -⟩ := of_eq_ok hj
  obtain ⟨ready, table, hint, hready, htable, -, -, hrel, -, htop, -, hkey⟩ := temporalPlan_eq_ok h
  have hcovers := equated_of_temporalShape hproblem
  obtain ⟨hks, hkt⟩ := hof.both hl hr
  have hss := (hof.both hsl hsr).1
  have hrs := (hof.both hrl hrr).1
  have hset := readyStream_settled hready
  -- all of the table's key is equated, so none of it need be in the key
  refine Plan.Keyed.equiJoin j.keepsRight_plannedKind (hks.ready hready) (hset.sound hss)
    (hrs.ready hready).shaped hrel htop (hkt.settle htable) table.key.targets.length (fun t ht => ?_)
    (by simp [hkey])
  rw [List.take_length, (Plan.withoutPending_settled htable).1.key] at ht
  obtain ⟨p, hp, rfl⟩ := hcovers t ht
  refine ⟨p.1, Nat.lt_of_lt_of_eq (hinside p hp).1 hset.width.symm, fun row htrue => ?_⟩
  rw [← @trueOn_equate fixture.now row]
  exact trueOn_all.1 htrue _ (List.mem_map_of_mem hp)

end Rules

end JoinInputs

end StreamPlan
