import StreamPlan.Proofs.EventTime.Meaning

/-!
# The tightest of several now-filters

Now-filters of one timestamp and direction are ordered by how much they keep, and two of them merge
into the one that keeps less. So the outcome of many merges is known by the filters alone.

* `NowFilter.Alike`, `looseness`: filters that can be compared, and by what
  (`Alike.eq_of_looseness`: no two of them keep equally much).
* `NowFilter.merge?_of_alike`: the merged filter is the less loose one. Merging is commutative,
  associative and idempotent (`merge?_comm`, `merge?_assoc`, `merge?_self`).
* `NowFilter.Tightest`: what is pending when some filters were merged, in whatever order
  (`Tightest.unique`).
-/

namespace StreamPlan.NowFilter

variable {a b m filter : NowFilter}

/-- Now-filters on one timestamp and in one direction. -/
structure Alike (a b : NowFilter) : Prop where
  timestamp : a.timestamp = b.timestamp
  isRecent : a.isRecent = b.isRecent

theorem Alike.refl (a : NowFilter) : a.Alike a := ⟨rfl, rfl⟩

theorem Alike.symm (h : a.Alike b) : b.Alike a := ⟨h.timestamp.symm, h.isRecent.symm⟩

theorem Alike.trans {c : NowFilter} (h : a.Alike b) (h' : b.Alike c) : a.Alike c :=
  ⟨h.timestamp.trans h'.timestamp, h.isRecent.trans h'.isRecent⟩

/-- How much a now-filter keeps, next to others in its direction: twice the interval in the
direction that keeps more, and one more if the bound itself is kept. -/
def looseness (filter : NowFilter) : Int :=
  2 * (if filter.isRecent then filter.interval else -filter.interval)
    + if filter.comparison.isStrict then 0 else 1

theorem comparison_eq {x y : NowComparison} (hr : x.isRecent = y.isRecent)
    (hs : x.isStrict = y.isStrict) : x = y := by
  cases x <;> cases y <;> first | rfl | exact absurd hr (by decide) | exact absurd hs (by decide)

/-- Filters that keep equally much are the same. -/
theorem Alike.eq_of_looseness (h : a.Alike b) (hl : a.looseness = b.looseness) : a = b := by
  obtain ⟨hts, hrecent⟩ := h
  unfold looseness at hl
  rw [← hrecent] at hl
  -- the last digit tells whether the bound is kept, the others tell the interval
  have hstrict : a.comparison.isStrict = b.comparison.isStrict := by
    cases ha : a.comparison.isStrict <;> cases hb : b.comparison.isStrict <;>
      simp only [ha, hb, if_true, if_false, Bool.false_eq_true] at hl <;>
      first | rfl | omega
  have hinterval : a.interval = b.interval := by
    rw [hstrict] at hl
    cases hr : a.isRecent <;> simp only [hr, if_true, if_false, Bool.false_eq_true] at hl <;> omega
  have hcomparison := comparison_eq hrecent hstrict
  cases a
  cases b
  cases hts
  cases hinterval
  cases hcomparison
  rfl

theorem merge?_isSome_iff : (∃ m, a.merge? b = some m) ↔ a.Alike b := by
  unfold merge?
  constructor
  · rintro ⟨m, h⟩
    split at h
    · rename_i hc
      exact ⟨hc.1, hc.2⟩
    · cases h
  · rintro ⟨hts, hrecent⟩
    exact ⟨_, if_pos ⟨hts, hrecent⟩⟩

theorem merge?_eq_none (h : ¬a.Alike b) : a.merge? b = none :=
  if_neg fun hc => h ⟨hc.1, hc.2⟩

/-- **Two now-filters merge** into the one that keeps less. -/
theorem merge?_of_alike (h : a.Alike b) :
    a.merge? b = some (if a.looseness ≤ b.looseness then a else b) := by
  have hmerged : a.merge? b = some (a.tighter b) := if_pos ⟨h.timestamp, h.isRecent⟩
  rw [hmerged]
  congr 1
  -- filters that keep equally much are the same, so it does not matter which is given
  by_cases heq : a.looseness = b.looseness
  · obtain rfl := h.eq_of_looseness heq
    rw [if_pos (Int.le_refl _)]
    exact (tighter_eq a a).elim id id
  · obtain ⟨-, hrecent⟩ := h
    unfold tighter
    simp only [looseness, ← hrecent] at heq ⊢
    cases hr : a.isRecent <;> cases ha : a.comparison.isStrict <;> cases hb : b.comparison.isStrict <;>
      simp only [hr, ha, hb, if_true, if_false, Bool.false_eq_true] at heq ⊢ <;>
      split_ifs <;> first | rfl | omega

theorem merge?_comm (a b : NowFilter) : a.merge? b = b.merge? a := by
  by_cases h : a.Alike b
  · rw [merge?_of_alike h, merge?_of_alike h.symm]
    congr 1
    split_ifs with hab hba hba
    · exact h.eq_of_looseness (Int.le_antisymm hab hba)
    · rfl
    · rfl
    · omega
  · rw [merge?_eq_none h, merge?_eq_none fun hba => h hba.symm]

theorem merge?_self (a : NowFilter) : a.merge? a = some a := by
  rw [merge?_of_alike (.refl a), if_pos (Int.le_refl _)]

/-- A merged filter is one of the two, and the other one is alike and keeps no less. -/
theorem merge?_spec (h : a.merge? b = some m) :
    (m = a ∨ m = b) ∧ m.Alike a ∧ m.Alike b ∧ m.looseness ≤ a.looseness ∧ m.looseness ≤ b.looseness := by
  have halike : a.Alike b := merge?_isSome_iff.1 ⟨m, h⟩
  rw [merge?_of_alike halike] at h
  obtain rfl := Option.some.inj h
  split_ifs with hab
  · exact ⟨.inl rfl, .refl a, halike, Int.le_refl _, hab⟩
  · exact ⟨.inr rfl, halike.symm, .refl b, by omega, Int.le_refl _⟩

/-- The tightest of some now-filters, which are all on one timestamp and in one direction; nothing
if there are none. -/
def Tightest (among : NowFilter → Prop) : Option NowFilter → Prop
  | none => ∀ f, ¬among f
  | some m => among m ∧ ∀ f, among f → m.Alike f ∧ m.looseness ≤ f.looseness

section Tightest

variable {among others : NowFilter → Prop} {pending : Option NowFilter}

theorem Tightest.congr (h : Tightest among pending) (hsame : ∀ f, among f ↔ others f) :
    Tightest others pending := by
  obtain rfl : among = others := funext fun f => propext (hsame f)
  exact h

/-- There is one tightest filter. -/
theorem Tightest.unique {other : Option NowFilter} (h : Tightest among pending)
    (h' : Tightest among other) : pending = other := by
  rcases pending with _ | m <;> rcases other with _ | n
  · rfl
  · exact absurd h'.1 (h n)
  · exact absurd h.1 (h' m)
  · obtain ⟨hmem, hm⟩ := h
    obtain ⟨hmem', hn⟩ := h'
    obtain ⟨halike, hle⟩ := hm n hmem'
    obtain ⟨-, hge⟩ := hn m hmem
    rw [halike.eq_of_looseness (Int.le_antisymm hle hge)]

/-- What is pending is the tightest of itself. -/
theorem tightest_pending (pending : Option NowFilter) : Tightest (pending = some ·) pending := by
  rcases pending with _ | m
  · exact nofun
  · refine ⟨rfl, ?_⟩
    rintro f ⟨⟩
    exact ⟨.refl m, Int.le_refl _⟩

/-- **A merge gives the tightest filter** of those merged before and one more. -/
theorem Tightest.merge (h : Tightest among (some a)) (hm : a.merge? b = some m) :
    Tightest (fun f => among f ∨ f = b) (some m) := by
  obtain ⟨hmem, hall⟩ := h
  obtain ⟨hone, ha, hb, hla, hlb⟩ := merge?_spec hm
  refine ⟨hone.imp_left fun he : m = a => he ▸ hmem, fun f hf => ?_⟩
  rcases hf with hf | rfl
  · obtain ⟨halike, hle⟩ := hall f hf
    exact ⟨ha.trans halike, Int.le_trans hla hle⟩
  · exact ⟨hb, hlb⟩

/-- A first filter. -/
theorem Tightest.first (h : Tightest among none) (b : NowFilter) :
    Tightest (fun f => among f ∨ f = b) (some b) := by
  refine ⟨.inr rfl, fun f hf => ?_⟩
  rcases hf with hf | rfl
  · exact absurd hf (h f)
  · exact ⟨.refl _, Int.le_refl _⟩

/-- The tightest of some filters stands for them next to others. -/
theorem Tightest.trans {other : Option NowFilter} (h : Tightest among pending)
    (h' : Tightest (fun f => pending = some f ∨ others f) other) :
    Tightest (fun f => among f ∨ others f) other := by
  rcases pending with _ | m
  · refine h'.congr fun f => ?_
    simp only [reduceCtorEq, false_or, show ¬among f from h f]
  · rcases other with _ | n
    · exact absurd (.inl rfl) (h' m)
    · obtain ⟨hmem, hm⟩ := h
      obtain ⟨hmem', hn⟩ := h'
      obtain ⟨halike, hle⟩ := hn m (.inl rfl)
      refine ⟨hmem'.imp_left fun he : some m = some n => Option.some.inj he ▸ hmem, fun f hf => ?_⟩
      rcases hf with hf | hf
      · obtain ⟨halike', hle'⟩ := hm f hf
        exact ⟨halike.trans halike', Int.le_trans hle hle'⟩
      · exact hn f (.inr hf)

end Tightest

/-- Two merges in a row give the tightest of three filters. -/
theorem merge?_merge? {c : NowFilter} :
    (a.merge? b).bind (·.merge? c) = some m ↔ Tightest (fun f => f = a ∨ f = b ∨ f = c) (some m) := by
  have hmerged : ∀ n, (a.merge? b).bind (·.merge? c) = some n →
      Tightest (fun f => f = a ∨ f = b ∨ f = c) (some n) := by
    intro n h
    obtain ⟨mid, hmid, hn⟩ := Option.bind_eq_some_iff.1 h
    refine (((tightest_pending (some a)).merge hmid).merge hn).congr fun f => ?_
    rw [Option.some.injEq, or_assoc, eq_comm]
  refine ⟨hmerged m, fun h => ?_⟩
  -- filters with a tightest one are alike, so they merge
  obtain ⟨-, hall⟩ := id h
  have ha := (hall a (.inl rfl)).1
  have hb := (hall b (.inr (.inl rfl))).1
  have hc := (hall c (.inr (.inr rfl))).1
  obtain ⟨mid, hmid⟩ := merge?_isSome_iff.2 (ha.symm.trans hb)
  obtain ⟨-, hmida, -⟩ := merge?_spec hmid
  obtain ⟨n, hn⟩ := merge?_isSome_iff.2 ((hmida.trans ha.symm).trans hc)
  have hboth : (a.merge? b).bind (·.merge? c) = some n := by rw [hmid, Option.bind_some, hn]
  rw [hboth, (hmerged n hboth).unique h]

theorem merge?_assoc (a b c : NowFilter) :
    (a.merge? b).bind (·.merge? c) = (b.merge? c).bind (a.merge? ·) := by
  have hturn : (b.merge? c).bind (a.merge? ·) = (b.merge? c).bind (·.merge? a) := by
    simp only [merge?_comm a]
  refine Option.ext fun m => ?_
  rw [hturn, merge?_merge?, merge?_merge?]
  have hsame : ∀ f, (f = a ∨ f = b ∨ f = c) ↔ (f = b ∨ f = c ∨ f = a) := fun f => by
    rw [or_comm, or_assoc]
  exact ⟨fun h => h.congr hsame, fun h => h.congr fun f => (hsame f).symm⟩

/-- **A merged filter is true on a row** if and only if both filters are. -/
theorem merge?_evaluates {now : Int} {row : Row} {u v : Value} (h : a.merge? b = some m)
    (hrow : row.Timed a.timestamp) (ha : evalExpr now row a.expr = .ok u)
    (hb : evalExpr now row b.expr = .ok v) :
    ∃ w, evalExpr now row m.expr = .ok w ∧ (w.isTrue = true ↔ u.isTrue = true ∧ v.isTrue = true) := by
  obtain ⟨hone, hma, hmb, -⟩ := merge?_spec h
  have hrowb : row.Timed b.timestamp := (merge?_isSome_iff.1 ⟨m, h⟩).timestamp ▸ hrow
  obtain ⟨w, hw⟩ : ∃ w, evalExpr now row m.expr = .ok w := by
    rcases hone with rfl | rfl
    · exact ⟨u, ha⟩
    · exact ⟨v, hb⟩
  refine ⟨w, hw, ?_⟩
  rw [(expr_means (hma.timestamp ▸ hrow)).of_ok hw, (expr_means hrow).of_ok ha,
    (expr_means hrowb).of_ok hb]
  exact merge?_holds h

end StreamPlan.NowFilter
