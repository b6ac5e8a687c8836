import Mathlib.Data.List.Nodup
import StreamPlan.Proofs.EventTime.Leaders

/-!
# Event times of branches, merged in any order

The candidates of one column are ordered: one is below another if its derivation absorbs that of
the other and its rank is not greater. Merging two of them gives the greatest one below both, if
there is any. What is below a merged event time is therefore what is below all its branches,
however these were grouped, and an event time with distinct columns is determined by what is below
it.

* `EventTime.Sound`: a fixed event time has exactly one candidate, and columns are distinct. Every
  operation keeps this (`Reachable.sound`).
* `Sound.best?_iff`: the best candidate is the one that no other precedes.
* `covers_union`: what is below a merged event time.
* `MergeOrder`: branches merged in some order, in some grouping.
* `EventTime.branches_merge_in_any_order`: **event times that operations reach are sound, keep
  their best candidate when columns move, and merge alike in any order.**
-/

namespace StreamPlan

namespace Derivation

variable {a b z : Derivation}

theorem Absorbs.refl (a : Derivation) : a.Absorbs a := absorbs_iff.2 (.inl rfl)

theorem Absorbs.antisymm (h : a.Absorbs b) (h' : b.Absorbs a) : a = b := by
  rcases absorbs_iff.1 h with rfl | ⟨rfl, rfl⟩
  · rfl
  · simp [absorbs_iff] at h'

theorem compatible_of_absorbs (ha : z.Absorbs a) (hb : z.Absorbs b) : a.isCompatible b = true := by
  rcases absorbs_iff.1 ha with rfl | ⟨rfl, rfl⟩
  · exact hb.1
  · rcases absorbs_iff.1 hb with rfl | ⟨-, rfl⟩ <;> rfl

/-- Compatible derivations merge to the greatest that absorbs both. -/
theorem absorbs_merge (h : a.isCompatible b = true) :
    z.Absorbs (a.merge b) ↔ z.Absorbs a ∧ z.Absorbs b := by
  cases a <;> cases b <;> simp_all [absorbs_iff, isCompatible, merge]

end Derivation

/-- A candidate on the same column with a derivation that absorbs that of the other and a rank
that is not greater. -/
structure TimeCandidate.Below (z k : TimeCandidate) : Prop where
  column : z.column = k.column
  derivation : z.derivation.Absorbs k.derivation
  rank : z.rank ≤ k.rank

namespace TimeCandidate

variable {k o z : TimeCandidate}

theorem Below.refl (k : TimeCandidate) : k.Below k := ⟨rfl, .refl _, Nat.le_refl _⟩

theorem Below.antisymm (h : k.Below o) (h' : o.Below k) : k = o := by
  obtain ⟨column, derivation, rank⟩ := k
  obtain ⟨_, _, _⟩ := o
  cases h.column
  cases h.derivation.antisymm h'.derivation
  cases Nat.le_antisymm h.rank h'.rank
  rfl

/-- Merging two candidates of one column gives the greatest that is below both. -/
theorem below_merged (hcolumn : k.column = o.column)
    (h : k.derivation.isCompatible o.derivation = true) :
    z.Below ⟨k.column, k.derivation.merge o.derivation, min k.rank o.rank⟩ ↔
      z.Below k ∧ z.Below o := by
  constructor
  · intro hz
    obtain ⟨hk, ho⟩ := (Derivation.absorbs_merge h).1 hz.derivation
    exact ⟨⟨hz.column, hk, (Nat.le_min.1 hz.rank).1⟩,
      ⟨hz.column.trans hcolumn, ho, (Nat.le_min.1 hz.rank).2⟩⟩
  · rintro ⟨hk, ho⟩
    exact ⟨hk.column, (Derivation.absorbs_merge h).2 ⟨hk.derivation, ho.derivation⟩,
      Nat.le_min.2 ⟨hk.rank, ho.rank⟩⟩

end TimeCandidate

namespace EventTime

variable {time out a b : EventTime} {k o z : TimeCandidate} {column : Nat} {derivation : Derivation}

theorem fixed_union : (a.union b).fixed = true ↔
    (a.fixed = true ∧ b.fixed = true) ∧ (a.union b).candidates ≠ [] := by
  simp [union]

/-- A fixed event time has exactly one candidate, and no two candidates are on one column. -/
structure Sound (time : EventTime) : Prop where
  coherent : time.Coherent
  settled : time.fixed = true → time.candidates ≠ []
  distinct : time.columns.Nodup

theorem Sound.only (h : time.Sound) (hf : time.fixed = true) : ∃ k, time.candidates = [k] :=
  List.length_eq_one_iff.1 (Nat.le_antisymm (h.coherent hf) (List.length_pos_iff.2 (h.settled hf)))

theorem sound_free (hf : time.fixed = false) (hd : time.columns.Nodup) : time.Sound :=
  ⟨fun hfixed => by simp [hf] at hfixed, fun hfixed => by simp [hf] at hfixed, hd⟩

theorem sound_none : none.Sound := sound_free rfl List.nodup_nil

theorem sound_only (k : TimeCandidate) : Sound ⟨[k], true⟩ :=
  ⟨fun _ => Nat.le_refl _, fun _ => List.cons_ne_nil _ _, List.nodup_singleton _⟩

/-- A new candidate behind the others. -/
theorem Sound.register (h : time.Sound) (hnew : time.isCandidate column = false) (rank : Nat) :
    Sound ⟨time.candidates ++ [⟨column, derivation, rank⟩], false⟩ := by
  refine sound_free rfl ?_
  rw [columns, List.map_append, List.map_singleton]
  refine List.nodup_append.2 ⟨h.distinct, List.nodup_singleton _, ?_⟩
  rintro c hc _ hlast rfl
  rw [List.mem_singleton.1 hlast, ← columns, ← isCandidate_iff, hnew] at hc
  cases hc

theorem sound_ofSource (columns : List Nat) : (ofSource columns).Sound := by
  refine List.foldlRecOn columns _ sound_none fun time h c _ => ?_
  split
  · exact h
  · rename_i hnew
    exact h.register (Bool.eq_false_iff.2 hnew) _

theorem Sound.add (h : time.Sound) (ho : time.add column derivation = .ok out) : out.Sound := by
  unfold EventTime.add at ho
  split at ho
  · cases ho
  split at ho
  · cases ho
    exact h
  · rename_i hnew
    cases ho
    exact h.register (Bool.eq_false_iff.2 hnew) _

theorem sound_of_fix (ho : time.fix column = .ok out) : out.Sound := by
  unfold EventTime.fix at ho
  split at ho
  · cases ho
    exact sound_only _
  · cases ho

theorem sound_of_fixBest (ho : time.fixBest = .ok out) : out.Sound := by
  unfold fixBest at ho
  split at ho
  · exact sound_of_fix ho
  · cases ho
    exact sound_none

theorem settled_withCandidates {cs : List TimeCandidate} :
    (time.withCandidates cs).fixed = true → (time.withCandidates cs).candidates ≠ [] := by
  simp [withCandidates]

theorem Sound.restrictTo (h : time.Sound) (columns : List Nat) : (time.restrictTo columns).Sound :=
  ⟨h.coherent.restrictTo columns, settled_withCandidates, by
    rw [columns_restrictTo]
    exact h.distinct.filter _⟩

theorem Sound.remap {f : Nat → Option Nat} (h : time.Sound)
    (hf : ∀ c d i, f c = some i → f d = some i → c = d) : (time.remap f).Sound :=
  ⟨h.coherent.remap f, settled_withCandidates, by
    rw [columns_remap]
    exact h.distinct.filterMap hf⟩

theorem Sound.offset {offset : Nat} (h : time.Sound) (ho : time.offset offset = .ok out) :
    out.Sound := by
  obtain ⟨_, -, ho⟩ := bind_eq_ok.1 ho
  cases ho
  refine h.remap fun c d i hc hd => ?_
  cases hc
  exact Nat.add_left_cancel (Option.some.inj hd).symm

theorem Sound.union (ha : a.Sound) (b : EventTime) : (a.union b).Sound := by
  refine ⟨fun hf => ?_, fun hf => ?_, ?_⟩
  · obtain ⟨⟨hfixed, -⟩, -⟩ := fixed_union.1 hf
    exact Nat.le_trans (List.length_filterMap_le _ _) (ha.coherent hfixed)
  · exact (fixed_union.1 hf).2
  · have hdistinct := ha.distinct
    rw [columns, List.Nodup, List.pairwise_map] at hdistinct ⊢
    refine hdistinct.filterMap _ fun k o hne k' hk' o' ho' => ?_
    obtain ⟨-, -, -, rfl⟩ := shared_eq_some.1 hk'
    obtain ⟨-, -, -, rfl⟩ := shared_eq_some.1 ho'
    exact hne

/-- The event times that the operations lead to. -/
inductive Reachable : EventTime → Prop
  | none : Reachable .none
  | ofSource (columns : List Nat) : Reachable (.ofSource columns)
  | single (column : Nat) (derivation : Derivation) : Reachable (.single column derivation)
  | add {time out : EventTime} {column : Nat} {derivation : Derivation} : Reachable time →
      time.add column derivation = .ok out → Reachable out
  | fix {time out : EventTime} {column : Nat} : Reachable time → time.fix column = .ok out →
      Reachable out
  | fixBest {time out : EventTime} : Reachable time → time.fixBest = .ok out → Reachable out
  | restrictTo {time : EventTime} (columns : List Nat) : Reachable time →
      Reachable (time.restrictTo columns)
  | offset {time out : EventTime} {offset : Nat} : Reachable time → time.offset offset = .ok out →
      Reachable out
  | union {a b : EventTime} : Reachable a → Reachable b → Reachable (a.union b)
  | remap {time : EventTime} {f : Nat → Option Nat} : Reachable time →
      (∀ c d i, f c = some i → f d = some i → c = d) → Reachable (time.remap f)

theorem Reachable.sound (h : Reachable time) : time.Sound := by
  induction h with
  | none => exact sound_none
  | ofSource columns => exact sound_ofSource columns
  | single => exact sound_only _
  | add _ ho ih => exact ih.add ho
  | fix _ ho => exact sound_of_fix ho
  | fixBest _ ho => exact sound_of_fixBest ho
  | restrictTo columns _ ih => exact ih.restrictTo columns
  | offset _ ho ih => exact ih.offset ho
  | union _ _ iha => exact iha.union _
  | remap _ hf ih => exact ih.remap hf

theorem Sound.candidate_eq (h : time.Sound) (hk : k ∈ time.candidates) (ho : o ∈ time.candidates)
    (hcolumn : k.column = o.column) : k = o :=
  List.inj_on_of_nodup_map h.distinct hk ho hcolumn

theorem Sound.find?_eq (h : time.Sound) (hk : k ∈ time.candidates) :
    time.find? k.column = some k := by
  obtain ⟨o, ho⟩ := find?_of_mem (List.mem_map_of_mem hk)
  obtain ⟨hmem, hcolumn⟩ := mem_of_find? ho
  rw [ho, h.candidate_eq hmem hk hcolumn]

/-- **The best candidate** is the one that no other precedes. -/
theorem Sound.best?_iff (h : time.Sound) :
    time.best? = some k ↔ k ∈ time.candidates ∧ ∀ o ∈ time.candidates, precedes o k = false := by
  have hleast : ∀ {b}, time.best? = some b → ∀ o ∈ time.candidates, precedes o b = false := by
    intro b hb
    cases hf : time.fixed with
    | true =>
      obtain ⟨k, hk⟩ := h.only hf
      rw [best?, if_pos hf, hk] at hb
      cases hb
      rw [hk, List.forall_mem_singleton]
      exact not_precedes_iff.2 (.inr ⟨rfl, Nat.le_refl _⟩)
    | false =>
      rw [best?, if_neg (Bool.eq_false_iff.1 hf)] at hb
      exact not_precedes_first? hb
  constructor
  · exact fun hk => ⟨best?_mem hk, hleast hk⟩
  · rintro ⟨hk, hfirst⟩
    obtain ⟨b, hb⟩ := best?_isSome (List.ne_nil_of_mem hk)
    -- neither goes before the other, so both are on one column
    have hkb := not_precedes_iff.1 (hleast hb k hk)
    have hbk := not_precedes_iff.1 (hfirst b (best?_mem hb))
    rw [hb, h.candidate_eq (best?_mem hb) hk (by omega)]

/-- One of the candidates has this one below it. -/
def Covers (time : EventTime) (z : TimeCandidate) : Prop := ∃ k ∈ time.candidates, z.Below k

/-- **What is below a merged event time** is what is below both. -/
theorem covers_union (hb : b.Sound) : (a.union b).Covers z ↔ a.Covers z ∧ b.Covers z := by
  constructor
  · rintro ⟨m, hm, hz⟩
    obtain ⟨k, hk, hshared⟩ := List.mem_filterMap.1 hm
    obtain ⟨o, ho, hcompatible, rfl⟩ := shared_eq_some.1 hshared
    obtain ⟨hmem, hcolumn⟩ := mem_of_find? ho
    obtain ⟨hzk, hzo⟩ := (TimeCandidate.below_merged hcolumn.symm hcompatible).1 hz
    exact ⟨⟨k, hk, hzk⟩, o, hmem, hzo⟩
  · rintro ⟨⟨k, hk, hzk⟩, o, ho, hzo⟩
    have hcolumn : k.column = o.column := hzk.column.symm.trans hzo.column
    have hcompatible := Derivation.compatible_of_absorbs hzk.derivation hzo.derivation
    exact ⟨_, List.mem_filterMap.2 ⟨k, hk, shared_eq_some.2
      ⟨o, hcolumn ▸ hb.find?_eq ho, hcompatible, rfl⟩⟩,
      (TimeCandidate.below_merged hcolumn hcompatible).2 ⟨hzk, hzo⟩⟩

theorem candidates_ne_nil : time.candidates ≠ [] ↔ ∃ z, time.Covers z :=
  ⟨fun h => let ⟨k, hk⟩ := List.exists_mem_of_ne_nil _ h; ⟨k, k, hk, .refl k⟩,
    fun ⟨_, _, hk, _⟩ => List.ne_nil_of_mem hk⟩

/-- Merging an event time with itself changes nothing. -/
theorem Sound.union_self (h : time.Sound) : time.union time = time := by
  have hcandidates : time.candidates.filterMap time.shared = time.candidates := by
    refine (List.filterMap_congr (g := some) fun k hk => ?_).trans List.filterMap_some
    refine shared_eq_some.2 ⟨k, h.find?_eq hk, (Derivation.Absorbs.refl _).1, ?_⟩
    rw [(Derivation.Absorbs.refl k.derivation).2, Nat.min_self]
  have hfixed : (time.fixed && time.fixed && !time.candidates.isEmpty) = time.fixed := by
    cases hf : time.fixed with
    | true => simp [h.settled hf]
    | false => rfl
  rw [EventTime.union, hcandidates, hfixed]

/-- The same candidates in some order, of which the same one is the best or fixed. -/
structure Same (a b : EventTime) : Prop where
  candidates : a.candidates.Perm b.candidates
  fixed : a.fixed = b.fixed
  best : a.best? = b.best?

/-- **A sound event time** is determined by what is below it. -/
theorem Sound.same (ha : a.Sound) (hb : b.Sound) (hcovers : ∀ z, a.Covers z ↔ b.Covers z)
    (hfixed : a.fixed = b.fixed) : a.Same b := by
  -- a candidate is below one of the other event time, which is below one of its own
  have hsub : ∀ {a b : EventTime}, a.Sound → (∀ z, a.Covers z ↔ b.Covers z) →
      ∀ k ∈ a.candidates, k ∈ b.candidates := by
    intro a b ha hcovers k hk
    obtain ⟨o, ho, hko⟩ := (hcovers k).1 ⟨k, hk, .refl k⟩
    obtain ⟨l, hl, hol⟩ := (hcovers o).2 ⟨o, ho, .refl o⟩
    obtain rfl : k = l := ha.candidate_eq hk hl (hko.column.trans hol.column)
    exact hko.antisymm hol ▸ ho
  have hmem : ∀ k, k ∈ a.candidates ↔ k ∈ b.candidates := fun k =>
    ⟨hsub ha hcovers k, hsub hb (fun z => (hcovers z).symm) k⟩
  refine ⟨(List.perm_ext_iff_of_nodup (.of_map _ ha.distinct) (.of_map _ hb.distinct)).2 hmem,
    hfixed, Option.ext fun k => ?_⟩
  rw [ha.best?_iff, hb.best?_iff]
  simp only [hmem]

end EventTime

/-- Branches merged two by two, in some order. -/
inductive MergeOrder where
  | one (time : EventTime)
  | both (left right : MergeOrder)

namespace MergeOrder

variable {order other : MergeOrder} {z : TimeCandidate}

/-- The event times of the branches. -/
def branches : MergeOrder → List EventTime
  | one time => [time]
  | both left right => left.branches ++ right.branches

/-- The event time that merging gives. -/
def merged : MergeOrder → EventTime
  | one time => time
  | both left right => left.merged.union right.merged

theorem forall_mem_both {P : EventTime → Prop} : (∀ t ∈ (both order other).branches, P t) ↔
    (∀ t ∈ order.branches, P t) ∧ ∀ t ∈ other.branches, P t := List.forall_mem_append

theorem sound_merged (h : ∀ t ∈ order.branches, t.Sound) : order.merged.Sound := by
  induction order with
  | one time => exact h time (List.mem_singleton_self _)
  | both left right ihl _ => exact (ihl (forall_mem_both.1 h).1).union _

/-- What is below merged branches is what is below every one of them. -/
theorem covers_merged (h : ∀ t ∈ order.branches, t.Sound) :
    order.merged.Covers z ↔ ∀ t ∈ order.branches, t.Covers z := by
  induction order with
  | one time =>
    rw [branches, List.forall_mem_singleton]
    rfl
  | both left right ihl ihr =>
    obtain ⟨hl, hr⟩ := forall_mem_both.1 h
    rw [forall_mem_both, ← ihl hl, ← ihr hr]
    exact EventTime.covers_union (sound_merged hr)

/-- Merged branches are fixed if all are and something is left. -/
theorem fixed_merged (h : ∀ t ∈ order.branches, t.Sound) : order.merged.fixed = true ↔
    (∀ t ∈ order.branches, t.fixed = true) ∧ ∃ z, order.merged.Covers z := by
  rw [← EventTime.candidates_ne_nil]
  induction order with
  | one time =>
    rw [branches, List.forall_mem_singleton]
    exact ⟨fun hf => ⟨hf, (h time (List.mem_singleton_self _)).settled hf⟩, And.left⟩
  | both left right ihl ihr =>
    obtain ⟨hl, hr⟩ := forall_mem_both.1 h
    rw [forall_mem_both]
    -- where something is left of both sides, something was left of each
    refine EventTime.fixed_union.trans (and_congr_left fun hne => ?_)
    obtain ⟨z, hz⟩ := EventTime.candidates_ne_nil.1 hne
    obtain ⟨hzl, hzr⟩ := (EventTime.covers_union (sound_merged hr)).1 hz
    rw [ihl hl, ihr hr, and_iff_left (EventTime.candidates_ne_nil.2 ⟨z, hzl⟩),
      and_iff_left (EventTime.candidates_ne_nil.2 ⟨z, hzr⟩)]

/-- **Merging is independent of the order**, the grouping and repetitions. -/
theorem same_merged (h : ∀ t ∈ order.branches, t.Sound)
    (hsame : ∀ t, t ∈ order.branches ↔ t ∈ other.branches) : order.merged.Same other.merged := by
  have h' : ∀ t ∈ other.branches, t.Sound := fun t ht => h t ((hsame t).2 ht)
  have hcovers : ∀ z, order.merged.Covers z ↔ other.merged.Covers z := fun z => by
    rw [covers_merged h, covers_merged h']
    exact forall_congr' fun t => imp_congr_left (hsame t)
  refine (sound_merged h).same (sound_merged h') hcovers (Bool.eq_iff_iff.2 ?_)
  rw [fixed_merged h, fixed_merged h']
  exact and_congr (forall_congr' fun t => imp_congr_left (hsame t)) (exists_congr hcovers)

end MergeOrder

namespace EventTime

/-- **Event times of branches merge alike in any order.** An event time that operations lead to has
exactly one candidate if it is fixed, and no two on one column. Where ranks are distinct, the best
candidate stays the best when columns move, as long as it has a new one. Merging is commutative and
associative, but for the order of the candidates, and idempotent; and all orders in which the same
branches are merged give the same. -/
theorem branches_merge_in_any_order :
    (∀ time, Reachable time →
      (time.fixed = true → ∃ k, time.candidates = [k]) ∧ time.columns.Nodup) ∧
    (∀ (time : EventTime) (f : Nat → Option Nat) (k : TimeCandidate) (c : Nat), time.Ranked →
      time.best? = some k → f k.column = some c →
        (time.remap f).best? = some { k with column := c }) ∧
    (∀ a b c, Reachable a → Reachable b → Reachable c →
      (a.union b).Same (b.union a) ∧ ((a.union b).union c).Same (a.union (b.union c)) ∧
      a.union a = a) ∧
    ∀ order other : MergeOrder, (∀ t ∈ order.branches, Reachable t) →
      (∀ t, t ∈ order.branches ↔ t ∈ other.branches) → order.merged.Same other.merged := by
  have horder : ∀ order other : MergeOrder, (∀ t ∈ order.branches, Reachable t) →
      (∀ t, t ∈ order.branches ↔ t ∈ other.branches) → order.merged.Same other.merged :=
    fun order other h => MergeOrder.same_merged fun t ht => (h t ht).sound
  refine ⟨fun time h => ⟨h.sound.only, h.sound.distinct⟩, fun time f k c hranked hk hc => ?_,
    fun a b c ha hb hc => ⟨?_, ?_, ha.sound.union_self⟩, horder⟩
  · have hbest : ∀ column, time.bestColumn? = some column → ∃ i, f column = some i := by
      intro column hcolumn
      rw [bestColumn?, hk] at hcolumn
      cases hcolumn
      exact ⟨c, hc⟩
    rw [(moved_remap f time).best? hranked hbest, hk, Option.bind_some, hc]
    rfl
  · exact horder (.both (.one a) (.one b)) (.both (.one b) (.one a))
      (by simp [MergeOrder.branches, ha, hb]) (by simp [MergeOrder.branches, or_comm])
  · exact horder (.both (.both (.one a) (.one b)) (.one c)) (.both (.one a) (.both (.one b) (.one c)))
      (by simp [MergeOrder.branches, ha, hb, hc]) (by simp [MergeOrder.branches])

/-- Two branches that prefer opposite times, and one with a computed one of them that is fixed. -/
def opposed : MergeOrder :=
  .both (.both (.one (.ofSource [4, 2])) (.one (.ofSource [2, 4]))) (.one (.single 4 .preserved))

/-- From the last to the first, twice with the last. -/
def opposedBackwards : MergeOrder :=
  .both (.one (.single 4 .preserved))
    (.both (.one (.ofSource [2, 4])) (.both (.one (.ofSource [4, 2])) (.one (.single 4 .preserved))))

/-- Either way the computed time is left, and it is not fixed. The two others give equal ranks,
whichever comes first. A preferred time is still preferred once its column is after the other. -/
theorem opposed_merge_alike :
    opposed.merged.Same opposedBackwards.merged ∧ opposed.merged = ⟨[⟨4, .preserved, 0⟩], false⟩ ∧
    (union (.ofSource [4, 2]) (.ofSource [2, 4])).Same (union (.ofSource [2, 4]) (.ofSource [4, 2])) ∧
    (union (.ofSource [4, 2]) (.ofSource [2, 4])).candidates =
      [⟨4, .source, 0⟩, ⟨2, .source, 0⟩] ∧
    (remap (.ofSource [2, 4]) fun c => some (c ^^^ 7)).best? = some ⟨5, .source, 0⟩ := by
  obtain ⟨-, hmoves, hmerges, horders⟩ := branches_merge_in_any_order
  refine ⟨horders _ _ ?_ ?_, by decide, (hmerges _ _ .none (.ofSource _) (.ofSource _) .none).1,
    by decide, hmoves _ _ ⟨2, .source, 0⟩ 5 (by rw [Ranked]; decide) (by decide) (by decide)⟩
  · intro t ht
    simp only [opposed, MergeOrder.branches, List.cons_append, List.nil_append, List.mem_cons,
      List.not_mem_nil, or_false] at ht
    rcases ht with rfl | rfl | rfl
    · exact .ofSource _
    · exact .ofSource _
    · exact .single _ _
  · intro t
    simp only [opposed, opposedBackwards, MergeOrder.branches, List.cons_append, List.nil_append,
      List.mem_cons, List.not_mem_nil, or_false]
    tauto

end EventTime

end StreamPlan
