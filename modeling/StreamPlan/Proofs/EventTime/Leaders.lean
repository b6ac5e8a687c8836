import Mathlib.Data.List.Pairwise
import StreamPlan.Proofs.EventTime.Candidates

/-!
# Candidates that may be the best, and candidates that event times share

The best candidate is the fixed one, or one of the least rank. Between equal
ranks the column decides, and that changes when columns move; which candidates
have the least rank does not.

* `EventTime.leaders`: the candidates that may be the best.
* `EventTime.Moved`, `mem_leaders_of_moved`: columns that move keep the leaders,
  as long as the best candidate has a new column.
* `EventTime.Ranked`, `best?_of_leader`: where no two ranks are equal, the only
  leader is the best, and it moves with its column (`Moved.best?`).

Several event times are merged one after another. A candidate of the first is kept as
long as all others have one on its column with a compatible derivation, and its own
derivation may weaken on the way.

* `EventTime.throughAll`: a candidate after merging with all others.
* `EventTime.candidates_foldl_union`: what is left of the candidates of the first.
* `Derivation.Absorbs`: the derivations that merging with another one keeps.
* `EventTime.throughAll_keeps`: **a candidate keeps its derivation through all merges
  exactly if it absorbs that of every other event time on its column.**
-/

namespace StreamPlan.EventTime

variable {time out : EventTime} {k o : TimeCandidate} {f : Nat → Option Nat}

/-- The candidates that may be the best: the fixed one, or those of the least rank. -/
def leaders (time : EventTime) : List TimeCandidate :=
  if time.fixed then time.candidates.head?.toList
  else time.candidates.filter fun k => time.candidates.all fun o => decide (k.rank ≤ o.rank)

theorem mem_leaders_of_fixed (hf : time.fixed = true) :
    k ∈ time.leaders ↔ time.candidates.head? = some k := by
  rw [leaders, if_pos hf, Option.mem_toList]

theorem mem_leaders_of_free (hf : time.fixed = false) :
    k ∈ time.leaders ↔ k ∈ time.candidates ∧ ∀ o ∈ time.candidates, k.rank ≤ o.rank := by
  rw [leaders, if_neg (by simp [hf]), List.mem_filter, List.all_eq_true]
  simp

theorem candidate_of_leader (h : k ∈ time.leaders) : k ∈ time.candidates := by
  cases hf : time.fixed with
  | true => exact List.mem_of_head? ((mem_leaders_of_fixed hf).1 h)
  | false => exact ((mem_leaders_of_free hf).1 h).1

theorem precedes_iff {a b : TimeCandidate} :
    precedes a b = true ↔ a.rank < b.rank ∨ a.rank = b.rank ∧ a.column < b.column := by
  simp [precedes]

theorem not_precedes_iff {a b : TimeCandidate} :
    precedes a b = false ↔ b.rank < a.rank ∨ b.rank = a.rank ∧ b.column ≤ a.column := by
  rw [← Bool.not_eq_true, precedes_iff]
  omega

/-- No other precedes the first of several candidates. -/
theorem not_precedes_foldl (cs : List TimeCandidate) (c : TimeCandidate) : ∀ o ∈ c :: cs,
    precedes o (cs.foldl (fun best x => if precedes x best then x else best) c) = false := by
  induction cs generalizing c with
  | nil =>
    intro o ho
    rw [List.mem_singleton.1 ho]
    exact not_precedes_iff.2 (.inr ⟨rfl, Nat.le_refl _⟩)
  | cons x xs ih =>
    rw [List.foldl_cons]
    have hnext := ih (if precedes x c then x else c)
    -- neither of the two goes before the one that is kept
    have hkept : precedes c (if precedes x c then x else c) = false ∧
        precedes x (if precedes x c then x else c) = false := by
      cases hp : precedes x c with
      | true =>
        rw [precedes_iff] at hp
        rw [if_pos rfl, not_precedes_iff, not_precedes_iff]
        omega
      | false => exact ⟨not_precedes_iff.2 (.inr ⟨rfl, Nat.le_refl _⟩), hp⟩
    have hbehind : ∀ {o : TimeCandidate}, precedes o (if precedes x c then x else c) = false →
        precedes o (xs.foldl (fun best x => if precedes x best then x else best)
          (if precedes x c then x else c)) = false := by
      intro o ho
      have hfirst := hnext _ List.mem_cons_self
      rw [not_precedes_iff] at ho hfirst ⊢
      omega
    intro o ho
    rcases List.mem_cons.1 ho with rfl | ho
    · exact hbehind hkept.1
    · rcases List.mem_cons.1 ho with rfl | ho
      · exact hbehind hkept.2
      · exact hnext o (List.mem_cons_of_mem _ ho)

theorem not_precedes_first? {cs : List TimeCandidate} (h : first? cs = some k) :
    ∀ o ∈ cs, precedes o k = false := by
  cases cs with
  | nil => cases h
  | cons c cs =>
    cases h
    exact not_precedes_foldl cs c

/-- The best candidate is a leader. -/
theorem leader_of_best? (h : time.best? = some k) : k ∈ time.leaders := by
  have hmem := best?_mem h
  unfold best? at h
  cases hf : time.fixed with
  | true =>
    rw [hf, if_pos rfl] at h
    exact (mem_leaders_of_fixed hf).2 h
  | false =>
    rw [hf, if_neg Bool.false_ne_true] at h
    refine (mem_leaders_of_free hf).2 ⟨hmem, fun o ho => ?_⟩
    have := not_precedes_iff.1 (not_precedes_first? h o ho)
    omega

theorem best?_isSome (h : time.candidates ≠ []) : ∃ k, time.best? = some k := by
  unfold best?
  cases hcs : time.candidates with
  | nil => exact absurd hcs h
  | cons c cs => split <;> exact ⟨_, rfl⟩

/-- An event time whose columns moved; candidates without a new column are lost. -/
structure Moved (f : Nat → Option Nat) (time out : EventTime) : Prop where
  candidates : out.candidates = time.candidates.filterMap fun c =>
    (f c.column).map fun column => { c with column }
  fixed : out.candidates ≠ [] → out.fixed = time.fixed

theorem moved_remap (f : Nat → Option Nat) (time : EventTime) : time.Moved f (time.remap f) := by
  refine ⟨rfl, fun hne => ?_⟩
  change (time.fixed && !(time.remap f).candidates.isEmpty) = time.fixed
  rw [List.isEmpty_eq_false_iff.2 hne, Bool.not_false, Bool.and_true]

/-- Columns that stay where they are. -/
theorem moved_of_fixed_columns (h : ∀ c ∈ time.columns, f c = some c) : time.Moved f time := by
  refine ⟨?_, fun _ => rfl⟩
  refine Eq.trans ?_ (List.filterMap_congr (g := some) fun c hc => ?_).symm
  · rw [List.filterMap_some]
  · rw [h c.column (List.mem_map_of_mem hc)]
    rfl

theorem Moved.mem_candidates (h : time.Moved f out) :
    k ∈ out.candidates ↔ ∃ d ∈ time.candidates, ∃ c, f d.column = some c ∧ k = { d with column := c } := by
  rw [h.candidates, List.mem_filterMap]
  simp only [Option.map_eq_some_iff, eq_comm (a := k)]

/-- **The leaders of moved columns** are leaders that moved, if the best candidate is not lost. -/
theorem Moved.leader (h : time.Moved f out)
    (hbest : ∀ c, time.bestColumn? = some c → ∃ i, f c = some i) (hk : k ∈ out.leaders) :
    ∃ d ∈ time.leaders, ∃ c, f d.column = some c ∧ k = { d with column := c } := by
  have hmem := candidate_of_leader hk
  obtain ⟨d, hd, c, hc, rfl⟩ := h.mem_candidates.1 hmem
  obtain ⟨b, hb⟩ := best?_isSome (List.ne_nil_of_mem hd)
  obtain ⟨i, hi⟩ := hbest b.column (by rw [bestColumn?, hb]; rfl)
  have hfixed := h.fixed (List.ne_nil_of_mem hmem)
  cases hf : time.fixed with
  | true =>
    rw [best?, hf, if_pos rfl] at hb
    rw [mem_leaders_of_fixed (hfixed.trans hf), h.candidates] at hk
    refine ⟨b, (mem_leaders_of_fixed hf).2 hb, i, hi, ?_⟩
    cases hcs : time.candidates with
    | nil => rw [hcs] at hb; cases hb
    | cons x xs =>
      rw [hcs] at hb hk
      cases hb
      rw [List.filterMap_cons, hi] at hk
      exact (Option.some.inj hk).symm
  | false =>
    have hleast := ((mem_leaders_of_free hf).1 (leader_of_best? hb)).2
    have hbelow := ((mem_leaders_of_free (hfixed.trans hf)).1 hk).2 { b with column := i }
      (h.mem_candidates.2 ⟨b, best?_mem hb, i, hi, rfl⟩)
    exact ⟨d, (mem_leaders_of_free hf).2 ⟨hd, fun o ho => Nat.le_trans hbelow (hleast o ho)⟩, c, hc, rfl⟩

/-- A leader that has a new column leads there. -/
theorem Moved.leads (h : time.Moved f out) {c : Nat} (hk : k ∈ time.leaders)
    (hc : f k.column = some c) : { k with column := c } ∈ out.leaders := by
  have hmem := h.mem_candidates.2 ⟨k, candidate_of_leader hk, c, hc, rfl⟩
  have hfixed := h.fixed (List.ne_nil_of_mem hmem)
  cases hf : time.fixed with
  | true =>
    have hhead := (mem_leaders_of_fixed hf).1 hk
    rw [mem_leaders_of_fixed (hfixed.trans hf), h.candidates]
    cases hcs : time.candidates with
    | nil => rw [hcs] at hhead; cases hhead
    | cons x xs =>
      rw [hcs] at hhead
      cases hhead
      rw [List.filterMap_cons, hc]
      rfl
  | false =>
    refine (mem_leaders_of_free (hfixed.trans hf)).2 ⟨hmem, fun o ho => ?_⟩
    obtain ⟨d, hd, i, -, rfl⟩ := h.mem_candidates.1 ho
    exact ((mem_leaders_of_free hf).1 hk).2 d hd

/-- No two candidates have one rank. -/
def Ranked (time : EventTime) : Prop := time.candidates.Pairwise fun a b => a.rank ≠ b.rank

/-- Where no two ranks are equal, the only leader is the best. -/
theorem best?_of_leader (h : time.Ranked) (hk : k ∈ time.leaders) : time.best? = some k := by
  obtain ⟨b, hb⟩ := best?_isSome (List.ne_nil_of_mem (candidate_of_leader hk))
  rw [hb]
  have hb' := leader_of_best? hb
  cases hf : time.fixed with
  | true => exact ((mem_leaders_of_fixed hf).1 hb').symm.trans ((mem_leaders_of_fixed hf).1 hk)
  | false =>
    obtain ⟨hbmem, hbleast⟩ := (mem_leaders_of_free hf).1 hb'
    obtain ⟨hkmem, hkleast⟩ := (mem_leaders_of_free hf).1 hk
    by_contra hne
    have : Std.Symm fun a b : TimeCandidate => a.rank ≠ b.rank := ⟨fun _ _ hab => hab.symm⟩
    exact List.Pairwise.forall h hbmem hkmem (fun he => hne (congrArg some he))
      (Nat.le_antisymm (hbleast k hkmem) (hkleast b hbmem))

/-- Columns that move keep their ranks. -/
theorem Moved.ranked (h : time.Moved f out) (hr : time.Ranked) : out.Ranked := by
  rw [Ranked, h.candidates]
  refine List.Pairwise.filterMap _ (fun a b hab a' ha' b' hb' => ?_) hr
  obtain ⟨_, -, rfl⟩ := Option.map_eq_some_iff.1 ha'
  obtain ⟨_, -, rfl⟩ := Option.map_eq_some_iff.1 hb'
  exact hab

/-- **The best candidate moves** with its column, if ranks are distinct and it has one. -/
theorem Moved.best? (h : time.Moved f out) (hr : time.Ranked)
    (hbest : ∀ c, time.bestColumn? = some c → ∃ i, f c = some i) :
    out.best? = time.best?.bind fun k => (f k.column).map fun column => { k with column } := by
  cases hb : time.best? with
  | none =>
    have hnil : time.candidates = [] := by
      by_contra hne
      obtain ⟨k, hk⟩ := best?_isSome hne
      rw [hk] at hb
      cases hb
    have hout : out.candidates = [] := by
      rw [h.candidates, hnil, List.filterMap_nil]
    rw [EventTime.best?, hout]
    split <;> rfl
  | some k =>
    obtain ⟨i, hi⟩ := hbest k.column (by rw [bestColumn?, hb]; rfl)
    rw [best?_of_leader (h.ranked hr) (h.leads (leader_of_best? hb) hi)]
    simp [hi]

end StreamPlan.EventTime

namespace StreamPlan

/-- Items that a partial function gives beside those that a test passes, which are at
least as many: both lists are the same if the function gives each its item. -/
theorem filterMap_eq_map_filter_iff {α β : Type} {f : α → Option β} {p : α → Bool} {g : α → β}
    {items : List α} (h : ∀ a ∈ items, (f a).isSome → p a = true) :
    items.filterMap f = (items.filter p).map g ↔ ∀ a ∈ items, p a = true → f a = some (g a) := by
  have hshorter : ∀ {items : List α}, (∀ a ∈ items, (f a).isSome → p a = true) →
      (items.filterMap f).length ≤ (items.filter p).length := by
    intro items h
    rw [List.length_filterMap_eq_countP, ← List.countP_eq_length_filter]
    exact List.countP_mono_left h
  induction items with
  | nil => simp
  | cons a items ih =>
    obtain ⟨ha, hitems⟩ := List.forall_mem_cons.1 h
    have hrest : items.filterMap f = (items.filter p).map g ↔
        ∀ a ∈ items, p a = true → f a = some (g a) := ih hitems
    rw [List.forall_mem_cons]
    cases hf : f a with
    | some b =>
      rw [List.filterMap_cons_some hf, List.filter_cons_of_pos (ha (by rw [hf]; rfl)),
        List.map_cons, List.cons.injEq, hrest]
      simp [ha (by rw [hf]; rfl)]
    | none =>
      rw [List.filterMap_cons_none hf]
      by_cases hp : p a = true
      · -- one item is missing
        rw [List.filter_cons_of_pos hp, List.map_cons]
        refine iff_of_false (fun heq => ?_) fun hall => nomatch hall.1 hp
        have hlen := congrArg List.length heq
        rw [List.length_cons, List.length_map] at hlen
        have := hshorter hitems
        omega
      · rw [List.filter_cons_of_neg hp, hrest]
        simp [hp]

namespace Derivation

variable {a b : Derivation}

/-- A derivation that stays as it is when merged with another one. -/
def Absorbs (a b : Derivation) : Prop := a.isCompatible b = true ∧ a.merge b = a

/-- Only a kept time absorbs anything but itself, namely a declared one. -/
theorem absorbs_iff : a.Absorbs b ↔ a = b ∨ a = .preserved ∧ b = .source := by
  cases a <;> cases b <;> simp [Absorbs, isCompatible, merge]

/-- What is merged is the derivation itself or a kept time. -/
theorem merge_cases (a b : Derivation) : a.merge b = a ∨ a.merge b = .preserved := by
  rw [merge]
  split
  · exact .inl rfl
  · exact .inr rfl

end Derivation

namespace EventTime

variable {time other : EventTime} {others : List EventTime} {k merged : TimeCandidate}

/-- The candidate columns with their derivations. -/
def kinds (time : EventTime) : List (Nat × Derivation) :=
  time.candidates.map fun k => (k.column, k.derivation)

theorem isEmpty_iff_kinds : time.isEmpty = true ↔ time.kinds = [] := by
  rw [isEmpty, List.isEmpty_iff, kinds, List.map_eq_nil_iff]

theorem map_fst_kinds (time : EventTime) : time.kinds.map Prod.fst = time.columns := by
  rw [kinds, List.map_map]
  rfl

/-- A shared candidate is on the column of both, which have compatible derivations. -/
theorem shared_eq_some :
    other.shared k = some merged ↔
      ∃ o, other.find? k.column = some o ∧ k.derivation.isCompatible o.derivation = true ∧
        merged = ⟨k.column, k.derivation.merge o.derivation, min k.rank o.rank⟩ := by
  unfold shared
  cases other.find? k.column with
  | none => simp
  | some o =>
    simp only [Option.ite_none_right_eq_some, Option.some.injEq, exists_eq_left']
    exact and_congr_right' eq_comm

/-- What merging with some event times, one after another, leaves of a candidate. -/
def throughAll (others : List EventTime) (k : TimeCandidate) : Option TimeCandidate :=
  others.foldlM (fun k other => other.shared k) k

theorem throughAll_cons (other : EventTime) (others : List EventTime) (k : TimeCandidate) :
    throughAll (other :: others) k = (other.shared k).bind (throughAll others) := by
  rw [throughAll, List.foldlM_cons]
  rfl

/-- **The candidates of merged event times** are what is left of those of the first. -/
theorem candidates_foldl_union (time : EventTime) (others : List EventTime) :
    (others.foldl union time).candidates = time.candidates.filterMap (throughAll others) := by
  induction others generalizing time with
  | nil => exact (List.filterMap_some).symm
  | cons other others ih =>
    rw [List.foldl_cons, ih, union, List.filterMap_filterMap]
    exact List.filterMap_congr fun k _ => (throughAll_cons other others k).symm

/-- A candidate stays on its column, where all others have one too. -/
theorem columns_of_throughAll (h : throughAll others k = some merged) :
    merged.column = k.column ∧ ∀ other ∈ others, k.column ∈ other.columns := by
  induction others generalizing k with
  | nil =>
    cases h
    exact ⟨rfl, by simp⟩
  | cons other others ih =>
    rw [throughAll_cons, Option.bind_eq_some_iff] at h
    obtain ⟨next, hnext, h⟩ := h
    obtain ⟨o, ho, -, rfl⟩ := shared_eq_some.1 hnext
    obtain ⟨hcolumn, hothers⟩ := ih h
    obtain ⟨hmem, hat⟩ := mem_of_find? ho
    exact ⟨hcolumn, List.forall_mem_cons.2 ⟨List.mem_map.2 ⟨o, hmem, hat⟩, hothers⟩⟩

/-- Merging weakens a derivation to a kept time at most. -/
theorem derivation_of_throughAll (h : throughAll others k = some merged) :
    merged.derivation = k.derivation ∨ merged.derivation = .preserved := by
  induction others generalizing k with
  | nil =>
    cases h
    exact .inl rfl
  | cons other others ih =>
    rw [throughAll_cons, Option.bind_eq_some_iff] at h
    obtain ⟨next, hnext, h⟩ := h
    obtain ⟨o, -, -, rfl⟩ := shared_eq_some.1 hnext
    rcases ih h with hsame | hkept
    · rw [hsame]
      exact Derivation.merge_cases _ _
    · exact .inr hkept

/-- A candidate that absorbs the derivation of every other event time on its column. -/
def AbsorbsAll (others : List EventTime) (k : TimeCandidate) : Prop :=
  ∀ other ∈ others, ∃ o, other.find? k.column = some o ∧ k.derivation.Absorbs o.derivation

/-- **A derivation lasts** through all merges exactly if it absorbs all others: one
that weakened does not come back. -/
theorem throughAll_keeps :
    (∃ merged, throughAll others k = some merged ∧ merged.derivation = k.derivation) ↔
      AbsorbsAll others k := by
  induction others generalizing k with
  | nil => exact ⟨(fun _ _ hnone => nomatch hnone), fun _ => ⟨k, rfl, rfl⟩⟩
  | cons other others ih =>
    have hstep : ∀ {o : TimeCandidate}, k.derivation.merge o.derivation = k.derivation →
        (AbsorbsAll others ⟨k.column, k.derivation.merge o.derivation, min k.rank o.rank⟩ ↔
          AbsorbsAll others k) := by
      intro o ho
      rw [ho]
      rfl
    constructor
    · rintro ⟨merged, hmerged, hsame⟩
      rw [throughAll_cons, Option.bind_eq_some_iff] at hmerged
      obtain ⟨next, hnext, hmerged⟩ := hmerged
      obtain ⟨o, ho, hcompatible, rfl⟩ := shared_eq_some.1 hnext
      have hlasts : k.derivation.merge o.derivation = k.derivation := by
        rcases derivation_of_throughAll hmerged with hlast | hkept
        · exact hlast.symm.trans hsame
        · -- the last derivation is a kept time, so the first was one already
          rcases Derivation.merge_cases k.derivation o.derivation with h | h
          · exact h
          · exact h.trans (hkept.symm.trans hsame)
      refine List.forall_mem_cons.2 ⟨⟨o, ho, hcompatible, hlasts⟩, (hstep hlasts).1 (ih.1 ?_)⟩
      exact ⟨merged, hmerged, hsame.trans hlasts.symm⟩
    · intro h
      obtain ⟨⟨o, ho, hcompatible, hlasts⟩, hothers⟩ := List.forall_mem_cons.1 h
      obtain ⟨merged, hmerged, hsame⟩ := ih.2 ((hstep hlasts).2 hothers)
      refine ⟨merged, ?_, hsame.trans hlasts⟩
      rw [throughAll_cons, shared_eq_some.2 ⟨o, ho, hcompatible, rfl⟩]
      exact hmerged

end EventTime

end StreamPlan
