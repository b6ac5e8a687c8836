import StreamPlan.EventTime.Basic
import StreamPlan.Proofs.Outcome

/-!
# Candidate columns of an event time

What each operation does to the candidate columns, and when it must succeed.

* `EventTime.fix_columns`, `addAll_columns`, `columns_remap`, …: the columns of
  the result.
* `EventTime.Coherent`: a fixed event time has one candidate. Every operation
  keeps this.
-/

namespace StreamPlan.EventTime

variable {time out : EventTime} {c : Nat}

theorem isCandidate_iff : time.isCandidate c = true ↔ c ∈ time.columns := by
  simp [isCandidate, columns]

@[simp] theorem columns_none : none.columns = [] := rfl

@[simp] theorem columns_single (c : Nat) (d : Derivation) : (single c d).columns = [c] := rfl

theorem mem_of_find? {k : TimeCandidate} (h : time.find? c = some k) :
    k ∈ time.candidates ∧ k.column = c :=
  ⟨List.mem_of_find?_eq_some h, by simpa using List.find?_some h⟩

/-- The candidate on a candidate column. -/
theorem find?_of_mem (h : c ∈ time.columns) : ∃ k, time.find? c = some k := by
  obtain ⟨k, hk, rfl⟩ := List.mem_map.1 h
  have : (time.find? k.column).isSome := by
    rw [find?, List.find?_isSome]
    exact ⟨k, hk, by simp⟩
  exact Option.isSome_iff_exists.1 this

theorem fix_columns (h : time.fix c = .ok out) :
    out.columns = [c] ∧ out.fixed = true ∧ c ∈ time.columns := by
  unfold fix at h
  split at h
  · rename_i k hk
    cases h
    obtain ⟨hmem, hcol⟩ := mem_of_find? hk
    exact ⟨by simp [columns, hcol], rfl, List.mem_map.2 ⟨k, hmem, hcol⟩⟩
  · cases h

/-- A fixed event time stays as it is when it is fixed again. -/
theorem fix_fix (h : time.fix c = .ok out) : out.fix c = .ok out := by
  unfold fix at h
  split at h
  · rename_i k hk
    cases h
    have hfound : find? ⟨[k], true⟩ c = some k := by
      simp [find?, (mem_of_find? hk).2]
    rw [fix, hfound]
  · cases h

theorem fix_gives (h : c ∈ time.columns) : Gives (time.fix c) fun out => out.columns = [c] := by
  obtain ⟨k, hk⟩ := find?_of_mem h
  have heq : time.fix c = .ok ⟨[k], true⟩ := by rw [fix, hk]
  exact ⟨_, heq, (fix_columns heq).1⟩

theorem foldl_first_mem (cs : List TimeCandidate) (k : TimeCandidate) :
    cs.foldl (fun best x => if precedes x best then x else best) k ∈ k :: cs := by
  induction cs generalizing k with
  | nil => simp
  | cons x xs ih =>
    rw [List.foldl_cons]
    rcases List.mem_cons.1 (ih (if precedes x k then x else k)) with h | h
    · rw [h]
      split <;> simp
    · exact List.mem_cons_of_mem _ (List.mem_cons_of_mem _ h)

theorem best?_mem {k : TimeCandidate} (h : time.best? = some k) : k ∈ time.candidates := by
  unfold best? at h
  split at h
  · exact List.mem_of_head? h
  · revert h
    cases hcs : time.candidates with
    | nil => simp [first?]
    | cons x xs =>
      intro h
      simp only [first?, Option.some.injEq] at h
      rw [← h]
      exact foldl_first_mem xs x

theorem bestColumn?_mem (h : time.bestColumn? = some c) : c ∈ time.columns := by
  obtain ⟨k, hk, rfl⟩ := Option.map_eq_some_iff.1 h
  exact List.mem_map_of_mem (best?_mem hk)

theorem bestColumn?_isSome (h : time.hasCandidates = true) : ∃ c, time.bestColumn? = some c := by
  unfold hasCandidates isEmpty at h
  unfold bestColumn? best?
  cases hcs : time.candidates with
  | nil => simp [hcs] at h
  | cons x xs => split <;> simp [first?]

theorem fixBest_columns (h : time.fixBest = .ok out) : ∀ c ∈ out.columns, c ∈ time.columns := by
  unfold fixBest at h
  split at h
  · obtain ⟨hcol, -, hmem⟩ := fix_columns h
    rw [hcol]
    simpa using hmem
  · cases h
    simp

theorem fixBest_gives : Gives time.fixBest fun out => ∀ c ∈ out.columns, c ∈ time.columns := by
  cases hb : time.bestColumn? with
  | none => exact ⟨none, by rw [fixBest, hb], by simp⟩
  | some k =>
    obtain ⟨o, ho, -⟩ := fix_gives (bestColumn?_mem hb)
    have heq : time.fixBest = .ok o := by rw [fixBest, hb]; exact ho
    exact ⟨o, heq, fixBest_columns heq⟩

theorem columns_remap (time : EventTime) (f : Nat → Option Nat) :
    (time.remap f).columns = time.columns.filterMap f := by
  unfold remap withCandidates columns
  rw [List.map_filterMap, List.filterMap_map]
  refine List.filterMap_congr fun k _ => ?_
  cases h : f k.column <;> simp [h]

theorem columns_shift (time : EventTime) (offset : Nat) :
    (time.shift offset).columns = time.columns.map (offset + ·) := by
  rw [shift, columns_remap]
  simp

theorem columns_restrictTo (time : EventTime) (cs : List Nat) :
    (time.restrictTo cs).columns = time.columns.filter cs.contains := by
  unfold restrictTo withCandidates columns
  rw [List.filter_map]
  rfl

theorem add_columns {d : Derivation} (h : time.add c d = .ok out) :
    (∀ x, x ∈ out.columns ↔ x ∈ time.columns ∨ x = c) ∧ out.fixed = time.fixed := by
  unfold add at h
  split at h
  · cases h
  · rename_i hf
    split at h
    · rename_i hc
      cases h
      refine ⟨fun x => ⟨.inl, ?_⟩, rfl⟩
      rintro (hx | rfl)
      · exact hx
      · exact isCandidate_iff.1 hc
    · cases h
      refine ⟨fun x => by simp [columns], ?_⟩
      simpa using hf

theorem add_gives {d : Derivation} (hf : time.fixed = false) :
    Gives (time.add c d) fun out => out.fixed = false ∧ ∀ x ∈ out.columns, x ∈ time.columns ∨ x = c := by
  have hok : ∃ o, time.add c d = .ok o := by
    unfold add
    rw [if_neg (by simp [hf])]
    split <;> exact ⟨_, rfl⟩
  obtain ⟨o, ho⟩ := hok
  obtain ⟨hmem, hfix⟩ := add_columns ho
  exact ⟨o, ho, hfix.trans hf, fun x hx => (hmem x).1 hx⟩

theorem addAll_columns {ks : List (Nat × Derivation)} (h : time.addAll ks = .ok out) :
    (∀ x, x ∈ out.columns ↔ x ∈ time.columns ∨ x ∈ ks.map Prod.fst) ∧ out.fixed = time.fixed := by
  refine foldlM_run (I := fun done (next : EventTime) =>
    (∀ x, x ∈ next.columns ↔ x ∈ time.columns ∨ x ∈ done.map Prod.fst) ∧ next.fixed = time.fixed)
    (by simp) (fun done k mid next _ ⟨hmem, hfixed⟩ hnext => ?_) h
  obtain ⟨hadded, hsame⟩ := add_columns hnext
  refine ⟨fun x => ?_, hsame.trans hfixed⟩
  rw [hadded, hmem, List.map_append, List.mem_append, List.map_singleton, List.mem_singleton,
    or_assoc]

theorem addAll_gives {ks : List (Nat × Derivation)} (hf : time.fixed = false) :
    Gives (time.addAll ks) fun out => ∀ x ∈ out.columns, x ∈ time.columns ∨ x ∈ ks.map Prod.fst := by
  have hok : Gives (time.addAll ks) fun _ => True := gives_iff.2 <|
    (Bounded.foldlM (I := fun next : EventTime => next.fixed = false) hf fun next k _ hnext =>
      gives_iff.1 ((add_gives (c := k.1) (d := k.2) hnext).mono fun _ h => h.1)).mono fun _ _ => trivial
  obtain ⟨o, ho, -⟩ := hok
  exact ⟨o, ho, fun x hx => ((addAll_columns ho).1 x).1 hx⟩

/-- A fixed event time has at most one candidate. -/
def Coherent (time : EventTime) : Prop := time.fixed = true → time.candidates.length ≤ 1

theorem coherent_single (c : Nat) (d : Derivation) : (single c d).Coherent := by
  intro _; exact Nat.le_refl _

theorem coherent_none : none.Coherent := by
  intro h; cases h

theorem coherent_of_fix (h : time.fix c = .ok out) : out.Coherent := by
  unfold fix at h
  split at h
  · cases h
    intro _
    exact Nat.le_refl _
  · cases h

theorem coherent_fixBest (h : time.fixBest = .ok out) : out.Coherent := by
  unfold fixBest at h
  split at h
  · exact coherent_of_fix h
  · cases h; exact coherent_none

theorem Coherent.remap (h : time.Coherent) (f : Nat → Option Nat) : (time.remap f).Coherent := by
  intro hf
  simp only [EventTime.remap, withCandidates, Bool.and_eq_true] at hf ⊢
  exact Nat.le_trans (List.length_filterMap_le _ _) (h hf.1)

theorem Coherent.restrictTo (h : time.Coherent) (cs : List Nat) : (time.restrictTo cs).Coherent := by
  intro hf
  simp only [EventTime.restrictTo, withCandidates, Bool.and_eq_true] at hf ⊢
  exact Nat.le_trans (List.length_filter_le _ _) (h hf.1)

theorem coherent_of_add {d : Derivation} (h : time.Coherent) (ho : time.add c d = .ok out) :
    out.Coherent := by
  unfold add at ho
  split at ho
  · cases ho
  · split at ho
    · cases ho; exact h
    · cases ho
      intro hf; cases hf

theorem coherent_of_addAll {ks : List (Nat × Derivation)} (h : time.Coherent)
    (ho : time.addAll ks = .ok out) : out.Coherent :=
  foldlM_keeps (I := Coherent) h (fun _ _ _ _ hmid hnext => coherent_of_add hmid hnext) ho

/-- The only candidate of a fixed event time is its best. -/
theorem Coherent.eq_best {c k : Nat} (h : time.Coherent) (hf : time.fixed = true)
    (hc : c ∈ time.columns) (hk : time.bestColumn? = some k) : c = k := by
  have hk' := bestColumn?_mem hk
  have hlen := h hf
  unfold columns at hc hk'
  match hcs : time.candidates, hlen with
  | [], _ => simp [hcs] at hc
  | [x], _ =>
    simp only [hcs, List.map_cons, List.map_nil, List.mem_singleton] at hc hk'
    rw [hc, hk']

end StreamPlan.EventTime
