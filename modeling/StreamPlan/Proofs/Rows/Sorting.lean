import StreamPlan.Proofs.Outcome
import StreamPlan.Rows.Sort

/-!
# Sorting looks at comparisons alone

However a list is sorted, where an item goes depends on the comparisons that are
made and on nothing else, also where the order is inconsistent or a comparison
faults.

* `Alike`: two computations end alike, with related results or the same fault.
* `Sorting.Matches`: related items compare alike.
* `Sorting.stable_alike`: **lists of related items are sorted alike.** Every way
  of sorting has its own lemma: `insertion_alike`, `short_alike`, `long_alike`.
* `Sorting.mem_of_stable`, `mem_of_sortRows`: related to themselves, items of a
  list show that sorting makes up none.
-/

namespace StreamPlan

variable {ε α β γ δ : Type} {R : α → β → Prop} {S : γ → δ → Prop}

/-- Two computations give related results, or stop for the same reason. -/
inductive Alike (R : α → β → Prop) : Except ε α → Except ε β → Prop
  | ok {a : α} {b : β} : R a b → Alike R (.ok a) (.ok b)
  | error (e : ε) : Alike R (.error e) (.error e)

namespace Alike

theorem bind {x : Except ε α} {y : Except ε β} {f : α → Except ε γ} {g : β → Except ε δ}
    (h : Alike R x y) (hf : ∀ a b, R a b → Alike S (f a) (g b)) : Alike S (x >>= f) (y >>= g) := by
  cases h with
  | ok hr => exact hf _ _ hr
  | error e => exact .error e

/-- A step that is the same on both sides. -/
theorem step {x y : Except ε α} {f : α → Except ε γ} {g : α → Except ε δ} (hxy : x = y)
    (hf : ∀ a, Alike S (f a) (g a)) : Alike S (x >>= f) (y >>= g) := by
  subst hxy
  cases x with
  | ok a => exact hf a
  | error e => exact .error e

/-- A step that is the same on both sides, with what it gives. -/
theorem after {x : Except ε α} {f : α → Except ε γ} {g : α → Except ε δ}
    (hf : ∀ a, x = .ok a → Alike S (f a) (g a)) : Alike S (x >>= f) (x >>= g) := by
  cases x with
  | ok a => exact hf a rfl
  | error e => exact .error e

theorem mono {Q : α → β → Prop} {x : Except ε α} {y : Except ε β} (h : Alike R x y)
    (hQ : ∀ a b, R a b → Q a b) : Alike Q x y := by
  cases h with
  | ok hr => exact .ok (hQ _ _ hr)
  | error e => exact .error e

/-- Computations that end alike, with what they give. -/
theorem results {x : Except ε α} {y : Except ε β} (h : Alike R x y) :
    Alike (fun a b => x = .ok a ∧ y = .ok b ∧ R a b) x y := by
  cases h with
  | ok hr => exact .ok ⟨rfl, rfl, hr⟩
  | error e => exact .error e

theorem map {x : Except ε α} {y : Except ε β} {f : α → γ} {g : β → δ} (h : Alike R x y)
    (hf : ∀ a b, R a b → S (f a) (g b)) : Alike S (x.map f) (y.map g) := by
  cases h with
  | ok hr => exact .ok (hf _ _ hr)
  | error e => exact .error e

theorem mapM {Q : α → β → Prop} {f : α → Except ε γ} {g : β → Except ε δ} {as : List α} {bs : List β}
    (h : List.Forall₂ Q as bs) (hf : ∀ a b, Q a b → Alike S (f a) (g b)) :
    Alike (List.Forall₂ S) (as.mapM f) (bs.mapM g) := by
  induction h with
  | nil => exact .ok .nil
  | cons hab _ ih =>
    rw [List.mapM_cons, List.mapM_cons]
    exact (hf _ _ hab).bind fun _ _ hcd => ih.bind fun _ _ hrest => .ok (.cons hcd hrest)

theorem foldlM {Q : α → β → Prop} {f : γ → α → Except ε γ} {g : δ → β → Except ε δ} {as : List α}
    {bs : List β} (h : List.Forall₂ Q as bs)
    (hf : ∀ c d, S c d → ∀ a b, Q a b → Alike S (f c a) (g d b)) {c : γ} {d : δ} (hcd : S c d) :
    Alike S (as.foldlM f c) (bs.foldlM g d) := by
  induction h generalizing c d with
  | nil => exact .ok hcd
  | cons hab _ ih =>
    rw [List.foldlM_cons, List.foldlM_cons]
    exact (hf _ _ hcd _ _ hab).bind fun _ _ hnext => ih hnext

/-- Computations that can only fault, among those that can also be refused. -/
theorem orFault {x : Except Fault α} {y : Except Fault β} (h : Alike R x y) :
    Alike R (orFault x : Checked ε α) (orFault y) := by
  cases h with
  | ok hr => exact .ok hr
  | error f => exact .error _

/-- A computation that succeeds ends as the other one does. -/
theorem of_ok {x : Except ε α} {y : Except ε β} {a : α} (h : Alike R x y) (hx : x = .ok a) :
    ∃ b, y = .ok b ∧ R a b := by
  cases h with
  | ok hr =>
    cases hx
    exact ⟨_, rfl, hr⟩
  | error e => cases hx

/-- One of them succeeds exactly if the other does. -/
theorem exists_ok_iff {x : Except ε α} {y : Except ε β} (h : Alike R x y) :
    (∃ a, x = .ok a) ↔ ∃ b, y = .ok b := by
  cases h with
  | ok _ => exact ⟨fun _ => ⟨_, rfl⟩, fun _ => ⟨_, rfl⟩⟩
  | error e => exact ⟨nofun, nofun⟩

end Alike

theorem itemAt_alike {as : List α} {bs : List β} (h : List.Forall₂ R as bs) (i : Nat) :
    Alike R (itemAt as i) (itemAt bs i) := by
  unfold itemAt
  rcases Nat.lt_or_ge i as.length with hi | hi
  · have hi' : i < bs.length := h.length_eq ▸ hi
    rw [List.getElem?_eq_getElem hi, List.getElem?_eq_getElem hi']
    exact .ok ((List.forall₂_iff_get.1 h).2 i hi hi')
  · rw [List.getElem?_eq_none hi, List.getElem?_eq_none (h.length_eq ▸ hi)]
    exact .error _

theorem forall₂_zipIdx {as : List α} {bs : List β} (h : List.Forall₂ R as bs) (start : Nat) :
    List.Forall₂ (fun p q => R p.1 q.1 ∧ p.2 = q.2) (as.zipIdx start) (bs.zipIdx start) := by
  induction h generalizing start with
  | nil => exact .nil
  | cons hab _ ih => exact .cons ⟨hab, rfl⟩ (ih (start + 1))

namespace Sorting

/-- Related items compare alike. -/
def Matches (R : α → β → Prop) (before : α → α → Except Fault Bool)
    (before' : β → β → Except Fault Bool) : Prop :=
  ∀ a b, R a b → ∀ x y, R x y → before a x = before' b y

variable {before : α → α → Except Fault Bool} {before' : β → β → Except Fault Bool}
  (hm : Matches R before before') {items : List α} {items' : List β}
include hm

theorem insertFromEnd_alike {x : α} {x' : β} (hx : R x x') {ys : List α} {ys' : List β}
    (h : List.Forall₂ R ys ys') :
    Alike (List.Forall₂ R) (insertFromEnd before x ys) (insertFromEnd before' x' ys') := by
  induction h with
  | nil =>
    rw [insertFromEnd, insertFromEnd]
    exact .ok (.cons hx .nil)
  | cons hy hys ih =>
    rw [insertFromEnd, insertFromEnd]
    refine .step (hm _ _ hx _ _ hy) fun b => ?_
    split
    · exact ih.bind fun _ _ ho => .ok (.cons hy ho)
    · exact .ok (.cons hx (.cons hy hys))

theorem insertAll_alike {sorted : List α} {sorted' : List β} (hs : List.Forall₂ R sorted sorted')
    (h : List.Forall₂ R items items') :
    Alike (List.Forall₂ R) (insertAll before sorted items) (insertAll before' sorted' items') :=
  (Alike.foldlM h (fun _ _ hdone _ _ hx => insertFromEnd_alike hm hx hdone)
    (List.rel_reverse hs)).bind fun _ _ ho => .ok (List.rel_reverse ho)

theorem insertion_alike (h : List.Forall₂ R items items') :
    Alike (List.Forall₂ R) (insertion before items) (insertion before' items') :=
  insertAll_alike hm .nil h

theorem ranksBelow_alike {x : α} {x' : β} (hx : R x x') {ys : List α} {ys' : List β}
    (h : List.Forall₂ R ys ys') : ∀ {last last'} (above : Bool), R last last' →
      Alike Eq (ranksBelow before x last above ys) (ranksBelow before' x' last' above ys') := by
  induction h with
  | nil =>
    intro last last' above _
    rw [ranksBelow, ranksBelow]
    exact .ok rfl
  | cons hy _ ih =>
    intro last last' above hlast
    rw [ranksBelow, ranksBelow]
    refine .step (hm _ _ hlast _ _ hy) fun b => ?_
    refine .step (hm _ _ hx _ _ hy) fun forth => ?_
    refine .step (hm _ _ hy _ _ hx) fun back => ?_
    split
    · exact ih _ hy
    · exact .ok rfl

theorem isRanked_alike (h : List.Forall₂ R items items') :
    Alike Eq (isRanked before items) (isRanked before' items') := by
  induction h with
  | nil =>
    rw [isRanked, isRanked]
    exact .ok rfl
  | cons hx hxs ih =>
    rw [isRanked, isRanked]
    refine (ranksBelow_alike hm hx hxs false hx).bind fun below below' hb => ?_
    subst hb
    split
    · exact ih
    · exact .ok rfl

omit hm in
/-- Of two related pairs, related items are picked. -/
theorem pick_related {p q : α} {p' q' : β} (t : Bool) (hp : R p p') (hq : R q q') :
    R (if t then p else q) (if t then p' else q') := by
  cases t <;> assumption

omit hm in
theorem swap_related {p q : α} {p' q' : β} (t : Bool) (hp : R p p') (hq : R q q') :
    R (if t then (q, p) else (p, q)).1 (if t then (q', p') else (p', q')).1 ∧
      R (if t then (q, p) else (p, q)).2 (if t then (q', p') else (p', q')).2 := by
  cases t <;> exact ⟨by assumption, by assumption⟩

theorem four_alike {a b c d : α} {a' b' c' d' : β} (ha : R a a') (hb : R b b') (hc : R c c')
    (hd : R d d') : Alike (List.Forall₂ R) (four before a b c d) (four before' a' b' c' d') := by
  unfold four
  refine .step (hm _ _ hb _ _ ha) fun x1 => ?_
  obtain ⟨h1, h2⟩ := swap_related x1 ha hb
  refine .step (hm _ _ hd _ _ hc) fun x2 => ?_
  obtain ⟨h3, h4⟩ := swap_related x2 hc hd
  refine .step (hm _ _ h3 _ _ h1) fun second => ?_
  refine .step (hm _ _ h4 _ _ h2) fun first => ?_
  have hleast := pick_related second h3 h1
  have hgreatest := pick_related first h2 h4
  have hleft := pick_related second h1 (pick_related first h3 h2)
  have hright := pick_related first h4 (pick_related second h2 h3)
  refine .step (hm _ _ hright _ _ hleft) fun swap => ?_
  split
  · exact .ok (.cons hleast (.cons hright (.cons hleft (.cons hgreatest .nil))))
  · exact .ok (.cons hleast (.cons hleft (.cons hright (.cons hgreatest .nil))))

theorem mergeStep_alike {ends : Ends} {front back : List α} {front' back' : List β}
    (h : List.Forall₂ R items items') (hf : List.Forall₂ R front front')
    (hb : List.Forall₂ R back back') :
    Alike (fun out out' => out.1 = out'.1 ∧ List.Forall₂ R out.2.1 out'.2.1 ∧
        List.Forall₂ R out.2.2 out'.2.2)
      (mergeStep before items ends front back) (mergeStep before' items' ends front' back') := by
  unfold mergeStep
  refine (itemAt_alike h _).bind fun l l' hl => ?_
  refine (itemAt_alike h _).bind fun r r' hr => ?_
  refine .step (hm _ _ hr _ _ hl) fun takeRight => ?_
  refine (itemAt_alike h _).bind fun lastLeft lastLeft' hll => ?_
  refine (itemAt_alike h _).bind fun lastRight lastRight' hlr => ?_
  refine .step (hm _ _ hlr _ _ hll) fun takeLeft => ?_
  exact .ok ⟨rfl, .cons (pick_related takeRight hr hl) hf, .cons (pick_related takeLeft hll hlr) hb⟩

theorem mergeFrom_alike {odd : Bool} (h : List.Forall₂ R items items') :
    ∀ (steps : Nat) (ends : Ends) {front back : List α} {front' back' : List β},
      List.Forall₂ R front front' → List.Forall₂ R back back' →
      Alike (List.Forall₂ R) (mergeFrom before items odd steps ends front back)
        (mergeFrom before' items' odd steps ends front' back') := by
  intro steps
  induction steps with
  | zero =>
    intro ends front back front' back' hf hb
    rw [mergeFrom, mergeFrom]
    have hplaced : ∀ {middle : List α} {middle' : List β}, List.Forall₂ R middle middle' →
        ∀ left right : Nat, Alike (List.Forall₂ R)
          (if left = ends.leftStop ∧ right = ends.rightStop then
            pure (front.reverse ++ middle ++ back) else .error .inconsistentOrder)
          (if left = ends.leftStop ∧ right = ends.rightStop then
            pure (front'.reverse ++ middle' ++ back') else .error Fault.inconsistentOrder) := by
      intro middle middle' hmiddle left right
      split
      · exact .ok (List.rel_append (List.rel_append (List.rel_reverse hf) hmiddle) hb)
      · exact .error _
    simp only
    split
    · refine Alike.bind (R := List.Forall₂ R) ((itemAt_alike h _).map fun _ _ ha => ?_)
        fun _ _ hmiddle => hplaced hmiddle _ _
      exact .cons ha .nil
    · exact hplaced .nil _ _
  | succ steps ih =>
    intro ends front back front' back' hf hb
    rw [mergeFrom, mergeFrom]
    refine (mergeStep_alike hm h hf hb).bind ?_
    rintro ⟨ends, front, back⟩ ⟨ends', front', back'⟩ ⟨hends, hof, hob⟩
    cases hends
    exact ih ends hof hob

theorem mergeEnds_alike (h : List.Forall₂ R items items') :
    Alike (List.Forall₂ R) (mergeEnds before items) (mergeEnds before' items') := by
  unfold mergeEnds
  rw [h.length_eq]
  exact mergeFrom_alike hm h _ _ .nil .nil

theorem eight_alike (h : List.Forall₂ R items items') :
    Alike (List.Forall₂ R) (eight before items) (eight before' items') := by
  unfold eight
  split
  · obtain _ | ⟨ha, _ | ⟨hb, _ | ⟨hc, _ | ⟨hd, _ | ⟨he, _ | ⟨hf, _ | ⟨hg, _ | ⟨hh, _ | _⟩⟩⟩⟩⟩⟩⟩⟩ := h
    exact (four_alike hm ha hb hc hd).bind fun _ _ hl =>
      (four_alike hm he hf hg hh).bind fun _ _ hr => mergeEnds_alike hm (List.rel_append hl hr)
  · rename_i hother
    split
    · exfalso
      obtain _ | ⟨ha, _ | ⟨hb, _ | ⟨hc, _ | ⟨hd, _ | ⟨he, _ | ⟨hf, _ | ⟨hg, _ | ⟨hh, _ | _⟩⟩⟩⟩⟩⟩⟩⟩ := h
      exact hother _ _ _ _ _ _ _ _ rfl
    · exact insertion_alike hm h

theorem half_alike {first : Nat} (h : List.Forall₂ R items items') :
    Alike (List.Forall₂ R) (half before first items) (half before' first items') := by
  unfold half
  split
  · exact (eight_alike hm (List.forall₂_take 8 h)).bind fun _ _ hs =>
      insertAll_alike hm hs (List.forall₂_drop 8 h)
  · split
    · obtain _ | ⟨ha, _ | ⟨hb, _ | ⟨hc, _ | ⟨hd, hrest⟩⟩⟩⟩ := h
      exact (four_alike hm ha hb hc hd).bind fun _ _ hs => insertAll_alike hm hs hrest
    · rename_i hother
      split
      · exfalso
        obtain _ | ⟨ha, _ | ⟨hb, _ | ⟨hc, _ | ⟨hd, hrest⟩⟩⟩⟩ := h
        exact hother _ _ _ _ _ rfl rfl
      · exact insertion_alike hm h

theorem short_alike {narrow : Bool} (h : List.Forall₂ R items items') :
    Alike (List.Forall₂ R) (short before narrow items) (short before' narrow items') := by
  unfold short
  rw [h.length_eq]
  simp only
  split
  · exact .ok h
  · refine (half_alike hm (List.forall₂_take _ h)).bind fun _ _ hl => ?_
    exact (half_alike hm (List.forall₂_drop _ h)).bind fun _ _ hr =>
      mergeEnds_alike hm (List.rel_append hl hr)

theorem runAfter_alike {descending : Bool} {xs : List α} {xs' : List β} (h : List.Forall₂ R xs xs') :
    ∀ {last last'}, R last last' →
      Alike Eq (runAfter before descending last xs) (runAfter before' descending last' xs') := by
  induction h with
  | nil =>
    intro last last' _
    rw [runAfter, runAfter]
    exact .ok rfl
  | cons hx _ ih =>
    intro last last' hlast
    rw [runAfter, runAfter]
    refine .step (hm _ _ hx _ _ hlast) fun b => ?_
    split
    · exact (ih hx).bind fun _ _ hn => .ok (by rw [hn])
    · exact .ok rfl

theorem firstRun_alike (h : List.Forall₂ R items items') :
    Alike Eq (firstRun before items) (firstRun before' items') := by
  obtain _ | ⟨hx, _ | ⟨hy, hrest⟩⟩ := h
  · rw [firstRun, firstRun]
    · exact .ok rfl
    all_goals nofun
  · rw [firstRun, firstRun]
    · exact .ok rfl
    all_goals nofun
  · rw [firstRun, firstRun]
    refine .step (hm _ _ hy _ _ hx) fun descending => ?_
    exact (runAfter_alike hm hrest hy).bind fun _ _ hn => .ok (by rw [hn])

theorem mergeUp_alike : ∀ {ls rs : List α} {ls' rs' : List β}, List.Forall₂ R ls ls' →
    List.Forall₂ R rs rs' → Alike (List.Forall₂ R) (mergeUp before ls rs) (mergeUp before' ls' rs')
  | _, _, _, _, .nil, hr => by
    rw [mergeUp, mergeUp]
    exact .ok hr
  | _, _, _, _, .cons hl hls, .nil => by
    rw [mergeUp, mergeUp]
    · exact .ok (.cons hl hls)
    · simp
    · simp
  | _, _, _, _, .cons hl hls, .cons hr hrs => by
    rw [mergeUp, mergeUp]
    refine .step (hm _ _ hr _ _ hl) fun b => ?_
    split
    · exact (mergeUp_alike (.cons hl hls) hrs).bind fun _ _ ho => .ok (.cons hr ho)
    · exact (mergeUp_alike hls (.cons hr hrs)).bind fun _ _ ho => .ok (.cons hl ho)

theorem mergeDown_alike : ∀ {ls rs : List α} {ls' rs' : List β}, List.Forall₂ R ls ls' →
    List.Forall₂ R rs rs' →
    Alike (List.Forall₂ R) (mergeDown before ls rs) (mergeDown before' ls' rs')
  | _, _, _, _, .nil, hr => by
    rw [mergeDown, mergeDown]
    exact .ok hr
  | _, _, _, _, .cons hl hls, .nil => by
    rw [mergeDown, mergeDown]
    · exact .ok (.cons hl hls)
    · simp
    · simp
  | _, _, _, _, .cons hl hls, .cons hr hrs => by
    rw [mergeDown, mergeDown]
    refine .step (hm _ _ hr _ _ hl) fun b => ?_
    split
    · exact (mergeDown_alike hls (.cons hr hrs)).bind fun _ _ ho => .ok (.cons hl ho)
    · exact (mergeDown_alike (.cons hl hls) hrs).bind fun _ _ ho => .ok (.cons hr ho)

theorem merge_alike {ls rs : List α} {ls' rs' : List β} (hl : List.Forall₂ R ls ls')
    (hr : List.Forall₂ R rs rs') :
    Alike (List.Forall₂ R) (merge before ls rs) (merge before' ls' rs') := by
  unfold merge
  rw [hl.length_eq, hr.length_eq]
  split
  · exact mergeUp_alike hm hl hr
  · exact (mergeDown_alike hm (List.rel_reverse hl) (List.rel_reverse hr)).map fun _ _ ho =>
      List.rel_reverse ho

/-- Runs of related items that are both sorted or both left for later. -/
structure RunAlike (R : α → β → Prop) (run : Run α) (run' : Run β) : Prop where
  sorted : run.sorted = run'.sorted
  items : List.Forall₂ R run.items run'.items

/-- Pending runs, pair by pair, at the same depths. -/
def StackAlike (R : α → β → Prop) : List (Run α × Nat) → List (Run β × Nat) → Prop :=
  List.Forall₂ fun p q => RunAlike R p.1 q.1 ∧ p.2 = q.2

section Merging

variable {finish sortShort : List α → Except Fault (List α)}
  {finish' sortShort' : List β → Except Fault (List β)}
  (hfinish : ∀ xs ys, List.Forall₂ R xs ys → Alike (List.Forall₂ R) (finish xs) (finish' ys))
  (hshort : ∀ xs ys, List.Forall₂ R xs ys → Alike (List.Forall₂ R) (sortShort xs) (sortShort' ys))

include hfinish

omit hm in
theorem finished_alike {run : Run α} {run' : Run β} (h : RunAlike R run run') :
    Alike (List.Forall₂ R) (run.finished finish) (run'.finished finish') := by
  unfold Run.finished
  rw [h.sorted]
  split
  · exact .ok h.items
  · exact hfinish _ _ h.items

theorem runMerge_alike {left right : Run α} {left' right' : Run β} (hl : RunAlike R left left')
    (hr : RunAlike R right right') :
    Alike (RunAlike R) (left.merge before finish right) (left'.merge before' finish' right') := by
  unfold Run.merge
  rw [hl.sorted, hr.sorted]
  split
  · refine (finished_alike hfinish hl).bind fun _ _ hl' => ?_
    refine (finished_alike hfinish hr).bind fun _ _ hr' => ?_
    exact (merge_alike hm hl' hr').bind fun _ _ ho => .ok ⟨rfl, ho⟩
  · exact .ok ⟨rfl, List.rel_append hl.items hr.items⟩

theorem collapse_alike {depth : Nat} {stack : List (Run α × Nat)} {stack' : List (Run β × Nat)}
    (hs : StackAlike R stack stack') : ∀ {last : Run α} {last' : Run β}, RunAlike R last last' →
      Alike (fun out out' => StackAlike R out.1 out'.1 ∧ RunAlike R out.2 out'.2)
        (collapse before finish depth stack last) (collapse before' finish' depth stack' last') := by
  induction hs with
  | nil =>
    intro last last' hl
    rw [collapse, collapse]
    · exact .ok ⟨.nil, hl⟩
    all_goals rintro _ _ _ _ ⟨⟩
  | @cons p q stack stack' hp hstack ih =>
    intro last last' hl
    obtain ⟨left, d⟩ := p
    obtain ⟨left', d'⟩ := q
    obtain ⟨hleft, rfl⟩ := hp
    cases hstack with
    | nil =>
      rw [collapse, collapse]
      · exact .ok ⟨.cons ⟨hleft, rfl⟩ .nil, hl⟩
      all_goals rintro _ _ _ _ ⟨⟩
    | cons hnext hrest =>
      rw [collapse, collapse]
      split
      · exact (runMerge_alike hm hfinish hleft hl).bind fun _ _ hmerged => ih hmerged
      · exact .ok ⟨.cons ⟨hleft, rfl⟩ (.cons hnext hrest), hl⟩

include hshort

omit hfinish in
theorem nextRun_alike {eager : Bool} {good : Nat} (h : List.Forall₂ R items items') :
    Alike (fun out out' => RunAlike R out.1 out'.1 ∧ List.Forall₂ R out.2 out'.2)
      (nextRun before sortShort eager good items) (nextRun before' sortShort' eager good items') := by
  have hread : ∀ (found : Nat) (descending : Bool),
      Alike (fun out out' : Run _ × List _ => RunAlike R out.1 out'.1 ∧ List.Forall₂ R out.2 out'.2)
        (do
          if 0 < found ∧ good ≤ found then
            let run := items.take found
            return (⟨true, if descending then run.reverse else run⟩, items.drop found)
          else if eager then
            return (⟨true, ← sortShort (items.take shortLimit)⟩, items.drop shortLimit)
          else return (⟨false, items.take good⟩, items.drop good))
        (do
          if 0 < found ∧ good ≤ found then
            let run := items'.take found
            return (⟨true, if descending then run.reverse else run⟩, items'.drop found)
          else if eager then
            return (⟨true, ← sortShort' (items'.take shortLimit)⟩, items'.drop shortLimit)
          else return (⟨false, items'.take good⟩, items'.drop good)) := by
    intro found descending
    split
    · refine .ok ⟨⟨rfl, ?_⟩, List.forall₂_drop found h⟩
      cases descending
      · exact List.forall₂_take found h
      · exact List.rel_reverse (List.forall₂_take found h)
    · split
      · exact (hshort _ _ (List.forall₂_take _ h)).bind fun _ _ hs =>
          .ok ⟨⟨rfl, hs⟩, List.forall₂_drop _ h⟩
      · exact .ok ⟨⟨rfl, List.forall₂_take _ h⟩, List.forall₂_drop _ h⟩
  unfold nextRun
  rw [h.length_eq]
  simp only
  split
  · refine (firstRun_alike hm h).bind ?_
    rintro ⟨found, descending⟩ _ rfl
    exact hread found descending
  · exact hread 0 false

theorem mergeFromRuns_alike {eager : Bool} {n : Nat} : ∀ (fuel start : Nat)
    {stack : List (Run α × Nat)} {stack' : List (Run β × Nat)} {last : Run α} {last' : Run β}
    {items : List α} {items' : List β}, StackAlike R stack stack' → RunAlike R last last' →
      List.Forall₂ R items items' →
      Alike (RunAlike R) (mergeFromRuns before finish sortShort eager n fuel stack last start items)
        (mergeFromRuns before' finish' sortShort' eager n fuel stack' last' start items') := by
  intro fuel
  induction fuel with
  | zero =>
    intro start stack stack' last last' items items' _ hl _
    rw [mergeFromRuns, mergeFromRuns]
    exact .ok hl
  | succ fuel ih =>
    intro start stack stack' last last' items items' hs hl hi
    cases hi with
    | nil =>
      rw [mergeFromRuns, mergeFromRuns]
      exact (collapse_alike hm hfinish hs hl).bind fun _ _ ho => .ok ho.2
    | cons hx hxs =>
      rw [mergeFromRuns, mergeFromRuns]
      · refine (nextRun_alike hm hshort (.cons hx hxs)).bind ?_
        rintro ⟨run, rest⟩ ⟨run', rest'⟩ ⟨hrun, hrest⟩
        simp only [hl.items.length_eq, hrun.items.length_eq]
        refine (collapse_alike hm hfinish hs hl).bind ?_
        rintro ⟨stack, last⟩ ⟨stack', last'⟩ ⟨hstack, hlast⟩
        exact ih _ (.cons ⟨hlast, rfl⟩ hstack) hrun hrest
      · simp
      · simp

theorem mergeRuns_alike {eager : Bool} (h : List.Forall₂ R items items') :
    Alike (List.Forall₂ R) (mergeRuns before finish sortShort eager items)
      (mergeRuns before' finish' sortShort' eager items') := by
  unfold mergeRuns
  rw [h.length_eq]
  exact (mergeFromRuns_alike hm hfinish hshort _ _ .nil ⟨rfl, .nil⟩ h).bind fun _ _ hrun =>
    finished_alike hfinish hrun

end Merging

theorem median_alike (h : List.Forall₂ R items items') (a b c : Nat) :
    Alike Eq (median before items a b c) (median before' items' a b c) := by
  unfold median
  refine (itemAt_alike h a).bind fun x x' hx => ?_
  refine (itemAt_alike h b).bind fun y y' hy => ?_
  refine .step (hm _ _ hx _ _ hy) fun first => ?_
  refine (itemAt_alike h a).bind fun _ _ hx => ?_
  refine (itemAt_alike h c).bind fun z z' hz => ?_
  refine .step (hm _ _ hx _ _ hz) fun second => ?_
  split
  · refine (itemAt_alike h b).bind fun _ _ hy => ?_
    refine (itemAt_alike h c).bind fun _ _ hz => ?_
    exact .step (hm _ _ hy _ _ hz) fun third => .ok rfl
  · exact .ok rfl

theorem medianOf_alike (h : List.Forall₂ R items items') : ∀ fuel a b c n : Nat,
    Alike Eq (medianOf before items fuel a b c n) (medianOf before' items' fuel a b c n) := by
  intro fuel
  induction fuel with
  | zero =>
    intro a b c n
    rw [medianOf, medianOf]
    exact median_alike hm h a b c
  | succ fuel ih =>
    intro a b c n
    rw [medianOf, medianOf]
    split
    · exact median_alike hm h a b c
    · refine (ih _ _ _ _).bind ?_
      rintro a _ rfl
      refine (ih _ _ _ _).bind ?_
      rintro b _ rfl
      refine (ih _ _ _ _).bind ?_
      rintro c _ rfl
      exact median_alike hm h a b c

theorem pivot_alike (h : List.Forall₂ R items items') :
    Alike Eq (pivot before items) (pivot before' items') := by
  unfold pivot
  rw [h.length_eq]
  simp only
  split
  · exact median_alike hm h _ _ _
  · exact medianOf_alike hm h _ _ _ _ _

omit hm in
theorem split_alike {test : α → Except Fault Bool} {test' : β → Except Fault Bool} {position : Nat}
    {pivotFirst : Bool} (htest : ∀ a b, R a b → test a = test' b) (h : List.Forall₂ R items items') :
    Alike (fun out out' => List.Forall₂ R out.1 out'.1 ∧ List.Forall₂ R out.2 out'.2)
      (split test position pivotFirst items) (split test' position pivotFirst items') := by
  unfold split
  refine Alike.bind (R := List.Forall₂ fun m m' => R m.1 m'.1 ∧ m.2 = m'.2)
    (Alike.mapM (forall₂_zipIdx h 0) ?_) fun marked marked' hmarked => ?_
  · rintro ⟨x, i⟩ ⟨x', _⟩ ⟨hx, rfl⟩
    simp only
    split
    · exact .ok ⟨hx, rfl⟩
    · exact .step (htest x x' hx) fun b => .ok ⟨hx, rfl⟩
  · have hpart : ∀ keep : Bool → Bool, List.Forall₂ R ((marked.filter fun m => keep m.2).map Prod.fst)
        ((marked'.filter fun m => keep m.2).map Prod.fst) := by
      intro keep
      rw [List.forall₂_map_left_iff, List.forall₂_map_right_iff]
      exact (List.rel_filter (fun _ _ hp => by simp only [hp.2]) hmarked).imp fun _ _ hp => hp.1
    simp only [List.partition_eq_filter_filter]
    exact .ok ⟨hpart id, hpart not⟩

theorem partitioned_alike {narrow : Bool} : ∀ (limit : Nat) {ancestor : Option α}
    {ancestor' : Option β} {items : List α} {items' : List β}, Option.Rel R ancestor ancestor' →
      List.Forall₂ R items items' → Alike (List.Forall₂ R)
        (partitioned before narrow limit ancestor items)
        (partitioned before' narrow limit ancestor' items') := by
  intro limit
  induction limit with
  | zero =>
    intro ancestor ancestor' items items' _ h
    rw [partitioned, partitioned, h.length_eq]
    split
    · exact short_alike hm h
    · exact mergeRuns_alike hm (fun _ _ hs => .ok hs) (fun _ _ hs => short_alike hm hs) h
  | succ limit ih =>
    intro ancestor ancestor' items items' ha h
    rw [partitioned, partitioned, h.length_eq]
    split
    · exact short_alike hm h
    · refine (pivot_alike hm h).bind ?_
      rintro position _ rfl
      refine (itemAt_alike h position).bind fun p p' hp => ?_
      have hparts : ∀ {less others : List α} {less' others' : List β}, List.Forall₂ R less less' →
          List.Forall₂ R others others' → Alike (List.Forall₂ R)
            (do
              if less.isEmpty then
                let out ← Sorting.split (fun x => do return !(← before p x)) position true items
                return out.1 ++ (← partitioned before narrow limit none out.2)
              else
                let right ← partitioned before narrow limit (some p) others
                return (← partitioned before narrow limit ancestor less) ++ right)
            (do
              if less'.isEmpty then
                let out ← Sorting.split (fun x => do return !(← before' p' x)) position true items'
                return out.1 ++ (← partitioned before' narrow limit none out.2)
              else
                let right ← partitioned before' narrow limit (some p') others'
                return (← partitioned before' narrow limit ancestor' less') ++ right) := by
        intro less others less' others' hless hothers
        have hempty : less.isEmpty = less'.isEmpty := by cases hless <;> rfl
        rw [hempty]
        split
        · refine (split_alike (fun x x' hx => by rw [hm _ _ hp _ _ hx]) h).bind fun _ _ ho => ?_
          exact (ih .none ho.2).bind fun _ _ hs => .ok (List.rel_append ho.1 hs)
        · refine (ih (.some hp) hothers).bind fun _ _ hr => ?_
          exact (ih ha hless).bind fun _ _ hl => .ok (List.rel_append hl hr)
      have hsides := @split_alike _ _ R items items' (fun x => before x p) (fun x => before' x p')
        position false (fun x x' hx => hm _ _ hx _ _ hp) h
      simp only
      cases ha with
      | none =>
        refine .step rfl fun equalToAncestor => ?_
        split
        · exact hparts .nil h
        · exact hsides.bind fun _ _ ho => hparts ho.1 ho.2
      | some hr =>
        refine .step (hm _ _ hr _ _ hp) fun b => .step rfl fun equalToAncestor => ?_
        split
        · exact hparts .nil h
        · exact hsides.bind fun _ _ ho => hparts ho.1 ho.2

theorem long_alike {narrow : Bool} (h : List.Forall₂ R items items') :
    Alike (List.Forall₂ R) (long before narrow items) (long before' narrow items') := by
  unfold long
  rw [h.length_eq]
  refine mergeRuns_alike hm (fun xs ys hs => ?_) (fun _ _ hs => short_alike hm hs) h
  unfold finishLater
  rw [hs.length_eq]
  exact partitioned_alike hm _ .none hs

theorem consistent?_alike (h : List.Forall₂ R items items') :
    Option.Rel (List.Forall₂ R) (consistent? before items) (consistent? before' items') := by
  unfold consistent?
  have hinsertion := insertion_alike hm h
  generalize insertion before items = x at hinsertion
  generalize insertion before' items' = y at hinsertion
  cases hinsertion with
  | error e => exact .none
  | @ok sorted sorted' hs =>
    have hranked := isRanked_alike hm hs
    simp only [Except.toOption, Option.bind_eq_bind, Option.bind_some]
    generalize isRanked before sorted = x at hranked
    generalize isRanked before' sorted' = y at hranked
    cases hranked with
    | error e => exact .none
    | ok hb =>
      subst hb
      simp only [Option.bind_some]
      split
      · exact .some hs
      · exact .none

/-- **Lists of related items are sorted alike.** -/
theorem stable_alike {narrow : Bool} (h : List.Forall₂ R items items') :
    Alike (List.Forall₂ R) (stable before narrow items) (stable before' narrow items') := by
  unfold stable
  rw [h.length_eq]
  split
  · exact insertion_alike hm h
  · have hconsistent := consistent?_alike hm h
    generalize consistent? before items = x at hconsistent
    generalize consistent? before' items' = y at hconsistent
    cases hconsistent with
    | some hs => exact .ok hs
    | none => exact long_alike hm h

omit hm in
/-- **A stable sort holds only items of the list.** -/
theorem mem_of_stable {narrow : Bool} {items out : List α} (h : stable before narrow items = .ok out) :
    ∀ a ∈ out, a ∈ items := by
  -- items of the list, related to themselves
  have hself : Matches (fun a b => a = b ∧ a ∈ items) before before := by
    rintro a _ ⟨rfl, -⟩ x _ ⟨rfl, -⟩
    rfl
  have hsame : Alike _ (stable before narrow items) (stable before narrow items) :=
    stable_alike hself (List.forall₂_same.2 fun a ha => ⟨rfl, ha⟩)
  obtain ⟨out', -, hout⟩ := hsame.of_ok h
  intro a ha
  obtain ⟨i, hi, rfl⟩ := List.getElem_of_mem ha
  exact ((List.forall₂_iff_get.1 hout).2 i hi (hout.length_eq ▸ hi)).2

end Sorting

/-- **Sorted rows were there before.** -/
theorem mem_of_sortRows {order : SortOrder} {rows out : List Row} (h : sortRows order rows = .ok out) :
    ∀ row ∈ out, row ∈ rows := Sorting.mem_of_stable h

end StreamPlan
