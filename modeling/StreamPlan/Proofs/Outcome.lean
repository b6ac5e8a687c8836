import Mathlib.Data.List.Forall2
import Mathlib.Data.List.Induction
import StreamPlan.Plan.Error

/-!
# Outcomes of computations

How the three endings of a computation pass through its steps.

* `bind_eq_ok`, `lift_eq_ok`, …: a computation that succeeds, step by step.
* `foldlM_run`, `foldl_run`: what each step of a loop keeps of what is done, the loop keeps.
* `Bounded`: a computation fails only as allowed, and a result is of a kind.
* `Gives`: a computation succeeds with a result of a kind: no failure is allowed.
* `Safe`: a computation faults only as allowed. A refusal is a legitimate answer.
-/

namespace StreamPlan

variable {ε α β : Type}

theorem bind_eq_ok {x : Except ε α} {f : α → Except ε β} {b : β} :
    (x >>= f) = .ok b ↔ ∃ a, x = .ok a ∧ f a = .ok b := by
  cases x <;> simp [bind, Except.bind]

theorem map_eq_ok {x : Except ε α} {f : α → β} {b : β} :
    (f <$> x) = .ok b ↔ ∃ a, x = .ok a ∧ f a = b := by
  cases x <;> simp [Functor.map, Except.map]

theorem pure_eq_ok {a b : α} : (pure a : Except ε α) = .ok b ↔ a = b := by
  simp [pure, Except.pure]

theorem lift_eq_ok {x : Except Fault α} {a : α} :
    (liftM x : Checked ε α) = .ok a ↔ x = .ok a := by
  cases x <;> simp [liftM, monadLift, MonadLift.monadLift, orFault]

theorem ok_bind (a : α) (f : α → Except ε β) : (Except.ok a >>= f) = f a := rfl

theorem orFault_ok (a : α) : (orFault (.ok a) : Checked ε α) = .ok a := rfl

theorem lift_ok (a : α) : (liftM (.ok a : Except Fault α) : Checked ε α) = .ok a := rfl

theorem orFault_eq_ok {x : Except Fault α} {a : α} :
    (orFault x : Checked ε α) = .ok a ↔ x = .ok a := by
  cases x <;> simp [orFault]

theorem orRefuse_eq_ok {x : Except ε α} {a : α} : orRefuse x = .ok a ↔ x = .ok a := by
  cases x <;> simp [orRefuse]

theorem needing_eq_ok {x : Except MissingCapability α} {a : α} :
    needing x = .ok a ↔ x = .ok a := by
  cases x <;> simp [needing, refuse]

theorem refuse_ne_ok {e : ε} {a : α} : (refuse e : Checked ε α) ≠ .ok a := by
  simp [refuse]

theorem itemAt_eq_ok {items : List α} {i : Nat} {a : α} :
    itemAt items i = .ok a ↔ items[i]? = some a := by
  unfold itemAt
  split <;> simp_all

/-- Computations that go on alike from every result of the first step are alike. -/
theorem bind_congr_ok {x : Except ε α} {f g : α → Except ε β} (h : ∀ a, x = .ok a → f a = g a) :
    (x >>= f) = (x >>= g) := by
  cases x with
  | error e => rfl
  | ok a => exact h a rfl

/-- Loops whose steps are alike. -/
theorem foldlM_congr {f g : β → α → Except ε β} {as : List α} (h : ∀ a ∈ as, ∀ b, f b a = g b a) :
    ∀ b : β, as.foldlM f b = as.foldlM g b := by
  induction as with
  | nil => exact fun _ => rfl
  | cons a as ih =>
    intro b
    obtain ⟨ha, has⟩ := List.forall_mem_cons.1 h
    rw [List.foldlM_cons, List.foldlM_cons, ha b]
    exact bind_congr_ok fun c _ => ih has c

/-- **What every step of a loop keeps, the loop keeps**: a relation of the items taken in
so far to what the loop has made of them. -/
theorem foldlM_run {f : β → α → Except ε β} {I : List α → β → Prop} {as : List α} {b out : β}
    (hstart : I [] b)
    (hstep : ∀ done a b next, done ++ [a] <+: as → I done b → f b a = .ok next → I (done ++ [a]) next)
    (h : as.foldlM f b = .ok out) : I as out := by
  -- from the end, so that what is done is always a beginning of the list
  induction as using List.reverseRecOn generalizing out with
  | nil =>
    cases h
    exact hstart
  | append_singleton as a ih =>
    rw [List.foldlM_append, bind_eq_ok] at h
    obtain ⟨mid, hmid, h⟩ := h
    rw [List.foldlM_cons, bind_eq_ok] at h
    obtain ⟨next, hnext, h⟩ := h
    cases h
    refine hstep as a mid _ (List.prefix_refl _) (ih (fun done a b next hbegins => ?_) hmid) hnext
    exact hstep done a b next (hbegins.trans (List.prefix_append _ _))

/-- The same of a loop whose steps cannot fail. -/
theorem foldl_run {f : β → α → β} {I : List α → β → Prop} {as : List α} {b : β} (hstart : I [] b)
    (hstep : ∀ done a b, done ++ [a] <+: as → I done b → I (done ++ [a]) (f b a)) :
    I as (as.foldl f b) := by
  induction as using List.reverseRecOn with
  | nil => exact hstart
  | append_singleton as a ih =>
    rw [List.foldl_append]
    refine hstep as a _ (List.prefix_refl _) (ih fun done a b hbegins => ?_)
    exact hstep done a b (hbegins.trans (List.prefix_append _ _))

/-- What every step keeps of the result alone, the loop keeps. -/
theorem foldlM_keeps {f : β → α → Except ε β} {I : β → Prop} {as : List α} {b out : β} (hb : I b)
    (hstep : ∀ b, ∀ a ∈ as, ∀ next, I b → f b a = .ok next → I next) (h : as.foldlM f b = .ok out) :
    I out :=
  foldlM_run (I := fun _ => I) hb
    (fun _ a b next hbegins => hstep b a (hbegins.subset (by simp)) next) h

/-- A walk over a list succeeds when every step does. -/
theorem mapM_eq_ok {f : α → Except ε β} {as : List α} {bs : List β} :
    as.mapM f = .ok bs ↔ List.Forall₂ (fun a b => f a = .ok b) as bs := by
  induction as generalizing bs with
  | nil => cases bs <;> simp [pure_eq_ok]
  | cons a as ih =>
    rw [List.mapM_cons]
    simp only [bind_eq_ok, pure_eq_ok, ih]
    constructor
    · rintro ⟨b, hb, bs', hbs, rfl⟩
      exact .cons hb hbs
    · rintro (_ | ⟨hb, hbs⟩)
      exact ⟨_, hb, _, hbs, rfl⟩

/-- Results that are each the value of a function are the image under it. -/
theorem eq_map_of_forall₂ {γ : Type} {R : γ → β → Prop} {f : γ → β} {cs : List γ} {bs : List β}
    (h : List.Forall₂ R cs bs) (hf : ∀ c b, R c b → b = f c) : bs = cs.map f := by
  induction h with
  | nil => rfl
  | cons hr _ ih => rw [List.map_cons, ← hf _ _ hr, ← ih]

/-- Lists that are related element by element look alike through maps under which
related elements do. -/
theorem map_eq_map_of_forall₂ {γ : Type} {R : α → β → Prop} {f : α → γ} {g : β → γ} {as : List α}
    {bs : List β} (h : List.Forall₂ R as bs) (hfg : ∀ a ∈ as, ∀ b ∈ bs, R a b → f a = g b) :
    as.map f = bs.map g := by
  induction h with
  | nil => rfl
  | cons hab _ ih =>
    exact congrArg₂ List.cons (hfg _ List.mem_cons_self _ List.mem_cons_self hab)
      (ih fun a ha b hb => hfg a (List.mem_cons_of_mem _ ha) b (List.mem_cons_of_mem _ hb))

/-- A walk fails as its first step that does. -/
theorem mapM_eq_error {f : α → Except ε β} {as : List α} {e : ε} :
    as.mapM f = .error e ↔ ∃ before a after, as = before ++ a :: after ∧ f a = .error e ∧
      ∀ b ∈ before, ∃ c, f b = .ok c := by
  induction as with
  | nil => simp [pure, Except.pure]
  | cons a as ih =>
    rw [List.mapM_cons]
    cases ha : f a with
    | error other =>
      constructor
      · intro h
        cases h
        exact ⟨[], a, as, rfl, ha, by simp⟩
      · rintro ⟨before, b, after, hsplit, hb, hbefore⟩
        cases before with
        | nil =>
          cases hsplit
          rw [ha] at hb
          cases hb
          rfl
        | cons c before =>
          cases hsplit
          obtain ⟨d, hd⟩ := hbefore a List.mem_cons_self
          rw [ha] at hd
          cases hd
    | ok c =>
      have hstep : (do let cs ← as.mapM f; pure (c :: cs)) = (.error e : Except ε (List β)) ↔
          as.mapM f = .error e := by
        cases as.mapM f <;> simp [bind, Except.bind, pure, Except.pure]
      rw [ok_bind, hstep, ih]
      constructor
      · rintro ⟨before, b, after, rfl, hb, hbefore⟩
        exact ⟨a :: before, b, after, rfl, hb, List.forall_mem_cons.2 ⟨⟨c, ha⟩, hbefore⟩⟩
      · rintro ⟨before, b, after, hsplit, hb, hbefore⟩
        cases before with
        | nil =>
          cases hsplit
          rw [ha] at hb
          cases hb
        | cons d before =>
          cases hsplit
          exact ⟨before, b, after, rfl, hb, (List.forall_mem_cons.1 hbefore).2⟩

theorem length_of_mapM_eq_ok {f : α → Except ε β} {as : List α} {bs : List β}
    (h : as.mapM f = .ok bs) : bs.length = as.length :=
  (mapM_eq_ok.1 h).length_eq.symm

/-- What a walk gives at a position. -/
theorem getElem?_of_mapM_eq_ok {f : α → Except ε β} {as : List α} {bs : List β}
    (h : as.mapM f = .ok bs) {i : Nat} {a : α} (ha : as[i]? = some a) :
    ∃ b, bs[i]? = some b ∧ f a = .ok b := by
  have hf := mapM_eq_ok.1 h
  obtain ⟨hi, rfl⟩ := List.getElem?_eq_some_iff.1 ha
  have hj : i < bs.length := hf.length_eq ▸ hi
  exact ⟨bs[i], List.getElem?_eq_getElem hj, (List.forall₂_iff_get.1 hf).2 i hi hj⟩

/-- An item on the left of related lists has a partner. -/
theorem exists_of_mem_left {R : α → β → Prop} {as : List α} {bs : List β} {a : α}
    (h : List.Forall₂ R as bs) (ha : a ∈ as) : ∃ b ∈ bs, R a b := by
  induction h with
  | nil => cases ha
  | cons hr _ ih =>
    rcases List.mem_cons.1 ha with rfl | ha
    · exact ⟨_, List.mem_cons_self, hr⟩
    · obtain ⟨b, hb, hab⟩ := ih ha
      exact ⟨b, List.mem_cons_of_mem _ hb, hab⟩

/-- An item on the right of related lists has a partner. -/
theorem exists_of_mem_right {R : α → β → Prop} {as : List α} {bs : List β} {b : β}
    (h : List.Forall₂ R as bs) (hb : b ∈ bs) : ∃ a ∈ as, R a b :=
  exists_of_mem_left h.flip hb

theorem mem_of_mapM_eq_ok {f : α → Except ε β} {as : List α} {bs : List β}
    (h : as.mapM f = .ok bs) {b : β} (hb : b ∈ bs) : ∃ a ∈ as, f a = .ok b :=
  exists_of_mem_right (R := fun a b => f a = .ok b) (mapM_eq_ok.1 h) hb

/-- What every step of a walk keeps, the walk keeps. -/
theorem map_of_mapM_eq_ok {γ : Type} {f : α → Except ε β} {g : β → γ} {k : α → γ} {as : List α}
    {bs : List β} (hstep : ∀ a b, f a = .ok b → g b = k a) (h : as.mapM f = .ok bs) :
    bs.map g = as.map k := by
  have hf := mapM_eq_ok.1 h
  clear h
  induction hf with
  | nil => rfl
  | cons hab _ ih => rw [List.map_cons, List.map_cons, hstep _ _ hab, ih]

/-- A walk whose steps all succeed is a map. -/
theorem mapM_eq_ok_map {f : α → Except ε β} {g : α → β} {as : List α}
    (h : ∀ a ∈ as, f a = .ok (g a)) : as.mapM f = .ok (as.map g) := by
  induction as with
  | nil => rfl
  | cons a as ih =>
    rw [List.mapM_cons, h a List.mem_cons_self,
      ih fun b hb => h b (List.mem_cons_of_mem a hb)]
    rfl

/-- Walks whose steps are the same. -/
theorem mapM_congr {γ : Type} {f : α → Except ε β} {g : γ → Except ε β} {as : List α} {cs : List γ}
    (h : List.Forall₂ (fun a c => f a = g c) as cs) : as.mapM f = cs.mapM g := by
  induction h with
  | nil => rfl
  | cons hac _ ih => rw [List.mapM_cons, List.mapM_cons, hac, ih]

/-- Lists that are both related to a third one are related to each other. -/
theorem forall₂_of_left {γ : Type} {R : α → β → Prop} {S : α → γ → Prop} {T : β → γ → Prop}
    {as : List α} {bs : List β} {cs : List γ} (hR : List.Forall₂ R as bs)
    (hS : List.Forall₂ S as cs) (h : ∀ a ∈ as, ∀ b c, R a b → S a c → T b c) :
    List.Forall₂ T bs cs := by
  induction hR generalizing cs with
  | nil =>
    cases hS
    exact .nil
  | cons hr _ ih =>
    cases hS with
    | cons hs hrest =>
      obtain ⟨ha, has⟩ := List.forall_mem_cons.1 h
      exact .cons (ha _ _ hr hs) (ih hrest has)

/-- A selection goes on, with what it has chosen so far in reverse. -/
theorem filterAuxM_eq_ok {f : α → Except ε Bool} {as acc out : List α} :
    as.filterAuxM f acc = .ok out ↔
      (∀ a ∈ as, ∃ b, f a = .ok b) ∧
        out = (as.filter fun a => (f a).toOption.getD false).reverse ++ acc := by
  induction as generalizing acc with
  | nil =>
    rw [List.filterAuxM, pure_eq_ok]
    simp [eq_comm]
  | cons a as ih =>
    rw [List.filterAuxM, bind_eq_ok]
    constructor
    · rintro ⟨b, hb, hout⟩
      obtain ⟨hall, rfl⟩ := ih.1 hout
      refine ⟨List.forall_mem_cons.2 ⟨⟨b, hb⟩, hall⟩, ?_⟩
      cases b <;> simp [hb, Except.toOption]
    · rintro ⟨hall, rfl⟩
      obtain ⟨⟨b, hb⟩, hall⟩ := List.forall_mem_cons.1 hall
      refine ⟨b, hb, ih.2 ⟨hall, ?_⟩⟩
      cases b <;> simp [hb, Except.toOption]

/-- A selection succeeds when every choice does, and keeps what is chosen. -/
theorem filterM_eq_ok {f : α → Except ε Bool} {as out : List α} :
    as.filterM f = .ok out ↔
      (∀ a ∈ as, ∃ b, f a = .ok b) ∧ out = as.filter fun a => (f a).toOption.getD false := by
  rw [List.filterM, bind_eq_ok]
  constructor
  · rintro ⟨reversed, hr, hout⟩
    cases hout
    obtain ⟨hall, rfl⟩ := filterAuxM_eq_ok.1 hr
    exact ⟨hall, by simp⟩
  · rintro ⟨hall, rfl⟩
    exact ⟨_, filterAuxM_eq_ok.2 ⟨hall, rfl⟩, by simp [pure, Except.pure]⟩

/-- A walk that does not look at positions. -/
theorem mapM_zipIdx {f : α × Nat → Except ε β} {g : α → Except ε β} (h : ∀ a i, f (a, i) = g a) :
    ∀ (as : List α) (start : Nat), (as.zipIdx start).mapM f = as.mapM g
  | [], _ => rfl
  | a :: as, start => by
    rw [List.zipIdx_cons, List.mapM_cons, List.mapM_cons, h a start, mapM_zipIdx h as (start + 1)]

/-- A walk of a list through a function without gaps. -/
theorem mapM_eq_some {f : α → Option β} {as : List α} {bs : List β} :
    as.mapM f = some bs ↔ List.Forall₂ (fun a b => f a = some b) as bs := by
  induction as generalizing bs with
  | nil => cases bs <;> simp
  | cons a as ih =>
    rw [List.mapM_cons]
    simp only [Option.bind_eq_bind, Option.bind_eq_some_iff, Option.pure_def, Option.some.injEq, ih]
    constructor
    · rintro ⟨b, hb, bs', hbs, rfl⟩
      exact .cons hb hbs
    · rintro (_ | ⟨hb, hbs⟩)
      exact ⟨_, hb, _, hbs, rfl⟩

/-- A walk without the reasons for its failures. -/
theorem mapM_toOption (f : α → Except ε β) (as : List α) :
    (as.mapM f).toOption = as.mapM fun a => (f a).toOption := by
  have hok : ∀ {γ : Type} {x : Except ε γ} {v : γ}, x.toOption = some v ↔ x = .ok v := by
    intro γ x v
    cases x <;> simp [Except.toOption]
  refine Option.ext fun bs => ?_
  rw [hok, mapM_eq_ok, mapM_eq_some]
  simp only [hok]

section Bounded

variable {allowed : ε → Prop} {P Q : α → Prop}

/-- The computation fails only as allowed; a result satisfies `P`. -/
def Bounded (allowed : ε → Prop) (x : Except ε α) (P : α → Prop) : Prop :=
  (∀ f, x = .error f → allowed f) ∧ ∀ a, x = .ok a → P a

theorem Bounded.ok {a : α} (h : P a) : Bounded allowed (.ok a) P :=
  ⟨by simp, by rintro b ⟨⟩; exact h⟩

theorem Bounded.mono {x : Except ε α} (h : Bounded allowed x P) (hPQ : ∀ a, P a → Q a) :
    Bounded allowed x Q := ⟨h.1, fun a ha => hPQ a (h.2 a ha)⟩

theorem Bounded.bind {x : Except ε α} {f : α → Except ε β} {R : β → Prop}
    (h : Bounded allowed x P) (hf : ∀ a, P a → Bounded allowed (f a) R) :
    Bounded allowed (x >>= f) R := by
  match x, h with
  | .ok a, h => exact hf a (h.2 a rfl)
  | .error e, h => exact ⟨fun f hf => by cases hf; exact h.1 e rfl, fun _ ha => by cases ha⟩

theorem Bounded.mapM {f : α → Except ε β} {R : α → β → Prop} {as : List α}
    (h : ∀ a ∈ as, Bounded allowed (f a) (R a)) : Bounded allowed (as.mapM f) (List.Forall₂ R as) := by
  induction as with
  | nil => exact .ok .nil
  | cons a as ih =>
    rw [List.mapM_cons]
    refine (h a List.mem_cons_self).bind fun b hb => ?_
    refine (ih fun c hc => h c (List.mem_cons_of_mem a hc)).bind fun bs hbs => ?_
    exact .ok (.cons hb hbs)

theorem Bounded.mapM_all {f : α → Except ε β} {R : β → Prop} {as : List α}
    (h : ∀ a ∈ as, Bounded allowed (f a) R) : Bounded allowed (as.mapM f) fun bs => ∀ b ∈ bs, R b := by
  refine (Bounded.mapM h).mono fun bs hbs b hb => ?_
  obtain ⟨_, -, hr⟩ := exists_of_mem_right hbs hb
  exact hr

/-- A loop that fails only as allowed and keeps `I` at every step keeps it to the end. -/
theorem Bounded.foldlM {f : β → α → Except ε β} {I : β → Prop} {as : List α} {b : β} (hb : I b)
    (h : ∀ b, ∀ a ∈ as, I b → Bounded allowed (f b a) I) : Bounded allowed (as.foldlM f b) I := by
  induction as generalizing b with
  | nil => exact .ok hb
  | cons a as ih =>
    rw [List.foldlM_cons]
    exact (h b a List.mem_cons_self hb).bind fun c hc =>
      ih hc fun d e he => h d e (List.mem_cons_of_mem a he)

/-- A selection that fails only as allowed at every choice. -/
theorem Bounded.filterM {f : α → Except ε Bool} {as : List α}
    (h : ∀ a ∈ as, Bounded allowed (f a) fun _ => True) :
    Bounded allowed (as.filterM f) fun _ => True := by
  have haux : ∀ acc : List α, Bounded allowed (as.filterAuxM f acc) fun _ => True := by
    induction as with
    | nil => exact fun acc => .ok trivial
    | cons a as ih =>
      intro acc
      refine (h a List.mem_cons_self).bind fun b _ => ?_
      exact ih (fun c hc => h c (List.mem_cons_of_mem a hc)) _
  exact (haux []).bind fun out _ => .ok trivial

end Bounded

/-- The computation succeeds with a result that satisfies `P`. -/
def Gives (x : Except Fault α) (P : α → Prop) : Prop := ∃ a, x = .ok a ∧ P a

section Gives

variable {x : Except Fault α} {P Q : α → Prop}

theorem Gives.ok {a : α} (h : P a) : Gives (.ok a) P := ⟨a, rfl, h⟩

theorem Gives.mono (h : Gives x P) (hPQ : ∀ a, P a → Q a) : Gives x Q := by
  obtain ⟨a, ha, hp⟩ := h
  exact ⟨a, ha, hPQ a hp⟩

theorem Gives.bind {f : α → Except Fault β} {R : β → Prop} (h : Gives x P)
    (hf : ∀ a, P a → Gives (f a) R) : Gives (x >>= f) R := by
  obtain ⟨a, rfl, hp⟩ := h
  exact hf a hp

theorem Gives.itemAt {items : List α} {i : Nat} (h : i < items.length) :
    Gives (itemAt items i) (fun a => items[i]? = some a) :=
  ⟨items[i], itemAt_eq_ok.2 (List.getElem?_eq_getElem h), List.getElem?_eq_getElem h⟩

/-- A computation that must succeed has no failure that is allowed. -/
theorem gives_iff : Gives x P ↔ Bounded (fun _ => False) x P := by
  constructor
  · rintro ⟨a, rfl, hp⟩
    exact .ok hp
  · intro h
    cases x with
    | ok a => exact .ok (h.2 a rfl)
    | error e => exact (h.1 e rfl).elim

theorem Gives.bounded {allowed : Fault → Prop} (h : Gives x P) : Bounded allowed x P := by
  obtain ⟨a, rfl, hp⟩ := h
  exact .ok hp

/-- A walk succeeds if every step must. -/
theorem Gives.mapM {f : α → Except Fault β} {R : α → β → Prop} {as : List α}
    (h : ∀ a ∈ as, Gives (f a) (R a)) : Gives (as.mapM f) (List.Forall₂ R as) :=
  gives_iff.2 (.mapM fun a ha => gives_iff.1 (h a ha))

/-- A loop succeeds if every step must. -/
theorem Gives.foldlM {f : β → α → Except Fault β} {as : List α} {b : β}
    (h : ∀ b, ∀ a ∈ as, Gives (f b a) fun _ => True) : Gives (as.foldlM f b) fun _ => True :=
  gives_iff.2 (.foldlM trivial fun b a ha _ => gives_iff.1 (h b a ha))

/-- A selection succeeds if every choice must. -/
theorem Gives.filterM {f : α → Except Fault Bool} {as : List α}
    (h : ∀ a ∈ as, Gives (f a) fun _ => True) : Gives (as.filterM f) fun _ => True :=
  gives_iff.2 (.filterM fun a ha => gives_iff.1 (h a ha))

end Gives

section Safe

variable {allowed : Fault → Prop} {P Q : α → Prop}

/-- The computation faults only as allowed; a result satisfies `P`. A refusal is
a legitimate answer. -/
def Safe (allowed : Fault → Prop) (x : Checked ε α) (P : α → Prop) : Prop :=
  (∀ f, x = .error (.fault f) → allowed f) ∧ ∀ a, x = .ok a → P a

variable {x : Checked ε α}

theorem Safe.ok {a : α} (h : P a) : Safe allowed (.ok a : Checked ε α) P :=
  ⟨by simp, by rintro b ⟨⟩; exact h⟩

theorem Safe.refuse {e : ε} : Safe allowed (refuse e : Checked ε α) P :=
  ⟨by simp [StreamPlan.refuse], fun _ h => absurd h refuse_ne_ok⟩

/-- To a computation that may be refused, every refusal is allowed. -/
theorem safe_iff :
    Safe allowed x P ↔ Bounded (fun failure => ∀ f, failure = .fault f → allowed f) x P :=
  and_congr_left' ⟨fun h _ he f hf => h f (hf ▸ he), fun h f hf => h _ hf f rfl⟩

theorem Safe.mono (h : Safe allowed x P) (hPQ : ∀ a, P a → Q a) : Safe allowed x Q :=
  ⟨h.1, fun a ha => hPQ a (h.2 a ha)⟩

theorem Safe.weaken {fewer : Fault → Prop} (h : Safe fewer x P) (hf : ∀ f, fewer f → allowed f) :
    Safe allowed x P := ⟨fun f he => hf f (h.1 f he), h.2⟩

theorem Safe.bind {f : α → Checked ε β} {R : β → Prop} (h : Safe allowed x P)
    (hf : ∀ a, P a → Safe allowed (f a) R) : Safe allowed (x >>= f) R :=
  safe_iff.2 ((safe_iff.1 h).bind fun a ha => safe_iff.1 (hf a ha))

/-- A computation that can only fault, among those that can also be refused. -/
theorem Bounded.lift {failures : Failure ε → Prop} {x : Except Fault α} (h : Bounded allowed x P)
    (hf : ∀ f, allowed f → failures (.fault f)) : Bounded failures (liftM x : Checked ε α) P := by
  match x, h with
  | .ok a, h => exact .ok (h.2 a rfl)
  | .error e, h =>
    exact ⟨fun f hfail => by cases hfail; exact hf e (h.1 e rfl), fun _ ha => by cases ha⟩

theorem Safe.lift {x : Except Fault α} (h : Bounded allowed x P) :
    Safe allowed (liftM x : Checked ε α) P :=
  safe_iff.2 (h.lift fun _ hf _ he => Failure.fault.inj he ▸ hf)

theorem Safe.orFault {x : Except Fault α} (h : Bounded allowed x P) :
    Safe allowed (orFault x : Checked ε α) P := .lift h

theorem Safe.orRefuse (x : Except ε α) : Safe allowed (orRefuse x) fun a => x = .ok a := by
  cases x with
  | ok a => exact .ok rfl
  | error e => exact .refuse

theorem Safe.needing {x : Except MissingCapability α} (h : ∀ a, x = .ok a → P a) :
    Safe allowed (needing x) P := by
  match x, h with
  | .ok a, h => exact .ok (h a rfl)
  | .error e, _ => exact .refuse

theorem Safe.mapM {f : α → Checked ε β} {R : α → β → Prop} {as : List α}
    (h : ∀ a ∈ as, Safe allowed (f a) (R a)) : Safe allowed (as.mapM f) (List.Forall₂ R as) :=
  safe_iff.2 (.mapM fun a ha => safe_iff.1 (h a ha))

/-- A loop that keeps `I` at every step keeps it to the end. -/
theorem Safe.foldlM {f : β → α → Checked ε β} {I : β → Prop} {as : List α} {b : β} (hb : I b)
    (h : ∀ b, ∀ a ∈ as, I b → Safe allowed (f b a) I) : Safe allowed (as.foldlM f b) I :=
  safe_iff.2 (.foldlM hb fun b a ha hi => safe_iff.1 (h b a ha hi))

end Safe

end StreamPlan
