import StreamPlan.Plan.Convert
import StreamPlan.Proofs.Plan.Sound

/-!
# What every operator keeps

* `Converter.Follows`: a relation of queries to plans that scans have, that every
  operator passes from its inputs to itself, and that the last step of an operator
  does not lose.
* `Converter.Follows.convert`: **then every query has it to its plan.** Each plan is
  sound as well, because it has passed the check.
* `Converter.Keeps`, `Keeps.convert`: the same of a property of plans alone.
* `Converter.finishing_convert`: the plan of a query comes out of the last step of an
  operator, so on a read stage nothing is pending in it (`settled_of_isRead`).
-/

namespace StreamPlan.Converter

variable {c : Converter} {I : Plan → Prop} {plan out : Plan}

/-- The aligned plan of an input of a union. -/
def BranchOf (I : Plan → Prop) (branch : Plan) : Prop :=
  ∃ plan position, plan.Sound ∧ I plan ∧ plan.asBranch position = .ok branch

/-- The plan of an input, of which a relation to the input is known. -/
structure Input (c : Converter) (J : Rel → Plan → Prop) (q : Rel) (plan : Plan) : Prop where
  convert : c.convert q = .ok plan
  sound : plan.Sound
  holds : J q plan

/-- A ranking of `input`: of a sort right below it, or of the input as it is. -/
inductive Ranks (input : Rel) (outputs : List Output) (hint : RankingHint) :
    SortOrder → Option Nat → Rel → Prop
  | sorted (order : SortOrder) (limit : Option Nat) :
      Ranks input outputs hint order limit (.project (.sort input order limit none) outputs (some hint))
  | bare : Ranks input outputs hint [] none (.project input outputs (some hint))

/-- A relation that goes from the inputs and their plans to every operator and its plan. -/
structure Follows (c : Converter) (J : Rel → Plan → Prop) : Prop where
  scan : ∀ {relation name fields plan}, c.scanPlan relation = .ok plan →
    J (.scan relation name fields) plan
  filter : ∀ {input plan out predicate}, c.Input J input plan →
    plan.filtered predicate = .ok out → J (.filter input predicate) out
  project : ∀ {input plan out bare outputs}, c.Input J input plan → bareOf input outputs = .ok bare →
    projected plan bare outputs = .ok out → J (.project input outputs none) out
  rank : ∀ {q input plan out columns outputs hint order limit}, Ranks input outputs hint order limit q →
    c.Input J input plan → rankedColumns input outputs = .ok columns →
    plan.ranked hint columns outputs order limit = .ok out → J q out
  join : ∀ {left right l r out kind condition hint j}, c.Input J left l → c.Input J right r →
    JoinInputs.of l r kind condition = .ok j → c.joined j = .ok out →
    J (.join left right kind condition hint) out
  aggregate : ∀ {input plan out keys groupingSets calls hint}, c.Input J input plan →
    plan.aggregated c keys calls = .ok out → J (.aggregate input keys groupingSets calls hint) out
  single : ∀ {input plan all}, J input plan → J (.union [input] all) plan
  union : ∀ {input inputs first rest out all}, BranchOf (J input) first →
    List.Forall₂ (fun q => BranchOf (J q)) inputs rest → Plan.united first rest = .ok out →
    J (.union (input :: inputs) all) out
  sort : ∀ {input plan out order limit offset}, c.Input J input plan →
    plan.sorted order limit = .ok out → J (.sort input order limit offset) out
  settle : ∀ {q plan out}, J q plan → plan.withoutPending = .ok out → J q out

variable {J : Rel → Plan → Prop}

theorem Follows.finish (h : c.Follows J) {q : Rel} (hp : J q plan) (hf : c.finish plan = .ok out) :
    out.Sound ∧ J q out := by
  obtain ⟨-, hout, hs⟩ := finish_eq_ok.1 hf
  refine ⟨hs, ?_⟩
  split at hout
  · exact h.settle hp hout
  · rw [hout]; exact hp

theorem convert_union (c : Converter) (first second : Rel) (rest : List Rel) (all : Bool) :
    c.convert (.union (first :: second :: rest) all) = (do
      rejecting (if all then none else some (.unsupported .distinctUnion))
      let plan ← c.convert first
      let plan ← plan.asBranch 0
      let branches ← c.convertBranches 1 (second :: rest)
      c.finish (← plan.united branches)) := by
  rw [convert]
  rintro ⟨⟩

/-- The plans of queries and of the branches of unions. -/
theorem Follows.convert_and_branches (h : c.Follows J) :
    (∀ (q : Rel) (plan : Plan), c.convert q = .ok plan → plan.Sound ∧ J q plan) ∧
      ∀ (position : Nat) (qs : List Rel) (branches : List Plan),
        c.convertBranches position qs = .ok branches →
        List.Forall₂ (fun q => BranchOf (J q)) qs branches := by
  refine convert.mutual_induct _ _ ?scan ?filter ?project ?offset ?sorted ?ranked ?join ?aggregate
    ?union ?sort ?unnest ?firstRows ?noBranch ?branch
  case scan =>
    intro relation name fields plan hc
    rw [convert] at hc
    obtain ⟨base, hb, hc⟩ := bind_eq_ok.1 hc
    exact h.finish (h.scan hb) hc
  case filter =>
    intro input predicate ih plan hc
    rw [convert] at hc
    obtain ⟨below, hb, hc⟩ := bind_eq_ok.1 hc
    obtain ⟨out, ho, hc⟩ := bind_eq_ok.1 hc
    obtain ⟨hs, hi⟩ := ih below hb
    exact h.finish (h.filter ⟨hb, hs, hi⟩ ho) hc
  case project =>
    intro input outputs ih plan hc
    rw [convert] at hc
    obtain ⟨bare, hbare, hc⟩ := bind_eq_ok.1 hc
    obtain ⟨below, hb, hc⟩ := bind_eq_ok.1 hc
    obtain ⟨out, ho, hc⟩ := bind_eq_ok.1 hc
    obtain ⟨hs, hi⟩ := ih below hb
    exact h.finish (h.project ⟨hb, hs, hi⟩ hbare ho) hc
  case sorted =>
    intro input order limit outputs hint ih plan hc
    rw [convert] at hc
    obtain ⟨columns, hcolumns, hc⟩ := bind_eq_ok.1 hc
    obtain ⟨below, hb, hc⟩ := bind_eq_ok.1 hc
    obtain ⟨out, ho, hc⟩ := bind_eq_ok.1 hc
    obtain ⟨hs, hi⟩ := ih below hb
    exact h.finish (h.rank (.sorted order limit) ⟨hb, hs, hi⟩ hcolumns ho) hc
  case ranked =>
    intro input outputs hint hoffset hsort ih plan hc
    rw [convert] at hc
    · obtain ⟨columns, hcolumns, hc⟩ := bind_eq_ok.1 hc
      obtain ⟨below, hb, hc⟩ := bind_eq_ok.1 hc
      obtain ⟨out, ho, hc⟩ := bind_eq_ok.1 hc
      obtain ⟨hs, hi⟩ := ih below hb
      exact h.finish (h.rank .bare ⟨hb, hs, hi⟩ hcolumns ho) hc
    · exact hoffset
    · exact hsort
  case join =>
    intro left right kind condition hint ihl ihr plan hc
    rw [convert] at hc
    obtain ⟨_, -, hc⟩ := bind_eq_ok.1 hc
    obtain ⟨l, hl, hc⟩ := bind_eq_ok.1 hc
    obtain ⟨r, hr, hc⟩ := bind_eq_ok.1 hc
    obtain ⟨j, hj, hc⟩ := bind_eq_ok.1 hc
    obtain ⟨out, ho, hc⟩ := bind_eq_ok.1 hc
    obtain ⟨hls, hli⟩ := ihl l hl
    obtain ⟨hrs, hri⟩ := ihr r hr
    exact h.finish (h.join ⟨hl, hls, hli⟩ ⟨hr, hrs, hri⟩ hj ho) hc
  case aggregate =>
    intro input keys groupingSets calls hint ih plan hc
    rw [convert] at hc
    obtain ⟨_, -, hc⟩ := bind_eq_ok.1 hc
    obtain ⟨below, hb, hc⟩ := bind_eq_ok.1 hc
    obtain ⟨out, ho, hc⟩ := bind_eq_ok.1 hc
    obtain ⟨hs, hi⟩ := ih below hb
    exact h.finish (h.aggregate ⟨hb, hs, hi⟩ ho) hc
  case union =>
    intro inputs all ih plan hc
    rcases inputs with _ | ⟨first, _ | ⟨second, rest⟩⟩
    · rw [convert] at hc
      obtain ⟨_, -, hc⟩ := bind_eq_ok.1 hc
      cases hc
    · rw [convert] at hc
      obtain ⟨_, -, hc⟩ := bind_eq_ok.1 hc
      obtain ⟨below, hb, hc⟩ := bind_eq_ok.1 hc
      exact h.finish (h.single (ih below hb).2) hc
    · rw [convert_union] at hc
      obtain ⟨_, -, hc⟩ := bind_eq_ok.1 hc
      obtain ⟨below, hb, hc⟩ := bind_eq_ok.1 hc
      obtain ⟨aligned, ha, hc⟩ := bind_eq_ok.1 hc
      obtain ⟨branches, hbranches, hc⟩ := bind_eq_ok.1 hc
      obtain ⟨out, ho, hc⟩ := bind_eq_ok.1 hc
      obtain ⟨hs, hi⟩ := ih.1 below hb
      exact h.finish (h.union ⟨below, 0, hs, hi, ha⟩ (ih.2 branches hbranches) ho) hc
  case sort =>
    intro input order limit offset ih plan hc
    rw [convert] at hc
    obtain ⟨_, -, hc⟩ := bind_eq_ok.1 hc
    obtain ⟨below, hb, hc⟩ := bind_eq_ok.1 hc
    obtain ⟨out, ho, hc⟩ := bind_eq_ok.1 hc
    obtain ⟨hs, hi⟩ := ih below hb
    exact h.finish (h.sort ⟨hb, hs, hi⟩ ho) hc
  case noBranch =>
    intro position branches hc
    rw [convertBranches] at hc
    cases hc
    exact .nil
  case branch =>
    intro position q qs ihq ihqs branches hc
    rw [convertBranches] at hc
    obtain ⟨below, hbelow, hc⟩ := bind_eq_ok.1 hc
    obtain ⟨aligned, ha, hc⟩ := bind_eq_ok.1 hc
    obtain ⟨rest, hrest, hc⟩ := bind_eq_ok.1 hc
    cases hc
    obtain ⟨hs, hi⟩ := ihq below hbelow
    exact .cons ⟨below, position, hs, hi, ha⟩ (ihqs rest hrest)
  -- what is refused at once
  all_goals
    intros
    rename_i hc
    rw [convert] at hc
    cases hc

/-- **What follows along the operators of a query, the query has to its plan.** -/
theorem Follows.convert (h : c.Follows J) {q : Rel} (hc : c.convert q = .ok plan) :
    plan.Sound ∧ J q plan := h.convert_and_branches.1 q plan hc

/-- A property that goes from the plans of the inputs to the plan of every operator. -/
structure Keeps (c : Converter) (I : Plan → Prop) : Prop where
  scan : ∀ {relation plan}, c.scanPlan relation = .ok plan → I plan
  filter : ∀ {plan out predicate}, plan.Sound → I plan → plan.filtered predicate = .ok out → I out
  project : ∀ {plan out bare outputs}, plan.Sound → I plan →
    projected plan bare outputs = .ok out → I out
  rank : ∀ {plan out hint columns outputs order limit}, plan.Sound → I plan →
    plan.ranked hint columns outputs order limit = .ok out → I out
  join : ∀ {left right out kind condition j}, left.Sound → right.Sound → I left → I right →
    JoinInputs.of left right kind condition = .ok j → c.joined j = .ok out → I out
  aggregate : ∀ {plan out keys calls}, plan.Sound → I plan →
    plan.aggregated c keys calls = .ok out → I out
  union : ∀ {first rest out}, BranchOf I first → (∀ b ∈ rest, BranchOf I b) →
    Plan.united first rest = .ok out → I out
  sort : ∀ {plan out order limit}, plan.Sound → I plan → plan.sorted order limit = .ok out → I out
  settle : ∀ {plan out}, I plan → plan.withoutPending = .ok out → I out

theorem Keeps.follows (h : c.Keeps I) : c.Follows fun _ => I where
  scan hp := h.scan hp
  filter hi ho := h.filter hi.sound hi.holds ho
  project hi _ ho := h.project hi.sound hi.holds ho
  rank _ hi _ ho := h.rank hi.sound hi.holds ho
  join hl hr hj ho := h.join hl.sound hr.sound hl.holds hr.holds hj ho
  aggregate hi ho := h.aggregate hi.sound hi.holds ho
  single hp := hp
  union hfirst hrest ho := h.union hfirst (fun b hb => by
    obtain ⟨_, -, hbranch⟩ := exists_of_mem_right hrest hb
    exact hbranch) ho
  sort hi ho := h.sort hi.sound hi.holds ho
  settle hp ho := h.settle hp ho

/-- **What every operator keeps, the plan of every query has.** -/
theorem Keeps.convert (h : c.Keeps I) {q : Rel} (hc : c.convert q = .ok plan) :
    plan.Sound ∧ I plan := h.follows.convert hc

/-- The plan of every query is sound. -/
theorem sound_of_convert {q : Rel} (hc : c.convert q = .ok plan) : plan.Sound := by
  have htrivial : c.Keeps fun _ => True := by constructor <;> intros <;> trivial
  exact (htrivial.convert hc).1

/-- A computation whose result comes out of the last step of an operator. -/
def Finishing (c : Converter) (x : Planning Plan) : Prop :=
  ∀ plan, x = .ok plan → ∃ below, c.finish below = .ok plan

theorem Finishing.finish (c : Converter) (below : Plan) : c.Finishing (c.finish below) :=
  fun _ h => ⟨below, h⟩

theorem Finishing.refuse (c : Converter) (e : PlanError) : c.Finishing (refuse e) :=
  fun _ h => absurd h refuse_ne_ok

theorem Finishing.bind {α : Type} {x : Planning α} {f : α → Planning Plan}
    (h : ∀ a, c.Finishing (f a)) : c.Finishing (x >>= f) := by
  intro plan hplan
  obtain ⟨a, -, hplan⟩ := bind_eq_ok.1 hplan
  exact h a plan hplan

/-- **The plan of a query** comes out of the last step of its operator. -/
theorem finishing_convert (c : Converter) (q : Rel) : c.Finishing (c.convert q) := by
  cases q with
  | scan =>
    rw [convert]
    exact .bind fun _ => .finish c _
  | filter =>
    rw [convert]
    exact .bind fun _ => .bind fun _ => .finish c _
  | project =>
    unfold convert
    split
    · rename_i h; cases h
    · rename_i h; cases h
    · exact .bind fun _ => .bind fun _ => .bind fun _ => .finish c _
    · exact .refuse c _
    · exact .bind fun _ => .bind fun _ => .bind fun _ => .finish c _
    · exact .bind fun _ => .bind fun _ => .bind fun _ => .finish c _
    all_goals rename_i h; cases h
  | join =>
    rw [convert]
    exact .bind fun _ => .bind fun _ => .bind fun _ => .bind fun _ => .bind fun _ => .finish c _
  | aggregate | sort =>
    rw [convert]
    exact .bind fun _ => .bind fun _ => .bind fun _ => .finish c _
  | union inputs =>
    rcases inputs with _ | ⟨first, _ | ⟨second, rest⟩⟩
    · rw [convert]
      exact .bind fun _ => .refuse c _
    · rw [convert]
      exact .bind fun _ => .bind fun _ => .finish c _
    · rw [convert_union]
      exact .bind fun _ => .bind fun _ => .bind fun _ => .bind fun _ => .bind fun _ => .finish c _
  | unnest | firstRows =>
    rw [convert]
    exact .refuse c _

/-- Nothing is pending in a plan on a read stage. -/
theorem settled_of_isRead {q : Rel} (h : c.convert q = .ok plan)
    (hread : plan.needs.stage.isRead = true) : plan.nowFilter = none ∧ plan.topN.isEmpty = true := by
  obtain ⟨below, hbelow⟩ := finishing_convert c q plan h
  obtain ⟨-, hplan, -⟩ := finish_eq_ok.1 hbelow
  split at hplan
  · exact (Plan.withoutPending_settled hplan).2
  · rename_i hwrite
    exact absurd (hplan ▸ hread) hwrite

end StreamPlan.Converter
