import StreamPlan.Proofs.Plan.Keeps
import StreamPlan.Proofs.Safety.Aggregate
import StreamPlan.Proofs.Safety.Filter
import StreamPlan.Proofs.Safety.IntervalJoin
import StreamPlan.Proofs.Safety.Ranking
import StreamPlan.Proofs.Safety.Scan
import StreamPlan.Proofs.Safety.Join
import StreamPlan.Proofs.Safety.Union

/-!
# Planning does not fault

* `Converter.Permitted`: the faults that planning a query may end with.
* `Converter.convert_safe`: planning a query whose columns exist ends with no
  other fault, and its plan is well formed and shows the columns of the query.
-/

namespace StreamPlan.Converter

variable {allowed : Fault → Prop} {n : Nat} {c : Converter}

/-- The faults that planning may end with: an overflow, if the query mentions
long enough times, and the check of a plan with a stale ranking. -/
def Permitted (catalog : Catalog) (n : Nat) (fault : Fault) : Prop :=
  (fault = .arithmeticOverflow ∧ Millis.greatest < n) ∨
    ∃ width, fault = .topNOutside width ∧ catalog.HasStale

theorem Permitted.mono {catalog : Catalog} {m : Nat} {fault : Fault}
    (h : Permitted catalog n fault) (hm : n ≤ m) : Permitted catalog m fault :=
  h.imp (fun ⟨he, hn⟩ => ⟨he, by omega⟩) id

theorem permitted_overflow {catalog : Catalog} (h : Millis.greatest < n) :
    Permitted catalog n .arithmeticOverflow := .inl ⟨rfl, h⟩

/-- A well-formed plan with a number of visible columns. -/
def Shows (catalog : Catalog) (n width : Nat) (plan : Plan) : Prop :=
  plan.WellFormed catalog n ∧ plan.select.sources = width

theorem finish_shows {plan : Plan} {width : Nat} (h : Shows c.catalog n width plan) :
    Safe allowed (c.finish plan) (Shows c.catalog n width) :=
  (finish_safe c h.1).mono fun _ ⟨hs, hw⟩ => ⟨hw, hs.select ▸ h.2⟩

theorem rejecting_safe (problem : Option PlanError) :
    Safe allowed (rejecting problem) fun _ => True := by
  cases problem with
  | some e => exact .refuse
  | none => exact .ok trivial

theorem attempt_safe {j : JoinInputs} {kinds : List JoinKind} {rule : Planning (Option Plan)}
    {P : Option Plan → Prop} (h : Safe allowed rule P) (hn : P none) :
    Safe allowed (attempt j kinds rule) P := by
  unfold attempt
  split
  · exact h
  · exact .ok hn

/-- **The plan of a join** by the first rule that fits. -/
theorem joined_safe {j : JoinInputs} (h : j.FitsIn c.catalog n) (hl : c.catalog.Linked)
    (ho : Millis.greatest < n → allowed .arithmeticOverflow) :
    Safe allowed (c.joined j)
      (Shows c.catalog n (j.left.select.sources + j.right.select.sources)) := by
  unfold joined
  refine (attempt_safe (JoinInputs.selfJoin?_safe h hl) (by rintro _ ⟨⟩)).bind fun o hself => ?_
  rcases o with _ | plan
  · refine (attempt_safe (JoinInputs.temporalJoin?_safe h) (by rintro _ ⟨⟩)).bind
      fun o htemporal => ?_
    rcases o with _ | plan
    · refine (attempt_safe (JoinInputs.intervalJoin?_safe h ho) (by rintro _ ⟨⟩)).bind
        fun o hinterval => ?_
      rcases o with _ | plan
      · exact JoinInputs.statePlan_safe h
      · exact .ok (hinterval plan rfl)
    · exact .ok (htemporal plan rfl)
  · exact .ok (hself plan rfl)

/-- Planning a query ends as permitted, in a plan that shows its columns. -/
def Plans (c : Converter) (q : Rel) : Prop :=
  Safe (Permitted c.catalog (q.span c.catalog)) (c.convert q)
    (Shows c.catalog (q.span c.catalog) q.width)

/-- The plan of an input, as an operator that mentions longer times finds it. -/
theorem Plans.input {q : Rel} (h : c.Plans q) (hn : q.span c.catalog ≤ n) :
    Safe (Permitted c.catalog n) (c.convert q) (Shows c.catalog (q.span c.catalog) q.width) :=
  h.weaken fun _ hf => hf.mono hn

variable {input : Rel}

theorem plans_scan {relation : RelationId} {name : String} {fields : Fields}
    (hl : c.catalog.Linked) (hs : c.catalog.Sane) (hf : c.catalog.fields relation = .ok fields) :
    c.Plans (.scan relation name fields) := by
  unfold Plans
  rw [convert, Rel.span, Rel.width]
  exact (scanPlan_safe hl hs hf).bind fun plan hp => finish_shows hp

theorem Plans.filter (h : c.Plans input) {predicate : Expr}
    (hp : ∀ i ∈ predicate.references, i < input.width) : c.Plans (.filter input predicate) := by
  unfold Plans
  rw [convert, Rel.span, Rel.width]
  refine (h.input (Nat.le_add_right _ _)).bind fun plan hplan => ?_
  obtain ⟨hw, hsel⟩ := hplan
  rw [← hsel] at hp ⊢
  refine (Plan.filtered_safe hw hp permitted_overflow).bind fun out hout => ?_
  obtain ⟨ho, hos⟩ := hout
  exact finish_shows ⟨ho, congrArg ColumnMap.sources hos⟩

theorem bareOf_gives {catalog : Catalog} {outputs : List Output} (h : input.Fits catalog) :
    Safe allowed (bareOf input outputs) fun bare => ∀ columns, bare = some columns →
      columns.length = outputs.length ∧ ∀ i ∈ columns, i < input.width := by
  unfold bareOf
  refine (Safe.lift (Rel.fields_gives h.fields).bounded).bind fun fields hlen => .ok ?_
  intro columns hb
  have hbare := Plan.bareColumns_eq_some.1 hb
  refine ⟨hbare.length_eq.symm, fun i hi => ?_⟩
  obtain ⟨k, hk, rfl⟩ := List.getElem_of_mem hi
  have := (List.forall₂_iff_get.1 hbare).2 k (hbare.length_eq ▸ hk) hk
  exact hlen ▸ this.2

theorem Plans.project (h : c.Plans input) {outputs : List Output} (hf : input.Fits c.catalog)
    (ho : ∀ o ∈ outputs, ∀ i ∈ o.expr.references, i < input.width)
    (hc : outputs.length < Position.countLimit) :
    c.Plans (.project input outputs none) := by
  unfold Plans
  rw [convert, Rel.span, Rel.width]
  refine (bareOf_gives hf).bind fun bare hbare => ?_
  refine (h.input (Nat.le_add_right _ _)).bind fun plan hplan => ?_
  obtain ⟨hw, hsel⟩ := hplan
  rw [← hsel] at ho hbare
  refine (projected_safe hw hbare ho hc permitted_overflow).bind fun out hdraft => ?_
  obtain ⟨hd, hos⟩ := hdraft
  refine (finish_draft_safe c hd fun hst w => .inr ⟨w, rfl, hst⟩).mono fun out hfinished => ?_
  obtain ⟨hset, hout⟩ := hfinished
  exact ⟨hout, hset.select ▸ hos⟩

/-- The plan of a ranking over a sorted input, or over an unsorted one. -/
theorem Plans.ranked (h : c.Plans input) (order : SortOrder) (limit : Option Nat)
    {hint : RankingHint} {outputs : List Output} {q : Rel} (hf : input.Fits c.catalog)
    (hp : ∀ i ∈ hint.partition, i < input.width)
    (ho : ∀ i ∈ SortOrder.columns order, i < input.width)
    (hspan : input.span c.catalog ≤ q.span c.catalog) (hwidth : q.width = outputs.length)
    (hq : c.convert q = do
      let columns ← rankedColumns input outputs
      let plan ← c.convert input
      c.finish (← plan.ranked hint columns outputs order limit)) : c.Plans q := by
  unfold Plans
  rw [hq, hwidth]
  have hcolumns : Safe (Permitted c.catalog (q.span c.catalog)) (rankedColumns input outputs)
      fun columns => columns.length = outputs.length ∧ ∀ i ∈ columns, i < input.width := by
    unfold rankedColumns
    refine (bareOf_gives hf).bind fun bare hbare => ?_
    rcases bare with _ | columns
    · exact .refuse
    · exact .ok (hbare columns rfl)
  refine hcolumns.bind fun columns ⟨hclen, hclt⟩ => ?_
  refine (h.input hspan).bind fun plan ⟨hw, hsel⟩ => ?_
  rw [← hsel] at hp ho hclt
  refine (Plan.ranked_safe hw hp hclt ho).bind fun out ⟨hout, hos⟩ => ?_
  exact finish_shows ⟨hout.mono hspan, hos.trans hclen⟩

theorem Plans.join {left right : Rel} (hleft : c.Plans left) (hright : c.Plans right)
    {kind : JoinKind} {condition : Expr} {hint : Option JoinHint} (hl : c.catalog.Linked)
    (hc : ∀ i ∈ condition.references, i < left.width + right.width) :
    c.Plans (.join left right kind condition hint) := by
  unfold Plans
  rw [convert, Rel.span, Rel.width]
  refine (rejecting_safe _).bind fun _ _ => ?_
  refine (hleft.input (by omega)).bind fun l hl' => ?_
  obtain ⟨hlw, hls⟩ := hl'
  refine (hright.input (by omega)).bind fun r hr' => ?_
  obtain ⟨hrw, hrs⟩ := hr'
  rw [← hls, ← hrs] at hc ⊢
  refine (JoinInputs.of_safe hlw hrw hc (Nat.le_refl _) permitted_overflow).bind
    fun j hinputs => ?_
  obtain ⟨hj, hjl, hjr, -⟩ := hinputs
  rw [← hjl, ← hjr]
  exact (joined_safe hj hl permitted_overflow).bind fun out ho => finish_shows ho

theorem Plans.aggregate (h : c.Plans input) {keys : List Nat} {groupingSets : List (List Nat)}
    {calls : List AggregateCall} {hint : Option AggregateHint} (hk : ∀ i ∈ keys, i < input.width)
    (hc : ∀ call ∈ calls, ∀ i ∈ call.columns, i < input.width) :
    c.Plans (.aggregate input keys groupingSets calls hint) := by
  unfold Plans
  rw [convert, Rel.span, Rel.width]
  refine (rejecting_safe _).bind fun _ _ => ?_
  refine Safe.bind h fun plan hplan => ?_
  obtain ⟨hw, hsel⟩ := hplan
  rw [← hsel] at hk hc
  -- a pending interval that does not fit is longer than what 64 bits hold
  have hslide : ∀ f, plan.nowFilter = some f → ¬Millis.Fits f.interval →
      Permitted c.catalog (input.span c.catalog) .arithmeticOverflow := by
    intro f hf hfits
    have hle := hw.interval f hf
    refine permitted_overflow ?_
    simp only [Millis.Fits, Millis.least, Millis.greatest] at hfits ⊢
    omega
  exact (Plan.aggregated_safe hw hk hc hslide).bind fun out ho => finish_shows ho

theorem Plans.sort (h : c.Plans input) {order : SortOrder} {limit offset : Option Nat}
    (ho : ∀ i ∈ SortOrder.columns order, i < input.width) :
    c.Plans (.sort input order limit offset) := by
  unfold Plans
  rw [convert, Rel.span, Rel.width]
  refine (rejecting_safe _).bind fun _ _ => ?_
  refine Safe.bind h fun plan hplan => ?_
  obtain ⟨hw, hsel⟩ := hplan
  rw [← hsel] at ho ⊢
  refine (Plan.sorted_safe hw ho).bind fun out hsorted => ?_
  obtain ⟨hout, hos⟩ := hsorted
  exact finish_shows ⟨hout, congrArg ColumnMap.sources hos⟩

/-- The branches of a union from a position on are planned as permitted. -/
def PlansBranches (c : Converter) (position : Nat) (qs : List Rel) : Prop :=
  Safe (Permitted c.catalog (Rel.spanOfAll c.catalog qs)) (c.convertBranches position qs)
    fun branches => ∀ b ∈ branches, b.Branch c.catalog (Rel.spanOfAll c.catalog qs)

theorem Plans.branch (h : c.Plans input) {position : Nat} (hc : input.width < Position.countLimit)
    (hn : input.span c.catalog ≤ n) {β : Type} {f : Plan → Planning β} {P : β → Prop}
    (hf : ∀ b, b.Branch c.catalog n → b.select.sources = input.width →
      Safe (Permitted c.catalog n) (f b) P) :
    Safe (Permitted c.catalog n) (do f (← (← c.convert input).asBranch position)) P := by
  refine (h.input hn).bind fun plan ⟨hw, hsel⟩ => ?_
  refine (Plan.asBranch_safe (hw.mono hn) (hsel ▸ hc)).bind fun b ⟨hb, hbs⟩ => ?_
  exact hf b hb (hbs.trans hsel)

theorem Plans.branches (h : c.Plans input) {inputs : List Rel} {position : Nat}
    (hs : c.PlansBranches (position + 1) inputs) (hc : input.width < Position.countLimit) :
    c.PlansBranches position (input :: inputs) := by
  unfold PlansBranches
  rw [convertBranches, Rel.spanOfAll]
  refine h.branch hc (Nat.le_add_right _ _) fun b hb _ => ?_
  refine (Safe.weaken hs fun _ hf => hf.mono (Nat.le_add_left _ _)).bind fun bs hbs => .ok ?_
  intro b' hb'
  rcases List.mem_cons.1 hb' with rfl | hb'
  · exact hb
  · exact (hbs b' hb').mono (Nat.le_add_left _ _)

theorem plans_union {inputs : List Rel} {all : Bool}
    (h : match inputs with
      | [] => True
      | [single] => c.Plans single
      | first :: rest => c.Plans first ∧ c.PlansBranches 1 rest)
    (hc : Rel.firstWidth inputs < Position.countLimit) : c.Plans (.union inputs all) := by
  unfold Plans
  rw [Rel.span, Rel.width]
  rcases inputs with _ | ⟨first, _ | ⟨second, rest⟩⟩
  · rw [convert]
    exact (rejecting_safe _).bind fun _ _ => .refuse
  · rw [convert, Rel.spanOfAll, Rel.spanOfAll, Nat.add_zero, Rel.firstWidth]
    exact (rejecting_safe _).bind fun _ _ => Safe.bind h fun plan hp => finish_shows hp
  · rw [convert_union, Rel.spanOfAll, Rel.firstWidth]
    rw [Rel.firstWidth] at hc
    refine (rejecting_safe _).bind fun _ _ => ?_
    refine h.1.branch hc (Nat.le_add_right _ _) fun b hb hbs => ?_
    refine (Safe.weaken h.2 fun _ hf => hf.mono (Nat.le_add_left _ _)).bind fun bs hbranches => ?_
    rw [← hbs] at hc ⊢
    refine (Plan.united_safe hb (fun b' hb' => ?_) hc).bind fun out ho => finish_shows ho
    exact (hbranches b' hb').mono (Nat.le_add_left _ _)

/-- Queries whose columns exist are planned as permitted, alone and as branches. -/
theorem plans_and_branches (hl : c.catalog.Linked) (hs : c.catalog.Sane) :
    (∀ q : Rel, q.Fits c.catalog → q.Narrow → c.Plans q) ∧
      ∀ (position : Nat) (qs : List Rel), Rel.FitsAll c.catalog qs → (∀ q ∈ qs, q.Narrow) →
        c.PlansBranches position qs := by
  refine convert.mutual_induct _ _ ?scan ?filter ?project ?offset ?sorted ?ranked ?join ?aggregate
    ?union ?sort ?unnest ?firstRows ?noBranch ?branch
  case scan =>
    intro relation name fields hf _
    rw [Rel.Fits] at hf
    exact plans_scan hl hs hf
  case filter =>
    intro input predicate ih hf hn
    rw [Rel.Fits] at hf
    exact (ih hf.1 (hn.input (by simp [Rel.inputs]))).filter hf.2
  case project =>
    intro input outputs ih hf hn
    rw [Rel.Fits] at hf
    have hwidth := hn.width
    rw [Rel.width] at hwidth
    exact (ih hf.1 (hn.input (by simp [Rel.inputs]))).project hf.1 hf.2.1 hwidth
  case sorted =>
    intro input order limit outputs hint ih hf hn
    rw [Rel.Fits, Rel.Fits, Rel.width] at hf
    have hsort : (Rel.sort input order limit none).Narrow := hn.input (by simp [Rel.inputs])
    refine (ih hf.1.1 (hsort.input (by simp [Rel.inputs]))).ranked order limit hf.1.1
      (hf.2.2 hint rfl) hf.1.2 ?_ (by rw [Rel.width]) (by rw [convert])
    rw [Rel.span, Rel.span]
    exact Nat.le_add_right _ _
  case ranked =>
    intro input outputs hint hoffset hsort ih hf hn
    rw [Rel.Fits] at hf
    have hno : ∀ i ∈ SortOrder.columns [], i < input.width := fun i hi => by cases hi
    refine (ih hf.1 (hn.input (by simp [Rel.inputs]))).ranked [] none hf.1
      (hf.2.2 hint rfl) hno ?_ (by rw [Rel.width]) ?_
    · rw [Rel.span]
      exact Nat.le_add_right _ _
    · rw [convert]
      · exact hoffset
      · exact hsort
  case join =>
    intro left right kind condition hint ihl ihr hf hn
    rw [Rel.Fits] at hf
    exact (ihl hf.1 (hn.input (by simp [Rel.inputs]))).join
      (ihr hf.2.1 (hn.input (by simp [Rel.inputs]))) hl hf.2.2
  case aggregate =>
    intro input keys groupingSets calls hint ih hf hn
    rw [Rel.Fits] at hf
    exact (ih hf.1 (hn.input (by simp [Rel.inputs]))).aggregate hf.2.1 hf.2.2
  case union =>
    intro inputs all ih hf hn
    rw [Rel.Fits] at hf
    have hwidth := hn.width
    rw [Rel.width] at hwidth
    have hbelow : ∀ q ∈ inputs, q.Narrow := fun q hq => hn.input hq
    refine plans_union ?_ hwidth
    rcases inputs with _ | ⟨first, _ | ⟨second, rest⟩⟩
    · trivial
    · rw [Rel.FitsAll] at hf
      exact ih hf.1 (hbelow first List.mem_cons_self)
    · rw [Rel.FitsAll] at hf
      exact ⟨ih.1 hf.1 (hbelow first List.mem_cons_self),
        ih.2 hf.2 fun q hq => hbelow q (List.mem_cons_of_mem first hq)⟩
  case sort =>
    intro input order limit offset ih hf hn
    rw [Rel.Fits] at hf
    exact (ih hf.1 (hn.input (by simp [Rel.inputs]))).sort hf.2
  case noBranch =>
    intro position _ _
    unfold PlansBranches
    rw [convertBranches]
    exact .ok fun b hb => by cases hb
  case branch =>
    intro position q qs ihq ihqs hf hn
    rw [Rel.FitsAll] at hf
    have hq := hn q List.mem_cons_self
    exact (ihq hf.1 hq).branches (ihqs hf.2 fun r hr => hn r (List.mem_cons_of_mem q hr)) hq.width
  -- what is refused at once
  all_goals
    intros
    unfold Plans
    rw [convert]
    exact .refuse

/-- **Planning a query whose columns exist** ends as permitted, in a plan that
is well formed and shows the columns of the query. -/
theorem convert_safe (hl : c.catalog.Linked) (hs : c.catalog.Sane) {q : Rel}
    (hf : q.Fits c.catalog) (hn : q.Narrow) :
    Safe (Permitted c.catalog (q.span c.catalog)) (c.convert q)
      (Shows c.catalog (q.span c.catalog) q.width) := (plans_and_branches hl hs).1 q hf hn

/-- **Planning a query whose columns exist, and whose times fit into 64 bits, does
not fault** unless a stale ranking was pulled up to a table: then the check of a
plan may find it outside the tree. The plan of the query passes the check, shows
the columns of the query, and can be given as a final result. -/
theorem convert_faults_over_stale_ranking_only {q : Rel} (hb : c.catalog.Built)
    (hs : c.catalog.Sane) (hf : q.Fits c.catalog) (hn : q.Narrow)
    (hspan : (q.span c.catalog : Int) ≤ Millis.greatest) :
    (∀ fault, c.convert q = .error (.fault fault) →
      c.catalog.HasStale ∧ ∃ width, fault = .topNOutside width) ∧
    ∀ plan, c.convert q = .ok plan → plan.check = .ok () ∧ plan.select.sources = q.width ∧
      ∀ fault, plan.materialize ≠ .error (.fault fault) := by
  have hsafe := convert_safe hb.linked hs hf hn
  constructor
  · intro fault he
    rcases hsafe.1 fault he with ⟨-, hlong⟩ | ⟨width, hw, hst⟩
    · omega
    · exact ⟨hst, width, hw⟩
  · intro plan hp
    obtain ⟨hw, hsel⟩ := hsafe.2 plan hp
    refine ⟨Plan.check_eq_ok_iff.2 hw.toSound, hsel, fun fault he => ?_⟩
    have hm : Safe (fun _ => False) plan.materialize fun _ => True :=
      Plan.materialize_safe hw (hsel ▸ hn.width)
    exact hm.1 fault he

/-- A table of three columns, with a ranking pulled up to it. -/
def rankedTable (topN : TopN) : BaseTable where
  name := "t"
  fields := [⟨"k", .int64, false⟩, ⟨"a", .int64, true⟩, ⟨"s", .int64, true⟩]
  keys := 1
  kind := .stream
  time := .none
  pending := ⟨none, topN, []⟩
  stage := none

/-- The catalog of that table, on the database stage. -/
def overRankedTable (topN : TopN) : Converter where
  catalog := ⟨[rankedTable topN], [⟨"t", .root 0, (rankedTable topN).fields, 1, [0, 1, 2], 0,
    (rankedTable topN).fields⟩], [("t", .view 0), ("t", .base 0)]⟩
  pipeline := .streamAndDatabase
  stage := .database "database"
  settings := .default

theorem overRankedTable_built (topN : TopN) : (overRankedTable topN).catalog.Built :=
  @Catalog.Built.table .empty _ (rankedTable topN) "t" 0 .empty EventTime.coherent_none rfl

theorem overRankedTable_sane {topN : TopN} (h : ∀ i ∈ topN.columns, i < 3) :
    (overRankedTable topN).catalog.Sane := by
  have hplain : PlainKeys (rankedTable topN).fields 1 := by
    intro i hi field hfield
    obtain rfl : i = 0 := by omega
    cases hfield
    rfl
  constructor
  · intro table ht
    obtain rfl := List.mem_singleton.1 ht
    exact ⟨hplain, (fun i hi => by cases hi), (by rintro f ⟨⟩), h, (fun i hi => by cases hi)⟩
  · intro view hv
    obtain rfl := List.mem_singleton.1 hv
    exact hplain

/-- The key of the table, and the column behind it plus one. -/
def shiftedColumn : Rel :=
  .project (.scan (.view 0) "t" [⟨"k", .int64, false⟩, ⟨"a", .int64, true⟩, ⟨"s", .int64, true⟩])
    [⟨.column 0, "k", .int64, false⟩,
      ⟨.binary .plus (.column 1) (.literal (.int 1)), "b", .int64, true⟩] none

theorem shiftedColumn_fits (topN : TopN) :
    shiftedColumn.Fits (overRankedTable topN).catalog ∧ shiftedColumn.Narrow ∧
      shiftedColumn.span (overRankedTable topN).catalog = 0 := by
  refine ⟨?_, ?_, ?_⟩
  · unfold shiftedColumn
    simp [Rel.Fits, Rel.width, Expr.references]
    rfl
  · unfold shiftedColumn
    simp [Rel.Narrow, Rel.preorder, Rel.width, Position.countLimit]
  · unfold shiftedColumn
    simp only [Rel.span]
    rfl

/-- **A stale ranking makes the check of a projection fault**: nothing moved its column. -/
theorem stale_ranking_faults :
    let c := overRankedTable ⟨[], false, [⟨2, .descending⟩], none, .stream⟩
    c.catalog.Built ∧ c.catalog.Sane ∧ shiftedColumn.Fits c.catalog ∧ shiftedColumn.Narrow ∧
      (shiftedColumn.span c.catalog : Int) ≤ Millis.greatest ∧
      c.convert shiftedColumn = .error (.fault (.topNOutside 2)) := by
  obtain ⟨hf, hn, hspan⟩ := shiftedColumn_fits ⟨[], false, [⟨2, .descending⟩], none, .stream⟩
  exact ⟨overRankedTable_built _, overRankedTable_sane (by decide), hf, hn, by rw [hspan]; decide, rfl⟩

/-- With a ranking that has an effect, the same projection is planned. -/
theorem ranking_does_not_fault :
    let c := overRankedTable ⟨[], false, [⟨2, .descending⟩], some 1, .stream⟩
    ∀ fault, c.convert shiftedColumn ≠ .error (.fault fault) := by
  intro c fault he
  obtain ⟨hf, hn, hspan⟩ := shiftedColumn_fits ⟨[], false, [⟨2, .descending⟩], some 1, .stream⟩
  obtain ⟨hst, -⟩ := (convert_faults_over_stale_ranking_only (overRankedTable_built _)
    (overRankedTable_sane (by decide)) hf hn (by rw [hspan]; decide)).1 fault he
  obtain ⟨table, ht, hstale⟩ := hst
  obtain rfl := List.mem_singleton.1 ht
  exact absurd hstale.1 (by decide)

end StreamPlan.Converter
