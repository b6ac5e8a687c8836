import StreamPlan.Plan.Manifest
import StreamPlan.Proofs.Answers.Project
import StreamPlan.Proofs.Plan.Picked
import StreamPlan.Proofs.Plan.Requirements
import StreamPlan.Proofs.Schema.Operators

/-!
# Hints of windows over the ends of buckets

Grouping a stream by its timestamp gives a window, whose hint tells if the timestamp is the end
of a bucket. The hint is read off the top of the tree, so it depends on the operators between
the projection that computes the bucket and the groups.

* `Layer`: operators that are unrelated to times, with the column below that an output shows
  (`Layer.shown?`), and which of them leave no operator (`Layer.AllIdle`).
* `Plan.Covered`: trees whose top tells of no bucket.
* `Converter.Through`: what plans have in common along such operators. One operator keeps it
  (`Through.filter`, `Through.columns`), so any number of them does (`through_of_convert`).
* `Converter.bucket_is_hinted`: **the hint is the bucket** exactly if no operator is left in
  between.
-/

namespace StreamPlan

/-- Different places of a list without repetitions hold different values. -/
theorem Picks.nodup {α : Type} {xs values : List α} {columns : List Nat}
    (h : Picks xs columns values) (hx : xs.Nodup) (hc : columns.Nodup) : values.Nodup := by
  induction h with
  | nil => exact List.nodup_nil
  | @cons c v columns values hv hrest ih =>
    obtain ⟨hnot, hc⟩ := List.nodup_cons.1 hc
    refine List.nodup_cons.2 ⟨fun hmem => hnot ?_, ih hc⟩
    obtain ⟨d, hd, hdv⟩ := exists_of_mem_right hrest hmem
    obtain ⟨hlt, -⟩ := List.getElem?_eq_some_iff.1 hv
    rwa [(List.getElem?_inj hlt hx).1 (hv.trans hdv.symm)]

/-- What stands at a place of one of two related lists is related to what stands there in the
other. -/
theorem exists_of_getElem?_right {α β : Type} {R : α → β → Prop} {as : List α} {bs : List β} {i : Nat}
    {b : β} (h : List.Forall₂ R as bs) (hb : bs[i]? = some b) : ∃ a, as[i]? = some a ∧ R a b := by
  obtain ⟨hi, rfl⟩ := List.getElem?_eq_some_iff.1 hb
  have hi' : i < as.length := h.length_eq ▸ hi
  exact ⟨as[i], List.getElem?_eq_getElem hi', (List.forall₂_iff_get.1 h).2 i hi' hi⟩

/-- An operator that neither computes a column nor looks at the current time. -/
inductive Layer where
  | filter (predicate : Expr)
  | columns (outputs : List Output)

namespace Layer

/-- The query with the operator on top. -/
def onto (q : Rel) : Layer → Rel
  | .filter predicate => .filter q predicate
  | .columns outputs => .project q outputs none

/-- The column of the query below that an output of the operator shows. -/
def source? (k : Nat) : Layer → Option Nat
  | .filter _ => some k
  | .columns outputs => outputs[k]?.bind (·.expr.column?)

/-- A filter without the current time, or a projection that only renames and reorders columns. -/
def Unrelated (q : Rel) : Layer → Prop
  | .filter predicate => predicate.containsNow = false
  | .columns outputs => ∃ columns, Converter.bareOf q outputs = .ok (some columns) ∧ columns.Nodup

/-- An operator that leaves no operator: a filter without a condition, or a projection that keeps
the names of its columns. -/
def Idle (q : Rel) : Layer → Prop
  | .filter predicate => predicate.conjuncts = []
  | .columns outputs => ∀ fields, q.fields = .ok fields → ∀ o ∈ outputs, ∀ i field,
      o.expr = .column i → fields[i]? = some field → field.name = o.field.name

/-- The query with operators on top, the last of the list right above it. -/
def stacked (q : Rel) : List Layer → Rel
  | [] => q
  | layer :: below => layer.onto (stacked q below)

/-- The column of the query that an output above the operators shows. -/
def shown? (k : Nat) : List Layer → Option Nat
  | [] => some k
  | layer :: below => (layer.source? k).bind (shown? · below)

/-- Operators that are unrelated to times. -/
def AllUnrelated (q : Rel) : List Layer → Prop
  | [] => True
  | layer :: below => layer.Unrelated (stacked q below) ∧ AllUnrelated q below

/-- Operators of which none leaves an operator. -/
def AllIdle (q : Rel) : List Layer → Prop
  | [] => True
  | layer :: below => layer.Idle (stacked q below) ∧ AllIdle q below

end Layer

namespace Plan

variable {plan out : Plan} {rel : Rel} {columns : List Nat} {outputs : List Output}

/-- The top of a tree does not tell that a column is a bucket. -/
def Covered (rel : Rel) : Prop := ∀ timestamp, tumbleHint rel timestamp = .instant timestamp

theorem covered_filter (rel : Rel) (predicate : Expr) : Covered (.filter rel predicate) := fun _ => rfl

/-- A projection of columns covers what is below. -/
theorem covered_columns {columns : List Nat} (h : outputs.map Output.expr = columns.map Expr.column) :
    Covered (.project rel outputs none) := by
  intro timestamp
  have hexpr : outputs[timestamp]?.map Output.expr = columns[timestamp]?.map Expr.column := by
    rw [← List.getElem?_map, h, List.getElem?_map]
  rw [tumbleHint, hexpr]
  cases columns[timestamp]? <;> rfl

theorem Renames.covered {next : Rel} (h : Renames rel next) (hc : Covered rel) : Covered next := by
  cases h with
  | same => exact hc
  | project ho => exact covered_columns ho

/-- The last step of an operator leaves a covered tree covered. -/
theorem covered_of_finish {c : Converter} (hc : Covered plan.rel) (ht : plan.topN.isEmpty = true)
    (h : c.finish plan = .ok out) : Covered out.rel ∧ out.topN.isEmpty = true := by
  obtain ⟨-, hout, -⟩ := Converter.finish_eq_ok.1 h
  split at hout
  · obtain ⟨mid, hmid, hout⟩ := withoutPending_eq_ok.1 hout
    have hmid' : Covered mid.rel ∧ mid.topN.isEmpty = true := by
      rcases withoutNowFilter_eq_ok hmid with ⟨-, rfl⟩ | ⟨f, needs, -, -, rfl⟩
      · exact ⟨hc, ht⟩
      · exact ⟨covered_filter _ _, ht⟩
    rcases withoutTopN_eq_ok hout with ⟨-, rfl⟩ | ⟨needs, hne, -, -⟩
    · exact hmid'
    · rw [hmid'.2] at hne
      cases hne
  · rw [hout]
    exact ⟨hc, ht⟩

/-- Different columns can be given any names. -/
theorem namesGiven_of_nodup (h : columns.Nodup) (hlen : columns.length ≤ outputs.length) :
    ∃ names, namesGiven columns outputs = some names := by
  have hrun : ∀ (pairs : List (Nat × Output)) (acc : List (Nat × String)),
      (pairs.map Prod.fst).Nodup → (∀ p ∈ pairs, acc.lookup p.1 = none) →
      ∃ names, pairs.foldlM (fun names (p : Nat × Output) => addName names p.1 p.2.field.name) acc
        = some names := by
    intro pairs
    induction pairs with
    | nil => exact fun acc _ _ => ⟨acc, rfl⟩
    | cons pair pairs ih =>
      intro acc hnodup hnew
      obtain ⟨hnot, hnodup⟩ := List.nodup_cons.1 hnodup
      obtain ⟨hfirst, hrest⟩ := List.forall_mem_cons.1 hnew
      have hadd : addName acc pair.1 pair.2.field.name
          = some (acc ++ [(pair.1, pair.2.field.name)]) := by
        rw [addName, hfirst]
      obtain ⟨names, hnames⟩ := ih (acc ++ [(pair.1, pair.2.field.name)]) hnodup fun p hp => by
        have hne : p.1 ≠ pair.1 := fun he => hnot (he ▸ List.mem_map_of_mem hp)
        rw [List.lookup_append, hrest p hp]
        simp [hne]
      exact ⟨names, by rw [List.foldlM_cons, hadd]; exact hnames⟩
  exact hrun _ [] (by rwa [List.map_fst_zip hlen]) fun p _ => rfl

/-- A projection of different columns is picked. -/
theorem picked_of_nodup (h : Converter.projected plan (some columns) outputs = .ok out)
    (hn : columns.Nodup) (hs : plan.select.targets.Nodup) (hlen : columns.length ≤ outputs.length) :
    ∃ targets rel select, Picks plan.select.targets columns targets ∧
      renamed? plan.rel targets outputs = .ok (some rel) ∧ select.targets = targets ∧
      out = { plan with rel, select } := by
  unfold Converter.projected at h
  obtain ⟨picked, hpicked, h⟩ := bind_eq_ok.1 h
  have hpicked := lift_eq_ok.1 hpicked
  rcases picked with _ | picked
  · -- different columns are in different places, which can be given any names
    unfold picked? at hpicked
    obtain ⟨targets, hmoved, hpicked⟩ := bind_eq_ok.1 hpicked
    have hpicks : Picks plan.select.targets columns targets :=
      (mapM_eq_ok.1 hmoved).imp fun _ _ => ColumnMap.apply_eq_ok.1
    have hfit : targets.length ≤ outputs.length := hpicks.length_eq ▸ hlen
    obtain ⟨names, hnames⟩ := namesGiven_of_nodup (hpicks.nodup hs hn) hfit
    obtain ⟨renamed, hrenamed, hpicked⟩ := bind_eq_ok.1 hpicked
    unfold renamed? at hrenamed
    obtain ⟨fields, -, hrenamed⟩ := bind_eq_ok.1 hrenamed
    rw [hnames] at hrenamed
    obtain ⟨changed, -, hrenamed⟩ := bind_eq_ok.1 hrenamed
    obtain ⟨rel, -, hrenamed⟩ := bind_eq_ok.1 hrenamed
    cases hrenamed
    obtain ⟨select, -, hpicked⟩ := bind_eq_ok.1 hpicked
    cases hpicked
  · cases h
    obtain ⟨targets, rel, select, hmoved, hrenamed, hselect, rfl⟩ := picked?_eq_ok hpicked
    have hpicks : Picks plan.select.targets columns targets :=
      (mapM_eq_ok.1 hmoved).imp fun _ _ => ColumnMap.apply_eq_ok.1
    exact ⟨targets, rel, select, hpicks, hrenamed, (ColumnMap.of_targets hselect).1, rfl⟩

/-- Conditions without the current time state no now-filter. -/
theorem extractNowFilters_of_timeless {conditions : List Expr}
    (h : ∀ k ∈ conditions, k.containsNow = false) :
    plan.extractNowFilters conditions = .ok (plan, conditions) := by
  induction conditions with
  | nil => rfl
  | cons condition conditions ih =>
    obtain ⟨hfirst, hrest⟩ := List.forall_mem_cons.1 h
    have hstated : statedNowFilter plan.time condition = .ok none := by
      rw [statedNowFilter, hfirst]
      rfl
    rw [extractNowFilters, hstated, lift_ok, ok_bind]
    simp only
    rw [ih hrest]
    rfl

theorem containsNow_conjuncts {e k : Expr} (h : e.containsNow = false) (hk : k ∈ e.conjuncts) :
    k.containsNow = false := by
  induction e using Expr.conjuncts.induct with
  | case1 left right ihl ihr =>
    rw [Expr.containsNow, Expr.calls, List.any_append, Bool.or_eq_false_iff] at h
    rw [Expr.conjuncts] at hk
    rcases List.mem_append.1 hk with hk | hk
    · exact ihl h.1 hk
    · exact ihr h.2 hk
  | case2 e hne htrue =>
    rw [Expr.conjuncts, if_pos htrue] at hk
    · cases hk
    · exact hne
  | case3 e hne hfalse =>
    rw [Expr.conjuncts, if_neg hfalse] at hk
    · rwa [List.mem_singleton.1 hk]
    · exact hne

/-- No ranking is applied if none is pending. -/
theorem withoutTopN_of_idle (h : plan.topN.isEmpty = true) : plan.withoutTopN = .ok plan := by
  rw [withoutTopN, inlineTopN, if_pos h]
  rfl

/-- **A filter without the current time** is put on top, unless it has no conditions. -/
theorem filtered_of_timeless {predicate : Expr} (hp : predicate.containsNow = false)
    (hidle : plan.topN.isEmpty = true) (h : plan.filtered predicate = .ok out) :
    (predicate.conjuncts = [] ∧ out = plan) ∨
      ∃ needs conditions, predicate.conjuncts ≠ [] ∧
        out = { plan with needs, rel := .filter plan.rel conditions, lineage := none } := by
  unfold filtered at h
  rw [withoutTopN_of_idle hidle, ok_bind] at h
  obtain ⟨moved, hmoved, h⟩ := bind_eq_ok.1 h
  have hmoved := lift_eq_ok.1 hmoved
  have hconditions := Expr.conjuncts_remap hmoved
  have htimeless : ∀ k ∈ moved.conjuncts, k.containsNow = false := by
    intro k hk
    obtain ⟨e, he, hek⟩ := exists_of_mem_right hconditions hk
    rw [Expr.containsNow, Expr.calls_remap hek]
    exact containsNow_conjuncts hp he
  rw [extractNowFilters_of_timeless htimeless, ok_bind] at h
  simp only at h
  split at h
  · rename_i hempty
    cases h
    refine .inl ⟨?_, rfl⟩
    exact List.eq_nil_of_length_eq_zero (by
      rw [hconditions.length_eq, List.isEmpty_iff.1 hempty, List.length_nil])
  · rename_i hne
    obtain ⟨needs, -, h⟩ := bind_eq_ok.1 h
    cases h
    refine .inr ⟨needs, _, fun hnil => hne ?_, rfl⟩
    exact List.isEmpty_iff.2 (List.eq_nil_of_length_eq_zero (by
      rw [← hconditions.length_eq, hnil, List.length_nil]))

/-- A now-filter on another column than the timestamp applies below. -/
theorem rel_of_carryOver {timestamp : Nat} {below : Plan} {carried : Option NowFilter}
    (h : plan.carryOver timestamp = .ok (below, carried)) :
    ((∀ f, plan.nowFilter = some f → f.timestamp = timestamp) ∧ below.rel = plan.rel ∧
        carried = plan.nowFilter) ∨
      (∃ f, plan.nowFilter = some f ∧ f.timestamp ≠ timestamp) ∧ Covered below.rel := by
  unfold carryOver at h
  split at h
  · rename_i hnone
    cases h
    exact .inl ⟨fun f hf => absurd (hnone.symm.trans hf) nofun, rfl, hnone.symm⟩
  · rename_i f hf
    split at h
    · rename_i htimestamp
      cases h
      refine .inl ⟨fun f' hf' => ?_, rfl, hf.symm⟩
      rw [← Option.some.inj (hf.symm.trans hf'), htimestamp]
    · rename_i hother
      obtain ⟨next, hnext, h⟩ := bind_eq_ok.1 h
      cases h
      refine .inr ⟨⟨f, hf, hother⟩, ?_⟩
      rcases withoutNowFilter_eq_ok hnext with ⟨hnone, -⟩ | ⟨_, _, -, -, rfl⟩
      · exact absurd (hnone.symm.trans hf) nofun
      · exact covered_filter _ _

/-- **Groups of a stream by a timestamp** are a tumbling window, with the hint that the tree
below gives. -/
theorem aggregated_by_timestamp {c : Converter} {keys : List Nat} {calls : List AggregateCall}
    {key timestamp : Nat} (hkind : plan.kind = .stream) (ht : plan.topN.isEmpty = true)
    (hkey : key ∈ keys) (hcolumn : plan.select.apply key = .ok timestamp)
    (htime : plan.time.isCandidate timestamp = true) (h : plan.aggregated c keys calls = .ok out) :
    ∃ below columns moved,
      out.rel = .aggregate below columns [] moved (some (tumbleHint below timestamp)) ∧
      out.topN.isEmpty = true ∧ (plan.nowFilter = none → out.nowFilter = none) ∧
      ((∀ f, plan.nowFilter = some f → f.timestamp = timestamp) ∧ below = plan.rel ∨
        (∃ f, plan.nowFilter = some f ∧ f.timestamp ≠ timestamp) ∧ Covered below) := by
  unfold aggregated at h
  rw [withoutTopN_of_idle ht, ok_bind] at h
  obtain ⟨columns, hcolumns, h⟩ := bind_eq_ok.1 h
  obtain ⟨moved, hmoved, h⟩ := bind_eq_ok.1 h
  obtain ⟨needs, hneeds, h⟩ := bind_eq_ok.1 h
  have hmem : timestamp ∈ columns.filter plan.time.isCandidate := by
    obtain ⟨t, ht, happly⟩ := exists_of_mem_left (mapM_eq_ok.1 (orFault_eq_ok.1 hcolumns)) hkey
    obtain rfl : t = timestamp := Except.ok.inj (happly.symm.trans hcolumn)
    exact List.mem_filter.2 ⟨ht, htime⟩
  obtain ⟨found, hfound, h⟩ := bind_eq_ok.1 h
  unfold special? at hfound
  rw [if_pos hkind] at hfound
  unfold streamAggregate? at hfound
  split at hfound
  · -- the timestamp is the only one among the keys
    rename_i only honly
    simp only at honly
    rw [honly] at hmem
    obtain rfl := List.mem_singleton.1 hmem
    obtain ⟨window, hwindow, rfl⟩ := map_eq_ok.1 hfound
    cases h
    unfold tumbling at hwindow
    obtain ⟨needs', hneeds', hwindow⟩ := bind_eq_ok.1 hwindow
    obtain ⟨⟨below, carried⟩, hcarry, hwindow⟩ := bind_eq_ok.1 hwindow
    obtain ⟨grouped, hgrouped, hwindow⟩ := bind_eq_ok.1 hwindow
    cases hwindow
    obtain ⟨_, _, rfl⟩ := groupedAs_eq_ok (lift_eq_ok.1 hgrouped)
    refine ⟨below.rel, _, moved, rfl, rfl, ?_⟩
    rcases rel_of_carryOver hcarry with ⟨hsame, hrel, hcarried⟩ | ⟨⟨f, hf, hother⟩, hcovered⟩
    · exact ⟨fun hnone => by rw [hcarried, hnone]; rfl, .inl ⟨hsame, hrel⟩⟩
    · exact ⟨fun hnone => absurd (hnone.symm.trans hf) nofun, .inr ⟨⟨f, hf, hother⟩, hcovered⟩⟩
  · rename_i hnone
    simp only at hnone
    rw [hnone] at hmem
    cases hmem
  · cases hfound

end Plan

namespace Converter

variable {c : Converter} {q input : Rel} {base below plan out : Plan} {outputs : List Output}
  {layer : Layer} {layers : List Layer}

/-- The last step of an operator leaves a plan as it is, unless a constraint is pending on a read
stage. -/
theorem finish_of_read_idle (h : c.finish plan = .ok out) (hread : plan.needs.stage.isRead = true →
    plan.nowFilter = none ∧ plan.topN.isEmpty = true) : out = plan := by
  obtain ⟨-, hout, -⟩ := finish_eq_ok.1 h
  split at hout
  · rename_i hstage
    obtain ⟨hn, ht⟩ := hread hstage
    exact Except.ok.inj (hout.symm.trans (Plan.withoutPending_of_idle hn ht))
  · exact hout

/-- **The plan of a computed projection** has the outputs on top, in front of what is kept. -/
theorem convert_computed (h : c.convert (.project input outputs none) = .ok base)
    (hcomputed : ∃ o ∈ outputs, o.expr.column? = none) :
    ∃ below rel moved appended, c.convert input = .ok below ∧
      outputs.mapM (·.remap below.select.apply) = .ok moved ∧
      base.rel = .project rel (moved ++ appended) none ∧
      base.select.targets = List.range outputs.length ∧ base.topN.isEmpty = true := by
  rw [convert] at h
  obtain ⟨bare, hbare, h⟩ := bind_eq_ok.1 h
  obtain ⟨below, hbelow, h⟩ := bind_eq_ok.1 h
  obtain ⟨out, hout, hfinish⟩ := bind_eq_ok.1 h
  -- the outputs are no bare columns
  obtain rfl : bare = none := by
    obtain ⟨fields, hfields, hsome⟩ := bind_eq_ok.1 hbare
    rcases bare with _ | columns
    · rfl
    · have hcolumns := forall₂_of_bareOf (lift_eq_ok.1 hfields) hbare rfl
      obtain ⟨o, ho, hnone⟩ := hcomputed
      obtain ⟨i, -, hexpr, -⟩ := exists_of_mem_left hcolumns ho
      rw [hexpr] at hnone
      cases hnone
  obtain ⟨settled, needs, moved, hsettled, hmoved, hneeds, hprojected⟩ := Plan.computed_eq_ok hout
  obtain ⟨mid, carried, hcarries, hprojected⟩ := Plan.projectedTo_eq_ok hprojected
  obtain ⟨appended, time, key, select, -, -, -, hselect, rfl⟩ := Plan.withOutputs_eq_ok hprojected
  have hidle : mid.topN.isEmpty = true :=
    hcarries.settled.2.1 ▸ (Plan.withoutTopN_settled hsettled).2.1
  -- on a read stage no now-filter was pending below
  have hcarried : below.needs.stage.isRead = true → carried = none := by
    intro hread
    have hnone : settled.nowFilter = none :=
      (Plan.withoutTopN_settled hsettled).2.2.trans (settled_of_isRead hbelow hread).1
    cases hcarries with
    | same => exact hnone
    | widened _ hsome => cases hnone.symm.trans hsome
    | applied => rfl
  obtain rfl := finish_of_read_idle hfinish fun hread => by
    rw [(Plan.builtOn_computed hout).needs.stage] at hread
    simp [hcarried hread, hidle]
  refine ⟨below, mid.rel, moved, appended, hbelow, hmoved, rfl, ?_, hidle⟩
  rw [hselect, length_of_mapM_eq_ok hmoved]

/-- The columns of a row type have the names of fields. -/
def NamedAs (row fields : Fields) (columns : List Nat) : Prop :=
  Picks (row.map Field.name) columns (fields.map Field.name)

/-- What the plan of a query with operators on top has of the plan of the query: the operators
leave no operator, or the tree is covered. -/
structure Through (base : Plan) (q : Rel) (layers : List Layer) (plan : Plan) : Prop where
  kind : plan.kind = base.kind
  time : plan.time = base.time
  topN : plan.topN.isEmpty = true
  nodup : plan.select.targets.Nodup
  shown : ∀ k t, plan.select.targets[k]? = some t → Layer.shown? k layers = some t
  tree : (Layer.AllIdle q layers ∧ plan.rel = base.rel ∧ plan.nowFilter = base.nowFilter ∧
      ∃ fields row, (Layer.stacked q layers).fields = .ok fields ∧ base.rel.fields = .ok row ∧
        NamedAs row fields plan.select.targets) ∨
    ¬Layer.AllIdle q layers ∧ Plan.Covered plan.rel

/-- Nothing is in between. -/
theorem through_computed (h : c.convert (.project input outputs none) = .ok base)
    (hcomputed : ∃ o ∈ outputs, o.expr.column? = none) :
    Through base (.project input outputs none) [] base := by
  obtain ⟨below, rel, moved, appended, -, hmoved, hrel, hselect, hidle⟩ := convert_computed h hcomputed
  have hnames : moved.map Output.field = outputs.map Output.field := by
    refine (map_eq_map_of_forall₂ (mapM_eq_ok.1 hmoved) fun o _ o' _ hremap => ?_).symm
    obtain ⟨expr, -, hremap⟩ := bind_eq_ok.1 hremap
    cases hremap
    rfl
  refine ⟨rfl, rfl, hidle, hselect ▸ List.nodup_range, fun k t hk => ?_,
    .inl ⟨trivial, rfl, rfl, _, _, by rw [Layer.stacked, Rel.fields], by rw [hrel, Rel.fields], ?_⟩⟩
  · rw [hselect] at hk
    obtain ⟨hlt, rfl⟩ := List.getElem?_eq_some_iff.1 hk
    rw [List.getElem_range]
    rfl
  · have hfront : Picks (moved.map Output.field ++ appended.map Output.field)
        (List.range (moved.map Output.field).length) (moved.map Output.field) := picks_front _ _
    rw [hnames, List.length_map, ← hselect] at hfront
    rw [NamedAs, List.map_append, List.map_append, hnames]
    exact List.forall₂_map_right_iff.2 (hfront.imp fun t field ht => by
      rw [← List.map_append, List.getElem?_map, ht]; rfl)

/-- A filter in between. -/
theorem Through.filter {predicate : Expr} (h : Through base q layers plan)
    (hplan : c.convert (Layer.stacked q layers) = .ok plan) (hp : predicate.containsNow = false)
    (hout : c.convert (.filter (Layer.stacked q layers) predicate) = .ok out) :
    Through base q (.filter predicate :: layers) out := by
  rw [convert, hplan, ok_bind] at hout
  obtain ⟨mid, hmid, hfinish⟩ := bind_eq_ok.1 hout
  rcases Plan.filtered_of_timeless hp h.topN hmid with ⟨hnil, rfl⟩ | ⟨needs, conditions, hne, rfl⟩
  · obtain rfl := finish_of_read_idle hfinish (settled_of_isRead hplan)
    refine ⟨h.kind, h.time, h.topN, h.nodup, h.shown, ?_⟩
    rcases h.tree with ⟨hidle, hrel, hnow, fields, row, hfields, hrow, hnamed⟩ | ⟨hbusy, hcovered⟩
    · exact .inl ⟨⟨hnil, hidle⟩, hrel, hnow, fields, row, by
        rw [Layer.stacked, Layer.onto, Rel.fields, hfields], hrow, hnamed⟩
    · exact .inr ⟨fun hidle => hbusy hidle.2, hcovered⟩
  · obtain ⟨hcovered, htop⟩ := @Plan.covered_of_finish
      { plan with needs, rel := .filter plan.rel conditions, lineage := none } _ _
      (Plan.covered_filter _ _) h.topN hfinish
    obtain ⟨hset, -⟩ := finish_sound hfinish
    exact ⟨hset.kind.trans h.kind, hset.time.trans h.time, htop, hset.select ▸ h.nodup,
      hset.select ▸ h.shown, .inr ⟨fun hidle => hne hidle.1, hcovered⟩⟩

/-- Outputs that rename columns: an operator stays exactly if a name changes. -/
theorem renamed_idle {row : Fields} {rel next : Rel} {targets columns shown : List Nat} {fields : Fields}
    (hrow : rel.fields = .ok row) (hrenamed : Plan.renamed? rel targets outputs = .ok (some next))
    (hnamed : NamedAs row fields shown) (hpicks : Picks shown columns targets)
    (hfields : q.fields = .ok fields)
    (hcolumns : List.Forall₂ (fun o i => o.expr = .column i ∧ i < fields.length) outputs columns) :
    ((Layer.columns outputs).Idle q ∧ next = rel ∧ NamedAs row (outputs.map Output.field) targets) ∨
      ¬(Layer.columns outputs).Idle q ∧ Plan.Covered next := by
  have hseen : List.Forall₂ (fun t o => ∃ i field field', o.expr = .column i ∧
      fields[i]? = some field ∧ row[t]? = some field' ∧ field'.name = field.name) targets outputs := by
    refine forall₂_of_left hpicks hcolumns.flip ?_
    rintro i - t o ht ⟨hexpr, hi⟩
    have hname := hnamed.getElem? ht
    rw [List.getElem?_map, List.getElem?_map, List.getElem?_eq_getElem hi] at hname
    obtain ⟨field', hfield', hname⟩ := Option.map_eq_some_iff.1 hname.symm
    exact ⟨i, _, field', hexpr, List.getElem?_eq_getElem hi, hfield', hname⟩
  rcases Plan.renamed?_renames hrenamed with _ | houtputs
  · -- nothing is renamed, so the outputs have the names of their columns
    obtain ⟨row', hrow', hgiven, -⟩ := Plan.renamed?_fields hrow hrenamed
    obtain rfl : row' = row := Except.ok.inj (hrow'.symm.trans hrow)
    have hkept : List.Forall₂ (fun t o => ∃ i field seen, o.expr = .column i ∧
        fields[i]? = some field ∧ row'[t]? = some seen ∧ seen.name = field.name ∧
        seen.name = o.field.name) targets outputs := by
      refine List.forall₂_iff_zip.2 ⟨hseen.length_eq, fun {t o} hmem => ?_⟩
      obtain ⟨i, field, seen, hexpr, hfield, hseen, hname⟩ := (List.forall₂_iff_zip.1 hseen).2 hmem
      have hgiven := hgiven _ hmem
      rw [hseen, Option.map_some] at hgiven
      have hown : seen.name = (seen.withName o.field.name).name :=
        congrArg Field.name (Option.some.inj hgiven)
      exact ⟨i, field, seen, hexpr, hfield, hseen, hname, hown⟩
    refine .inl ⟨fun fields' hfields' o ho i field hexpr hfield => ?_, rfl, ?_⟩
    · obtain rfl : fields' = fields := Except.ok.inj (hfields'.symm.trans hfields)
      obtain ⟨t, -, i', field', seen, hexpr', hfield', -, hname, hown⟩ := exists_of_mem_right hkept ho
      obtain rfl : i' = i := Expr.column.inj (hexpr'.symm.trans hexpr)
      rw [hfield] at hfield'
      rw [Option.some.inj hfield', ← hname, hown]
    · rw [NamedAs, Picks, List.map_map, List.forall₂_map_right_iff]
      refine hkept.imp ?_
      rintro t o ⟨_, _, seen, -, -, hseen, -, hown⟩
      rw [List.getElem?_map, hseen]
      exact congrArg some hown
  · -- a renaming on top is there because a name changed
    refine .inr ⟨fun hidle => ?_, Plan.covered_columns houtputs⟩
    have hsame : Plan.renamed? rel targets outputs = .ok (some rel) := by
      refine Plan.renamed?_of_named hrow ?_
      rintro ⟨t, o⟩ hmem
      obtain ⟨i, field, field', hexpr, hfield, hfield', hname⟩ :=
        (List.forall₂_iff_zip.1 hseen).2 hmem
      exact ⟨field', hfield', hname.trans
        (hidle fields hfields o (List.of_mem_zip hmem).2 i field hexpr hfield)⟩
    rw [hsame] at hrenamed
    cases hrenamed

/-- A projection of different columns in between. -/
theorem Through.columns {columns : List Nat} (h : Through base q layers plan)
    (hplan : c.convert (Layer.stacked q layers) = .ok plan)
    (hbare : bareOf (Layer.stacked q layers) outputs = .ok (some columns)) (hnodup : columns.Nodup)
    (hout : c.convert (.project (Layer.stacked q layers) outputs none) = .ok out) :
    Through base q (.columns outputs :: layers) out := by
  rw [convert, hbare, ok_bind, hplan, ok_bind] at hout
  obtain ⟨mid, hmid, hfinish⟩ := bind_eq_ok.1 hout
  obtain ⟨fields, hfields, hsome⟩ := bind_eq_ok.1 hbare
  have hfields := lift_eq_ok.1 hfields
  have hcolumns := forall₂_of_bareOf hfields hbare rfl
  obtain ⟨targets, rel, select, hpicks, hrenamed, hselect, rfl⟩ :=
    Plan.picked_of_nodup hmid hnodup h.nodup (Nat.le_of_eq hcolumns.length_eq.symm)
  have hsettled := settled_of_isRead hplan
  obtain rfl := finish_of_read_idle hfinish hsettled
  have hshown : ∀ k t, targets[k]? = some t → Layer.shown? k (.columns outputs :: layers) = some t := by
    intro k t ht
    obtain ⟨i, hi, hit⟩ := exists_of_getElem?_right hpicks ht
    obtain ⟨o, ho, hexpr, -⟩ := exists_of_getElem?_right hcolumns hi
    rw [Layer.shown?, Layer.source?, ho, Option.bind_some, hexpr]
    exact h.shown i t hit
  refine ⟨h.kind, h.time, h.topN, hselect ▸ hpicks.nodup h.nodup hnodup, hselect ▸ hshown, ?_⟩
  rcases h.tree with ⟨hidle, hrel, hnow, fields', row, hfields', hrow, hnamed⟩ | ⟨hbusy, hcovered⟩
  · obtain rfl : fields' = fields := Except.ok.inj (hfields'.symm.trans hfields)
    rcases renamed_idle (hrel ▸ hrow) hrenamed hnamed hpicks hfields hcolumns with
      ⟨hlayer, hsame, hnext⟩ | ⟨hlayer, hnext⟩
    · exact .inl ⟨⟨hlayer, hidle⟩, hsame.trans hrel, hnow, _, row, by
        rw [Layer.stacked, Layer.onto, Rel.fields], hrow, hselect ▸ hnext⟩
    · exact .inr ⟨fun hall => hlayer hall.1, hnext⟩
  · exact .inr ⟨fun hall => hbusy hall.2, (Plan.renamed?_renames hrenamed).covered hcovered⟩

/-- Any number of operators in between. -/
theorem through_of_convert (hbase : c.convert (.project input outputs none) = .ok base)
    (hcomputed : ∃ o ∈ outputs, o.expr.column? = none)
    (hlayers : Layer.AllUnrelated (.project input outputs none) layers)
    (hplan : c.convert (Layer.stacked (.project input outputs none) layers) = .ok plan) :
    Through base (.project input outputs none) layers plan := by
  induction layers generalizing plan with
  | nil =>
    obtain rfl : base = plan := Except.ok.inj (hbase.symm.trans hplan)
    exact through_computed hbase hcomputed
  | cons layer layers ih =>
    obtain ⟨hlayer, hbelow⟩ := hlayers
    cases layer with
    | filter predicate =>
      have hout := hplan
      rw [Layer.stacked, Layer.onto, convert] at hout
      obtain ⟨mid, hmid, -⟩ := bind_eq_ok.1 hout
      exact (ih hbelow hmid).filter hmid hlayer hplan
    | columns more =>
      obtain ⟨columns, hbare, hnodup⟩ := hlayer
      have hout := hplan
      rw [Layer.stacked, Layer.onto, convert, hbare, ok_bind] at hout
      obtain ⟨mid, hmid, -⟩ := bind_eq_ok.1 hout
      exact (ih hbelow hmid).columns hmid hbare hnodup hplan

/-- Computed outputs tell that one of them is the end of a bucket. -/
theorem tumbleHint_of_computed {function : ScalarFunction} {bucket : Bucket} {rest : List Expr}
    {output argument : Nat} {moved : List Output} (rel : Rel) (appended : List Output)
    (houtput : outputs[output]?.map Output.expr = some (.call function (.column argument :: rest)))
    (hbucket : function.bucket? = some bucket)
    (hmoved : outputs.mapM (·.remap below.select.apply) = .ok moved) :
    ∃ source, below.select.apply argument = .ok source ∧
      Plan.tumbleHint (.project rel (moved ++ appended) none) output
        = .tumble output source bucket := by
  obtain ⟨o, ho, hexpr⟩ := Option.map_eq_some_iff.1 houtput
  obtain ⟨o', ho', hremap⟩ := getElem?_of_mapM_eq_ok hmoved ho
  obtain ⟨e, hcall, hremap⟩ := bind_eq_ok.1 hremap
  cases hremap
  rw [hexpr] at hcall
  cases Expr.remap_cases hcall with
  | @call _ _ args hargs =>
    unfold Expr.remapAll at hargs
    obtain ⟨first, hfirst, hargs⟩ := bind_eq_ok.1 hargs
    obtain ⟨others, -, hargs⟩ := bind_eq_ok.1 hargs
    cases hargs
    cases Expr.remap_cases hfirst with
    | @column _ source hsource =>
      refine ⟨source, hsource, ?_⟩
      rw [Plan.tumbleHint, Catalog.getElem?_append_some ho']
      simp only [Option.map_some, hbucket]
      rfl

/-- **Grouping by the end of a bucket** that a projection computes, with operators in between
that neither compute a column nor look at the current time: the window has the bucket for a
hint if none of them leaves an operator, and the instants of its timestamp otherwise. -/
theorem bucket_is_hinted {grouped : Plan} {function : ScalarFunction} {bucket : Bucket}
    {rest : List Expr} {keys : List Nat} {groupingSets : List (List Nat)}
    {calls : List AggregateCall} {hint : Option AggregateHint} {key output argument : Nat}
    (hbase : c.convert (.project input outputs none) = .ok base) (hkind : base.kind = .stream)
    (houtput : outputs[output]?.map Output.expr = some (.call function (.column argument :: rest)))
    (hbucket : function.bucket? = some bucket) (htime : base.time.isCandidate output = true)
    (hlayers : Layer.AllUnrelated (.project input outputs none) layers)
    (hkey : key ∈ keys) (hshown : Layer.shown? key layers = some output)
    (h : c.convert (.aggregate (Layer.stacked (.project input outputs none) layers) keys groupingSets
      calls hint) = .ok grouped) :
    ∃ below source, c.convert input = .ok below ∧ below.select.apply argument = .ok source ∧
      (Layer.AllIdle (.project input outputs none) layers ∧
          (∀ f, base.nowFilter = some f → f.timestamp = output) →
        ManifestHint.ofRoot? grouped.rel = some (.aggregate (.tumble output source bucket))) ∧
      (¬(Layer.AllIdle (.project input outputs none) layers ∧
          ∀ f, base.nowFilter = some f → f.timestamp = output) →
        ManifestHint.ofRoot? grouped.rel = some (.aggregate (.instant output))) := by
  -- the tree of the projection computes the bucket
  obtain ⟨o, ho, hexpr⟩ := Option.map_eq_some_iff.1 houtput
  have hcomputed : ∃ o ∈ outputs, o.expr.column? = none :=
    ⟨o, List.mem_of_getElem? ho, by rw [hexpr]; rfl⟩
  obtain ⟨below, rel, moved, appended, hbelow, hmoved, hrel, -, -⟩ := convert_computed hbase hcomputed
  obtain ⟨source, hsource, htumble⟩ := tumbleHint_of_computed rel appended
    houtput hbucket hmoved
  rw [← hrel] at htumble
  refine ⟨below, source, hbelow, hsource, ?_⟩
  -- the plan below the groups
  rw [convert] at h
  obtain ⟨_, -, h⟩ := bind_eq_ok.1 h
  obtain ⟨plan, hplan, h⟩ := bind_eq_ok.1 h
  obtain ⟨out, hout, hfinish⟩ := bind_eq_ok.1 h
  have hthrough := through_of_convert hbase hcomputed hlayers hplan
  obtain ⟨_, _, columns, _, -, hcolumns, -⟩ := Plan.aggregated_cases hout
  obtain ⟨column, -, hcolumn⟩ := exists_of_mem_left (mapM_eq_ok.1 hcolumns) hkey
  obtain rfl : column = output := Option.some.inj
    ((hthrough.shown key column (ColumnMap.apply_eq_ok.1 hcolumn)).symm.trans hshown)
  obtain ⟨tree, _, _, hgrouped, htop, hnow, htree⟩ := Plan.aggregated_by_timestamp
    (hthrough.kind.trans hkind) hthrough.topN hkey hcolumn (hthrough.time.symm ▸ htime) hout
  obtain rfl := finish_of_read_idle hfinish fun hread => by
    rw [(Plan.aggregated_requires hout).1.needs.stage] at hread
    exact ⟨hnow (settled_of_isRead hplan hread).1, htop⟩
  have hroot : ManifestHint.ofRoot? grouped.rel
      = some (.aggregate (Plan.tumbleHint tree column)) := by
    rw [hgrouped]
    rfl
  rw [hroot]
  rcases htree with ⟨hsame, htree⟩ | ⟨⟨f, hf, hother⟩, hcovered⟩
  · rcases hthrough.tree with ⟨hidle, hrel, hnowFilter, -⟩ | ⟨hbusy, hcovered⟩
    · -- no operator is left and no now-filter applies
      rw [hnowFilter] at hsame
      rw [htree, hrel, htumble]
      exact ⟨fun _ => rfl, fun hnot => absurd ⟨hidle, hsame⟩ hnot⟩
    · rw [htree, hcovered]
      exact ⟨fun hall => absurd hall.1 hbusy, fun _ => rfl⟩
  · rw [hcovered]
    refine ⟨?_, fun _ => rfl⟩
    rintro ⟨hidle, hsame⟩
    rcases hthrough.tree with ⟨-, -, hnowFilter, -⟩ | ⟨hbusy, -⟩
    · rw [hnowFilter] at hf
      exact absurd (hsame f hf) hother
    · exact absurd hidle hbusy

/-- Events by the end of their bucket. -/
def eventsByBucket : Rel := .project scannedEvents bucketedEvents none

/-- The time in front, under its name. -/
def timeFirst : List Output :=
  [⟨.column 1, "at", .timestamp, true⟩, ⟨.column 0, "id", .int64, false⟩]

/-- A condition that always holds leaves no operator, and neither do columns in another order. -/
theorem reordered_bucket_is_hinted :
    Layer.AllUnrelated eventsByBucket [.filter (.literal (.boolean true)), .columns timeFirst] ∧
      ∃ grouped, overEvents.convert (.aggregate (Layer.stacked eventsByBucket
          [.filter (.literal (.boolean true)), .columns timeFirst]) [0] [] [.countRows "count"] none)
        = .ok grouped ∧
        ManifestHint.ofRoot? grouped.rel = some (.aggregate (.tumble 1 1 (.ofWidth 10))) := by
  have hlayers : Layer.AllUnrelated eventsByBucket
      [.filter (.literal (.boolean true)), .columns timeFirst] :=
    ⟨rfl, ⟨[1, 0], rfl, by decide⟩, trivial⟩
  obtain ⟨base, hbase, hkind, htime, hnow⟩ : ∃ base, overEvents.convert eventsByBucket = .ok base ∧
      base.kind = .stream ∧ base.time.isCandidate 1 = true ∧
      ∀ f, base.nowFilter = some f → f.timestamp = 1 :=
    ⟨_, rfl, rfl, rfl, fun f hf => by cases hf; rfl⟩
  obtain ⟨grouped, h⟩ : ∃ grouped, overEvents.convert (.aggregate (Layer.stacked eventsByBucket
      [.filter (.literal (.boolean true)), .columns timeFirst]) [0] [] [.countRows "count"] none)
        = .ok grouped := ⟨_, rfl⟩
  obtain ⟨below, source, hbelow, hsource, hhint, -⟩ := bucket_is_hinted hbase hkind rfl rfl htime
    hlayers List.mem_cons_self rfl h
  -- the time of an event is its second column
  obtain rfl : source = 1 := by
    cases hbelow
    cases hsource
    rfl
  refine ⟨hlayers, grouped, h, hhint ⟨⟨rfl, ?_, trivial⟩, hnow⟩⟩
  rintro fields hfields o ho i field hexpr hfield
  cases hfields
  rcases List.mem_cons.1 ho with rfl | ho
  · cases hexpr
    cases hfield
    rfl
  · cases List.mem_singleton.1 ho
    cases hexpr
    cases hfield
    rfl

/-- **A filter on another column** hides the bucket, and so does another name for it: the ends of
buckets are announced as instants. -/
theorem filtered_bucket_is_an_instant :
    let events : Layer := .filter (.binary .gt (.column 0) (.literal (.int 5)))
    let renamed : Layer := .columns
      [⟨.column 0, "id", .int64, false⟩, ⟨.column 1, "bucket", .timestamp, true⟩]
    let hint (layers : List Layer) : Planning (Option ManifestHint) := do
      let plan ← overEvents.convert (.aggregate (Layer.stacked eventsByBucket layers) [1] []
        [.countRows "count"] none)
      return ManifestHint.ofRoot? plan.rel
    Layer.AllUnrelated eventsByBucket [events] ∧ Layer.AllUnrelated eventsByBucket [renamed] ∧
      hint [] = .ok (some (.aggregate (.tumble 1 1 (.ofWidth 10)))) ∧
      hint [events] = .ok (some (.aggregate (.instant 1))) ∧
      hint [renamed] = .ok (some (.aggregate (.instant 1))) :=
  ⟨⟨rfl, trivial⟩, ⟨⟨[0, 1], rfl, by decide⟩, trivial⟩, rfl, rfl, rfl⟩

end Converter

end StreamPlan
