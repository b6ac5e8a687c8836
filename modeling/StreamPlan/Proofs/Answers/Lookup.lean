import StreamPlan.Proofs.Answers.Join
import StreamPlan.Proofs.Answers.Materialized
import StreamPlan.Proofs.Keys.Convert

/-!
# Joins by time as lookups

A join by time equates exactly the key of the table. If no two rows of the table
are equal on that key, every row of the stream meets one of them at most.

* `JoinInputs.TemporalSides.LooksUp`: what a row of the stream contributes to a join.
* `JoinInputs.evaluate_of_temporalPlan`: the rows of a join by time, if its inputs
  have rows.
* `Converter.temporal_join_looks_up`: **a join by time is a lookup**, as long as no float
  of the stream equals two keys that are not equal.
* `Converter.float_reading_meets_two_parts`: one float equals several integers.
-/

namespace StreamPlan

/-- A list without two items that are both kept keeps one item at most. -/
theorem length_filter_le_one {α : Type} {p : α → Bool} {xs : List α}
    (h : xs.Pairwise fun x y => ¬(p x = true ∧ p y = true)) : (xs.filter p).length ≤ 1 := by
  have hnone : (xs.filter p).Pairwise fun _ _ => False :=
    (h.filter p).imp_of_mem fun hx hy hxy =>
      hxy ⟨(List.mem_filter.1 hx).2, (List.mem_filter.1 hy).2⟩
  match hkept : xs.filter p, hnone with
  | [], _ => exact Nat.zero_le 1
  | [x], _ => exact Nat.le_refl 1
  | x :: y :: rest, hnone => exact ((List.pairwise_cons.1 hnone).1 y List.mem_cons_self).elim

/-- A loop that gives one result at most for each item. -/
theorem exists_results {α β : Type} {f : α → List β} {P : α → Option β → Prop} (xs : List α)
    (h : ∀ x ∈ xs, ∃ o, f x = o.toList ∧ P x o) :
    ∃ os, xs.flatMap f = os.filterMap id ∧ List.Forall₂ P xs os := by
  induction xs with
  | nil => exact ⟨[], rfl, .nil⟩
  | cons x xs ih =>
    obtain ⟨⟨o, ho, hp⟩, hrest⟩ := List.forall_mem_cons.1 h
    obtain ⟨os, hos, hps⟩ := ih hrest
    refine ⟨o :: os, ?_, .cons hp hps⟩
    rw [List.flatMap_cons, ho, hos]
    cases o <;> rfl

/-- The results that there are come from some of the items, in order. -/
theorem results_sublist {α β γ : Type} {P : α → Option β → Prop} {f : α → γ} {g : β → γ} {xs : List α}
    {os : List (Option β)} (h : List.Forall₂ P xs os) (hfg : ∀ x y, P x (some y) → g y = f x) :
    ((os.filterMap id).map g).Sublist (xs.map f) := by
  induction h with
  | nil => exact .slnil
  | @cons x o xs os hp _ ih =>
    cases o with
    | none => exact .cons _ ih
    | some y =>
      rw [List.map_cons, ← hfg x y hp]
      exact .cons_cons _ ih

/-- Where every item has a result, there are as many results. -/
theorem length_of_results {α β : Type} {P : α → Option β → Prop} {xs : List α} {os : List (Option β)}
    (h : List.Forall₂ P xs os) (hsome : ∀ x o, P x o → o.isSome = true) :
    (os.filterMap id).length = xs.length := by
  induction h with
  | nil => rfl
  | @cons x o xs os hp _ ih =>
    obtain ⟨y, rfl⟩ := Option.isSome_iff_exists.1 (hsome x o hp)
    exact congrArg Nat.succ ih

/-- The expression of a now-filter has its value beside other columns. -/
theorem NowFilter.evalExpr_append {now : Int} {filter : NowFilter} {row : Row} (rest : Row)
    (h : filter.timestamp < row.length) :
    evalExpr now (row ++ rest) filter.expr = evalExpr now row filter.expr := by
  rw [evalExpr_eq, evalExpr_eq, evalExpr, evalExpr, List.getElem?_append_left h,
    List.getElem?_eq_getElem h]

theorem NowFilter.evaluate_onto {fixture : Fixture} (filter : NowFilter) {rel : Rel} {rows : List Row}
    (h : evaluate fixture rel = .ok rows) :
    evaluate fixture (filter.onto rel) = filterRows fixture.now filter.expr rows := by
  rw [onto, evaluate, h]
  rfl

namespace JoinInputs

variable {c : Converter} {catalog : Catalog} {fixture : Fixture} {now : Int} {j : JoinInputs}
  {left right out : Plan} {kind : JoinKind} {condition : Expr} {sides : TemporalSides}
  {s t : Row} {ss ts : List Row}

namespace TemporalSides

/-- The table row has the key that the stream row looks for. -/
def Equates (sides : TemporalSides) (s t : Row) : Prop :=
  ∀ p ∈ sides.equalities, ∃ x y, s[p.1]? = some x ∧ t[p.2]? = some y ∧ x.compare? y = some .eq

/-- A stream row with visible values beside it, in the order of the query. -/
def beside (sides : TemporalSides) (s others : Row) : AnsweredRow :=
  let own := sides.stream.shown s
  ⟨if sides.swapped then others ++ own.visible else own.visible ++ others, own.key⟩

/-- What a stream row contributes to a join: the table row of its key beside it. If
there is none, it is left out, or kept beside nulls in a left join. -/
inductive LooksUp (sides : TemporalSides) (kind : JoinKind) (ts : List Row) (s : Row) :
    Option AnsweredRow → Prop where
  | found (t : Row) (mem : t ∈ ts) (equates : sides.Equates s t) :
      LooksUp sides kind ts s (some (sides.beside s (sides.table.shown t).visible))
  | missed (unmet : ∀ t ∈ ts, ¬sides.Equates s t) (drops : kind ≠ .left) :
      LooksUp sides kind ts s none
  | padded (unmet : ∀ t ∈ ts, ¬sides.Equates s t) (keeps : kind = .left) :
      LooksUp sides kind ts s (some (sides.beside s (padding sides.table.select.sources)))

theorem LooksUp.key {a : AnsweredRow} (h : sides.LooksUp kind ts s (some a)) :
    a.key = (sides.stream.shown s).key := by
  cases h <;> rfl

theorem LooksUp.isSome {o : Option AnsweredRow} (h : sides.LooksUp .left ts s o) :
    o.isSome = true := by
  cases h with
  | missed _ drops => exact absurd rfl drops
  | _ => rfl

/-- No float that the stream looks for equals two values of a key column which are not
equal. For other values that cannot be. -/
def TellsFloats (sides : TemporalSides) (ss ts : List Row) : Prop :=
  ∀ s ∈ ss, ∀ p ∈ sides.equalities, ∀ x, s[p.1]? = some (.float x) →
    ∀ t ∈ ts, ∀ t' ∈ ts, ∀ y y', t[p.2]? = some y → t'[p.2]? = some y' →
      (Value.float x).compare? y = some .eq → (Value.float x).compare? y' = some .eq →
        y.compare? y' = some .eq

/-- The floats of the stream are told apart if that holds of the values in the rows. -/
theorem TellsFloats.of_compared
    (h : ∀ s ∈ ss, ∀ p ∈ sides.equalities, ∀ t ∈ ts, ∀ t' ∈ ts,
      (s[p.1]?.bind fun x => t[p.2]?.bind x.compare?) = some .eq →
      (s[p.1]?.bind fun x => t'[p.2]?.bind x.compare?) = some .eq →
        (t[p.2]?.bind fun y => t'[p.2]?.bind y.compare?) = some .eq) : sides.TellsFloats ss ts := by
  intro s hs p hp x hx t ht t' ht' y y' hy hy' hxy hxy'
  have hall := h s hs p hp t ht t' ht'
  simp only [hx, hy, hy', Option.bind_some] at hall
  exact hall hxy hxy'

/-- Table rows with different keys are not both found. -/
theorem not_both_equate (hcovers : ∀ k ∈ sides.table.key.targets, ∃ p ∈ sides.equalities, p.2 = k)
    (hfloats : sides.TellsFloats ss ts) (hs : s ∈ ss) {t' : Row} (ht : t ∈ ts) (ht' : t' ∈ ts)
    (hdiffer : Row.DifferOn Value.Unequal sides.table.key.targets t t') :
    ¬(sides.Equates s t ∧ sides.Equates s t') := by
  rintro ⟨heq, heq'⟩
  obtain ⟨k, hk, hunequal⟩ := hdiffer
  obtain ⟨p, hp, rfl⟩ := hcovers k hk
  obtain ⟨x, y, hx, hy, hxy⟩ := heq p hp
  obtain ⟨x', y', hx', hy', hxy'⟩ := heq' p hp
  obtain rfl := Option.some.inj (hx.symm.trans hx')
  rw [hy, hy'] at hunequal
  refine hunequal ?_
  by_cases hfloat : ∃ a, x = .float a
  · obtain ⟨a, rfl⟩ := hfloat
    exact hfloats s hs p hp a hx t ht t' ht' y y' hy hy' hxy hxy'
  · exact Value.compare?_eq_of_both (fun a ha => hfloat ⟨a, ha⟩) hxy hxy'

/-- The condition of a join by time is true of rows with equal keys. -/
theorem trueOn_condition (hin : ∀ p ∈ sides.equalities, p.1 < s.length) :
    trueOn now (sides.condition s.length) (s ++ t) = true ↔ sides.Equates s t := by
  rw [condition, trueOn_all, List.forall_mem_map]
  exact forall₂_congr fun p hp => by rw [trueOn_equate, Row.equates_append (hin p hp)]

/-- The condition of a join by time has a value over the rows of its inputs: it compares
columns that they have. -/
theorem evalExpr_condition (hinside : ∀ p ∈ sides.equalities,
      p.1 < sides.stream.width ∧ p.2 < sides.table.width)
    (hs : s.length = sides.stream.width) (ht : t.length = sides.table.width) :
    ∃ v, evalExpr now (s ++ t) (sides.condition sides.stream.width) = .ok v := by
  refine evalExpr_all_of_ok (List.forall_mem_map.2 fun p hp => evalExpr_equate.2 ?_)
  obtain ⟨hp1, hp2⟩ := hinside p hp
  rw [List.length_append, hs, ht]
  omega

end TemporalSides

/-- A stream as it is joined has rows if its settled tree has, and its now-filter has a
value on each. -/
theorem evaluate_of_readyStream {stream ready : Plan} (h : readyStream stream = .ok ready)
    (hss : evaluate fixture stream.settledRel = .ok ss) :
    ∃ below, evaluate fixture ready.rel = .ok below ∧
      ∀ f, ready.nowFilter = some f → ∀ row ∈ below, ∃ v, evalExpr fixture.now row f.expr = .ok v := by
  rcases readyStream_eq_ok h with ⟨hempty, rfl⟩ | hsettle
  · rw [Plan.settledRel_eq_filteredRel hempty, Plan.filteredRel] at hss
    cases hf : ready.nowFilter with
    | none =>
      rw [hf] at hss
      refine ⟨ss, hss, fun f hnone => ?_⟩
      cases hnone
    | some filter =>
      rw [hf] at hss
      simp only [NowFilter.onto] at hss
      rw [evaluate] at hss
      obtain ⟨below, hbelow, hss⟩ := bind_eq_ok.1 hss
      refine ⟨below, hbelow, fun f hsome => ?_⟩
      obtain rfl := Option.some.inj hsome
      exact (filterRows_eq_ok.1 hss).1
  · refine ⟨ss, by rw [Plan.rel_of_withoutPending hsettle, hss], fun f hf => ?_⟩
    rw [(Plan.withoutPending_settled hsettle).2.1] at hf
    cases hf

/-- A now-filter on the left rows of a join has a value on the joined rows. -/
theorem evalExpr_of_joinedWith {now : Int} {filter : NowFilter} {width : Nat} {below : List Row}
    (hin : ∀ s ∈ below, filter.timestamp < s.length)
    (h : ∀ s ∈ below, ∃ v, evalExpr now s filter.expr = .ok v) :
    ∀ row ∈ below.flatMap (joinedWith now kind condition width ts),
      ∃ v, evalExpr now row filter.expr = .ok v := by
  intro row hrow
  obtain ⟨s, hs, hrow⟩ := List.mem_flatMap.1 hrow
  obtain ⟨rest, rfl⟩ := front_of_joinedWith hrow
  rw [NowFilter.evalExpr_append rest (hin s hs)]
  exact h s hs

/-- **The rows of a join by time.** It has rows if its inputs have, and every stream row
is joined with the table rows of its key. -/
theorem evaluate_of_temporalPlan (hof : sides.Of j) (hj : of left right kind condition = .ok j)
    (hsl : left.Sound) (hsr : right.Sound) (hrl : left.Regular catalog fixture)
    (hrr : right.Regular catalog fixture) (h : j.temporalPlan sides = .ok out)
    (hss : evaluate fixture sides.stream.settledRel = .ok ss)
    (hts : evaluate fixture sides.table.settledRel = .ok ts) :
    evaluate fixture out.settledRel = .ok (ss.flatMap (joinedWith fixture.now j.plannedKind
      (sides.condition sides.stream.width) sides.table.width ts)) := by
  have hinside := hof.inside hj hsl hsr
  obtain ⟨hjl, hjr, -⟩ := of_eq_ok hj
  have hsound : sides.stream.Sound := (hof.both (hjl ▸ hsl) (hjr ▸ hsr)).1
  obtain ⟨hregular, htable⟩ : sides.stream.Regular catalog fixture ∧
      sides.table.Regular catalog fixture := hof.both (hjl ▸ hrl) (hjr ▸ hrr)
  obtain ⟨ready, settled, hint, hready, hsettled, -, -, hrel, hnow, htop, -⟩ := temporalPlan_eq_ok h
  have hreadySettled := readyStream_settled hready
  have hwidth : ready.width = sides.stream.width := hreadySettled.width
  rw [hwidth] at hrel
  suffices hrows : ∃ above, evaluate fixture out.settledRel = .ok above by
    obtain ⟨above, habove⟩ := hrows
    rw [habove, (rows_of_stream_join j.keepsRight_plannedKind hsound hregular hready hsettled hrel
      hnow htop hss hts habove).2]
  obtain ⟨below, hbelow, hfilter⟩ := evaluate_of_readyStream hready hss
  have hlength : ∀ s ∈ below, s.length = sides.stream.width := fun s hs =>
    ((hregular.ready hready).shaped below hbelow s hs).trans hwidth
  have hlengthT : ∀ t ∈ ts, t.length = sides.table.width := (htable.hasRows hts).shaped
  have hjoin : evaluate fixture out.rel = .ok (below.flatMap (joinedWith fixture.now j.plannedKind
      (sides.condition sides.stream.width) settled.rel.width ts)) := by
    rw [hrel, evaluate, hbelow, Plan.rel_of_withoutPending hsettled, hts]
    exact (joinRows_eq_ok j.keepsRight_plannedKind).2 ⟨fun s hs t ht =>
      TemporalSides.evalExpr_condition hinside (hlength s hs) (hlengthT t ht), rfl⟩
  rw [Plan.settledRel_eq_filteredRel (by rw [htop]; rfl), Plan.filteredRel, hnow]
  cases hf : ready.nowFilter with
  | none => exact ⟨_, hjoin⟩
  | some filter =>
    -- the now-filter looks at the stream only
    have hready' := hreadySettled.sound hsound
    have htime : filter.timestamp < sides.stream.width :=
      hwidth ▸ hready'.time _ (hready'.nowFilter filter hf)
    refine ⟨_, (filter.evaluate_onto hjoin).trans (filterRows_eq_ok.2 ⟨?_, rfl⟩)⟩
    exact evalExpr_of_joinedWith (fun s hs => hlength s hs ▸ htime) (hfilter filter hf)

/-- What a join by time shows of a stream row with others behind it. -/
theorem shown_of_temporalPlan (hs : sides.stream.Sound) (h : j.temporalPlan sides = .ok out)
    (hlength : s.length = sides.stream.width) (rest : Row) :
    out.shown (s ++ rest) = sides.beside s (rest.pick sides.table.select.targets) := by
  obtain ⟨ready, settled, hint, hready, hsettled, -, hselect, -, -, -, -, hkey⟩ := temporalPlan_eq_ok h
  have hset := readyStream_settled hready
  have hvisible := temporalSelect_eq_ok hselect hset (Plan.withoutPending_settled hsettled).1
  have hkeys : (s ++ rest).pick sides.stream.key.targets = s.pick sides.stream.key.targets :=
    Row.pick_left rest fun c hc => hlength ▸ hs.key_lt c hc
  have hfront : (s ++ rest).pick sides.stream.select.targets = s.pick sides.stream.select.targets :=
    Row.pick_left rest fun c hc => hlength ▸ hs.select_lt c hc
  have hback : (s ++ rest).pick (sides.table.select.targets.map (sides.stream.width + ·))
      = rest.pick sides.table.select.targets := hlength ▸ Row.pick_right s rest _
  have happend : ∀ front back, (s ++ rest).pick (front ++ back)
      = (s ++ rest).pick front ++ (s ++ rest).pick back := fun _ _ => List.map_append
  rw [Plan.shown, TemporalSides.beside, hkey, hset.key, hkeys, hvisible]
  cases sides.swapped with
  | false =>
    rw [if_neg Bool.false_ne_true, happend, hfront, hback]
    rfl
  | true =>
    rw [if_pos rfl, happend, hfront, hback]
    rfl

/-- **What a stream row contributes**, if no two rows of the table have its key. -/
theorem looksUp_of_joinedWith (now : Int) (hs : sides.stream.Sound) (h : j.temporalPlan sides = .ok out)
    (hinside : ∀ p ∈ sides.equalities, p.1 < sides.stream.width)
    (hlength : s.length = sides.stream.width)
    (honce : ts.Pairwise fun t t' => ¬(sides.Equates s t ∧ sides.Equates s t')) :
    ∃ o, (joinedWith now j.plannedKind (sides.condition sides.stream.width) sides.table.width ts
        s).map out.shown = o.toList ∧ sides.LooksUp j.kind ts s o := by
  have htrue : ∀ t, trueOn now (sides.condition sides.stream.width) (s ++ t) = true ↔
      sides.Equates s t := fun t => by
    rw [← hlength]
    exact TemporalSides.trueOn_condition fun p hp => hlength ▸ hinside p hp
  -- two matching rows of the table would share their key
  have hone := length_filter_le_one (p := fun t =>
    trueOn now (sides.condition sides.stream.width) (s ++ t)) (honce.imp fun hnot hboth =>
      hnot ⟨(htrue _).1 hboth.1, (htrue _).1 hboth.2⟩)
  have hshown := shown_of_temporalPlan hs h hlength
  rw [joinedWith]
  cases hfound : ts.filter fun t => trueOn now (sides.condition sides.stream.width) (s ++ t) with
  | nil =>
    have hunmet : ∀ t ∈ ts, ¬sides.Equates s t := fun t ht he =>
      List.filter_eq_nil_iff.1 hfound t ht ((htrue t).2 he)
    by_cases hkind : j.kind = .left
    · refine ⟨_, ?_, .padded hunmet hkind⟩
      have hpadded := hshown (padding sides.table.width)
      rw [Row.pick_padding] at hpadded
      rw [plannedKind, if_pos hkind]
      exact congrArg (fun a => [a]) hpadded
    · refine ⟨none, ?_, .missed hunmet hkind⟩
      rw [plannedKind, if_neg hkind]
      rfl
  | cons t others =>
    rw [hfound] at hone
    obtain rfl : others = [] := List.eq_nil_of_length_eq_zero (Nat.le_zero.1 (Nat.le_of_succ_le_succ hone))
    have hmem := List.mem_filter.1 (hfound ▸ List.mem_cons_self : t ∈ ts.filter _)
    refine ⟨_, ?_, .found t hmem.1 ((htrue t).1 hmem.2)⟩
    rw [Plan.visible_shown, ← hshown]
    rfl

end JoinInputs

namespace Converter

variable {c : Converter} {fixture : Fixture} {q p : Rel} {left right out final : Plan}
  {kind : JoinKind} {condition : Expr} {hint : Option JoinHint} {j : JoinInputs}
  {sides : JoinInputs.TemporalSides} {manifest : Manifest} {ss ts : List Row}

/-- The answer of a join by time is what the rows of the stream contribute, one row
each at most, in order. -/
def IsLookup (sides : JoinInputs.TemporalSides) (kind : JoinKind) (ss ts : List Row)
    (answer : List AnsweredRow) : Prop :=
  ∃ found, answer = found.filterMap id ∧ List.Forall₂ (sides.LooksUp kind ts) ss found

theorem IsLookup.length_le {answer : List AnsweredRow} (h : IsLookup sides kind ss ts answer) :
    answer.length ≤ ss.length := by
  obtain ⟨found, rfl, hlooks⟩ := h
  exact hlooks.length_eq ▸ List.length_filterMap_le id found

/-- **A join by time is a lookup.** Let the rows of the table be unequal on its key, and
let no float of the stream equal two keys that are not equal. Then the join has an
answer if its inputs have, to which every row of the stream contributes a row at
most, and just one in a left join. What tells the stream's rows apart by their
keys tells the rows of the answer apart. -/
theorem temporal_join_looks_up (hb : c.catalog.Built) (hf : fixture.Fits c.catalog)
    (hleft : c.convert q = .ok left) (hright : c.convert p = .ok right)
    (hj : JoinInputs.of left right kind condition = .ok j) (hrule : j.rule c = .temporal)
    (hshape : j.temporalShape = .ok sides)
    (hout : c.convert (.join q p kind condition hint) = .ok out)
    (hfinal : out.materialize = .ok (final, manifest))
    (hss : evaluate fixture sides.stream.settledRel = .ok ss)
    (hts : evaluate fixture sides.table.settledRel = .ok ts)
    (hkeys : ts.Pairwise (Row.DifferOn Value.Unequal sides.table.key.targets))
    (hfloats : sides.TellsFloats ss ts) :
    ∃ answer, final.answer fixture = .ok answer ∧ IsLookup sides kind ss ts answer ∧
      (kind = .left → answer.length = ss.length) ∧
      ∀ R : Row → Row → Prop, (ss.map fun s => (sides.stream.shown s).key).Pairwise R →
        (answer.map AnsweredRow.key).Pairwise R := by
  obtain ⟨hsl, hrl⟩ := regular_of_convert hb.linked hf hleft
  obtain ⟨hsr, hrr⟩ := regular_of_convert hb.linked hf hright
  obtain ⟨hso, hro⟩ := regular_of_convert hb.linked hf hout
  -- the plan of the join
  rw [convert, hleft, hright] at hout
  obtain ⟨_, -, hout⟩ := bind_eq_ok.1 hout
  rw [ok_bind, ok_bind, hj, ok_bind] at hout
  obtain ⟨joined, hjoined, hfinish⟩ := bind_eq_ok.1 hout
  obtain ⟨hsettled, hshown⟩ := finish_answers hfinish
  have hplanned := joined_by_rule hjoined
  rw [hrule] at hplanned
  obtain ⟨sides', hshape', hplan⟩ := JoinInputs.temporalJoin?_eq_ok hplanned
  obtain rfl := Except.ok.inj (hshape'.symm.trans hshape)
  obtain ⟨hof, hproblem⟩ := JoinInputs.temporalShape_eq_ok hshape
  have hcovers := JoinInputs.equated_of_temporalShape hproblem
  have hinside := hof.inside hj hsl hsr
  have hrows := JoinInputs.evaluate_of_temporalPlan hof hj hsl hsr hrl hrr hplan hss hts
  obtain ⟨rfl, rfl, rfl, -⟩ := JoinInputs.of_eq_ok hj
  have hstream : sides'.stream.Sound := (hof.both hsl hsr).1
  have hregular : sides'.stream.Regular c.catalog fixture := (hof.both hrl hrr).1
  -- what each row of the stream contributes
  obtain ⟨found, hfound, hlooks⟩ := exists_results ss fun s hs =>
    JoinInputs.looksUp_of_joinedWith fixture.now hstream hplan (fun p hp => (hinside p hp).1)
      ((hregular.hasRows hss).shaped s hs) (hkeys.imp_of_mem fun ht ht' hdiffer =>
        JoinInputs.TemporalSides.not_both_equate hcovers hfloats hs ht ht' hdiffer)
  refine ⟨found.filterMap id, ?_, ⟨found, rfl, hlooks⟩, fun hkind => ?_, fun R hR => ?_⟩
  · rw [Plan.answer_of_settled hso hro.shaped (Plan.materialize_eq_ok.1 hfinal).1
      (hsettled ▸ hrows), hshown, List.map_flatMap, hfound]
  · rw [hkind] at hlooks
    exact length_of_results hlooks fun _ _ h => h.isSome
  · exact hR.sublist (results_sublist hlooks fun _ _ h => h.key)

/-- Two readings, of which one is of a known part. -/
def fewParts : Fixture where
  tables := [(.base 0, [[.int 1, .timestamp 5, .float 2], [.int 2, .timestamp 6, .float 7]]),
    (.base 1, [[.int 1, .timestamp 1], [.int 2, .timestamp 2]])]
  now := 0

theorem fewParts_fits : fewParts.Fits overReadings.catalog := by
  refine ⟨fun id table rows ht hrows row hrow => ?_, fun id view rows _ hrows => nomatch hrows⟩
  match id with
  | 0 | 1 =>
    cases ht
    cases hrows
    simp only [List.mem_cons, List.not_mem_nil, or_false] at hrow
    rcases hrow with rfl | rfl
    all_goals
      refine ⟨Row.fits_of_flat rfl (by decide), fun i hi => ?_⟩
      obtain rfl := List.mem_singleton.1 hi
      exact ⟨_, rfl, .inr ⟨_, rfl⟩⟩
  | _ + 2 => cases ht

/-- Each reading with the version of its part, if there is one. -/
def readingsWithParts : Rel :=
  .join (.scan (.base 0) "readings" readingsTable.fields) (.scan (.base 1) "parts" partsTable.fields)
    .left (.equate 2 3) none

/-- A reading is joined with its part, and kept without it. -/
theorem readings_look_parts_up :
    ∃ left right j sides out final manifest ss ts,
      overReadings.convert (.scan (.base 0) "readings" readingsTable.fields) = .ok left ∧
      overReadings.convert (.scan (.base 1) "parts" partsTable.fields) = .ok right ∧
      JoinInputs.of left right .left (.equate 2 3) = .ok j ∧ j.rule overReadings = .temporal ∧
      j.temporalShape = .ok sides ∧ overReadings.convert readingsWithParts = .ok out ∧
      out.materialize = .ok (final, manifest) ∧
      evaluate fewParts sides.stream.settledRel = .ok ss ∧
      evaluate fewParts sides.table.settledRel = .ok ts ∧
      ∃ answer, final.answer fewParts = .ok answer ∧ IsLookup sides .left ss ts answer ∧
        answer.length = ss.length := by
  obtain ⟨left, right, j, sides, out, final, manifest, ss, ts, hleft, hright, hj, hrule, hshape, hout,
      hfinal, hss, hts, hkeys, hfloats⟩ : ∃ left right j sides out final manifest ss ts,
      overReadings.convert (.scan (.base 0) "readings" readingsTable.fields) = .ok left ∧
      overReadings.convert (.scan (.base 1) "parts" partsTable.fields) = .ok right ∧
      JoinInputs.of left right .left (.equate 2 3) = .ok j ∧ j.rule overReadings = .temporal ∧
      j.temporalShape = .ok sides ∧ overReadings.convert readingsWithParts = .ok out ∧
      out.materialize = .ok (final, manifest) ∧
      evaluate fewParts sides.stream.settledRel = .ok ss ∧
      evaluate fewParts sides.table.settledRel = .ok ts ∧
      ts.Pairwise (Row.DifferOn Value.Unequal sides.table.key.targets) ∧ sides.TellsFloats ss ts :=
    ⟨_, _, _, _, _, _, _, _, _, rfl, rfl, rfl, rfl, rfl, rfl, rfl, rfl, rfl, by decide,
      .of_compared (by decide)⟩
  obtain ⟨answer, hanswer, hlookup, hlength, -⟩ := temporal_join_looks_up overReadings_built
    fewParts_fits hleft hright hj hrule hshape hout hfinal hss hts hkeys hfloats
  exact ⟨left, right, j, sides, out, final, manifest, ss, ts, hleft, hright, hj, hrule, hshape, hout,
    hfinal, hss, hts, answer, hanswer, hlookup, hlength rfl⟩

/-- **A float equals several integers.** A part is given as a float that equals the
numbers of two parts, which are not equal to each other. Each of two readings of it is
joined with both, and so the readings are not told apart by their key in the result. -/
theorem float_reading_meets_two_parts :
    overReadings.catalog.Built ∧ largeParts.Fits overReadings.catalog ∧
      ∃ left right j sides out final manifest ss ts answer,
        overReadings.convert (.scan (.base 0) "readings" readingsTable.fields) = .ok left ∧
        overReadings.convert (.scan (.base 1) "parts" partsTable.fields) = .ok right ∧
        JoinInputs.of left right .auto (.equate 2 3) = .ok j ∧ j.rule overReadings = .temporal ∧
        j.temporalShape = .ok sides ∧ overReadings.convert partsOfReadings = .ok out ∧
        out.materialize = .ok (final, manifest) ∧
        evaluate largeParts sides.stream.settledRel = .ok ss ∧
        evaluate largeParts sides.table.settledRel = .ok ts ∧
        ts.Pairwise (Row.DifferOn Value.Unequal sides.table.key.targets) ∧
        (∀ t ∈ ts, ∀ v ∈ t, v.isNull = false) ∧
        ss.Pairwise (Row.DifferOn Value.Unequal sides.stream.key.targets) ∧
        final.answer largeParts = .ok answer ∧ ¬IsLookup sides .auto ss ts answer ∧
        ¬(answer.map AnsweredRow.key).Pairwise (· ≠ ·) := by
  refine ⟨overReadings_built, largeParts_fits, _, _, _, _, _, _, _, _, _, _, rfl, rfl, rfl, rfl, rfl,
    rfl, rfl, rfl, rfl, by decide, by decide, by decide, rfl, fun hlookup => ?_, fun hkeys => ?_⟩
  · -- two readings, four rows
    exact absurd hlookup.length_le (by decide)
  · exact (List.pairwise_cons.1 hkeys).1 _ List.mem_cons_self rfl

end Converter

end StreamPlan
