import StreamPlan.Proofs.Answers.Join
import StreamPlan.Proofs.Entities.Paired

/-!
# Pairs that a join keeps

A condition without a comparison of times keeps every pair of rows that it is true of,
whatever their times are, with two exceptions that are part of the design: events that
are correlated by the root key are joined at equal times, and an entity that is joined
with itself is told apart by its keys.

* `Plan.eventTime`: the event time of a row.
* `Converter.Yields`: the plan of a query and the rows that its answer shows.
* `JoinInputs.ShowsPair`: a row of a planned join shows what a pair of input rows does.
  There is one lemma for each way to plan a join.
* `Converter.join_keeps_pairs`: **every pair that the condition is true of** is in the
  answer of the join.
* `Converter.pairs_of_equal_keys_are_lost`: what happens in the two exceptions.
-/

namespace StreamPlan

/-- The event time of a row: the time in the best timestamp of its plan. -/
def Plan.eventTime (plan : Plan) (row : Row) : Option Int := plan.time.bestColumn?.bind row.timeAt

namespace JoinInputs

variable {c : Converter} {fixture : Fixture} {now : Int} {j : JoinInputs} {left right out : Plan}
  {kind : JoinKind} {condition rebuilt : Expr} {l r row other : Row} {ls rs above : List Row}

/-- A row of a planned join shows what a pair of input rows does. -/
def ShowsPair (j : JoinInputs) (out : Plan) (above : List Row) (l r : Row) : Prop :=
  ∃ row ∈ above, (out.shown row).visible = (j.left.shown l).visible ++ (j.right.shown r).visible

/-- What takes the place of a condition that is true is true. -/
theorem trueOn_of_replaces (h : Replaces now condition row rebuilt other)
    (htrue : trueOn now condition row = true) : trueOn now rebuilt other = true := by
  rcases h with he | ⟨-, hsame⟩
  · obtain ⟨v, hv, -⟩ := trueOn_iff.1 htrue
    exact absurd he (not_overflows hv)
  · rw [← hsame, htrue]

section Loops

variable (hl : l ∈ ls) (hr : r ∈ rs) (htrue : trueOn now j.condition (l ++ r) = true)
include hl hr htrue

theorem PairsInOrder.showsPair (h : PairsInOrder now j out ls rs above) (hs : j.left.Sound)
    (hwidth : l.length = j.left.width) : j.ShowsPair out above l r := by
  obtain ⟨rebuilt, hreplaces, rfl⟩ := h.rows
  refine ⟨l ++ r, List.mem_flatMap.2
    ⟨l, hl, mem_joinedWith hr (trueOn_of_replaces (hreplaces l hl r hr) htrue)⟩, ?_⟩
  rw [Plan.visible_shown, h.select, pick_in_order hs hwidth]
  rfl

theorem PairsSwapped.showsPair (h : PairsSwapped now j out ls rs above) (hs : j.right.Sound)
    (hwidth : r.length = j.right.width) : j.ShowsPair out above l r := by
  obtain ⟨rebuilt, hreplaces, rfl⟩ := h.rows
  refine ⟨r ++ l, List.mem_flatMap.2
    ⟨r, hr, mem_joinedWith hl (trueOn_of_replaces (hreplaces l hl r hr) htrue)⟩, ?_⟩
  rw [Plan.visible_shown, h.select, pick_swapped hs hwidth]

end Loops

/-- **Events of one root entity** are joined at equal times. -/
theorem rootPlan_showsPair (hj : of left right kind condition = .ok j) (hs : left.Sound)
    (hls : left.HasRows fixture ls) (hrs : right.HasRows fixture rs)
    (huntimed : j.parts.timeBounds = []) (h : j.intervalJoin? = .ok (some out))
    (habove : evaluate fixture out.settledRel = .ok above) (hl : l ∈ ls) (hr : r ∈ rs) {t : Int}
    (htl : left.eventTime l = some t) (htr : right.eventTime r = some t)
    (htrue : trueOn fixture.now j.condition (l ++ r) = true) : j.ShowsPair out above l r := by
  obtain ⟨rfl, rfl, -, -, hparts⟩ := of_eq_ok hj
  obtain ⟨window, hwindow, h⟩ := intervalJoin?_eq_ok h
  obtain ⟨lt, rt, hlt, hrt, hbounds⟩ := bounds_of_rootWindow huntimed hwindow
  obtain ⟨_, _, _, hleft, hright, -, hselect, hrel, hnow, htop, -⟩ := intervalPlan_eq_ok h
  obtain ⟨-, rfl⟩ := rows_of_settled_join hls hrs hleft hright hrel hnow htop habove
  have hwidth := hls.shaped l hl
  -- the bound says that the event times are equal
  rw [Plan.eventTime, hlt, Option.bind_some, Row.timeAt_eq_some] at htl
  rw [Plan.eventTime, hrt, Option.bind_some, Row.timeAt_eq_some] at htr
  have hequal : trueOn fixture.now (.equate (rt + j.left.width) lt) (l ++ r) = true := by
    rw [trueOn_equate, Row.equates, ← hwidth, List.getElem?_append_right (Nat.le_add_left _ _),
      Nat.add_sub_cancel, htr, Catalog.getElem?_append_some htl]
    simp [Value.compare?, Value.asInt?]
  have hjoined : trueOn fixture.now (window.condition j) (l ++ r) = true := by
    rw [window.trueOn_condition, hbounds, List.forall_mem_singleton]
    exact ⟨JoinCondition.untimed_of_trueOn hparts htrue, hequal⟩
  refine ⟨l ++ r, List.mem_flatMap.2 ⟨l, hl, mem_joinedWith hr hjoined⟩, ?_⟩
  rw [Plan.visible_shown, select_of_settled hleft hright hselect, pick_in_order hs hwidth]
  rfl

/-- **An entity joined with itself** keeps the pairs whose keys are equal. -/
theorem selfJoin_showsPair (hc : c.catalog.Linked) (hf : fixture.Conforms c.catalog)
    (hl : Converter.Traced (Drawn c.catalog) left) (hr : Converter.Traced (Drawn c.catalog) right)
    (hs : left.Sound) (hls : left.HasRows fixture ls) (hrs : right.HasRows fixture rs)
    (hj : of left right kind condition = .ok j) (h : j.selfJoin? c = .ok (some out))
    (hk : ∀ l, left.lineage = some l → fixture.Distinguishes c.catalog l)
    (habove : evaluate fixture out.settledRel = .ok above) (hx : l ∈ ls) (hy : r ∈ rs)
    (htrue : trueOn fixture.now j.condition (l ++ r) = true) : j.ShowsPair out above l r := by
  have hlrows := hls.evaluates
  have hrrows := hrs.evaluates
  have hwidth := hls.shaped l hx
  obtain ⟨rfl, rfl, -⟩ := of_eq_ok hj
  -- nothing is pending on either side, nor on the plan that takes their place
  obtain ⟨_, _, _, -, -, hmay, -, hplan⟩ := selfJoin?_eq_ok h
  obtain ⟨⟨hnowL, htopL⟩, ⟨hnowR, htopR⟩, -⟩ := settled_of_mayMerge hmay
  obtain ⟨_, _, _, _, -, -, -, -, -, hout⟩ := mergedPlan_eq_ok hplan
  rw [Plan.settledRel_eq_rel hnowL htopL] at hlrows
  rw [Plan.settledRel_eq_rel hnowR htopR] at hrrows
  rw [Plan.settledRel_eq_rel (by rw [hout]; exact hnowL) (by rw [hout]; exact htopL)] at habove
  obtain ⟨row, hrow, hpick⟩ :=
    row_of_selfJoin hc hf hl hr hs hj h hk hlrows hrrows habove hx hy htrue
  refine ⟨row, hrow, ?_⟩
  rw [Plan.visible_shown, hpick, pick_in_order hs hwidth]
  rfl

end JoinInputs

namespace Converter

variable {c : Converter} {fixture : Fixture} {q p : Rel} {left right : Plan} {kind : JoinKind}
  {condition : Expr} {hint : Option JoinHint} {j : JoinInputs} {l r : Row} {ls rs : List Row}
  {answer joined : List AnsweredRow}

/-- The plan of a query, and the rows of its tree that the answer shows. -/
structure Yields (c : Converter) (fixture : Fixture) (q : Rel) (plan : Plan) (rows : List Row) :
    Prop where
  converts : c.convert q = .ok plan
  evaluates : evaluate fixture plan.settledRel = .ok rows
  answer : c.Answers fixture q (rows.map plan.shown)

/-- **A join whose condition compares no times** keeps every pair of rows that the
condition is true of, whatever their event times are, unless it correlates events of one
root entity, which it joins at equal times. Where it takes an entity joined with itself for
one row of the entity, keys must tell rows apart. -/
theorem join_keeps_pairs (hb : c.catalog.Built) (hf : fixture.Fits c.catalog)
    (hleft : c.Yields fixture q left ls) (hright : c.Yields fixture p right rs)
    (hj : JoinInputs.of left right kind condition = .ok j) (huntimed : j.parts.timeBounds = [])
    (hkeys : j.rule c = .entity → ∀ l, left.lineage = some l → fixture.Distinguishes c.catalog l)
    (hjoined : c.Answers fixture (.join q p kind condition hint) joined) (hl : l ∈ ls) (hr : r ∈ rs)
    (htimes : j.rule c = .interval → ∃ t, left.eventTime l = some t ∧ right.eventTime r = some t)
    (htrue : trueOn fixture.now condition ((left.shown l).visible ++ (right.shown r).visible)
      = true) :
    (left.shown l).visible ++ (right.shown r).visible ∈ joined.map AnsweredRow.visible := by
  obtain ⟨final, above, hfinal, habove, rfl⟩ := answer_settled hjoined
  rw [convert, hleft.converts, hright.converts] at hfinal
  obtain ⟨_, -, hfinal⟩ := bind_eq_ok.1 hfinal
  rw [ok_bind, ok_bind, hj, ok_bind] at hfinal
  obtain ⟨out, hout, hfinal⟩ := bind_eq_ok.1 hfinal
  obtain ⟨hsettled, hshown⟩ := finish_answers hfinal
  rw [hsettled] at habove
  have hc := hb.linked
  obtain ⟨hsl, hrl⟩ := regular_of_convert hc hf hleft.converts
  obtain ⟨hsr, hrr⟩ := regular_of_convert hc hf hright.converts
  have hls := hrl.hasRows hleft.evaluates
  have hrs := hrr.hasRows hright.evaluates
  have hlwidth := hls.shaped l hl
  have hrwidth := hrs.shaped r hr
  obtain ⟨hjl, hjr, -, hmoved, -⟩ := JoinInputs.of_eq_ok hj
  rw [← trueOn_remap (JoinInputs.sees_of_pair hsl hsr hlwidth hrwidth) hmoved] at htrue
  -- by the rule that the plan of the join comes from
  have hpair : j.ShowsPair out above l r := by
    have hplanned := joined_by_rule hout
    cases hrule : j.rule c with
    | entity =>
      rw [hrule] at hplanned
      have hdrawn := (traces_drawn hc).keeps
      exact JoinInputs.selfJoin_showsPair hc hf.conforms (hdrawn.convert hleft.converts).2
        (hdrawn.convert hright.converts).2 hsl hls hrs hj hplanned (hkeys hrule) habove hl hr htrue
    | temporal =>
      rw [hrule] at hplanned
      rcases JoinInputs.temporalPlan_pairs hj hsl hsr hrl hrr hls hrs hplanned habove with h | h
      · exact h.showsPair hl hr htrue (hjl ▸ hsl) (hjl ▸ hlwidth)
      · exact h.showsPair hl hr htrue (hjr ▸ hsr) (hjr ▸ hrwidth)
    | interval =>
      rw [hrule] at hplanned
      obtain ⟨t, htl, htr⟩ := htimes hrule
      exact JoinInputs.rootPlan_showsPair hj hsl hls hrs huntimed hplanned habove hl hr htl htr
        htrue
    | current =>
      rw [hrule] at hplanned
      have h := JoinInputs.statePlan_pairs (hjl ▸ hls) (hjr ▸ hrs) hplanned habove
      exact h.showsPair hl hr htrue (hjl ▸ hsl) (hjl ▸ hlwidth)
  obtain ⟨row, hrow, hvisible⟩ := hpair
  rw [hjl, hjr] at hvisible
  rw [hshown, List.map_map, ← hvisible]
  exact List.mem_map_of_mem hrow

/-- Events and clicks, two tables of timed events with nothing pulled up. -/
def overClicks : Converter where
  catalog :=
    let events := { eventsTable with pending := .none }
    ⟨[events, { events with name := "clicks" }],
      [⟨"events", .root 0, events.fields, 1, [0, 1], 0, events.fields⟩,
        ⟨"clicks", .root 1, events.fields, 1, [0, 1], 0, events.fields⟩],
      [("clicks", .view 1), ("clicks", .base 1), ("events", .view 0), ("events", .base 0)]⟩
  pipeline := .streamAndDatabase
  stage := .stream "stream"
  settings := .default

theorem overClicks_built : overClicks.catalog.Built :=
  @Catalog.Built.table _ _ { eventsTable with pending := .none, name := "clicks" } "clicks" 1
    (overPlainEvents_built (.stream "stream")) (EventTime.coherent_single 1 .source) rfl

/-- Events and clicks by number and time. -/
def clicksAt (events clicks : List (Int × Int)) : Fixture where
  tables := [(.base 0, events.map fun event => [.int event.1, .timestamp event.2]),
    (.base 1, clicks.map fun click => [.int click.1, .timestamp click.2])]
  now := 1000

theorem clicksAt_fits (events clicks : List (Int × Int)) :
    (clicksAt events clicks).Fits overClicks.catalog := by
  refine ⟨fun id table rows ht hrows => ?_, fun id view rows _ hrows => nomatch hrows⟩
  match id with
  | 0 =>
    cases ht
    exact (eventsAt_fits events).base 0 eventsTable rows rfl hrows
  | 1 =>
    cases ht
    exact (eventsAt_fits clicks).base 0 eventsTable rows rfl hrows
  | _ + 2 => cases ht

/-- The clicks. -/
def scannedClicks : Rel := .scan (.base 1) "clicks" eventsTable.fields

/-- The events with the clicks of their number. -/
def eventsWithClicks : Rel := .join scannedEvents scannedClicks .inner (.equate 0 2) none

/-- A click at the time of an event of its number is joined with it. A line of an order is
joined with a note of the order. -/
theorem click_is_joined :
    let clicks := clicksAt [(1, 990), (2, 950)] [(1, 990), (2, 800)]
    let click : Row := [.int 1, .timestamp 990]
    let orders := ordersOf [(1, [1, 2], [5])]
    (∃ joined, overClicks.Answers clicks eventsWithClicks joined ∧
      click ++ click ∈ joined.map AnsweredRow.visible) ∧
    ∃ joined, overOrders.Answers orders linesWithNotes joined ∧
      [.int 1, .int 2] ++ [.int 1, .int 5] ∈ joined.map AnsweredRow.visible := by
  intro clicks click orders
  constructor
  · obtain ⟨left, right, ls, rs, j, joined, hleft, hright, hj, huntimed, hrule, hjoined, hl, hr,
        htl, htr, hpair⟩ : ∃ left right ls rs j joined,
          overClicks.Yields clicks scannedEvents left ls ∧
          overClicks.Yields clicks scannedClicks right rs ∧
          JoinInputs.of left right .inner (.equate 0 2) = .ok j ∧ j.parts.timeBounds = [] ∧
          j.rule overClicks = .interval ∧ overClicks.Answers clicks eventsWithClicks joined ∧
          click ∈ ls ∧ click ∈ rs ∧ left.eventTime click = some 990 ∧
          right.eventTime click = some 990 ∧
          (left.shown click).visible ++ (right.shown click).visible = click ++ click :=
      ⟨_, _, _, _, _, _, ⟨rfl, rfl, _, _, _, rfl, rfl, rfl⟩, ⟨rfl, rfl, _, _, _, rfl, rfl, rfl⟩,
        rfl, rfl, rfl, ⟨_, _, _, rfl, rfl, rfl⟩, .head _, .head _, rfl, rfl, rfl⟩
    have hkept := join_keeps_pairs overClicks_built (clicksAt_fits _ _) hleft hright hj huntimed
      (by rw [hrule]; nofun) hjoined hl hr (fun _ => ⟨990, htl, htr⟩) (by rw [hpair]; rfl)
    exact ⟨joined, hjoined, hpair ▸ hkept⟩
  · obtain ⟨left, right, ls, rs, j, joined, lineage, l, r, hleft, hright, hj, huntimed, hrule,
        hjoined, hlineage, hviews, hl, hr, hpair⟩ : ∃ left right ls rs j joined lineage l r,
          overOrders.Yields orders scannedLines left ls ∧
          overOrders.Yields orders scannedNotes right rs ∧
          JoinInputs.of left right .inner (.equate 0 2) = .ok j ∧ j.parts.timeBounds = [] ∧
          j.rule overOrders = .entity ∧ overOrders.Answers orders linesWithNotes joined ∧
          left.lineage = some lineage ∧ (∀ level ∈ lineage, level.view ∈ [0, 1]) ∧ l ∈ ls ∧ r ∈ rs ∧
          (left.shown l).visible ++ (right.shown r).visible
            = [.int 1, .int 2] ++ [.int 1, .int 5] :=
      ⟨_, _, _, _, _, _, _, _, _, ⟨rfl, rfl, _, _, _, rfl, rfl, rfl⟩,
        ⟨rfl, rfl, _, _, _, rfl, rfl, rfl⟩, rfl, rfl, rfl, ⟨_, _, _, rfl, rfl, rfl⟩, rfl, by decide,
        .tail _ (.head _), .head _, rfl⟩
    have hkeys : ∀ l, left.lineage = some l → orders.Distinguishes overOrders.catalog l := by
      intro l hl
      obtain rfl := Option.some.inj (hlineage.symm.trans hl)
      exact (ordersOf_keyed [0, 1] (by decide) (by decide)).tells.distinguishes hviews
    have hkept := join_keeps_pairs overOrders_built (ordersOf_fits _) hleft hright hj huntimed
      (fun _ => hkeys) hjoined hl hr (by rw [hrule]; nofun) (by rw [hpair]; rfl)
    exact ⟨joined, hjoined, hpair ▸ hkept⟩

/-- The condition of a join is true of a pair of rows and compares no times, but the pair is
not in the answer of the join. -/
def LosesPair (c : Converter) (fixture : Fixture) (q p : Rel) (condition : Expr)
    (rule : JoinRule) : Prop :=
  ∃ left right ls rs j joined, c.Yields fixture q left ls ∧ c.Yields fixture p right rs ∧
    JoinInputs.of left right .inner condition = .ok j ∧ j.parts.timeBounds = [] ∧ j.rule c = rule ∧
    c.Answers fixture (.join q p .inner condition none) joined ∧ ∃ l ∈ ls, ∃ r ∈ rs,
      trueOn fixture.now condition ((left.shown l).visible ++ (right.shown r).visible) = true ∧
      (left.shown l).visible ++ (right.shown r).visible ∉ joined.map AnsweredRow.visible

/-- A click after an event of its number is not joined with it. Neither is a line of an order
with a note of another order, if the two orders have one number. -/
theorem pairs_of_equal_keys_are_lost :
    let clicks := clicksAt [(1, 990)] [(1, 995)]
    let orders := ordersOf [(1, [1], [5]), (1, [2], [6])]
    (overClicks.catalog.Built ∧ clicks.Fits overClicks.catalog ∧
      overClicks.LosesPair clicks scannedEvents scannedClicks (.equate 0 2) .interval) ∧
    overOrders.catalog.Built ∧ orders.Fits overOrders.catalog ∧
      overOrders.LosesPair orders scannedLines scannedNotes (.equate 0 2) .entity := by
  intro clicks orders
  refine ⟨⟨overClicks_built, clicksAt_fits _ _, ?_⟩, overOrders_built, ordersOf_fits _, ?_⟩
  · exact ⟨_, _, _, _, _, _, ⟨rfl, rfl, _, _, _, rfl, rfl, rfl⟩, ⟨rfl, rfl, _, _, _, rfl, rfl, rfl⟩,
      rfl, rfl, rfl, ⟨_, _, _, rfl, rfl, rfl⟩, _, .head _, _, .head _, rfl, nofun⟩
  · have hlost : ([.int 1, .int 1, .int 1, .int 6] : Row) ∉
        [[.int 1, .int 1, .int 1, .int 5], [.int 1, .int 2, .int 1, .int 6]] := by simp
    exact ⟨_, _, _, _, _, _, ⟨rfl, rfl, _, _, _, rfl, rfl, rfl⟩, ⟨rfl, rfl, _, _, _, rfl, rfl, rfl⟩,
      rfl, rfl, rfl, ⟨_, _, _, rfl, rfl, rfl⟩, _, .head _, _, .tail _ (.head _), rfl, hlost⟩

end Converter

end StreamPlan
