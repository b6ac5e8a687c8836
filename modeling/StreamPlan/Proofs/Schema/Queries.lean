import StreamPlan.Plan.Convert
import StreamPlan.Proofs.Plan.Project

/-!
# Queries with declared row types

* `Output.Declared`, `Rel.Declared`: outputs and queries as they are built, with the
  types of the columns they show.
* `Rel.RenamesNothing`: no column is shown under another name.
* `Converter.Collapses`: a join that is planned as one unrolled entity.
* `Converter.KeepsNames`: where such a join counts, its inputs rename nothing.
-/

namespace StreamPlan

/-- An output as it is built over a row type: a column as it is or under another
name, or an expression with its type. -/
inductive Output.Declared (input : Fields) : Output → Prop
  | column {position : Nat} {output : Output} :
      Output.column position input = .ok output → Output.Declared input output
  | renamed {position : Nat} {name : String} {output : Output} :
      Output.renamed position name input = .ok output → Output.Declared input output
  | named (expr : Expr) (name : String) : Output.Declared input (.named expr name input)

/-- An output that shows a column has its type. -/
theorem Output.Declared.dataType {input : Fields} {output : Output} {i : Nat} {field : Field}
    (h : output.Declared input) (he : output.expr = .column i) (hf : input[i]? = some field) :
    output.field.dataType = field.dataType := by
  cases h with
  | column ho =>
    obtain rfl := Expr.column.inj ((expr_of_column ho).symm.trans he)
    rw [Option.some.inj ((field_of_column ho).symm.trans hf)]
  | renamed ho =>
    obtain rfl := Expr.column.inj ((expr_of_renamed ho).symm.trans he)
    obtain ⟨found, hfound, hrenamed⟩ := field_of_renamed ho
    rw [hrenamed, Option.some.inj (hfound.symm.trans hf)]
    rfl
  | named expr name =>
    obtain rfl : expr = .column i := he
    simp [Output.named, Expr.dataType, hf]

namespace Rel

/-- What every output of every projection in a query has over the row type below it. -/
def EveryOutput (P : Fields → Output → Prop) (q : Rel) : Prop :=
  ∀ input outputs hint fs, .project input outputs hint ∈ q.preorder → input.fields = .ok fs →
    ∀ o ∈ outputs, P fs o

theorem EveryOutput.input {P : Fields → Output → Prop} {q input : Rel} (h : q.EveryOutput P)
    (hi : input ∈ q.inputs) : input.EveryOutput P :=
  fun below outputs hint fs hmem => h below outputs hint fs (preorder_of_inputs hi _ hmem)

/-- A query whose scans carry the catalog's fields and whose outputs are declared over
their inputs. -/
structure Declared (catalog : Catalog) (q : Rel) : Prop where
  scans : ∀ relation name fields, .scan relation name fields ∈ q.preorder →
    catalog.fields relation = .ok fields
  outputs : q.EveryOutput fun fs o => o.Declared fs

theorem Declared.input {catalog : Catalog} {q input : Rel} (h : q.Declared catalog)
    (hi : input ∈ q.inputs) : input.Declared catalog :=
  ⟨fun relation name fields hmem => h.scans relation name fields (preorder_of_inputs hi _ hmem),
    h.outputs.input hi⟩

theorem everyOutput_of_root {P : Fields → Output → Prop} {q : Rel}
    (hroot : ∀ input outputs hint fs, q = .project input outputs hint → input.fields = .ok fs →
      ∀ o ∈ outputs, P fs o)
    (hinputs : ∀ input ∈ q.inputs, input.EveryOutput P) : q.EveryOutput P := by
  intro below outputs hint fs hmem
  rcases mem_preorder hmem with heq | ⟨input, hi, hmem⟩
  · exact hroot below outputs hint fs heq.symm
  · exact hinputs input hi below outputs hint fs hmem

/-- A query is declared if its root is and its inputs are. -/
theorem declared_of_root {catalog : Catalog} {q : Rel}
    (hscan : ∀ relation name fields, q = .scan relation name fields →
      catalog.fields relation = .ok fields)
    (hroot : ∀ input outputs hint fs, q = .project input outputs hint → input.fields = .ok fs →
      ∀ o ∈ outputs, o.Declared fs)
    (hinputs : ∀ input ∈ q.inputs, input.Declared catalog) : q.Declared catalog := by
  refine ⟨fun relation name fields hmem => ?_,
    everyOutput_of_root hroot fun input hi => (hinputs input hi).outputs⟩
  rcases mem_preorder hmem with heq | ⟨input, hi, hmem⟩
  · exact hscan relation name fields heq.symm
  · exact (hinputs input hi).scans relation name fields hmem

/-- A query that shows no column under another name. -/
def RenamesNothing (q : Rel) : Prop :=
  q.EveryOutput fun fs o => ∀ i field, o.expr = .column i → fs[i]? = some field →
    o.field.name = field.name

end Rel

namespace Converter

/-- A join that is planned as one unrolled entity. -/
def Collapses (c : Converter) (left right : Rel) (kind : JoinKind) (condition : Expr) : Prop :=
  ∃ l r j out, c.convert left = .ok l ∧ c.convert right = .ok r ∧
    JoinInputs.of l r kind condition = .ok j ∧
    attempt j [.auto, .inner, .left] (j.selfJoin? c) = .ok (some out)

mutual

/-- **The names of a query survive its planning**: joins that are planned as one entity
have inputs that rename nothing. Below a projection and in the later branches of a union
names do not count. -/
def KeepsNames (c : Converter) : Rel → Prop
  | .scan .. | .project .. => True
  | .filter input _ | .aggregate input .. | .sort input .. | .unnest input .. | .firstRows input .. =>
    KeepsNames c input
  | .join left right kind condition _ =>
    KeepsNames c left ∧ KeepsNames c right ∧
      (c.Collapses left right kind condition → left.RenamesNothing ∧ right.RenamesNothing)
  | .union inputs _ => KeepsFirstNames c inputs

/-- The names of the first of several queries survive. -/
def KeepsFirstNames (c : Converter) : List Rel → Prop
  | [] => True
  | first :: _ => KeepsNames c first

end

variable {c : Converter}

mutual

/-- Where nothing is renamed, names survive. -/
theorem keepsNames_of_renamesNothing : ∀ {q : Rel}, q.RenamesNothing → c.KeepsNames q
  | .scan .., _ | .project .., _ => by rw [KeepsNames]; trivial
  | .filter input _, h | .aggregate input .., h | .sort input .., h | .unnest input .., h
  | .firstRows input .., h => by
    rw [KeepsNames]
    exact keepsNames_of_renamesNothing (h.input List.mem_cons_self)
  | .join left right .., h => by
    have hl : left.RenamesNothing := h.input List.mem_cons_self
    have hr : right.RenamesNothing := h.input (List.mem_cons_of_mem _ List.mem_cons_self)
    rw [KeepsNames]
    exact ⟨keepsNames_of_renamesNothing hl, keepsNames_of_renamesNothing hr, fun _ => ⟨hl, hr⟩⟩
  | .union inputs _, h => by
    rw [KeepsNames]
    exact keepsFirstNames_of_renamesNothing fun first hmem => h.input hmem

theorem keepsFirstNames_of_renamesNothing : ∀ {qs : List Rel}, (∀ q ∈ qs, q.RenamesNothing) →
    c.KeepsFirstNames qs
  | [], _ => by rw [KeepsFirstNames]; trivial
  | first :: _, h => by
    rw [KeepsFirstNames]
    exact keepsNames_of_renamesNothing (h first List.mem_cons_self)

end

end Converter

end StreamPlan
