import StreamPlan.Query.Expr
import StreamPlan.Query.Hint

/-!
# Relational trees

A query is a tree of operators over scans. Queries are written with scans,
filters, projections, joins, aggregations, unions and sorts; plans also unroll
nested collections (`unnest`) and keep the first rows of each partition
(`firstRows`).

* `Rel.fields`: the row type of a tree, with `Rel.width` its number of columns.
* `Rel.project`, `Rel.projectColumns`, `Rel.groupBy`, …: building trees.
* `Rel.inputs`, `Rel.preorder`: walking trees.
-/

namespace StreamPlan

/-- How two inputs are joined. -/
inductive JoinKind where
  /-- Left open: a temporal, interval or inner join, whichever fits. -/
  | auto
  | inner
  | left
  | right
  | full
  /-- A stream against the versions of a table. -/
  | temporal
  /-- Two streams within a bounded time. -/
  | interval
  deriving DecidableEq, Repr

namespace JoinKind

/-- The kind in capitals. -/
def display : JoinKind → String
  | auto => "DEFAULT"
  | inner => "INNER"
  | left => "LEFT"
  | right => "RIGHT"
  | full => "FULL"
  | temporal => "TEMPORAL"
  | interval => "INTERVAL"

/-- Whether a left row without a partner is kept. -/
def keepsLeft : JoinKind → Bool
  | left | full => true
  | _ => false

/-- Whether a right row without a partner is kept. -/
def keepsRight : JoinKind → Bool
  | right | full => true
  | _ => false

end JoinKind

/-- One output column of a projection. -/
structure Output where
  expr : Expr
  field : Field

namespace Output

/-- An expression under a name, typed over the input; nulls are allowed. -/
def named (expr : Expr) (name : String) (input : Fields) : Output :=
  ⟨expr, name, expr.dataType input, true⟩

/-- An input column as it is. -/
def column (position : Nat) (input : Fields) : Except Fault Output := do
  return ⟨.column position, ← itemAt input position⟩

/-- An input column under another name. -/
def renamed (position : Nat) (name : String) (input : Fields) : Except Fault Output := do
  return ⟨.column position, (← itemAt input position).withName name⟩

/-- The same output over other columns. -/
def remap (output : Output) (f : Nat → Except Fault Nat) : Except Fault Output := do
  return { output with expr := ← output.expr.remap f }

end Output

/-- A relational tree. -/
inductive Rel where
  | scan (relation : RelationId) (name : String) (fields : Fields)
  | filter (input : Rel) (predicate : Expr)
  | project (input : Rel) (outputs : List Output) (hint : Option RankingHint)
  /-- The condition is over the left row followed by the right row. -/
  | join (left right : Rel) (kind : JoinKind) (condition : Expr) (hint : Option JoinHint)
  /-- One row per group: the keys, then one column per call. -/
  | aggregate (input : Rel) (keys : List Nat) (groupingSets : List (List Nat))
      (calls : List AggregateCall) (hint : Option AggregateHint)
  | union (inputs : List Rel) (all : Bool)
  | sort (input : Rel) (order : SortOrder) (limit offset : Option Nat)
  /-- One row per element of a nested collection, the element after the row.
  An outer unnesting keeps a row without elements. -/
  | unnest (input : Rel) (column : Nat) (outer : Bool) (element : Fields)
  /-- The first rows of each partition in input order, one if distinct. -/
  | firstRows (input : Rel) (partition : List Nat) (limit : Option Nat) (distinct : Bool)

instance : Inhabited Rel := ⟨.union [] true⟩

namespace Rel

/-- The two sides of a joined row type, with nulls where a partner may be missing. -/
def joinedFields (kind : JoinKind) (left right : Fields) : Fields :=
  (if kind.keepsRight then left.map Field.asNullable else left)
    ++ (if kind.keepsLeft then right.map Field.asNullable else right)

mutual

/-- The row type of a tree. Faults if a group key is not a column of its input. -/
def fields : Rel → Except Fault Fields
  | scan _ _ fields => .ok fields
  | filter input _ | sort input .. | firstRows input .. => fields input
  | project _ outputs _ => .ok (outputs.map Output.field)
  | join left right kind _ _ => do
    let l ← fields left
    let r ← fields right
    return joinedFields kind l r
  | aggregate input keys _ calls _ => do
    let inputFields ← fields input
    let keyFields ← keys.mapM (itemAt inputFields)
    return keyFields ++ calls.map AggregateCall.field
  | union inputs _ => firstFields inputs
  | unnest input _ outer element => do
    let parent ← fields input
    return parent ++ if outer then element.map Field.asNullable else element

/-- The row type of the first of several trees. -/
def firstFields : List Rel → Except Fault Fields
  | [] => .ok []
  | first :: _ => fields first

end

mutual

/-- The number of columns of a tree. -/
def width : Rel → Nat
  | scan _ _ fields => fields.length
  | filter input _ | sort input .. | firstRows input .. => width input
  | project _ outputs _ => outputs.length
  | join left right .. => width left + width right
  | aggregate _ keys _ calls _ => keys.length + calls.length
  | union inputs _ => firstWidth inputs
  | unnest input _ _ element => width input + element.length

/-- The number of columns of the first of several trees. -/
def firstWidth : List Rel → Nat
  | [] => 0
  | first :: _ => width first

end

/-- The direct inputs of the root operator. -/
def inputs : Rel → List Rel
  | scan .. => []
  | filter input _ | project input .. | aggregate input .. | sort input .. | unnest input ..
  | firstRows input .. => [input]
  | join left right .. => [left, right]
  | union inputs _ => inputs

/-- The name of the root operator. -/
def kindName : Rel → String
  | scan .. => "Scan"
  | filter .. => "Filter"
  | project .. => "Project"
  | join .. => "Join"
  | aggregate .. => "Aggregate"
  | union .. => "Union"
  | sort .. => "Sort"
  | unnest .. => "Unnest"
  | firstRows .. => "PartitionLimit"

mutual

/-- All operators of a tree, each before its inputs. -/
def preorder : Rel → List Rel
  | rel@(scan ..) => [rel]
  | rel@(filter input _) | rel@(project input ..) | rel@(aggregate input ..)
  | rel@(sort input ..) | rel@(unnest input ..) | rel@(firstRows input ..) =>
    rel :: preorder input
  | rel@(join left right ..) => rel :: (preorder left ++ preorder right)
  | rel@(union inputs _) => rel :: preorderOfAll inputs

/-- All operators of several trees. -/
def preorderOfAll : List Rel → List Rel
  | [] => []
  | r :: rs => preorder r ++ preorderOfAll rs

end

/-- The number of operators of a tree. -/
def size (rel : Rel) : Nat := rel.preorder.length

/-- The number of operators that satisfy a test. -/
def count (rel : Rel) (p : Rel → Bool) : Nat := rel.preorder.countP p

/-- The given columns of a tree, as they are. -/
def projectColumns (rel : Rel) (columns : List Nat) (hint : Option RankingHint) :
    Except Fault Rel := do
  let input ← rel.fields
  return .project rel (← columns.mapM (Output.column · input)) hint

/-- Groups a tree by the distinct keys, ascending. -/
def groupBy (rel : Rel) (keys : List Nat) (calls : List AggregateCall) : Rel :=
  .aggregate rel (Ascending.ofList keys) [] calls none

/-- The tree with a hint on its root if that is a join. -/
def withJoinHint (rel : Rel) (hint : JoinHint) : Rel :=
  match rel with
  | join left right kind condition _ => join left right kind condition (some hint)
  | other => other

/-- The tree with a hint on its root if that is an aggregation. -/
def withAggregateHint (rel : Rel) (hint : AggregateHint) : Rel :=
  match rel with
  | aggregate input keys groupingSets calls _ =>
    aggregate input keys groupingSets calls (some hint)
  | other => other

end Rel

end StreamPlan
