import StreamPlan.Query.Rel

/-!
# Explain trees

A tree of operators as text: one line per operator with its own settings,
every input indented two blanks below its operator.
-/

namespace StreamPlan

namespace Rel

/-- An optional hint behind an operator's settings. -/
def hintText {α : Type} (display : α → String) : Option α → String
  | none => ""
  | some hint => " hint=" ++ display hint

/-- An optional row count. -/
def countText (n : Option Nat) : String := Text.optional (n.map toString)

/-- The settings of the root operator. -/
def settings : Rel → String
  | scan relation name _ => name ++ " [" ++ relation.display ++ "]"
  | filter _ predicate => predicate.display
  | project _ outputs hint =>
    Text.commas (outputs.map fun o => o.field.name ++ "=" ++ o.expr.display)
      ++ hintText RankingHint.display hint
  | join _ _ kind condition hint =>
    kind.display ++ " ON " ++ condition.display ++ hintText JoinHint.display hint
  | aggregate _ keys _ calls hint =>
    "group=" ++ Text.positions keys ++ " calls=" ++ Text.listing (calls.map AggregateCall.display)
      ++ hintText AggregateHint.display hint
  | union _ all => s!"all={all}"
  | sort _ order limit offset =>
    SortOrder.display order ++ " limit=" ++ countText limit ++ " offset=" ++ countText offset
  | unnest _ column outer _ => Text.column column ++ s!" outer={outer}"
  | firstRows _ partition limit distinct =>
    "partition=" ++ Text.positions partition ++ " limit=" ++ countText limit
      ++ s!" distinct={distinct}"

/-- The line of the root operator at a depth. -/
def line (rel : Rel) (depth : Nat) : String :=
  String.join (List.replicate depth "  ") ++ rel.kindName ++ ": " ++ rel.settings ++ "\n"

mutual

/-- The lines of a tree whose root is at a depth. -/
def explainAt (depth : Nat) : Rel → String
  | rel@(scan ..) => rel.line depth
  | rel@(filter input _) | rel@(project input ..) | rel@(aggregate input ..)
  | rel@(sort input ..) | rel@(unnest input ..) | rel@(firstRows input ..) =>
    rel.line depth ++ explainAt (depth + 1) input
  | rel@(join left right ..) =>
    rel.line depth ++ explainAt (depth + 1) left ++ explainAt (depth + 1) right
  | rel@(union inputs _) => rel.line depth ++ explainAllAt (depth + 1) inputs

/-- The lines of several trees whose roots are at a depth. -/
def explainAllAt (depth : Nat) : List Rel → String
  | [] => ""
  | r :: rs => explainAt depth r ++ explainAllAt depth rs

end

/-- The text of a tree. -/
def explain (rel : Rel) : String := rel.explainAt 0

end Rel

end StreamPlan
