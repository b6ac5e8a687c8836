/-!
# Tables of a TOML document

A document is a table of names and values, and a value may be a table itself.
Whether a table can still be extended depends on how it came to be: by a
header of its own, by a header of a table below it, by a dotted key, or in
braces. Each name is defined at most once.

* `Toml.editAt`: the one way to reach a table, through the tables above it.
* `Toml.insert`: what a key and its value define.
* `Toml.openTable`, `Toml.openMember`: what a header defines.
-/

namespace StreamPlan.Toml

/-- How a table came to be. -/
inductive Origin where
  /-- It has a header. -/
  | header
  /-- A table below it has a header. -/
  | parent
  /-- A dotted key goes through it. -/
  | dotted
  /-- It is written in braces. -/
  | braces
  deriving DecidableEq, Repr

/-- A value. The number of a float and the time of a moment do not matter here. -/
inductive Value where
  | text (value : String)
  | integer (value : Int)
  | boolean (value : Bool)
  | float
  | moment
  | array (items : List Value)
  | table (origin : Origin) (entries : List (String × Value))
  /-- An array of tables, each with a header. -/
  | tables (members : List (List (String × Value)))

/-- The names of a table with their values. -/
abbrev Entries := List (String × Value)

/-- Whether a value is an array or a table that holds nothing. -/
def Value.isEmptyContainer : Value → Bool
  | array items => items.isEmpty
  | table _ entries => entries.isEmpty
  | tables members => members.isEmpty
  | _ => false

/-- The entries with a name set, in its place if it is there. -/
def put (name : String) (value : Value) : Entries → Entries
  | [] => [(name, value)]
  | (other, old) :: rest =>
    if other = name then (name, value) :: rest else (other, old) :: put name value rest

/-- Several tables with the last of them edited. -/
def editLast (edit : Entries → Option Entries) : List Entries → Option (List Entries)
  | [] => none
  | [last] => do return [← edit last]
  | first :: rest => do return first :: (← editLast edit rest)

/-- Edits the table at a path below a table. Tables that are missing on the
way come to be as `made`; an array of tables stands for its last member. A
table in braces is closed, and one with a header is closed to dotted keys. -/
def editAt (made : Origin) (edit : Origin → Entries → Option Entries) :
    List String → Origin → Entries → Option Entries
  | [], origin, entries => edit origin entries
  | name :: path, _, entries => do
    match entries.lookup name with
    | none => return put name (.table made (← editAt made edit path made [])) entries
    | some (.table origin below) =>
      if origin = .braces ∨ (origin = .header ∧ made = .dotted) then none
      else return put name (.table origin (← editAt made edit path origin below)) entries
    | some (.tables members) =>
      return put name (.tables (← editLast (editAt made edit path .header) members)) entries
    | some _ => none

/-- Defines a name of a table. Dotted keys end in tables made by dotted keys,
and no other key does. -/
def define (dotted : Bool) (name : String) (value : Value) (origin : Origin) (entries : Entries) :
    Option Entries :=
  if (origin == .dotted) != dotted || (entries.lookup name).isSome then none
  else some (entries ++ [(name, value)])

/-- Defines a name at the end of a dotted key. -/
def insert (path : List String) (name : String) (value : Value) (origin : Origin)
    (entries : Entries) : Option Entries :=
  editAt .dotted (define (!path.isEmpty) name value) path origin entries

/-- Gives a table a header. -/
def openTable (name : String) (_ : Origin) (entries : Entries) : Option Entries :=
  match entries.lookup name with
  | none => some (entries ++ [(name, .table .header [])])
  | some (.table .parent below) => some (put name (.table .header below) entries)
  | some _ => none

/-- Gives an array of tables another member. -/
def openMember (name : String) (_ : Origin) (entries : Entries) : Option Entries :=
  match entries.lookup name with
  | none => some (entries ++ [(name, .tables [[]])])
  | some (.tables members) => some (put name (.tables (members ++ [[]])) entries)
  | some _ => none

end StreamPlan.Toml
