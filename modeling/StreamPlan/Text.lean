import StreamPlan.Text.Unseen

/-!
# Texts of lists, options, records and quoted names

The building blocks of every rendered text: explain trees, diagnostics and
settings.

* `Text.commas`, `Text.listing`: items with a comma and a blank between
  neighbours, bare or in brackets.
* `Text.optional`: an optional number as `Some(3)` or `None`.
* `Text.record`: a record with its named fields in braces.
* `Text.quoted`: a name in double quotes, with all that cannot be read escaped.
-/

namespace StreamPlan.Text

/-- The items with a comma and a blank between neighbours. -/
def commas (items : List String) : String := ", ".intercalate items

/-- The items between brackets. -/
def listing (items : List String) : String := "[" ++ commas items ++ "]"

/-- Column positions between brackets, such as `[0, 1]`. -/
def positions (columns : List Nat) : String := listing (columns.map toString)

/-- A column reference: a dollar sign and the position. -/
def column (position : Nat) : String := s!"${position}"

/-- An optional text in its wrapped form. -/
def optional : Option String → String
  | none => "None"
  | some text => s!"Some({text})"

/-- A record: its name, then its fields in braces. -/
def record (name : String) (fields : List (String × String)) : String :=
  name ++ " \x7b " ++ commas (fields.map fun (key, value) => key ++ ": " ++ value) ++ " \x7d"

/-- The digits of `n` in base 16, at least one. -/
def hex (n : Nat) : String := String.ofList (Nat.toDigits 16 n)

/-- One character of a quoted name. Quotes and backslashes take a backslash,
the named controls their letter, and every other unseen character its code
point. -/
def escapedChar (c : Char) : String :=
  if c = '"' then "\\\""
  else if c = '\\' then "\\\\"
  else if c = '\n' then "\\n"
  else if c = '\r' then "\\r"
  else if c = '\t' then "\\t"
  else if c = '\x00' then "\\0"
  else if isUnseen c then "\\u\x7b" ++ hex c.toNat ++ "\x7d"
  else c.toString

/-- A name in double quotes. -/
def quoted (name : String) : String :=
  "\"" ++ String.join (name.toList.map escapedChar) ++ "\""

end StreamPlan.Text
