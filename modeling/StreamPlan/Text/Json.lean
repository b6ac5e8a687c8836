import StreamPlan.Text

/-!
# JSON texts

JSON values of texts, integers, truth values, lists and objects whose fields
keep their order, and their indented text: two blanks per level, one item or
field a line, and nothing between the brackets of an empty list or object.
-/

namespace StreamPlan

/-- A JSON value. Fields keep their order. -/
inductive Json where
  | null
  | boolean (value : Bool)
  | number (value : Int)
  | text (value : String)
  | list (items : List Json)
  | object (fields : List (String × Json))

namespace Json

/-- A number as four hexadecimal digits. -/
def hex4 (n : Nat) : String :=
  let digits := Text.hex n
  String.join (List.replicate (4 - digits.length) "0") ++ digits

/-- One character of a JSON text. Quotes, backslashes and controls are escaped. -/
def escapedChar (c : Char) : String :=
  if c = '"' then "\\\""
  else if c = '\\' then "\\\\"
  else if c = '\n' then "\\n"
  else if c = '\r' then "\\r"
  else if c = '\t' then "\\t"
  else if c = '\x08' then "\\b"
  else if c = '\x0c' then "\\f"
  else if c.val < 0x20 then "\\u" ++ hex4 c.toNat
  else c.toString

/-- A text in quotes. -/
def quoted (s : String) : String := "\"" ++ String.join (s.toList.map escapedChar) ++ "\""

/-- The start of a line at a depth. -/
def indent (depth : Nat) : String := "\n" ++ String.join (List.replicate depth "  ")

/-- Items between an opening and a closing bracket at a depth. -/
def bracketed (opening closing : String) (depth : Nat) (items : List String) : String :=
  if items.isEmpty then opening ++ closing
  else
    opening ++ indent (depth + 1) ++ (("," ++ indent (depth + 1)).intercalate items)
      ++ indent depth ++ closing

mutual

/-- The indented text of a value at a depth. -/
def prettyAt (depth : Nat) : Json → String
  | null => "null"
  | boolean b => toString b
  | number n => toString n
  | text s => quoted s
  | list items => bracketed "[" "]" depth (prettyItems (depth + 1) items)
  | object fields => bracketed "\x7b" "\x7d" depth (prettyFields (depth + 1) fields)

/-- The indented texts of the items of a list. -/
def prettyItems (depth : Nat) : List Json → List String
  | [] => []
  | item :: items => prettyAt depth item :: prettyItems depth items

/-- The indented texts of the fields of an object. -/
def prettyFields (depth : Nat) : List (String × Json) → List String
  | [] => []
  | (name, value) :: fields =>
    (quoted name ++ ": " ++ prettyAt depth value) :: prettyFields depth fields

end

/-- The indented text of a value. -/
def pretty (json : Json) : String := json.prettyAt 0

/-- A list of numbers. -/
def numbers (ns : List Nat) : Json := .list (ns.map fun (n : Nat) => .number n)

end Json

end StreamPlan
