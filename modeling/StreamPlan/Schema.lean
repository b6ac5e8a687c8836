import StreamPlan.Text

/-!
# Column types and fields

A field has a name, a type and a flag for nulls. Types nest: a *nested
collection* is a list of structs, and its struct fields are the row type of
one element.

* `Field.nested?`: the element row type of a nested collection.
* `DataType.display`: the rendered type.
-/

namespace StreamPlan

mutual

/-- The type of a column. -/
inductive DataType where
  | null
  | boolean
  | int64
  | float64
  | utf8
  /-- Milliseconds since the epoch. -/
  | timestamp
  /-- A length of time in milliseconds. -/
  | interval
  | list (item : Field)
  | largeList (item : Field)
  | struct (fields : List Field)

/-- A named column of a row type. -/
structure Field where
  name : String
  dataType : DataType
  nullable : Bool

end

instance : Inhabited DataType := ⟨.null⟩
instance : Inhabited Field := ⟨⟨"", .null, false⟩⟩

/-- A row type. -/
abbrev Fields := List Field

namespace DataType

/-- The element row type of a list of structs. -/
def nested? : DataType → Option Fields
  | .list ⟨_, .struct fields, _⟩ => some fields
  | .largeList ⟨_, .struct fields, _⟩ => some fields
  | _ => none

mutual

/-- The rendered type. -/
def display : DataType → String
  | .null => "Null"
  | .boolean => "Boolean"
  | .int64 => "Int64"
  | .float64 => "Float64"
  | .utf8 => "Utf8"
  | .timestamp => "Timestamp(Millisecond, None)"
  | .interval => "Interval(DayTime)"
  | .list item => "List(" ++ displayField item ++ ")"
  | .largeList item => "LargeList(" ++ displayField item ++ ")"
  | .struct fields => "Struct(" ++ Text.listing (displayFields fields) ++ ")"

/-- The rendered field of a list or struct. -/
def displayField : Field → String
  | ⟨name, dataType, nullable⟩ =>
    Text.record "Field" [
      ("name", Text.quoted name),
      ("data_type", display dataType),
      ("nullable", toString nullable),
      ("dict_id", "0"),
      ("dict_is_ordered", "false"),
      ("metadata", "\x7b\x7d")]

/-- The rendered fields of a struct. -/
def displayFields : List Field → List String
  | [] => []
  | field :: fields => displayField field :: displayFields fields

end

end DataType

namespace Field

/-- The element row type of a nested collection. -/
def nested? (field : Field) : Option Fields := field.dataType.nested?

/-- Whether the column holds a nested collection. -/
def isNested (field : Field) : Bool := field.nested?.isSome

/-- The same field under another name. -/
def withName (field : Field) (name : String) : Field := { field with name := name }

/-- The same field, with nulls allowed. -/
def asNullable (field : Field) : Field := { field with nullable := true }

end Field

/-- The list type of the given element type, nulls allowed. -/
def DataType.listOf (element : DataType) : DataType := .list ⟨"item", element, true⟩

/-- The nested collection of the given element row type. -/
def DataType.nestedOf (fields : Fields) : DataType := .listOf (.struct fields)

/-- The large nested collection of the given element row type. -/
def DataType.largeNestedOf (fields : Fields) : DataType := .largeList ⟨"item", .struct fields, true⟩

end StreamPlan
