/-!
# Strings of a TOML document

A basic string stands between double quotes and knows escapes, a literal
string stands between single quotes and knows none. With three quotes on each
side a string may hold line breaks, and up to two quotes in a row.

* `Toml.basicString`, `Toml.literalString`: strings of one line.
* `Toml.basicLines`, `Toml.literalLines`: strings of several lines.

A reader takes the characters behind the opening quotes and gives what the
string says with the characters behind its closing quotes.
-/

namespace StreamPlan.Toml

/-- Whether a character separates words of a line. -/
def isBlank (c : Char) : Bool := c = ' ' || c = '\t'

/-- What follows blanks. -/
def skipBlanks (cs : List Char) : List Char := cs.dropWhile isBlank

/-- Whether a character must not stand in a string or comment. -/
def isForbidden (c : Char) : Bool := (c.val < 0x20 && c ≠ '\t') || c.val = 0x7f

/-- What follows a line break, if there is one. -/
def lineBreak? : List Char → Option (List Char)
  | '\n' :: rest | '\r' :: '\n' :: rest => some rest
  | _ => none

/-- The value of a hexadecimal digit. -/
def hexDigit? (c : Char) : Option Nat :=
  if '0' ≤ c ∧ c ≤ '9' then some (c.toNat - '0'.toNat)
  else if 'a' ≤ c ∧ c ≤ 'f' then some (c.toNat - 'a'.toNat + 10)
  else if 'A' ≤ c ∧ c ≤ 'F' then some (c.toNat - 'A'.toNat + 10)
  else none

/-- The number that digits of a base write. -/
def digitsValue (base : Nat) (cs : List Char) : Nat :=
  cs.foldl (fun n c => n * base + (hexDigit? c).getD 0) 0

/-- The character of a hexadecimal code point. -/
def codePoint? (cs : List Char) : Option Char := do
  let _ ← cs.mapM hexDigit?
  let n := digitsValue 16 cs
  if n.isValidChar then some (Char.ofNat n) else none

/-- The character behind a backslash. -/
def escaped? : Char → Option Char
  | 'b' => some '\x08'
  | 't' => some '\t'
  | 'n' => some '\n'
  | 'f' => some '\x0c'
  | 'r' => some '\r'
  | '"' => some '"'
  | '\\' => some '\\'
  | _ => none

/-- A basic string. `read` holds what is read, last character first. -/
def basicString (read : List Char) : List Char → Option (String × List Char)
  | [] => none
  | '"' :: rest => some (String.ofList read.reverse, rest)
  | '\\' :: 'u' :: a :: b :: c :: d :: rest => do
    basicString ((← codePoint? [a, b, c, d]) :: read) rest
  | '\\' :: 'U' :: a :: b :: c :: d :: e :: f :: g :: h :: rest => do
    basicString ((← codePoint? [a, b, c, d, e, f, g, h]) :: read) rest
  | '\\' :: c :: rest => do basicString ((← escaped? c) :: read) rest
  | c :: rest => if isForbidden c then none else basicString (c :: read) rest

/-- A literal string. -/
def literalString (read : List Char) : List Char → Option (String × List Char)
  | [] => none
  | '\'' :: rest => some (String.ofList read.reverse, rest)
  | c :: rest => if isForbidden c then none else literalString (c :: read) rest

/-- A basic string of several lines. A backslash at the end of a line hides
the line break and all blanks and line breaks behind it; `hidden` tells that
these are being passed over. -/
def basicLines (hidden : Bool) (read : List Char) : List Char → Option (String × List Char)
  | [] => none
  | '"' :: '"' :: '"' :: '"' :: '"' :: rest =>
    some (String.ofList ('"' :: '"' :: read).reverse, rest)
  | '"' :: '"' :: '"' :: '"' :: rest => some (String.ofList ('"' :: read).reverse, rest)
  | '"' :: '"' :: '"' :: rest => some (String.ofList read.reverse, rest)
  | '\\' :: 'u' :: a :: b :: c :: d :: rest => do
    basicLines false ((← codePoint? [a, b, c, d]) :: read) rest
  | '\\' :: 'U' :: a :: b :: c :: d :: e :: f :: g :: h :: rest => do
    basicLines false ((← codePoint? [a, b, c, d, e, f, g, h]) :: read) rest
  | '\\' :: c :: rest =>
    if (lineBreak? (skipBlanks (c :: rest))).isSome then basicLines true read (c :: rest)
    else do basicLines false ((← escaped? c) :: read) rest
  | '\r' :: '\n' :: rest | '\n' :: rest =>
    basicLines hidden (if hidden then read else '\n' :: read) rest
  | c :: rest =>
    if hidden && isBlank c then basicLines true read rest
    else if isForbidden c then none
    else basicLines false (c :: read) rest

/-- A literal string of several lines. -/
def literalLines (read : List Char) : List Char → Option (String × List Char)
  | [] => none
  | '\'' :: '\'' :: '\'' :: '\'' :: '\'' :: rest =>
    some (String.ofList ('\'' :: '\'' :: read).reverse, rest)
  | '\'' :: '\'' :: '\'' :: '\'' :: rest => some (String.ofList ('\'' :: read).reverse, rest)
  | '\'' :: '\'' :: '\'' :: rest => some (String.ofList read.reverse, rest)
  | '\r' :: '\n' :: rest | '\n' :: rest => literalLines ('\n' :: read) rest
  | c :: rest => if isForbidden c then none else literalLines (c :: read) rest

/-- The characters without a line break at their start. -/
def skipFirstBreak (cs : List Char) : List Char := (lineBreak? cs).getD cs

/-- A string in any of the four forms, its opening quotes included. -/
def string : List Char → Option (String × List Char)
  | '"' :: '"' :: '"' :: rest => basicLines false [] (skipFirstBreak rest)
  | '"' :: rest => basicString [] rest
  | '\'' :: '\'' :: '\'' :: rest => literalLines [] (skipFirstBreak rest)
  | '\'' :: rest => literalString [] rest
  | _ => none

end StreamPlan.Toml
