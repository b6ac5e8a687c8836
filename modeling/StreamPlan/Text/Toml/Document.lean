import StreamPlan.Text.Toml.Number

/-!
# TOML documents

A document is a sequence of lines: `key = value`, a table header, a comment or
nothing. Arrays and strings may go on over several lines. Keys may be quoted
and dotted. A document that is not well formed, or that defines a name twice,
has no reading.

* `Toml.value`: a value. Arrays and tables in braces nest less than 80 deep.
* `Toml.read?`: the entries of a document.
-/

namespace StreamPlan.Toml

/-- Keys have fewer parts than this, and values nest less deep. -/
def depthLimit : Nat := 80

/-- Whether a character may stand in a key without quotes. -/
def isKeyChar (c : Char) : Bool := c.isAlphanum || c = '_' || c = '-'

/-- One part of a key. -/
def keyPart : List Char → Option (String × List Char)
  | '"' :: rest => basicString [] rest
  | '\'' :: rest => literalString [] rest
  | cs =>
    match cs.takeWhile isKeyChar with
    | [] => none
    | word => some (String.ofList word, cs.dropWhile isKeyChar)

/-- The parts of a dotted key, at most `fuel` of them: those before the last,
and the last. -/
def keyPath : Nat → List Char → Option (List String × String × List Char)
  | 0, _ => none
  | fuel + 1, cs => do
    let (part, rest) ← keyPart (skipBlanks cs)
    match skipBlanks rest with
    | '.' :: more =>
      let (path, last, rest) ← keyPath fuel more
      return (part :: path, last, rest)
    | rest => return ([], part, rest)

/-- A key with the blanks around it. -/
def key (cs : List Char) : Option (List String × String × List Char) :=
  keyPath (depthLimit - 1) cs

/-- What follows blanks, line breaks and comments. -/
def skipLines (inComment : Bool) : List Char → List Char
  | '\r' :: '\n' :: rest | '\n' :: rest => skipLines false rest
  | c :: rest =>
    if inComment then if isForbidden c then c :: rest else skipLines true rest
    else if isBlank c then skipLines false rest
    else if c = '#' then skipLines true rest
    else c :: rest
  | [] => []

/-- A value that is neither an array nor a table. -/
def scalar : List Char → Option (Value × List Char)
  | 't' :: 'r' :: 'u' :: 'e' :: rest => some (.boolean true, rest)
  | 'f' :: 'a' :: 'l' :: 's' :: 'e' :: rest => some (.boolean false, rest)
  | '"' :: rest => (string ('"' :: rest)).map fun (s, rest) => (.text s, rest)
  | '\'' :: rest => (string ('\'' :: rest)).map fun (s, rest) => (.text s, rest)
  | cs => if startsMoment cs then moment cs else number cs

section Containers

variable (item : List Char → Option (Value × List Char))

/-- The items of an array, at most `fuel` of them, behind those that `read`
holds from last to first. A comma may follow the last one. -/
def arrayItems : Nat → List Value → List Char → Option (Value × List Char)
  | 0, _, _ => none
  | fuel + 1, read, cs =>
    match skipLines false cs with
    | ']' :: rest => some (.array read.reverse, rest)
    | cs => do
      let (value, rest) ← item cs
      match skipLines false rest with
      | ',' :: rest => arrayItems fuel (value :: read) rest
      | ']' :: rest => return (.array (value :: read).reverse, rest)
      | _ => none

/-- The settings of a table in braces, at most `fuel` of them, behind those
already defined. -/
def braceSettings : Nat → Entries → List Char → Option (Value × List Char)
  | 0, _, _ => none
  | fuel + 1, entries, cs => do
    let (path, name, rest) ← key cs
    let (value, rest) ← item (skipBlanks (← after '=' rest))
    let entries ← insert path name value .braces entries
    match skipBlanks rest with
    | ',' :: rest => braceSettings fuel entries rest
    | '}' :: rest => return (.table .braces entries, rest)
    | _ => none

/-- A table behind its opening brace. -/
def braces (cs : List Char) : Option (Value × List Char) :=
  match skipBlanks cs with
  | '}' :: rest => some (.table .braces [], rest)
  | _ => braceSettings item (cs.length + 1) [] cs

end Containers

/-- A value that nests at most `depth` deep. -/
def value : Nat → List Char → Option (Value × List Char)
  | 0, cs => scalar cs
  | depth + 1, cs =>
    match cs with
    | '[' :: rest => arrayItems (value depth) (rest.length + 1) [] rest
    | '{' :: rest => braces (value depth) rest
    | cs => scalar cs

/-- What follows the rest of a line: blanks, a comment, and the line break
unless the document ends. -/
def lineEnd (cs : List Char) : Option (List Char) :=
  let rest := match skipBlanks cs with
    | '#' :: comment => comment.dropWhile fun c => !isForbidden c
    | rest => rest
  if rest.isEmpty then some [] else lineBreak? rest

/-- What a document defines. -/
structure Document where
  entries : Entries
  /-- The table that settings go to. -/
  current : List String

namespace Document

/-- Nothing is defined. -/
def empty : Document := ⟨[], []⟩

/-- Takes in a header, which `opened` gives to the table of a name. -/
def header (doc : Document) (opened : String → Origin → Entries → Option Entries)
    (path : List String) (name : String) : Option Document := do
  return ⟨← editAt .parent (opened name) path .header doc.entries, path ++ [name]⟩

/-- Takes in a setting. -/
def setting (doc : Document) (path : List String) (name : String) (value : Value) :
    Option Document := do
  let entries ← editAt .parent (insert path name value) doc.current .header doc.entries
  return { doc with entries }

/-- Takes in what stands on a line before its end. -/
def statement (doc : Document) : List Char → Option (Document × List Char)
  | '[' :: '[' :: rest => do
    let (path, name, rest) ← key rest
    let rest ← after ']' (← after ']' rest)
    return (← doc.header openMember path name, rest)
  | '[' :: rest => do
    let (path, name, rest) ← key rest
    let rest ← after ']' rest
    return (← doc.header openTable path name, rest)
  | '#' :: rest => some (doc, '#' :: rest)
  | '\n' :: rest => some (doc, '\n' :: rest)
  | '\r' :: rest => some (doc, '\r' :: rest)
  | cs => do
    let (path, name, rest) ← key cs
    let (value, rest) ← value (depthLimit - 1) (skipBlanks (← after '=' rest))
    return (← doc.setting path name value, rest)

/-- Takes in lines, at most `fuel` of them. -/
def lines : Nat → Document → List Char → Option Document
  | 0, _, _ => none
  | fuel + 1, doc, cs =>
    match skipBlanks cs with
    | [] => some doc
    | cs => do
      let (doc, rest) ← doc.statement cs
      lines fuel doc (← lineEnd rest)

end Document

/-- The characters without a byte order mark at their start. -/
def skipMark : List Char → List Char
  | '\ufeff' :: rest => rest
  | cs => cs

/-- The entries of a document. -/
def read? (text : String) : Option Entries := do
  let cs := skipMark text.toList
  return (← Document.empty.lines (cs.length + 1) cs).entries

end StreamPlan.Toml
