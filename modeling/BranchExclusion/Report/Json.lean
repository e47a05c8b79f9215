import BranchExclusion.Transform.File

/-!
# Reports as JSON

* `Json`: the values that reports are made of;
* `Json.render`: their text, one entry a line and two blanks for each level;
* `ChainReport.toJson`, `FileResult.toJson`: what the report says about a chain and about a file;
* `reportText`: the report about all files of a run.
-/

namespace BranchExclusion

/-- A JSON value. -/
inductive Json
  | text (value : String)
  | number (value : Nat)
  | flag (value : Bool)
  | list (values : List Json)
  | record (fields : List (String × Json))

namespace Json

/-- A digit of a code point in lower-case hexadecimal. -/
def hexDigit (n : Nat) : Char := Nat.digitChar (n % 16)

/-- A character of a text. Quotes, backslashes and controls are escaped, and nothing else is. -/
def escapeChar (c : Char) : List Char :=
  match c with
  | '"' => ['\\', '"']
  | '\\' => ['\\', '\\']
  | '\n' => ['\\', 'n']
  | '\r' => ['\\', 'r']
  | '\t' => ['\\', 't']
  | '\x08' => ['\\', 'b']
  | '\x0c' => ['\\', 'f']
  | c =>
    if c.toNat < 32 then ['\\', 'u', '0', '0', hexDigit (c.toNat / 16), hexDigit c.toNat] else [c]

/-- A text in quotes. -/
def quote (text : String) : List Char := '"' :: text.toList.flatMap escapeChar ++ ['"']

/-- The start of a line of some depth, with the line end before it. -/
def newLine (depth : Nat) : List Char := '\n' :: List.replicate (2 * depth) ' '

/-- Entries in brackets, each on a line of its own, where those of an entry are `depth` deep. -/
def bracket (opened closed : Char) (depth : Nat) (entries : List (List Char)) : List Char :=
  if entries = [] then [opened, closed]
  else
    opened :: [','].intercalate (entries.map (newLine (depth + 1) ++ ·)) ++ newLine depth ++ [closed]

mutual

/-- The text of a value that starts in a line of some depth. -/
def renderAt (depth : Nat) : Json → List Char
  | text value => quote value
  | number value => (toString value).toList
  | flag value => (toString value).toList
  | list values => bracket '[' ']' depth (renderValues (depth + 1) values)
  | record fields => bracket '{' '}' depth (renderFields (depth + 1) fields)

/-- The texts of the values of a list. -/
def renderValues (depth : Nat) : List Json → List (List Char)
  | [] => []
  | v :: rest => v.renderAt depth :: renderValues depth rest

/-- The texts of the fields of a record. -/
def renderFields (depth : Nat) : List (String × Json) → List (List Char)
  | [] => []
  | f :: rest => (quote f.1 ++ [':', ' '] ++ f.2.renderAt depth) :: renderFields depth rest

end

/-- The text of a value. -/
def render (v : Json) : String := String.ofList (v.renderAt 0)

end Json

/-- What the report says about a chain. -/
def ChainReport.toJson (r : ChainReport) : Json :=
  .record [("owner", .text r.owner), ("method", .text r.method), ("line", .number r.line),
    ("members", .list (r.members.map .number)), ("returns_from_branch", .flag r.returnsFromBranch)]

/-- What the report says about a file. -/
def FileResult.toJson (r : FileResult) : Json :=
  .record [("file", .text r.path), ("modified", .flag r.modified),
    ("chains", .list (r.chains.map ChainReport.toJson)), ("errors", .list (r.errors.map .text))]

/-- The report about all files of a run. -/
def reportText (results : List FileResult) : String :=
  (Json.list (results.map FileResult.toJson)).render

end BranchExclusion
