import BranchExclusion.Yaml.Character

/-!
# A place in a YAML text

* `Error`: why a text is not read, one cause for each stage of reading;
* `Cursor`: the rest of the text, with the index, line and column of its first character;
* `Cursor.skip`, `Cursor.skipBreak`: one character or one line break further;
* `Cursor.takeBreak`: a line break in its normal form;
* `Cursor.atDocumentMark`: three dashes or dots that start a line.
-/

namespace BranchExclusion.Yaml

/-- Why a text is not read as YAML. -/
inductive Error
  /-- A control character. -/
  | character
  /-- A character that starts no token, or a key without its colon. -/
  | token
  /-- A scalar that is not closed, or whose escapes, header or indentation are wrong. -/
  | scalar
  /-- A directive that is malformed, repeated or of another version. -/
  | directive
  /-- Tokens that make up no document. -/
  | misplaced
  /-- An alias without its anchor, or a tag with an unknown handle. -/
  | reference
  /-- More than one document. -/
  | documents
  deriving DecidableEq, Repr

/-- The rest of a text and where it starts. -/
structure Cursor where
  rest : List Char
  index : Nat
  line : Nat
  col : Nat
  deriving DecidableEq, Repr

namespace Cursor

/-- The start of a text. -/
def start (text : List Char) : Cursor := ⟨text, 0, 0, 0⟩

/-- `n` characters further in the same line. -/
def skip (c : Cursor) (n : Nat) : Cursor :=
  ⟨c.rest.drop n, c.index + n, c.line, c.col + n⟩

/-- Behind the characters of the line that satisfy `p`. -/
def skipWhile (c : Cursor) (p : Char → Bool) : Cursor :=
  c.skip (c.rest.takeWhile p).length

/-- The line break at the cursor as it counts in a scalar, and the place behind it. A carriage
return, with or without a line feed, and a next-line character count as a line feed. -/
def takeBreak (c : Cursor) : List Char × Cursor :=
  match c.rest with
  | '\r' :: '\n' :: rest => (['\n'], ⟨rest, c.index + 2, c.line + 1, 0⟩)
  | b :: rest =>
    if b == '\u2028' || b == '\u2029' then ([b], ⟨rest, c.index + 1, c.line + 1, 0⟩)
    else if isBreak b then (['\n'], ⟨rest, c.index + 1, c.line + 1, 0⟩)
    else ([], c)
  | [] => ([], c)

/-- Behind the line break at the cursor. -/
def skipBreak (c : Cursor) : Cursor := c.takeBreak.2

/-- The next character is `b`. -/
def sees (c : Cursor) (b : Char) : Bool := c.rest.head? == some b

/-- A line starts here with `---` or `...`, and nothing else in the word. -/
def atDocumentMark (c : Cursor) : Bool :=
  c.col == 0 &&
    match c.rest with
    | '-' :: '-' :: '-' :: rest => endsWord rest
    | '.' :: '.' :: '.' :: rest => endsWord rest
    | _ => false

end Cursor

end BranchExclusion.Yaml
