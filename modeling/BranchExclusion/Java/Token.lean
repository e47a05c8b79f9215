import BranchExclusion.Source.Span
import BranchExclusion.Text.Basic

/-!
# Tokens of Java

* `Place`, `Extent`: a place in a source and a stretch between two places;
* `Word`: what the grammar sees of a token;
* `Token`: a word, number, quoted text, symbol or comment with its extent;
* `tokens`: the tokens of a source, comments included.
-/

namespace BranchExclusion.Java

/-- A place in a source: its byte offset, its line from 1 and its byte offset in the line. -/
structure Place where
  offset : Nat
  line : Nat
  col : Nat
  deriving DecidableEq, Repr, Inhabited

namespace Place

/-- The start of a source. -/
def start : Place := ⟨0, 1, 0⟩

/-- The place behind the character `c`. -/
def advance (p : Place) (c : Char) : Place :=
  if c = '\n' then ⟨p.offset + 1, p.line + 1, 0⟩
  else ⟨p.offset + c.utf8Size, p.line, p.col + c.utf8Size⟩

/-- The place behind a text. -/
def advanceAll (p : Place) (cs : List Char) : Place := cs.foldl advance p

end Place

/-- The stretch between two places. -/
structure Extent where
  start : Place
  stop : Place
  deriving DecidableEq, Repr, Inhabited

namespace Extent

/-- The bytes of the stretch. -/
def range (e : Extent) : ByteRange := ⟨e.start.offset, e.stop.offset⟩

/-- The lines and columns of the stretch. -/
def span (e : Extent) : Span := ⟨e.start.line, e.start.col, e.stop.line, e.stop.col⟩

end Extent

/-- The kinds of tokens. -/
inductive TokenKind
  /-- A keyword or a name. -/
  | word
  | number
  /-- A string, character or text block. -/
  | quoted
  | symbol
  | comment
  /-- Quoted text or a comment that is never closed. -/
  | unclosed
  deriving DecidableEq, Repr

/-- A token. -/
structure Token where
  kind : TokenKind
  text : String
  extent : Extent
  deriving DecidableEq, Repr

/-- The symbol that opens a block. -/
def leftBrace : String := "\x7b"

/-- The symbol that closes a block. -/
def rightBrace : String := "\x7d"

namespace Token

/-- The token is a comment. -/
def isComment (t : Token) : Bool := t.kind == .comment

end Token

/-! ### Words -/

/-- What the grammar sees of a token. -/
structure Word where
  kind : TokenKind
  text : String
  deriving DecidableEq, Repr

namespace Word

/-- The words that are never names. -/
def keywords : List String :=
  ["abstract", "assert", "boolean", "break", "byte", "case", "catch", "char", "class", "const",
    "continue", "default", "do", "double", "else", "enum", "extends", "final", "finally", "float",
    "for", "goto", "if", "implements", "import", "instanceof", "int", "interface", "long", "native",
    "new", "package", "private", "protected", "public", "return", "short", "static", "strictfp",
    "super", "switch", "synchronized", "this", "throw", "throws", "transient", "try", "void",
    "volatile", "while", "true", "false", "null"]

/-- The primitive types. -/
def primitives : List String :=
  ["boolean", "byte", "char", "short", "int", "long", "float", "double"]

/-- The words that may stand before a declaration. -/
def modifiers : List String :=
  ["public", "protected", "private", "abstract", "static", "final", "strictfp", "default",
    "synchronized", "native", "transient", "volatile", "sealed"]

/-- The words that go on with a statement, and never start one. -/
def continuations : List String := ["else", "catch", "finally", "case", "default"]

/-- The symbols behind which an operand has to follow. -/
def operators : List String :=
  ["+", "-", "*", "/", "%", "=", "==", "!=", "<", "<=", ">=", "&&", "||", "&", "|", "^", "!", "~",
    "+=", "-=", "*=", "/=", "&=", "|=", "^=", "%=", "->", "::", "."]

/-- It is the word or symbol `text`. -/
def is (w : Word) (text : String) : Bool := w.text == text

/-- It can name something. -/
def isName (w : Word) : Bool := w.kind == .word && !keywords.contains w.text

/-- It is a modifier. -/
def isModifier (w : Word) : Bool := w.kind == .word && modifiers.contains w.text

/-- It is a primitive type. -/
def isPrimitive (w : Word) : Bool := primitives.contains w.text

/-- It is a bracket that opens. -/
def opens (w : Word) : Bool := w.is "(" || w.is "[" || w.is leftBrace

/-- It is a bracket that closes. -/
def closes (w : Word) : Bool := w.is ")" || w.is "]" || w.is rightBrace

/-- It is no token of Java: it is never closed, or a character that no token starts with. -/
def isStray (w : Word) : Bool :=
  w.kind == .unclosed || (w.kind == .symbol && w.text.toList.any fun c => 128 ≤ c.toNat)

end Word

/-- The word of a token. What stands in quotes makes no difference to the grammar. -/
def Token.word (t : Token) : Word := ⟨t.kind, if t.kind = .quoted then "" else t.text⟩

/-! ### Reading tokens -/

/-- White space between tokens. -/
def isSpace (c : Char) : Bool := c == ' ' || (9 ≤ c.toNat && c.toNat ≤ 13)

/-- Letters, underscore, dollar sign and everything beyond ASCII but white space. -/
def startsWord (c : Char) : Bool :=
  c.isAlpha || c == '_' || c == '$' || (128 ≤ c.toNat && !Text.isBlank c)

/-- The characters of a word. -/
def inWord (c : Char) : Bool := startsWord c || c.isDigit

/-- The symbols of more than one character; of two that fit, the earlier one is taken. -/
def longSymbols : List (List Char) :=
  ["...", "->", "::", "++", "--", "&&", "||", "==", "!=", "<=", ">=", "+=", "-=", "*=", "/=", "&=",
    "|=", "^=", "%="].map String.toList

/-- The text up to the end of the line. -/
def takeLine (cs : List Char) : List Char := cs.takeWhile (· != '\n')

/-- What a character does to a token that is read through its end. -/
inductive Scan (σ : Type)
  /-- The token ends with the character. -/
  | done
  /-- The token is never closed. -/
  | fail
  | next (state : σ)

/-- The text through the end that `step` finds. -/
def takeThrough {σ : Type} (step : σ → Char → Scan σ) : σ → List Char → Option (List Char)
  | _, [] => none
  | state, c :: rest =>
    match step state c with
    | .done => some [c]
    | .fail => none
    | .next state => (takeThrough step state rest).map (c :: ·)

/-- A comment ends with `*/`. The state says that a `*` stands before. -/
def commentStep (star : Bool) (c : Char) : Scan Bool :=
  if star && c == '/' then .done else .next (c == '*')

/-- Quoted text ends with the next quote `q` and has no line end. The state says that a backslash
stands before. -/
def quotedStep (q : Char) (escaped : Bool) (c : Char) : Scan Bool :=
  if escaped then .next false
  else if c == q then .done
  else if c == '\n' then .fail
  else .next (c == '\\')

/-- A text block ends with three quotes. The state counts the quotes before, unless a backslash stands
before. -/
def textBlockStep : Option Nat → Char → Scan (Option Nat)
  | none, _ => .next (some 0)
  | some quotes, c =>
    if c == '"' then if quotes = 2 then .done else .next (some (quotes + 1))
    else if c == '\\' then .next none
    else .next (some 0)

/-- The characters of a number. `hex` says that it started with `0x`, and `sign` that an exponent mark
stands before, behind which a sign may follow. -/
def takeNumber (hex sign : Bool) : List Char → List Char
  | c :: rest =>
    if c.isAlphanum || c == '_' || c == '.' then
      let mark := if hex then c == 'p' || c == 'P' else c == 'e' || c == 'E'
      c :: takeNumber hex mark rest
    else if sign && (c == '+' || c == '-') then c :: takeNumber hex false rest
    else []
  | [] => []

/-- The number starts like a hexadecimal one. -/
def isHex : List Char → Bool
  | '0' :: 'x' :: _ | '0' :: 'X' :: _ => true
  | _ => false

/-- A word, number or symbol that starts with `c`. -/
def plainText (c : Char) (more : List Char) : TokenKind × List Char :=
  if startsWord c then (.word, c :: more.takeWhile inWord)
  else if c.isDigit || (c == '.' && more.head?.any Char.isDigit) then
    (.number, takeNumber (isHex (c :: more)) false (c :: more))
  else
    match longSymbols.find? fun s => s.isPrefixOf (c :: more) with
    | some s => (.symbol, s)
    | none => (.symbol, [c])

/-- A token of that kind behind its `opening`, through its end. -/
def closedText (kind : TokenKind) (opening more : List Char) (taken : Option (List Char)) :
    TokenKind × List Char :=
  match taken with
  | some text => (kind, opening ++ text)
  | none => (.unclosed, opening ++ more)

/-- Kind and text of the token that starts with `c`, which is no white space. -/
def tokenText (c : Char) (rest : List Char) : TokenKind × List Char :=
  match c, rest with
  | '/', '/' :: more => (.comment, '/' :: '/' :: takeLine more)
  | '/', '*' :: more => closedText .comment ['/', '*'] more (takeThrough commentStep false more)
  | '"', '"' :: '"' :: more =>
    closedText .quoted ['"', '"', '"'] more (takeThrough textBlockStep (some 0) more)
  | '"', more => closedText .quoted ['"'] (takeLine more) (takeThrough (quotedStep '"') false more)
  | '\'', more =>
    closedText .quoted ['\''] (takeLine more) (takeThrough (quotedStep '\'') false more)
  | c, more => plainText c more

/-- The tokens from a place on; `fuel` bounds the characters read. -/
def tokensFrom : Nat → Place → List Char → List Token
  | 0, _, _ => []
  | _ + 1, _, [] => []
  | fuel + 1, p, c :: rest =>
    if isSpace c then tokensFrom fuel (p.advance c) rest
    else
      let (kind, text) := tokenText c rest
      let stop := p.advanceAll text
      ⟨kind, String.ofList text, ⟨p, stop⟩⟩ :: tokensFrom fuel stop ((c :: rest).drop text.length)

/-- The tokens of a source, comments included. -/
def tokens (source : List Char) : List Token := tokensFrom source.length Place.start source

end BranchExclusion.Java
