import BranchExclusion.Yaml.Character
import BranchExclusion.Yaml.Plain

/-!
# Writing scalars

* `allowsPlain`, `allowsSingle`, `allowsLiteral`: the styles in which a text can be written;
* `writeSingle`, `writeDouble`, `writeLiteral`: a text in each style but the plain one, which is the
  text itself;
* `writeText`: a text in the plainest style in which it is read back;
* `writeEntry`: one line of a mapping, or several when the text has line breaks.
-/

namespace BranchExclusion.Yaml

/-! ### Which styles a text allows -/

/-- The characters that start no plain scalar. -/
def isLeadingIndicator (c : Char) : Bool := "#,[]\x7b\x7d&*!|>'\"%@`".toList.contains c

/-- The character behind is white space, a line break or the end of the text. The character NUL counts
as the end. -/
def endsBefore : List Char → Bool
  | [] => true
  | c :: _ => isSpace c || isBreak c || c == '\x00'

/-- A plain scalar may not start like this: with an indicator, or a question mark, colon or dash
before white space. -/
def startsBadly : List Char → Bool
  | [] => false
  | c :: rest =>
    isLeadingIndicator c || ((c == '?' || c == ':' || c == '-') && endsBefore rest)

/-- Behind its first character `before`, the text has a colon before white space or a hash sign after
it. -/
def hasIndicator (before : Char) : List Char → Bool
  | [] => false
  | c :: rest =>
    (c == ':' && endsBefore rest) || (c == '#' && endsBefore [before]) || hasIndicator c rest

/-- The text starts like the mark of a document. -/
def startsLikeMark : List Char → Bool
  | '-' :: '-' :: '-' :: _ => true
  | '.' :: '.' :: '.' :: _ => true
  | _ => false

/-- A character that satisfies `p` stands directly before one that satisfies `q`. -/
def hasAdjacent (p q : Char → Bool) : List Char → Bool
  | a :: b :: rest => (p a && q b) || hasAdjacent p q (b :: rest)
  | _ => false

/-- The text can be written without quotes. -/
def allowsPlain (cs : List Char) : Bool :=
  match cs with
  | [] => true
  | c :: rest =>
    !(startsLikeMark cs || startsBadly cs || hasIndicator c rest ||
      cs.any (fun c => !isShown c || isBreak c) || c == ' ' || cs.getLast? == some ' ')

/-- The text can be written in single quotes: every character is shown, and no blank stands next to
a line break. -/
def allowsSingle (cs : List Char) : Bool :=
  cs.all isShown && !hasAdjacent isBreak (· == ' ') cs && !hasAdjacent (· == ' ') isBreak cs

/-- The text can be written as a literal block. -/
def allowsLiteral (cs : List Char) : Bool :=
  cs.all isShown && !hasAdjacent (· == ' ') isBreak cs && cs.getLast? != some ' '

/-! ### The styles -/

/-- The white space that starts the later lines of a text. -/
def lineIndent : List Char := [' ', ' ']

/-- The characters between single quotes. A quote is written twice, and so is a line feed that ends a
line; `broken` says that a line break stands before, behind which the line is indented. -/
def singleBody (broken : Bool) : List Char → List Char
  | [] => if broken then lineIndent else []
  | c :: rest =>
    if isBreak c then
      (if c == '\n' && !broken then ['\n', '\n'] else [c]) ++ singleBody true rest
    else
      (if broken then lineIndent else []) ++ (if c == '\'' then ['\'', '\''] else [c]) ++
        singleBody false rest

/-- The text in single quotes. -/
def writeSingle (cs : List Char) : List Char := ['\''] ++ singleBody false cs ++ ['\'']

/-- The letter of the escape for a character that has one. -/
def escapeLetter? : Char → Option Char
  | '\x00' => some '0'
  | '\x07' => some 'a'
  | '\x08' => some 'b'
  | '\t' => some 't'
  | '\n' => some 'n'
  | '\x0b' => some 'v'
  | '\x0c' => some 'f'
  | '\r' => some 'r'
  | '\x1b' => some 'e'
  | '"' => some '"'
  | '\\' => some '\\'
  | '\u0085' => some 'N'
  | '\u00a0' => some '_'
  | '\u2028' => some 'L'
  | '\u2029' => some 'P'
  | _ => none

/-- The digit for a value below 16, in upper case. -/
def hexDigit (n : Nat) : Char :=
  if n < 10 then Char.ofNat ('0'.toNat + n) else Char.ofNat ('A'.toNat + (n - 10))

/-- The last `width` hexadecimal digits of `n`. -/
def hexText : Nat → Nat → List Char
  | 0, _ => []
  | width + 1, n => hexText width (n / 16) ++ [hexDigit (n % 16)]

/-- The escape of a character. -/
def escapeText (c : Char) : List Char :=
  match escapeLetter? c with
  | some letter => ['\\', letter]
  | none =>
    if c.toNat < 0x100 then ['\\', 'x'] ++ hexText 2 c.toNat
    else if c.toNat < 0x10000 then ['\\', 'u'] ++ hexText 4 c.toNat
    else ['\\', 'U'] ++ hexText 8 c.toNat

/-- The character is written as an escape. -/
def needsEscape (c : Char) : Bool := !isShown c || isBreak c || c == '"' || c == '\\'

/-- The text in double quotes. -/
def writeDouble (cs : List Char) : List Char :=
  ['"'] ++ cs.flatMap (fun c => if needsEscape c then escapeText c else [c]) ++ ['"']

/-- The lines of a literal block; `broken` says that a line starts here. -/
def literalBody (broken : Bool) : List Char → List Char
  | [] => []
  | c :: rest =>
    if isBreak c then c :: literalBody true rest
    else (if broken then lineIndent else []) ++ c :: literalBody false rest

/-- The indentation is given when the text does not show it, and the line ends when they are not one
line feed. -/
def literalHeader (cs : List Char) : List Char :=
  (if cs.head?.any (fun c => c == ' ' || isBreak c) then ['2'] else []) ++
    match cs.reverse with
    | [] => ['-']
    | last :: rest =>
      if !isBreak last then ['-']
      else match rest with
        | [] => ['+']
        | before :: _ => if isBreak before then ['+'] else []

/-- The text as a literal block. -/
def writeLiteral (cs : List Char) : List Char :=
  ['|'] ++ literalHeader cs ++ ['\n'] ++ literalBody true cs

/-- The text in the plainest style in which it is read back. -/
def writeText (text : String) : List Char :=
  let cs := text.toList
  if cs.contains '\n' then
    if allowsLiteral cs then writeLiteral cs else writeDouble cs
  else if !isAmbiguous text && allowsPlain cs then cs
  else if allowsSingle cs then writeSingle cs
  else writeDouble cs

/-- The written scalar has ended its line itself. -/
def endsWithBreak (written : List Char) : Bool := written.getLast?.any isBreak

/-- One entry of a mapping, up to the end of its last line. -/
def writeEntry (key : String) (written : List Char) : List Char :=
  key.toList ++ [':', ' '] ++ written ++ (if endsWithBreak written then [] else ['\n'])

end BranchExclusion.Yaml
