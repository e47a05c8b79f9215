import BranchExclusion.Yaml.Cursor

/-!
# Reading scalars

* `ScalarStyle`: the five ways to write a scalar;
* `Gap`: the white space between two words of a scalar, and what it counts for;
* `readSingle`, `readDouble`, `readPlain`, `readBlock`: a scalar of each kind from the cursor on.
-/

namespace BranchExclusion.Yaml

/-- The ways to write a scalar. -/
inductive ScalarStyle
  | plain
  | singleQuoted
  | doubleQuoted
  | literal
  | folded
  deriving DecidableEq, Repr

/-! ### White space inside a scalar -/

/-- The white space between two words: blanks of one line, or line breaks. -/
inductive Gap
  /-- Blanks and tabs, which count as they are. -/
  | spaces (text : List Char)
  /-- The first line break and those after it; the blanks around them do not count. -/
  | breaks (first more : List Char)
  deriving DecidableEq, Repr

namespace Gap

/-- What the gap counts for: a single line feed is a blank, of several all but the first count, and
any other line break counts itself. -/
def fold : Gap → List Char
  | spaces text => text
  | breaks ['\n'] [] => [' ']
  | breaks ['\n'] more => more
  | breaks first more => first ++ more

/-- The gap contains a line break. -/
def isBreaks : Gap → Bool
  | breaks .. => true
  | spaces _ => false

end Gap

/-- The gap from the cursor on, where `gap` was read before. A tab in a column before `least` that
starts a line is an error when `least` is given. `fuel` bounds the characters read. -/
def readGapFrom (least : Option Int) : Nat → Gap → Cursor → Except Error (Gap × Cursor)
  | 0, gap, c => .ok (gap, c)
  | fuel + 1, gap, c =>
    match c.rest with
    | [] => .ok (gap, c)
    | ch :: _ =>
      if isSpace ch then
        match gap with
        | .spaces text => readGapFrom least fuel (.spaces (text ++ [ch])) (c.skip 1)
        | .breaks first more =>
          if ch == '\t' && least.any (fun n => (c.col : Int) < n) then .error .scalar
          else readGapFrom least fuel (.breaks first more) (c.skip 1)
      else if isBreak ch then
        let (text, c') := c.takeBreak
        match gap with
        | .spaces _ => readGapFrom least fuel (.breaks text []) c'
        | .breaks first more => readGapFrom least fuel (.breaks first (more ++ text)) c'
      else .ok (gap, c)

/-- The gap from the cursor on. -/
def readGap (least : Option Int) (c : Cursor) : Except Error (Gap × Cursor) :=
  readGapFrom least (c.rest.length + 1) (.spaces []) c

/-! ### Single quotes -/

/-- The text up to the next white space or the closing quote, where two quotes stand for one, and
the number of characters that it takes. -/
def singleWord : List Char → List Char × Nat
  | '\'' :: '\'' :: rest => let w := singleWord rest; ('\'' :: w.1, w.2 + 2)
  | c :: rest =>
    if c == '\'' || isSpace c || isBreak c then ([], 0)
    else let w := singleWord rest; (c :: w.1, w.2 + 1)
  | [] => ([], 0)

/-- The rest of a scalar in single quotes, whose text so far is `text`. -/
def readSingleFrom : Nat → List Char → Cursor → Except Error (List Char × Cursor)
  | 0, _, _ => .error .scalar
  | fuel + 1, text, c => do
    if c.atDocumentMark || c.rest.isEmpty then throw .scalar
    let (word, n) := singleWord c.rest
    let c := c.skip n
    if c.sees '\'' then return (text ++ word, c.skip 1)
    let (gap, c) ← readGap none c
    readSingleFrom fuel (text ++ word ++ gap.fold) c

/-- The scalar in single quotes that starts at the cursor. -/
def readSingle (c : Cursor) : Except Error (List Char × Cursor) :=
  readSingleFrom (c.rest.length + 1) [] (c.skip 1)

/-! ### Double quotes -/

/-- The value of the `n` hexadecimal digits that come next. -/
def hexDigits : Nat → List Char → Option Nat
  | 0, _ => some 0
  | n + 1, c :: rest => do return (← hexValue? c) * Nat.pow 16 n + (← hexDigits n rest)
  | _ + 1, [] => none

/-- The character with that code, if there is one. -/
def charOfCode? (code : Nat) : Option Char :=
  if h : code.isValidChar then some (Char.ofNatAux code h) else none

/-- The character that an escape of one letter stands for. -/
def simpleEscape? : Char → Option Char
  | '0' => some '\x00'
  | 'a' => some '\x07'
  | 'b' => some '\x08'
  | 't' => some '\t'
  | '\t' => some '\t'
  | 'n' => some '\n'
  | 'v' => some '\x0b'
  | 'f' => some '\x0c'
  | 'r' => some '\r'
  | 'e' => some '\x1b'
  | ' ' => some ' '
  | '"' => some '"'
  | '/' => some '/'
  | '\\' => some '\\'
  | 'N' => some '\u0085'
  | '_' => some '\u00a0'
  | 'L' => some '\u2028'
  | 'P' => some '\u2029'
  | _ => none

/-- The number of hexadecimal digits that an escape takes. -/
def escapeWidth? : Char → Option Nat
  | 'x' => some 2
  | 'u' => some 4
  | 'U' => some 8
  | _ => none

/-- How a word in double quotes ends. -/
inductive WordEnd
  /-- At white space, the closing quote or the end of the text. -/
  | visible
  /-- At a backslash that hides a line break. -/
  | hiddenBreak
  deriving DecidableEq, Repr

/-- The text up to the next white space or the closing quote, with its escapes resolved, the number
of characters that it takes, and how it ends. `fuel` bounds the characters read. -/
def doubleWord : Nat → List Char → Except Error (List Char × Nat × WordEnd)
  | 0, _ => .ok ([], 0, .visible)
  | _ + 1, [] => .ok ([], 0, .visible)
  | fuel + 1, c :: rest => do
    if c == '"' || isSpace c || isBreak c then return ([], 0, .visible)
    else if c == '\\' then
      match rest with
      | [] => throw .scalar
      | e :: rest =>
        if isBreak e then return ([], 1, .hiddenBreak)
        match simpleEscape? e with
        | some ch =>
          let (word, n, stop) ← doubleWord fuel rest
          return (ch :: word, n + 2, stop)
        | none =>
          match escapeWidth? e with
          | none => throw .scalar
          | some width =>
            match (hexDigits width rest).bind charOfCode? with
            | none => throw .scalar
            | some ch =>
              let (word, n, stop) ← doubleWord fuel (rest.drop width)
              return (ch :: word, n + width + 2, stop)
    else
      let (word, n, stop) ← doubleWord fuel rest
      return (c :: word, n + 1, stop)

/-- The rest of a scalar in double quotes, whose text so far is `text`. -/
def readDoubleFrom : Nat → List Char → Cursor → Except Error (List Char × Cursor)
  | 0, _, _ => .error .scalar
  | fuel + 1, text, c => do
    if c.atDocumentMark || c.rest.isEmpty then throw .scalar
    let (word, n, stop) ← doubleWord (c.rest.length + 1) c.rest
    let c := c.skip n
    match stop with
    | .hiddenBreak =>
      let (gap, c) ← readGapFrom none (c.rest.length + 1) (.breaks [] []) c.skipBreak
      readDoubleFrom fuel (text ++ word ++ gap.fold) c
    | .visible =>
      if c.sees '"' then return (text ++ word, c.skip 1)
      let (gap, c) ← readGap none c
      readDoubleFrom fuel (text ++ word ++ gap.fold) c

/-- The scalar in double quotes that starts at the cursor. -/
def readDouble (c : Cursor) : Except Error (List Char × Cursor) :=
  readDoubleFrom (c.rest.length + 1) [] (c.skip 1)

/-! ### Plain scalars -/

/-- The characters that end a plain word inside brackets. -/
def isFlowIndicator (c : Char) : Bool :=
  c == ',' || c == '[' || c == ']' || c == '{' || c == '}'

/-- The plain word that comes next: up to white space, a colon before white space, and inside
brackets also up to a comma or a bracket. There, a colon directly before one of those is an error. -/
def plainWord (inFlow : Bool) : List Char → Except Error (List Char)
  | [] => .ok []
  | c :: rest =>
    if isSpace c || isBreak c then .ok []
    else if inFlow && c == ':' && rest.head?.any (fun d => isFlowIndicator d || d == '?') then
      .error .scalar
    else if (c == ':' && endsWord rest) || (inFlow && isFlowIndicator c) then .ok []
    else (plainWord inFlow rest).map (c :: ·)

/-- What reading a plain scalar gives: its text, the place behind its last word, and whether white
space with a line break follows. -/
structure PlainScalar where
  text : List Char
  behind : Cursor
  brokenLine : Bool

/-- The rest of a plain scalar, whose text so far is `text` and which the gap `gap` has interrupted.
Every line of it is indented to column `least` at least, brackets apart. -/
def readPlainFrom (inFlow : Bool) (least : Int) :
    Nat → List Char → Gap → Cursor → Except Error PlainScalar
  | 0, _, _, _ => .error .scalar
  | fuel + 1, text, gap, c => do
    if c.atDocumentMark || c.sees '#' then return ⟨text, c, gap.isBreaks⟩
    let word ← plainWord inFlow c.rest
    if word.isEmpty then return ⟨text, c, gap.isBreaks⟩
    let c := c.skip word.length
    let text := text ++ gap.fold ++ word
    match c.rest with
    | [] => return ⟨text, c, false⟩
    | ch :: _ =>
      if !(isSpace ch || isBreak ch) then return ⟨text, c, false⟩
      let (gap, c) ← readGap (some least) c
      if !inFlow && (c.col : Int) < least then return ⟨text, c, gap.isBreaks⟩
      readPlainFrom inFlow least fuel text gap c

/-- The plain scalar that starts at the cursor, in a block of indentation `indent`. -/
def readPlain (inFlow : Bool) (indent : Int) (c : Cursor) : Except Error PlainScalar :=
  readPlainFrom inFlow (indent + 1) (c.rest.length + 1) [] (.spaces []) c

/-! ### Block scalars -/

/-- How many of the line ends at the end of a block scalar count. -/
inductive Chomping
  | strip
  | clip
  | keep
  deriving DecidableEq, Repr

/-- An explicit indentation: one digit other than 0, if there is a digit. -/
def indentationHint : List Char → Except Error (Option Nat × List Char)
  | d :: rest =>
    if d == '0' then .error .scalar
    else if d.isDigit then .ok (some (d.toNat - '0'.toNat), rest)
    else .ok (none, d :: rest)
  | [] => .ok (none, [])

/-- The header of a block scalar: chomping and explicit indentation, in either order. -/
def blockHeader : List Char → Except Error (Chomping × Option Nat × List Char)
  | '+' :: rest => do return (.keep, ← indentationHint rest)
  | '-' :: rest => do return (.strip, ← indentationHint rest)
  | rest => do
    let (width, rest) ← indentationHint rest
    match width, rest with
    | some _, '+' :: rest => return (.keep, width, rest)
    | some _, '-' :: rest => return (.strip, width, rest)
    | _, _ => return (.clip, width, rest)

/-- The line breaks before the next line with content, where lines lose their indentation up to
`indent`, or all of it while that is not known; and the greatest column seen. -/
def blockBreaks (indent : Option Nat) :
    Nat → List Char → Nat → Cursor → Except Error (List Char × Nat × Cursor)
  | 0, breaks, most, c => .ok (breaks, most, c)
  | fuel + 1, breaks, most, c => do
    let blanks := (c.rest.takeWhile (· == ' ')).length
    let c := c.skip (match indent with
      | some n => min blanks (n - c.col)
      | none => blanks)
    let most := max most c.col
    if indent.all (fun n => c.col < n) && c.sees '\t' then throw .scalar
    match c.rest with
    | ch :: _ =>
      if isBreak ch then
        let (text, c) := c.takeBreak
        blockBreaks indent fuel (breaks ++ text) most c
      else return (breaks, most, c)
    | [] => return (breaks, most, c)

/-- The lines of a block scalar, with text `text`, last line end `final` and empty lines `breaks` so
far. `spaced` says that the line before started with white space. -/
def blockLines (literal : Bool) (indent : Nat) :
    Nat → List Char → List Char → List Char → Bool → Cursor →
      Except Error (List Char × List Char × List Char × Cursor)
  | 0, _, _, _, _, _ => .error .scalar
  | fuel + 1, text, final, breaks, spaced, c => do
    if c.col != indent || c.rest.isEmpty then return (text, final, breaks, c)
    let spacedNow := c.rest.head?.any isSpace
    let joint :=
      if !literal && final == ['\n'] && !spaced && !spacedNow then
        if breaks.isEmpty then [' '] else []
      else final
    let line := c.rest.takeWhile fun ch => !isBreak ch
    let (final, c) := (c.skip line.length).takeBreak
    let (breaks', _, c) ← blockBreaks (some indent) (c.rest.length + 1) [] 0 c
    blockLines literal indent fuel (text ++ joint ++ breaks ++ line) final breaks' spacedNow c

/-- The block scalar whose indicator is at the cursor, in a block of indentation `indent`. -/
def readBlock (literal : Bool) (indent : Int) (c : Cursor) : Except Error (List Char × Cursor) := do
  let c := c.skip 1
  let (chomping, width, rest) ← blockHeader c.rest
  let c := (c.skip (c.rest.length - rest.length)).skipWhile isSpace
  let c := if c.sees '#' then c.skipWhile (fun ch => !isBreak ch) else c
  if !endsLine c.rest then throw .scalar
  let c := c.skipBreak
  let known := width.map fun n => if 0 ≤ indent then indent.toNat + n else n
  let (breaks, most, c) ← blockBreaks known (c.rest.length + 1) [] 0 c
  let column := known.getD (max (max most (indent + 1).toNat) 1)
  let (text, final, breaks, c) ←
    blockLines literal column (c.rest.length + 1) [] [] breaks false c
  return (text ++ (if chomping = .strip then [] else final) ++
    (if chomping = .keep then breaks else []), c)

end BranchExclusion.Yaml
