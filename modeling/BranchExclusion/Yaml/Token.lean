import BranchExclusion.Yaml.Scalar

/-!
# Tokens of YAML

Indentation and colons shape a YAML text only in hindsight: that something was a key shows at the
colon behind it. So the tokens are kept in a list into which the token for the key, and the one that
opens its mapping, are inserted later.

* `Token`: the tokens;
* `Tokenizer`: the tokens so far, with the open indentations and the places of possible keys;
* `Tokenizer.step`: one more token;
* `tokens`: all tokens of a text.
-/

namespace BranchExclusion.Yaml

/-- The tokens. A block sequence or mapping is closed by `blockEnd`, also where no character
stands. -/
inductive Token
  | documentStart
  | documentEnd
  | version (major minor : Nat)
  | tagHandle (handle start : String)
  | blockSequence
  | blockMapping
  | blockEnd
  | flowSequence
  | flowSequenceEnd
  | flowMapping
  | flowMappingEnd
  | flowEntry
  | blockEntry
  | key
  | value
  | alias (name : String)
  | anchor (name : String)
  | tag (handle suffix : String)
  | scalar (style : ScalarStyle) (text : String)
  deriving DecidableEq, Repr

/-- A place where a key may have started. -/
structure KeyPlace where
  /-- The number of tokens before it. -/
  token : Nat
  /-- The place starts a line of a block mapping, so a colon has to follow. -/
  required : Bool
  index : Nat
  line : Nat
  col : Nat
  deriving DecidableEq, Repr

/-- The state of reading tokens. -/
structure Tokenizer where
  cursor : Cursor
  tokens : List Token
  /-- The column of the innermost block collection, -1 outside of all. -/
  indent : Int
  /-- The columns of the collections around it, the innermost first. -/
  outer : List Int
  /-- A key may start at the cursor. -/
  keyAllowed : Bool
  /-- The possible key of each bracket that is open and of the block outside of all, the innermost
  first. -/
  places : List (Option KeyPlace)
  deriving Repr

namespace Tokenizer

/-- Nothing read yet. -/
def start (text : List Char) : Tokenizer :=
  ⟨Cursor.start text, [], -1, [], true, [none]⟩

/-- Some bracket is open. -/
def inFlow (t : Tokenizer) : Bool := decide (1 < t.places.length)

/-- One more token. -/
def push (t : Tokenizer) (token : Token) : Tokenizer := { t with tokens := t.tokens ++ [token] }

/-- `token` as the token with number `n`. -/
def insert (t : Tokenizer) (n : Nat) (token : Token) : Tokenizer :=
  { t with tokens := t.tokens.take n ++ token :: t.tokens.drop n }

/-- The innermost possible key set. -/
def setPlace (t : Tokenizer) (p : Option KeyPlace) : Tokenizer :=
  { t with places := p :: t.places.tail }

/-! ### White space -/

/-- The cursor behind white space, comments and line breaks. `fuel` bounds the lines. -/
def skipBlanks : Nat → Tokenizer → Tokenizer
  | 0, t => t
  | fuel + 1, t =>
    let c := t.cursor
    let c := if c.index = 0 && c.sees '\ufeff' then c.skip 1 else c
    let c := c.skipWhile fun ch => ch == ' ' || ((t.inFlow || !t.keyAllowed) && ch == '\t')
    let c := if c.sees '#' then c.skipWhile (fun ch => !isBreak ch) else c
    match c.rest with
    | ch :: _ =>
      if isBreak ch then
        skipBlanks fuel { t with cursor := c.skipBreak, keyAllowed := t.keyAllowed || !t.inFlow }
      else { t with cursor := c }
    | [] => { t with cursor := c }

/-! ### Possible keys and indentation -/

/-- The place is too far behind for a key: in another line, or more than 1024 characters back. -/
def isStale (c : Cursor) (p : KeyPlace) : Bool :=
  decide (p.line < c.line) || decide (p.index + 1024 < c.index)

/-- The possible keys without those that are too far behind. -/
def dropStale (t : Tokenizer) : Except Error Tokenizer :=
  let stale (p : Option KeyPlace) : Bool := p.any (isStale t.cursor)
  if t.places.any fun p => stale p && p.any KeyPlace.required then .error .token
  else .ok { t with places := t.places.map fun p => if stale p then none else p }

/-- The innermost possible key is none after all. -/
def dropPlace (t : Tokenizer) : Except Error Tokenizer :=
  if (t.places.head?.join).any KeyPlace.required then .error .token else .ok (t.setPlace none)

/-- A key may start at the cursor, if keys are allowed here. -/
def markPlace (t : Tokenizer) : Except Error Tokenizer :=
  if t.keyAllowed then do
    let required := !t.inFlow && t.indent == (t.cursor.col : Int)
    let c := t.cursor
    return (← t.dropPlace).setPlace (some ⟨t.tokens.length, required, c.index, c.line, c.col⟩)
  else .ok t

/-- Block collections of a column beyond `col` end one by one, where `outer` are the columns around
the innermost. -/
def unrollFrom (col : Int) : List Int → Tokenizer → Tokenizer
  | [], t => t
  | indent :: outer, t =>
    if col < t.indent then
      unrollFrom col outer { t.push .blockEnd with indent := indent, outer := outer }
    else t

/-- Block collections of a column beyond `col` end, unless some bracket is open. -/
def unroll (t : Tokenizer) (col : Int) : Tokenizer :=
  if t.inFlow then t else unrollFrom col t.outer t

/-- A block collection starts at column `col`, when that is beyond the open ones; its token gets the
number `n`. -/
def roll (t : Tokenizer) (col : Nat) (n : Nat) (token : Token) : Tokenizer :=
  if !t.inFlow && t.indent < (col : Int) then
    { t.insert n token with indent := col, outer := t.indent :: t.outer }
  else t

/-! ### Directives, anchors and tags -/

/-- The characters of a tag besides letters and digits. -/
def isTagChar (verbatim : Bool) (c : Char) : Bool :=
  isWordChar c || ";/?:@&=+$.%!~*'()".toList.contains c ||
    (verbatim && (c == ',' || c == '[' || c == ']'))

/-- The bytes of a tag, where a percent sign and two hexadecimal digits stand for one. -/
def tagBytes : List Char → Option (List UInt8)
  | '%' :: a :: b :: rest => do
    let high ← hexValue? a
    let low ← hexValue? b
    return UInt8.ofNat (16 * high + low) :: (← tagBytes rest)
  | '%' :: _ => none
  | c :: rest => do return (String.singleton c).toUTF8.toList ++ (← tagBytes rest)
  | [] => some []

/-- The text of a tag with its escapes resolved. -/
def tagText (cs : List Char) : Except Error String :=
  match (tagBytes cs).bind fun bytes => String.fromUTF8? ⟨bytes.toArray⟩ with
  | some text => .ok text
  | none => .error .token

/-- A tag handle: an exclamation mark, word characters and perhaps another mark. -/
def takeHandle (c : Cursor) : List Char × Cursor :=
  let word := (c.rest.drop 1).takeWhile isWordChar
  let behind := c.skip (1 + word.length)
  if behind.sees '!' then ('!' :: word ++ ['!'], behind.skip 1) else ('!' :: word, behind)

/-- A number of at most nine digits. -/
def takeNumber (c : Cursor) : Except Error (Nat × Cursor) :=
  let digits := c.rest.takeWhile Char.isDigit
  if digits.isEmpty || decide (9 < digits.length) then .error .directive
  else .ok (digits.foldl (fun n d => 10 * n + (d.toNat - '0'.toNat)) 0, c.skip digits.length)

/-- The version of a directive: two numbers with a dot between them. -/
def takeVersion (c : Cursor) : Except Error (Token × Cursor) := do
  let (major, c) ← takeNumber c
  if !c.sees '.' then throw .directive
  let (minor, c) ← takeNumber (c.skip 1)
  return (.version major minor, c)

/-- A handle and what it stands for, as a directive declares it. -/
def takeTagHandle (c : Cursor) : Except Error (Token × Cursor) := do
  if !c.sees '!' then throw .directive
  let (handle, c) := takeHandle c
  if handle.getLast? != some '!' then throw .directive
  if !c.rest.head?.any isSpace then throw .directive
  let c := c.skipWhile isSpace
  let start := c.rest.takeWhile (isTagChar true)
  if start.isEmpty then throw .directive
  let c := c.skip start.length
  if !endsWord c.rest then throw .directive
  return (.tagHandle (String.ofList handle) (← tagText start), c)

/-- The directive whose percent sign is at the cursor, up to the end of its line. -/
def directive (t : Tokenizer) : Except Error Tokenizer := do
  let c := t.cursor.skip 1
  let name := c.rest.takeWhile isWordChar
  let c := c.skip name.length
  if !endsWord c.rest then throw .directive
  let c := c.skipWhile isSpace
  let (token, c) ←
    if name = "YAML".toList then takeVersion c
    else if name = "TAG".toList then takeTagHandle c
    else throw .directive
  let c := c.skipWhile isSpace
  let c := if c.sees '#' then c.skipWhile (fun ch => !isBreak ch) else c
  if !endsLine c.rest then throw .directive
  return { t.push token with cursor := c.skipBreak }

/-- What may follow an anchor or an alias directly. -/
def endsAnchor : List Char → Bool
  | c :: _ => endsWord [c] || "?:,]\x7d%@`".toList.contains c
  | [] => true

/-- The name of the anchor or alias whose indicator is at the cursor. -/
def takeAnchor (c : Cursor) : Except Error (String × Cursor) :=
  let name := (c.rest.drop 1).takeWhile isWordChar
  let behind := c.skip (1 + name.length)
  if name.isEmpty || !endsAnchor behind.rest then .error .token
  else .ok (String.ofList name, behind)

/-- The tag whose exclamation mark is at the cursor, as handle and suffix. A tag without a handle of
its own has the handle `!`, and the lone mark is a suffix without a handle. -/
def takeTag (inFlow : Bool) (c : Cursor) : Except Error (Token × Cursor) := do
  let (handle, suffix, c) ←
    match c.rest with
    | '!' :: '<' :: rest => do
      let text := rest.takeWhile (isTagChar true)
      let behind := c.skip (2 + text.length)
      if text.isEmpty || !behind.sees '>' then throw .token
      pure ("", ← tagText text, behind.skip 1)
    | _ => do
      let (handle, c) := takeHandle c
      let text := c.rest.takeWhile (isTagChar false)
      let behind := c.skip text.length
      if 1 < handle.length && handle.getLast? = some '!' then
        if text.isEmpty then throw .token
        pure (String.ofList handle, ← tagText text, behind)
      else
        let suffix ← tagText (handle.drop 1 ++ text)
        pure (if suffix.isEmpty then ("", "!", behind) else ("!", suffix, behind))
  if (inFlow && c.sees ',') || endsWord c.rest then return (.tag handle suffix, c)
  else throw .token

/-! ### Tokens -/

/-- The document marks and the end of the text close everything that is open. -/
def closeAll (t : Tokenizer) : Except Error Tokenizer := do
  return { (← (t.unroll (-1)).dropPlace) with keyAllowed := false }

/-- A token of `n` characters, after which a key may or may not start. -/
def emit (t : Tokenizer) (token : Token) (n : Nat) (keyAllowed : Bool) : Tokenizer :=
  { t.push token with cursor := t.cursor.skip n, keyAllowed := keyAllowed }

/-- A bracket opens. -/
def openFlow (t : Tokenizer) (token : Token) : Except Error Tokenizer := do
  let t ← t.markPlace
  return { t with places := none :: t.places }.emit token 1 true

/-- A bracket closes; one that was never opened is left to the grammar. -/
def closeFlow (t : Tokenizer) (token : Token) : Except Error Tokenizer := do
  let t ← t.dropPlace
  let places := if t.inFlow then t.places.tail else t.places
  return { t with places := places }.emit token 1 false

/-- A dash that starts an entry. -/
def blockEntry (t : Tokenizer) : Except Error Tokenizer := do
  if !t.inFlow && !t.keyAllowed then throw .token
  let t ← (t.roll t.cursor.col t.tokens.length .blockSequence).dropPlace
  return t.emit .blockEntry 1 true

/-- A question mark that starts a key. -/
def explicitKey (t : Tokenizer) : Except Error Tokenizer := do
  if !t.inFlow && !t.keyAllowed then throw .token
  let t ← (t.roll t.cursor.col t.tokens.length .blockMapping).dropPlace
  return t.emit .key 1 (!t.inFlow)

/-- A colon. If a key may have started in front of it, that place gets the token for the key. -/
def colon (t : Tokenizer) : Except Error Tokenizer :=
  match t.places.head?.join with
  | some p =>
    let t := (t.insert p.token .key).roll p.col p.token .blockMapping
    .ok ((t.setPlace none).emit .value 1 false)
  | none => do
    if !t.inFlow && !t.keyAllowed then throw .token
    let t := t.roll t.cursor.col t.tokens.length .blockMapping
    return t.emit .value 1 (!t.inFlow)

/-- An anchor or alias. -/
def reference (t : Tokenizer) (token : String → Token) : Except Error Tokenizer := do
  let t ← t.markPlace
  let (name, c) ← takeAnchor t.cursor
  return { t.push (token name) with cursor := c, keyAllowed := false }

/-- A tag. -/
def tag (t : Tokenizer) : Except Error Tokenizer := do
  let t ← t.markPlace
  let (token, c) ← takeTag t.inFlow t.cursor
  return { t.push token with cursor := c, keyAllowed := false }

/-- A block scalar. -/
def blockScalar (t : Tokenizer) (style : ScalarStyle) : Except Error Tokenizer := do
  let t ← t.dropPlace
  let (text, c) ← readBlock (style == .literal) t.indent t.cursor
  return { t.push (.scalar style (String.ofList text)) with cursor := c, keyAllowed := true }

/-- A scalar in quotes. -/
def quotedScalar (t : Tokenizer) (style : ScalarStyle) : Except Error Tokenizer := do
  let t ← t.markPlace
  let (text, c) ← if style = .singleQuoted then readSingle t.cursor else readDouble t.cursor
  return { t.push (.scalar style (String.ofList text)) with cursor := c, keyAllowed := false }

/-- A plain scalar. -/
def plainScalar (t : Tokenizer) : Except Error Tokenizer := do
  let t ← t.markPlace
  let scalar ← readPlain t.inFlow t.indent t.cursor
  return { t.push (.scalar .plain (String.ofList scalar.text)) with
    cursor := scalar.behind, keyAllowed := scalar.brokenLine }

/-- A plain scalar may start with the first of these characters. -/
def startsPlain (inFlow : Bool) : List Char → Bool
  | [] => false
  | c :: rest =>
    let spaceNext := endsWord rest
    if c == '-' then !rest.head?.any isSpace
    else if c == '?' || c == ':' then !inFlow && !spaceNext
    else !(isSpace c || isBreak c || isFlowIndicator c || "#&*!|>'\"%@`".toList.contains c)

/-- The token at the cursor, where no white space is. -/
def token (t : Tokenizer) (c : Char) (rest : List Char) : Except Error Tokenizer := do
  let spaceNext := endsWord rest
  if t.cursor.col = 0 && c == '%' then
    (← t.closeAll).directive
  else if t.cursor.atDocumentMark then
    return (← t.closeAll).emit (if c == '-' then .documentStart else .documentEnd) 3 false
  else if c == '[' then t.openFlow .flowSequence
  else if c == '{' then t.openFlow .flowMapping
  else if c == ']' then t.closeFlow .flowSequenceEnd
  else if c == '}' then t.closeFlow .flowMappingEnd
  else if c == ',' then return (← t.dropPlace).emit .flowEntry 1 true
  else if c == '-' && spaceNext then t.blockEntry
  else if c == '?' && (t.inFlow || spaceNext) then t.explicitKey
  else if c == ':' && (t.inFlow || spaceNext) then t.colon
  else if c == '*' then t.reference .alias
  else if c == '&' then t.reference .anchor
  else if c == '!' then t.tag
  else if c == '|' && !t.inFlow then t.blockScalar .literal
  else if c == '>' && !t.inFlow then t.blockScalar .folded
  else if c == '\'' then t.quotedScalar .singleQuoted
  else if c == '"' then t.quotedScalar .doubleQuoted
  else if startsPlain t.inFlow (c :: rest) then t.plainScalar
  else throw .token

/-- One more token, or at the end of the text none and everything closed. The flag says that the
text is at its end. -/
def step (t : Tokenizer) : Except Error (Bool × Tokenizer) := do
  let t ← (t.skipBlanks (t.cursor.rest.length + 1)).dropStale
  let t := t.unroll t.cursor.col
  match t.cursor.rest with
  | [] => return (true, ← t.closeAll)
  | c :: rest => return (false, ← t.token c rest)

/-- Tokens until the end of the text; `fuel` bounds their number. -/
def run : Nat → Tokenizer → Except Error (List Token)
  | 0, _ => .error .token
  | fuel + 1, t => do
    let (done, t) ← t.step
    if done then return t.tokens else run fuel t

end Tokenizer

/-- A text without the byte order mark at its start. -/
def dropMark : List Char → List Char
  | '\ufeff' :: rest => rest
  | cs => cs

/-- All tokens of a text. -/
def tokens (text : List Char) : Except Error (List Token) :=
  let text := dropMark text
  if text.all isAllowed then Tokenizer.run (text.length + 2) (Tokenizer.start text)
  else .error .character

end BranchExclusion.Yaml
