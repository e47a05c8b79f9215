import BranchExclusion.Yaml.Token

/-!
# Documents of YAML

* `Node`: scalars with their tags, sequences and mappings, where every alias stands for its node;
* `Reader`: the tokens that are left and the anchors so far;
* `Reader.read`: what the next tokens make up;
* `readDocument`: the only document of a text, if there is one.
-/

namespace BranchExclusion.Yaml

/-- A document, or a part of one. -/
inductive Node
  | scalar (tag : Option String) (style : ScalarStyle) (text : String)
  | sequence (items : List Node)
  | mapping (entries : List (Node × Node))
  deriving Repr

namespace Node

/-- The scalar that stands where a node is left out. -/
def empty : Node := .scalar none .plain ""

/-- The sequence with one more item in front. -/
def prepend (more item : Node) : Node :=
  match more with
  | .sequence items => .sequence (item :: items)
  | other => other

/-- The mapping with one more entry in front. -/
def prependEntry (more key value : Node) : Node :=
  match more with
  | .mapping entries => .mapping ((key, value) :: entries)
  | other => other

end Node

/-- The state of reading nodes: the tokens that are left and the anchors met. -/
structure Reader where
  rest : List Token
  anchors : List (String × Node)

/-- Tag handles with what they stand for. -/
abbrev TagHandles := List (String × String)

/-- The handles that need no directive. -/
def standardHandles : TagHandles := [("!", "!"), ("!!", "tag:yaml.org,2002:")]

/-- Anchor and tag in front of a node. -/
structure Properties where
  anchor : Option String
  tag : Option String

namespace Reader

/-- Behind the next token. -/
def skip (r : Reader) : Reader := { r with rest := r.rest.tail }

/-- The next token is `token`. -/
def sees (r : Reader) (token : Token) : Bool := r.rest.head? == some token

/-- The next token is one of `tokens`, or there is none. -/
def seesAny (r : Reader) (tokens : List Token) : Bool :=
  match r.rest with
  | [] => true
  | token :: _ => tokens.contains token

/-- The full form of a tag. The lone mark is no tag. -/
def resolveTag (handles : TagHandles) (handle suffix : String) : Except Error (Option String) :=
  if handle.isEmpty then .ok (if suffix = "!" then none else some suffix)
  else
    match handles.lookup handle with
    | some start => .ok (some (start ++ suffix))
    | none => .error .reference

/-- Anchor and tag in front of a node, in either order, and whether there is any. -/
def properties (handles : TagHandles) (r : Reader) : Except Error (Properties × Bool × Reader) := do
  match r.rest with
  | .anchor name :: .tag handle suffix :: rest =>
    return (⟨some name, ← resolveTag handles handle suffix⟩, true, { r with rest := rest })
  | .tag handle suffix :: .anchor name :: rest =>
    return (⟨some name, ← resolveTag handles handle suffix⟩, true, { r with rest := rest })
  | .anchor name :: rest => return (⟨some name, none⟩, true, { r with rest := rest })
  | .tag handle suffix :: rest =>
    return (⟨none, ← resolveTag handles handle suffix⟩, true, { r with rest := rest })
  | _ => return (⟨none, none⟩, false, r)

/-- The node with its anchor remembered. -/
def remember (p : Properties) (node : Node) (r : Reader) : Node × Reader :=
  match p.anchor with
  | some name => (node, { r with anchors := (name, node) :: r.anchors })
  | none => (node, r)

/-- What can be read from the next tokens. -/
inductive Goal
  /-- A node; in a block it may be a block collection, and behind a key a sequence whose dashes
  stand in the column of the key. -/
  | node (block indentless : Bool)
  /-- The entries of a block sequence. -/
  | blockItems
  /-- The entries of a sequence in the column of its key. -/
  | indentlessItems
  /-- The entries of a block mapping. -/
  | blockEntries
  /-- The items of a sequence in brackets. -/
  | flowItems (first : Bool)
  /-- The entries of a mapping in braces. -/
  | flowEntries (first : Bool)

/-- Reads `goal`, where entries come as a mapping and items as a sequence. Every step down takes one
of `fuel`. -/
def read (handles : TagHandles) : Nat → Goal → Reader → Except Error (Node × Reader)
  | 0, _, _ => .error .misplaced
  | fuel + 1, .node block indentless, r => do
    if let .alias name :: rest := r.rest then
      match r.anchors.lookup name with
      | some node => return (node, { r with rest := rest })
      | none => throw .reference
    let (p, any, r) ← properties handles r
    match r.rest with
    | .blockEntry :: _ =>
      if indentless then
        let (node, r) ← read handles fuel .indentlessItems r
        return remember p node r
      else if any then return remember p (.scalar p.tag .plain "") r
      else throw .misplaced
    | .scalar style text :: _ => return remember p (.scalar p.tag style text) r.skip
    | .flowSequence :: _ =>
      let (node, r) ← read handles fuel (.flowItems true) r.skip
      return remember p node r
    | .flowMapping :: _ =>
      let (node, r) ← read handles fuel (.flowEntries true) r.skip
      return remember p node r
    | .blockSequence :: _ =>
      if block then
        let (node, r) ← read handles fuel .blockItems r.skip
        return remember p node r
      else if any then return remember p (.scalar p.tag .plain "") r
      else throw .misplaced
    | .blockMapping :: _ =>
      if block then
        let (node, r) ← read handles fuel .blockEntries r.skip
        return remember p node r
      else if any then return remember p (.scalar p.tag .plain "") r
      else throw .misplaced
    | _ => if any then return remember p (.scalar p.tag .plain "") r else throw .misplaced
  | fuel + 1, .blockItems, r => do
    match r.rest with
    | .blockEntry :: _ =>
      let r := r.skip
      let (item, r) ←
        if r.seesAny [.blockEntry, .blockEnd] then pure (Node.empty, r)
        else read handles fuel (.node true false) r
      let (more, r) ← read handles fuel .blockItems r
      return (more.prepend item, r)
    | .blockEnd :: _ => return (.sequence [], r.skip)
    | _ => throw .misplaced
  | fuel + 1, .indentlessItems, r => do
    match r.rest with
    | .blockEntry :: _ =>
      let r := r.skip
      let (item, r) ←
        if r.seesAny [.blockEntry, .key, .value, .blockEnd] then pure (Node.empty, r)
        else read handles fuel (.node true false) r
      let (more, r) ← read handles fuel .indentlessItems r
      return (more.prepend item, r)
    | _ => return (.sequence [], r)
  | fuel + 1, .blockEntries, r => do
    match r.rest with
    | .key :: _ =>
      let r := r.skip
      let (key, r) ←
        if r.seesAny [.key, .value, .blockEnd] then pure (Node.empty, r)
        else read handles fuel (.node true true) r
      let (value, r) ←
        if r.sees .value then
          let r := r.skip
          if r.seesAny [.key, .value, .blockEnd] then pure (Node.empty, r)
          else read handles fuel (.node true true) r
        else pure (Node.empty, r)
      let (more, r) ← read handles fuel .blockEntries r
      return (more.prependEntry key value, r)
    | .blockEnd :: _ => return (.mapping [], r.skip)
    | _ => throw .misplaced
  | fuel + 1, .flowItems first, r => do
    if r.sees .flowSequenceEnd then return (.sequence [], r.skip)
    let r ← if first then pure r else if r.sees .flowEntry then pure r.skip else throw .misplaced
    if r.sees .flowSequenceEnd then return (.sequence [], r.skip)
    let (item, r) ←
      if r.sees .key then
        let r := r.skip
        let (key, r) ←
          if r.seesAny [.value, .flowEntry, .flowSequenceEnd] then pure (Node.empty, r)
          else read handles fuel (.node false false) r
        let (value, r) ←
          if r.sees .value then
            let r := r.skip
            if r.seesAny [.flowEntry, .flowSequenceEnd] then pure (Node.empty, r)
            else read handles fuel (.node false false) r
          else pure (Node.empty, r)
        pure (Node.mapping [(key, value)], r)
      else read handles fuel (.node false false) r
    let (more, r) ← read handles fuel (.flowItems false) r
    return (more.prepend item, r)
  | fuel + 1, .flowEntries first, r => do
    if r.sees .flowMappingEnd then return (.mapping [], r.skip)
    let r ← if first then pure r else if r.sees .flowEntry then pure r.skip else throw .misplaced
    if r.sees .flowMappingEnd then return (.mapping [], r.skip)
    let (key, value, r) ←
      if r.sees .key then
        let r := r.skip
        let (key, r) ←
          if r.seesAny [.value, .flowEntry, .flowMappingEnd] then pure (Node.empty, r)
          else read handles fuel (.node false false) r
        let (value, r) ←
          if r.sees .value then
            let r := r.skip
            if r.seesAny [.flowEntry, .flowMappingEnd] then pure (Node.empty, r)
            else read handles fuel (.node false false) r
          else pure (Node.empty, r)
        pure (key, value, r)
      else
        let (key, r) ← read handles fuel (.node false false) r
        pure (key, Node.empty, r)
    let (more, r) ← read handles fuel (.flowEntries false) r
    return (more.prependEntry key value, r)

end Reader

/-! ### Documents -/

/-- The directives in front of a document. -/
structure Directives where
  version : Bool
  handles : TagHandles

/-- The directives that come next. A version other than 1.1 and 1.2, a second version and a second
meaning of a handle are errors. -/
def readDirectives : Directives → List Token → Except Error (Directives × List Token)
  | d, .version major minor :: rest =>
    if d.version || major != 1 || !(minor == 1 || minor == 2) then .error .directive
    else readDirectives { d with version := true } rest
  | d, .tagHandle handle start :: rest =>
    if (d.handles.lookup handle).isSome then .error .directive
    else readDirectives { d with handles := (handle, start) :: d.handles } rest
  | d, rest => .ok (d, rest)

/-- The tokens start with a directive. -/
def startsWithDirective : List Token → Bool
  | .version .. :: _ | .tagHandle .. :: _ => true
  | _ => false

/-- The node that starts here, with the tokens behind it. -/
def readNode (handles : TagHandles) (tokens : List Token) : Except Error (Node × List Token) := do
  let (node, r) ← Reader.read (handles ++ standardHandles) (2 * tokens.length + 2)
    (.node true false) ⟨tokens, []⟩
  return (node, r.rest)

/-- The content of the document whose start is marked, which may be left out. -/
def readContent (handles : TagHandles) (tokens : List Token) : Except Error (Node × List Token) :=
  match tokens with
  | [] | .documentStart :: _ | .documentEnd :: _ | .version .. :: _ | .tagHandle .. :: _ =>
    .ok (Node.empty, tokens)
  | _ => readNode handles tokens

/-- The only document of a token list; none when there are no tokens. -/
def documentOfTokens (tokens : List Token) : Except Error (Option Node) := do
  match tokens with
  | [] => return none
  | _ =>
    let (node, rest) ←
      if startsWithDirective tokens || tokens.head? == some .documentStart then
        let (d, rest) ← readDirectives ⟨false, []⟩ tokens
        match rest with
        | .documentStart :: rest => readContent d.handles rest
        | _ => throw .misplaced
      else readNode [] tokens
    if (rest.dropWhile (· == .documentEnd)).isEmpty then return some node else throw .documents

/-- The only document of a text; none when the text has no content at all. -/
def readDocument (text : String) : Except Error (Option Node) := do
  documentOfTokens (← tokens text.toList)

end BranchExclusion.Yaml
