import BranchExclusion.Java.Grammar

/-!
# Reading a source

* `Reader`: what is left to read of the brackets around;
* `read`: the parts that are read where some symbols are expected;
* `Tree.ofSource`: the syntax tree of a source.

A comment becomes a part of the innermost node that has started and not yet ended where the next token
stands, so that no node starts or ends with a comment.
-/

namespace BranchExclusion.Java

/-- The parts of a node, each with what it is to the node. -/
abbrev Parts := List (Role × Tree)

/-! ### Parts of the source as they stand -/

/-- What a token is as a leaf with that role. -/
def Token.leafKind (t : Token) (role : Role) : LeafKind :=
  if role = .name then .name else .fixed t.text

/-- The token as a leaf. A character that starts no token is an error. -/
def Token.tree (t : Token) (role : Role) : Tree :=
  let leaf := .leaf (t.leafKind role) t.extent
  if t.word.isStray then .node .error t.extent [(.part, leaf)] else leaf

/-- The comments before the lexeme. -/
def Lexeme.lead (w : Lexeme) : Parts := w.comments.map fun c => (.part, .leaf .comment c.extent)

/-- The lexeme as a token, behind its comments. -/
def Lexeme.parts (w : Lexeme) (role : Role) : Parts := w.lead ++ [(role, w.token.tree role)]

/-- The lexeme as a token that is part of no brackets. A bracket that closes nothing is an error. -/
def Lexeme.alone (w : Lexeme) (role : Role) : Parts :=
  if w.token.word.closes then
    w.lead ++ [(role, .node .error w.token.extent [(.part, w.token.tree role)])]
  else w.parts role

/-- A token that the source lacks at a place. -/
def lackingAt (what : String) (p : Place) : Role × Tree := (.part, .leaf (.missing what) ⟨p, p⟩)

/-- From the start of the first part to the end of the last, or the place `p` when there is none. -/
def extentOf (p : Place) (parts : Parts) : Extent :=
  ⟨(parts.head?.map fun part => part.2.extent.start).getD p,
    (parts.getLast?.map fun part => part.2.extent.stop).getD p⟩

/-- A node with these parts. Where there is none, something is missing. -/
def nodeOf (role : Role) (kind : NodeKind) (p : Place) (parts : Parts) : Role × Tree :=
  if parts.isEmpty then lackingAt "identifier" p else (role, .node kind (extentOf p parts) parts)

mutual

/-- The chunk as it stands, and where it ends. -/
def Chunk.raw : Chunk → Parts × Place
  | .word w => (w.alone .part, w.token.extent.stop)
  | .group opening inner closing =>
    let (parts, stop) := Chunk.rawAll opening.token.extent.stop inner
    match closing with
    | some c => (opening.parts .part ++ parts ++ c.parts .part, c.token.extent.stop)
    | none => (opening.parts .part ++ parts ++ [lackingAt (closerOf opening.token.word) stop], stop)

/-- The chunks behind a place as they stand, and where they end. -/
def Chunk.rawAll (stop : Place) : List Chunk → Parts × Place
  | [] => ([], stop)
  | c :: rest =>
    let (here, stop) := c.raw
    let (more, stop) := Chunk.rawAll stop rest
    (here ++ more, stop)

end

/-! ### Reading -/

/-- What is left to read of the brackets around. -/
structure Reader where
  chunks : List Chunk
  /-- Where the last token ended. -/
  stop : Place
  deriving Repr

namespace Reader

/-- What the grammar sees of what is left. -/
def view (r : Reader) : List Head := Java.view (r.chunks.map Chunk.head)

/-- The comments that come next, and the rest. -/
def comments (r : Reader) : Parts × Reader :=
  match r.chunks with
  | [] => ([], r)
  | c :: rest => (c.first.lead, { r with chunks := c.bare :: rest })

/-- The next token, of which `parts` makes parts. -/
def token (r : Reader) (parts : Lexeme → Parts) : Parts × Reader :=
  match r.chunks with
  | .word w :: rest => (parts w, ⟨rest, w.token.extent.stop⟩)
  | _ => ([lackingAt "identifier" r.stop], r)

/-- The next token as an error. -/
def unfit (r : Reader) (role : Role) : Parts × Reader :=
  let (lead, r) := r.comments
  let (parts, r) := r.token fun w => w.parts .part
  (lead ++ [nodeOf role .error r.stop parts], r)

/-- The next `n` chunks, as they stand. -/
def raw (r : Reader) (n : Nat) : Parts × Reader :=
  let (parts, stop) := Chunk.rawAll r.stop (r.chunks.take n)
  (if r.chunks.length < n then parts ++ [lackingAt "identifier" stop] else parts,
    ⟨r.chunks.drop n, stop⟩)

/-- What is left fits nothing. -/
def unread (r : Reader) : Parts × Place :=
  let (parts, stop) := Chunk.rawAll r.stop r.chunks
  (if r.chunks.isEmpty then [] else [nodeOf .part .error stop parts], stop)

/-- The end of the brackets that `opening` opens, behind all that they hold. -/
def close (r : Reader) (opening : Word) : Option Lexeme → Parts × Place
  | some c => (r.unread.1 ++ c.parts .part, c.token.extent.stop)
  | none => (r.unread.1 ++ [lackingAt (closerOf opening) r.unread.2], r.unread.2)

end Reader

/-- The parts that are read where `expected` is expected, and what is left then; `fuel` bounds the
depth of the reading. -/
def read : Nat → List Symbol → Reader → Parts × Reader
  | 0, _, r => ([lackingAt "end of file" r.stop], r)
  | _ + 1, [], r => ([], r)
  | fuel + 1, s :: expected, r =>
    let (here, next) := match s with
      | .token role => r.token fun w => w.alone role
      | .unfit role => r.unfit role
      | .raw n => r.raw n
      | .missing what => ([lackingAt what r.stop], r)
      | .phrase p => read fuel (p.expand r.view) r
      | .node role kind =>
        let (lead, r) := r.comments
        let (parts, r) := read fuel [.phrase (.inside kind)] r
        (lead ++ [nodeOf role kind r.stop parts], r)
      | .many p =>
        let symbols := p.expand r.view
        if symbols.isEmpty then ([], r)
        else
          let (first, next) := read fuel symbols r
          if next.chunks.length < r.chunks.length then
            let (more, last) := read fuel [.many p] next
            (first ++ more, last)
          else (first ++ [lackingAt "identifier" next.stop], next)
      | .group opening p =>
        match r.chunks with
        | .group o inner closing :: rest =>
          if o.token.word.is opening then
            let (parts, left) := read fuel [.phrase p] ⟨inner, o.token.extent.stop⟩
            let (last, stop) := left.close o.token.word closing
            (o.parts .part ++ parts ++ last, ⟨rest, stop⟩)
          else ([lackingAt opening r.stop], r)
        | _ => ([lackingAt opening r.stop], r)
    let (more, last) := read fuel expected next
    (here ++ more, last)

/-- More depth than any reading of `n` tokens takes. -/
@[irreducible] def enoughDepth (n : Nat) : Nat := 64 * (n + 2)

/-- The parts of a source. -/
def partsOf (source : List Char) : Parts :=
  let ts := tokens source
  let (ws, comments) := lexemes ts
  let (parts, left) := read (enoughDepth ts.length) [.many .item] ⟨chunks ws, Place.start⟩
  parts ++ left.unread.1 ++ comments.map fun c => (.part, .leaf .comment c.extent)

/-- The syntax tree of a source. -/
def Tree.ofSource (source : List Char) : Tree :=
  let parts := partsOf source
  .node .program (extentOf Place.start parts) parts

end BranchExclusion.Java
