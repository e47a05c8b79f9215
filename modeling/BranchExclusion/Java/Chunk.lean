import BranchExclusion.Java.Token
import BranchExclusion.Java.Tree

/-!
# Tokens in brackets

The grammar reads tokens bracket by bracket. Inside a pair of brackets it sees nothing of what stands
around them, and from the outside next to nothing of what they hold.

* `Lexeme`: a token with the comments before it;
* `Chunk`: a token, or a pair of brackets with what they hold;
* `chunks`: the chunks of a list of lexemes;
* `Head`: what the grammar sees of a chunk;
* `view`: what it sees of the chunks that follow, up to the end of the statement or to a block.

A bracket that is never closed holds what follows it up to the end of the brackets around it, and a
closing bracket that fits no open one stands as a token.
-/

namespace BranchExclusion.Java

/-- A token with the comments before it. -/
structure Lexeme where
  comments : List Token
  token : Token
  deriving Repr

/-- The lexemes of a list of tokens, where `comments` stand before, and the comments at the end. -/
def lexemesFrom (comments : List Token) : List Token → List Lexeme × List Token
  | [] => ([], comments)
  | t :: rest =>
    if t.isComment then lexemesFrom (comments ++ [t]) rest
    else
      let (more, last) := lexemesFrom [] rest
      (⟨comments, t⟩ :: more, last)

/-- The lexemes of a source and the comments at its end. -/
def lexemes (ts : List Token) : List Lexeme × List Token := lexemesFrom [] ts

/-- A token that is no bracket, or a pair of brackets. -/
inductive Chunk
  | word (w : Lexeme)
  /-- A bracket that may never be closed. -/
  | group (opening : Lexeme) (inner : List Chunk) (closing : Option Lexeme)
  deriving Repr

/-- The bracket that closes one that opens. -/
def closerOf (opening : Word) : String :=
  if opening.is "(" then ")" else if opening.is "[" then "]" else rightBrace

/-! ### Pairing brackets -/

/-- Lexemes that were read, with the brackets that are still open. -/
structure Pairing where
  /-- The open brackets, the innermost one first, each with the chunks before it. -/
  pending : List (Lexeme × List Chunk)
  /-- What the innermost open bracket holds so far. -/
  held : List Chunk

namespace Pairing

/-- A closing bracket is met. Parentheses that a brace closes are never closed, and nothing else closes
a brace. -/
def close? (closing : Lexeme) : List (Lexeme × List Chunk) → List Chunk → Option Pairing
  | [], _ => none
  | (opening, before) :: outer, held =>
    if closing.token.word.is (closerOf opening.token.word) then
      some ⟨outer, before ++ [.group opening held (some closing)]⟩
    else if opening.token.word.is leftBrace then none
    else close? closing outer (before ++ [.group opening held none])

/-- One more lexeme. -/
def put (p : Pairing) (w : Lexeme) : Pairing :=
  if w.token.word.opens then ⟨(w, p.held) :: p.pending, []⟩
  else if w.token.word.closes then
    (close? w p.pending p.held).getD { p with held := p.held ++ [.word w] }
  else { p with held := p.held ++ [.word w] }

/-- The chunks, brackets that are still open never being closed. -/
def finish (p : Pairing) : List Chunk :=
  p.pending.foldl (fun held o => o.2 ++ [.group o.1 held none]) p.held

end Pairing

/-- The chunks of a list of lexemes. -/
def chunks (ws : List Lexeme) : List Chunk := (ws.foldl Pairing.put ⟨[], []⟩).finish

/-! ### What the grammar sees -/

/-- What the grammar sees of a chunk. -/
structure Head extends Word where
  /-- The chunk is a pair of parentheses that holds a semicolon. -/
  counts : Bool
  deriving DecidableEq, Repr

namespace Chunk

/-- The first lexeme. -/
def first : Chunk → Lexeme
  | word w => w
  | group opening _ _ => opening

/-- The chunk with no comments before it. -/
def bare : Chunk → Chunk
  | word w => word ⟨[], w.token⟩
  | group opening inner closing => group ⟨[], opening.token⟩ inner closing

/-- The chunk is a semicolon. -/
def isSemicolon : Chunk → Bool
  | word w => w.token.word.is ";"
  | group .. => false

/-- What the grammar sees of the chunk. -/
def head : Chunk → Head
  | word w => ⟨w.token.word, false⟩
  | group opening inner _ =>
    ⟨opening.token.word, opening.token.word.is "(" && inner.any isSemicolon⟩

end Chunk

/-- The grammar sees nothing of what follows a semicolon or a block. -/
def Head.stops (h : Head) : Bool := h.is ";" || h.is leftBrace

/-- What the grammar sees of what follows. -/
def view : List Head → List Head
  | [] => []
  | h :: rest => if h.stops then [h] else h :: view rest

end BranchExclusion.Java
