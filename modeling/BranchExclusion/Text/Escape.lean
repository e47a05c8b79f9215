import BranchExclusion.Text.GraphemeExtend
import BranchExclusion.Text.Unprintable

/-!
# A text as a message shows it

* `escape`: quotes, backslashes and the common controls get a backslash, and a character without a
  visible form is written as its code point. A combining mark is written as its code point only at the
  start of the text, where it would combine with the quote before it.
-/

namespace BranchExclusion.Text

/-- The code point of `c` in lower-case hexadecimal, as `\u`, a brace, the digits and a brace. -/
def codePoint (c : Char) : List Char :=
  ['\\', 'u', '{'] ++ Nat.toDigits 16 c.toNat ++ ['}']

/-- One character of a message; `atStart` says that no character comes before it. -/
def escapeChar (atStart : Bool) (c : Char) : List Char :=
  match c with
  | '\x00' => ['\\', '0']
  | '\t' => ['\\', 't']
  | '\r' => ['\\', 'r']
  | '\n' => ['\\', 'n']
  | '\'' => ['\\', '\'']
  | '"' => ['\\', '"']
  | '\\' => ['\\', '\\']
  | c =>
    if atStart && extendsGrapheme c then codePoint c
    else if isPrintable c then [c]
    else codePoint c

/-- The whole text, character by character. -/
def escape : List Char → List Char
  | [] => []
  | c :: cs => escapeChar true c ++ cs.flatMap (escapeChar false)

end BranchExclusion.Text
