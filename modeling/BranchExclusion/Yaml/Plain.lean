/-!
# What a plain scalar means

A plain scalar is null, a truth value, a number or else a text.

* `isNull`, `isBool`: the words for null and for truth values;
* `readUnsigned`: integers without a minus sign, below a bound;
* `isInteger`, `isFraction`: the numbers among plain scalars;
* `isAmbiguous`: the texts that need quotes, because a plain scalar with these characters is no text.
-/

namespace BranchExclusion.Yaml

/-- The words for null, other than an empty text. -/
def isNull (text : String) : Bool := ["null", "Null", "NULL", "~"].contains text

/-- The words for truth values. -/
def isBool (text : String) : Bool :=
  ["true", "True", "TRUE", "false", "False", "FALSE"].contains text

/-! ### Integers -/

/-- The value of a digit up to `z`. -/
def digitValue? (c : Char) : Option Nat :=
  if '0' ≤ c ∧ c ≤ '9' then some (c.toNat - '0'.toNat)
  else if 'a' ≤ c ∧ c ≤ 'z' then some (c.toNat - 'a'.toNat + 10)
  else if 'A' ≤ c ∧ c ≤ 'Z' then some (c.toNat - 'A'.toNat + 10)
  else none

/-- The number that digits in a base stand for, with `value` for those before them. -/
def digitsFrom (base value : Nat) : List Char → Option Nat
  | [] => some value
  | c :: rest =>
    match digitValue? c with
    | some d => if d < base then digitsFrom base (base * value + d) rest else none
    | none => none

/-- The number that one or more digits in a base stand for. -/
def readDigits (base : Nat) : List Char → Option Nat
  | [] => none
  | cs => digitsFrom base 0 cs

/-- The characters without one sign at the start. -/
def dropSign : List Char → List Char
  | '+' :: rest => rest
  | '-' :: rest => rest
  | cs => cs

/-- Several digits of which the first is 0, with or without a sign: a text, and no number. -/
def hasLeadingZero (cs : List Char) : Bool :=
  match dropSign cs with
  | '0' :: d :: rest => (d :: rest).all Char.isDigit
  | _ => false

/-- An integer without a minus sign: decimal, or behind `0x`, `0o` or `0b` in that base. -/
def readNatural (cs : List Char) : Option Nat :=
  let body := match cs with
    | '+' :: rest => rest
    | cs => cs
  let based := match body with
    | '0' :: 'x' :: rest => readDigits 16 rest
    | '0' :: 'o' :: rest => readDigits 8 rest
    | '0' :: 'b' :: rest => readDigits 2 rest
    | _ => none
  match based with
  | some n => some n
  | none => if hasLeadingZero cs then none else readDigits 10 body

/-- An integer without a minus sign that is below `bound`. -/
def readUnsigned (bound : Nat) (text : String) : Option Nat :=
  (readNatural text.toList).filter fun n => decide (n < bound)

/-- An integer with a minus sign, by its distance from 0. -/
def readNegative (cs : List Char) : Option Nat :=
  match cs with
  | '-' :: body =>
    let based := match body with
      | '0' :: 'x' :: rest => readDigits 16 rest
      | '0' :: 'o' :: rest => readDigits 8 rest
      | '0' :: 'b' :: rest => readDigits 2 rest
      | _ => none
    match based with
    | some n => some n
    | none => if hasLeadingZero cs then none else readDigits 10 body
  | _ => none

/-- The integers that fit in 128 bits, with or without a sign. -/
def isInteger (cs : List Char) : Bool :=
  (readNatural cs).any (fun n => decide (n < Nat.pow 2 128)) ||
    (readNegative cs).any (fun n => decide (n ≤ Nat.pow 2 127))

/-! ### Decimal fractions -/

/-- A decimal fraction without sign: all digits as one number, and the power of ten it is to be
multiplied with. -/
structure Decimal where
  digits : Nat
  exponent : Int

/-- The exponent of a decimal fraction, when nothing but one follows. -/
def readExponent : List Char → Option Int
  | [] => some 0
  | e :: rest =>
    if e == 'e' || e == 'E' then
      match rest with
      | '-' :: ds => (readDigits 10 ds).map fun n => -(n : Int)
      | '+' :: ds => (readDigits 10 ds).map fun n => (n : Int)
      | ds => (readDigits 10 ds).map fun n => (n : Int)
    else none

/-- A decimal fraction without sign: digits with or without a point, and perhaps an exponent. -/
def readDecimal (cs : List Char) : Option Decimal :=
  let whole := cs.takeWhile Char.isDigit
  let behind := cs.dropWhile Char.isDigit
  let (part, behind) := match behind with
    | '.' :: rest => (rest.takeWhile Char.isDigit, rest.dropWhile Char.isDigit)
    | rest => ([], rest)
  match readDigits 10 (whole ++ part), readExponent behind with
  | some digits, some exponent => some ⟨digits, exponent - part.length⟩
  | _, _ => none

/-- The least number that is rounded to infinity in 64 bits, halfway behind the greatest finite
one. -/
def infinityBound : Nat := (Nat.pow 2 54 - 1) * Nat.pow 2 970

/-- The decimal fraction is rounded to a finite number in 64 bits. A number of `k` digits lies
between two powers of ten, which settles the case when it is far from the bound. -/
def Decimal.isFinite (d : Decimal) : Bool :=
  let size : Int := (Nat.toDigits 10 d.digits).length + d.exponent
  if d.digits = 0 || size < 300 then true
  else if 320 < size then false
  else if 0 ≤ d.exponent then decide (d.digits * Nat.pow 10 d.exponent.toNat < infinityBound)
  else decide (d.digits < infinityBound * Nat.pow 10 (-d.exponent).toNat)

/-- The words for infinities and for what is no number. -/
def isSpecialNumber (cs : List Char) : Bool :=
  let body := match cs with
    | '+' :: rest => rest
    | cs => cs
  [".inf", ".Inf", ".INF"].contains (String.ofList body) ||
    ["-.inf", "-.Inf", "-.INF", ".nan", ".NaN", ".NAN"].contains (String.ofList cs)

/-- Finite decimal fractions and the words for other numbers. -/
def isFraction (cs : List Char) : Bool :=
  isSpecialNumber cs || (readDecimal (dropSign cs)).any Decimal.isFinite

/-- A plain scalar with these characters is no text, or would be a number to other readers. -/
def isAmbiguous (text : String) : Bool :=
  text.isEmpty || isNull text || isBool text || isInteger text.toList ||
    hasLeadingZero text.toList || isFraction text.toList

end BranchExclusion.Yaml
