import BranchExclusion.Java.Chunk

/-!
# Looking ahead

What stands next in a source is decided by what the grammar sees of the chunks that follow.

* `afterModifiers`, `afterTypeArguments`: what follows modifiers and annotations, or type arguments;
* `typeLength`, `labelLength?`: the number of chunks of a type and of a label;
* `lambdaLength?`: the number of chunks up to the body of a lambda, if one starts here;
* `declared?`: the type that is declared next;
* `MemberShape`, `memberShape`: what a member of a type is.
-/

namespace BranchExclusion.Java

/-- The next chunk is the word or symbol `text`, or the brackets that `text` opens. -/
def starts (text : String) (hs : List Head) : Bool := hs.head?.any fun h => h.is text

/-- The next two chunks are these words or symbols. -/
def starts₂ (first second : String) (hs : List Head) : Bool :=
  starts first hs && starts second hs.tail

/-- What follows the `>` that closes the innermost open `<`; `depth` counts those opened since. -/
def afterAngle : Nat → List Head → List Head
  | _, [] => []
  | depth, h :: rest =>
    if h.is "<" then afterAngle (depth + 1) rest
    else if h.is ">" then
      match depth with
      | 0 => rest
      | outer + 1 => afterAngle outer rest
    else afterAngle depth rest

/-- What follows type arguments or parameters, if they come next. -/
def afterTypeArguments (hs : List Head) : List Head :=
  if starts "<" hs then afterAngle 0 hs.tail else hs

/-- What follows a name with dots. -/
def afterName : List Head → List Head
  | _ :: dot :: rest => if dot.is "." then afterName rest else dot :: rest
  | [_] => []
  | [] => []

/-- What follows the parentheses, if they come next. -/
def afterGroup (hs : List Head) : List Head := if starts "(" hs then hs.tail else hs

/-- What follows modifiers and annotations; `fuel` bounds their number. -/
def afterModifiersWithin : Nat → List Head → List Head
  | 0, hs => hs
  | _ + 1, [] => []
  | fuel + 1, h :: rest =>
    if h.isModifier then afterModifiersWithin fuel rest
    else if h.is "non" && starts₂ "-" "sealed" rest then afterModifiersWithin fuel (rest.drop 2)
    else if h.is "@" && !starts "interface" rest then
      afterModifiersWithin fuel (afterGroup (afterName rest))
    else h :: rest

/-- What follows modifiers and annotations. -/
def afterModifiers (hs : List Head) : List Head := afterModifiersWithin hs.length hs

/-- The number of chunks of `hs` before `rest`, one of its ends. -/
def lengthBefore (hs rest : List Head) : Nat := hs.length - rest.length

/-- What follows a type without brackets; `fuel` bounds its parts. -/
def afterTypeWithin : Nat → List Head → List Head
  | 0, hs => hs
  | _ + 1, [] => []
  | fuel + 1, h :: rest =>
    if h.isName || h.isPrimitive || h.is "." then afterTypeWithin fuel rest
    else if h.is "<" then afterTypeWithin fuel (afterAngle 0 rest)
    else if h.is "@" then afterTypeWithin fuel (afterModifiers (h :: rest))
    else h :: rest

/-- The number of chunks of a type without brackets. -/
def typeLength (hs : List Head) : Nat := lengthBefore hs (afterTypeWithin hs.length hs)

/-- The number of chunks of a label of `switch`, through its colon or arrow. `choices` counts the
conditional expressions that wait for their colon. -/
def labelLength? : Nat → List Head → Option Nat
  | _, [] => none
  | choices, h :: rest =>
    if h.is "->" then some 1
    else if h.stops then none
    else if h.is "?" && !(starts ">" rest || starts "," rest || starts "extends" rest ||
        starts "super" rest) then
      (labelLength? (choices + 1) rest).map (· + 1)
    else if h.is ":" then
      match choices with
      | 0 => some 1
      | outer + 1 => (labelLength? outer rest).map (· + 1)
    else (labelLength? choices rest).map (· + 1)

/-- The number of chunks up to and with the arrow of a lambda, if one starts here. -/
def lambdaLength? (hs : List Head) : Option Nat :=
  if (hs.head?.any fun h => h.isName || h.is "(") && starts "->" hs.tail then some 2 else none

/-- A call without a semicolon is all that a block holds. -/
def isLoneCall (hs : List Head) : Bool :=
  (hs.head?.any fun h => h.isName || h.is "this" || h.is "super") &&
    (starts "(" hs.tail || starts "." hs.tail) && hs.getLast?.any (fun h => h.is "(")

/-- A call of another constructor comes next, such as `super();`. -/
def startsConstructorCall (hs : List Head) : Bool :=
  let call := (afterTypeArguments hs).takeWhile fun h => !h.is ";"
  let direct := (starts "this" call || starts "super" call) && starts "(" call.tail &&
    call.length = 2
  let qualified := (call.zip call.tail).zipIdx.any fun p =>
    p.1.1.is "." && p.1.2.is "super" && starts "(" (call.drop (p.2 + 2)) &&
      call.length = p.2 + 3
  (direct || qualified) && !call.any (fun h => h.is "=" || h.is ":")

/-! ### Declarations -/

/-- The kind of type that is declared next, with the number of chunks before its keyword. -/
def declared? (hs : List Head) : Option (NodeKind × Nat) :=
  let rest := afterModifiers hs
  let lead := lengthBefore hs rest
  if starts "class" rest then some (.classDeclaration, lead)
  else if starts "interface" rest then some (.interfaceDeclaration, lead)
  else if starts "enum" rest then some (.enumDeclaration, lead)
  else if starts₂ "@" "interface" rest then some (.annotationDeclaration, lead)
  else if starts "record" rest && rest.tail.head?.any (fun h => h.isName) &&
      (starts "(" (rest.drop 2) || starts "<" (rest.drop 2)) then
    some (.recordDeclaration, lead)
  else none

/-- The number of tokens of the keyword of a type declaration. -/
def keywordLength (kind : NodeKind) : Nat := if kind = .annotationDeclaration then 2 else 1

/-- The chunks of a declaration before its parameters, value or end. `angles` counts the open
brackets of type arguments. -/
def declarationHead : Nat → List Head → List Head
  | _, [] => []
  | angles, h :: rest =>
    if h.is "(" || h.is "=" || h.stops || h.is rightBrace then []
    else if h.is "," && angles = 0 then []
    else if h.is "<" then h :: declarationHead (angles + 1) rest
    else if h.is ">" then h :: declarationHead (angles - 1) rest
    else h :: declarationHead angles rest

/-- What a member of a type is, where `lead` counts the chunks before its name. -/
inductive MemberShape
  | method (lead : Nat)
  | constructor (lead : Nat)
  | compactConstructor (lead : Nat)
  | field
  deriving DecidableEq, Repr

/-- The number of chunks before the name of a member, if that matters. -/
def MemberShape.lead : MemberShape → Nat
  | method lead | constructor lead | compactConstructor lead => lead
  | field => 0

/-- A word followed by a parenthesis is a constructor, followed by a brace the constructor of a
record; a type and a name followed by a parenthesis are a method. -/
def memberShape (hs : List Head) : MemberShape :=
  let rest := afterTypeArguments (afterModifiers hs)
  let lead := lengthBefore hs rest
  let head := declarationHead 0 rest
  let named := head.getLast?.any fun h => h.isName
  if named && starts "(" (rest.drop head.length) then
    if head.length = 1 then .constructor lead else .method (lead + head.length - 1)
  else if named && head.length = 1 && starts leftBrace rest.tail then .compactConstructor lead
  else .field

/-- A method comes next outside any type, where a call could stand as well. -/
def startsMethod (hs : List Head) : Bool :=
  match memberShape hs with
  | .method lead =>
    (afterTypeArguments (afterModifiers hs)).head?.any
        (fun h => h.isName || h.isPrimitive || h.is "void") &&
      !starts "." (hs.drop (lead - 1))
  | _ => false

end BranchExclusion.Java
