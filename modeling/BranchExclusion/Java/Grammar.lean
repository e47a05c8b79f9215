import BranchExclusion.Java.Lookahead

/-!
# The grammar

* `Symbol`: what is expected next, which is a token, brackets, a node, or a phrase;
* `Phrase`: the parts of the grammar;
* `Phrase.expand`: what a phrase consists of, given what can be seen of the chunks that follow.

A phrase that the chunks do not fit consists of what the source has of it. What is required and does
not follow is a missing token, and a token that no phrase can start with is an error of its own.
-/

namespace BranchExclusion.Java

/-- The parts of the grammar. -/
inductive Phrase
  /-- What a node of that kind consists of. -/
  | inside (kind : NodeKind)
  /-- A declaration or statement outside any type, unless the source ends. -/
  | item
  /-- What the braces of a type hold. -/
  | members
  /-- A member of a type, unless its braces end. -/
  | member
  /-- What the braces of an enumeration hold. -/
  | constants
  /-- A constant of an enumeration, a comma, or the members behind the constants. -/
  | constant
  /-- The members of an object in braces, if they follow. -/
  | classBody
  /-- What follows the header of a method, or of a constructor. -/
  | methodEnd (constructor : Bool)
  /-- What the braces of a block hold. -/
  | statements
  /-- What the braces of a constructor hold. -/
  | constructorStatements
  /-- A statement, unless the braces around it end. -/
  | statement (role : Role)
  /-- A statement that belongs to the statement around it. -/
  | branch (role : Role)
  /-- The `else` of a conditional, if it has one. -/
  | alternative
  /-- The condition of a `do`. -/
  | doCondition
  /-- The handlers of a `try`, which may have none when it has `resources`. -/
  | handlers (resources : Bool)
  /-- One more `catch`, if it follows. -/
  | catchHandler
  /-- A `finally`, if it follows. -/
  | finallyHandler
  /-- What the braces of a `switch` hold. -/
  | cases
  /-- A label or a statement of a `switch`, unless its braces end. -/
  | case
  /-- A word of an expression, or brackets, up to a semicolon. -/
  | unit
  /-- What parentheses or square brackets hold. -/
  | contents
  /-- A word of an expression, or brackets, or what stands between two expressions. -/
  | piece
  /-- What the braces of an array hold. -/
  | elements
  /-- A word of an expression, or brackets, or a comma. -/
  | element
  /-- What follows the arrow of a lambda. -/
  | lambdaBody
  /-- What follows the type of a new object. -/
  | creationRest
  | semicolon
  deriving DecidableEq, Repr

/-- What is expected next. -/
inductive Symbol
  /-- The next token. -/
  | token (role : Role)
  /-- The next `n` chunks, as they stand. -/
  | raw (n : Nat)
  /-- Brackets with what they hold. -/
  | group (opening : String) (inner : Phrase)
  | node (role : Role) (kind : NodeKind)
  /-- A token that the source lacks. -/
  | missing (what : String)
  /-- The next token, which fits nothing. -/
  | unfit (role : Role)
  | phrase (p : Phrase)
  /-- A phrase as often as it finds something. -/
  | many (p : Phrase)
  deriving DecidableEq, Repr

/-- The next token, in no special role. -/
def Symbol.next : Symbol := token .part

namespace Phrase

open BranchExclusion.Java.Symbol (next token raw group node missing unfit phrase many)

/-- A package or import declaration comes next. -/
def startsImport (hs : List Head) : Bool :=
  starts "import" hs || starts "package" (afterModifiers hs)

/-- The braces of a type declaration. -/
def typeBody (kind : NodeKind) : NodeKind :=
  if kind = .enumDeclaration then .enumBody
  else if kind = .classDeclaration ∨ kind = .recordDeclaration then .classBody
  else .interfaceBody

/-- The type that is declared: what stands before its name, the name, the rest of its header and its
braces. -/
def typeDeclaration (kind : NodeKind) (hs : List Head) : List Symbol :=
  let start := lengthBefore hs (afterModifiers hs) + keywordLength kind
  let header := ((hs.drop (start + 1)).takeWhile fun h => !h.is leftBrace).length
  [raw start, token .name, raw header, node .body (typeBody kind)]

/-- A member of a type with a body: what stands before its name, its name, its parameters and the
rest. -/
def method (constructor : Bool) (hs : List Head) : List Symbol :=
  let lead := (memberShape hs).lead
  let header := ((hs.drop (lead + 2)).takeWhile fun h => !h.stops && !h.is "default").length
  [raw lead, token .name, group "(" contents, raw header, phrase (methodEnd constructor)]

/-- The object that `new` makes: annotations and type arguments, the type and the rest. -/
def creation (hs : List Head) : List Symbol :=
  let lead := lengthBefore hs.tail (afterTypeArguments (afterModifiers hs.tail))
  [next, raw lead, node .type .typeName, phrase creationRest]

/-- What a node of that kind consists of. -/
def expandInside (hs : List Head) : NodeKind → List Symbol
  | .declaration => [raw (hs.takeWhile fun h => !h.stops).length, phrase semicolon]
  | .classDeclaration => typeDeclaration .classDeclaration hs
  | .interfaceDeclaration => typeDeclaration .interfaceDeclaration hs
  | .enumDeclaration => typeDeclaration .enumDeclaration hs
  | .recordDeclaration => typeDeclaration .recordDeclaration hs
  | .annotationDeclaration => typeDeclaration .annotationDeclaration hs
  | .classBody | .interfaceBody => [group leftBrace members]
  | .enumBody => [group leftBrace constants]
  | .enumConstant =>
    let lead := lengthBefore hs (afterModifiers hs)
    [raw lead, token .name] ++
      (if starts "(" (hs.drop (lead + 1)) then [group "(" contents] else []) ++ [phrase classBody]
  | .enumMembers => [next, phrase members]
  | .method => method false hs
  | .constructor => method true hs
  | .compactConstructor => [raw (memberShape hs).lead, token .name, node .body .block]
  | .staticInitializer => [next, node .body .block]
  | .constructorBody => [group leftBrace constructorStatements]
  | .block => [group leftBrace statements]
  | .ifStatement =>
    [next, node .condition .parentheses, phrase (branch .consequence), phrase alternative]
  | .whileStatement => [next, node .condition .parentheses, phrase (branch .body)]
  | .doStatement => [next, phrase (branch .body), phrase doCondition]
  | .forStatement | .forEachStatement => [next, group "(" contents, phrase (branch .body)]
  | .synchronizedStatement | .catchClause => [next, group "(" contents, node .body .block]
  | .tryStatement =>
    if starts "(" hs.tail then
      [next, group "(" contents, node .body .block, phrase (handlers true)]
    else [next, node .body .block, phrase (handlers false)]
  | .finallyClause => [next, node .body .block]
  | .labeledStatement => [token .name, next, phrase (branch .body)]
  | .switchExpression => [next, group "(" contents, node .body .switchBlock]
  | .switchBlock => [group leftBrace cases]
  | .lambda => [raw 2, phrase lambdaBody]
  | .creation => creation hs
  | .typeName => if typeLength hs = 0 then [missing "identifier"] else [raw (typeLength hs)]
  | .parentheses => [group "(" contents]
  | .error => [many unit]
  -- statements and declarations that run up to a semicolon
  | _ => [many unit, phrase semicolon]

/-- A declaration or statement outside any type. -/
def expandItem (hs : List Head) : List Symbol :=
  if hs.isEmpty then []
  else if startsImport hs then [node .part .declaration]
  else
    match declared? hs with
    | some (kind, _) => [node .part kind]
    | none => if startsMethod hs then [node .part .method] else [phrase (statement .part)]

/-- A member of a type. -/
def expandMember (hs : List Head) : List Symbol :=
  if hs.isEmpty then []
  else if starts ";" hs then [next]
  else if starts leftBrace hs then [node .part .block]
  else if hs.head?.any fun h => h.closes then [unfit .part]
  else if starts₂ "static" leftBrace hs then [node .part .staticInitializer]
  else
    match declared? hs, memberShape hs with
    | some (kind, _), _ => [node .part kind]
    | none, .method _ => [node .part .method]
    | none, .constructor _ => [node .part .constructor]
    | none, .compactConstructor _ => [node .part .compactConstructor]
    | none, .field => [node .part .field]

/-- A constant of an enumeration, a comma, or the members behind the constants. -/
def expandConstant (hs : List Head) : List Symbol :=
  if hs.isEmpty then []
  else if starts "," hs then [next]
  else if starts ";" hs then [node .part .enumMembers]
  else if (afterModifiers hs).head?.any fun h => h.isName then [node .part .enumConstant]
  else [unfit .part]

/-- The statements that start with a keyword of their own. -/
def keywordStatements : List (String × NodeKind) :=
  [("if", .ifStatement), ("while", .whileStatement), ("do", .doStatement), ("try", .tryStatement),
    ("switch", .switchExpression), ("return", .returnStatement), ("throw", .throwStatement),
    ("break", .breakStatement), ("continue", .continueStatement)]

/-- The kind of a statement that starts with a keyword. -/
def keywordStatement? (h : Head) (rest : List Head) : Option NodeKind :=
  if h.is "for" then
    some (if rest.head?.any fun group => group.counts then .forStatement else .forEachStatement)
  else if h.is "synchronized" && starts "(" rest then some .synchronizedStatement
  else keywordStatements.lookup h.text

/-- The kind of a statement that starts with `h`, which is no semicolon, unless none starts so. A call
of another constructor stands at the start of a constructor only. -/
def statementKind? (h : Head) (rest : List Head) : Option NodeKind :=
  if h.isName && starts ":" rest then some .labeledStatement
  else if h.closes || Word.continuations.contains h.text || startsConstructorCall (h :: rest) then
    none
  else if h.is leftBrace then some .block
  else
    match keywordStatement? h rest with
    | some kind => some kind
    | none =>
      match declared? (h :: rest) with
      | some (kind, _) => some kind
      | none => some .simpleStatement

/-- A statement. -/
def expandStatement (role : Role) : List Head → List Symbol
  | [] => []
  | h :: rest =>
    if h.is ";" then [token role]
    else
      match statementKind? h rest with
      | some kind => [node role kind]
      | none => if isLoneCall (h :: rest) then [node role .error] else [unfit role]

/-- No operand follows. -/
def endsOperand (hs : List Head) : Bool :=
  hs.isEmpty || starts ";" hs || starts "," hs || hs.head?.any fun h => h.closes

/-- A word of an expression, or brackets. -/
def expandUnit : List Head → List Symbol
  | [] => []
  | h :: rest =>
    if h.is ";" then []
    else if (lambdaLength? (h :: rest)).isSome then [node .part .lambda]
    else if h.is "(" then [group "(" contents]
    else if h.is "[" then [group "[" contents]
    else if h.is leftBrace then [group leftBrace elements]
    else if h.is "new" then [node .part .creation]
    else if h.is "switch" then [node .part .switchExpression]
    else if h.is "::" && starts "new" rest then [next, next]
    else if h.isPrimitive && starts "=" rest then [next, missing "identifier"]
    else if h.closes || (Word.operators.contains h.text && endsOperand rest) then [unfit .part]
    else [next]

/-- What a phrase consists of, given what can be seen of the chunks that follow. -/
def expand (hs : List Head) : Phrase → List Symbol
  | inside kind => expandInside hs kind
  | item => expandItem hs
  | members => [many member]
  | member => expandMember hs
  | constants => [many constant]
  | constant => expandConstant hs
  | classBody => if starts leftBrace hs then [node .body .classBody] else []
  | methodEnd constructor =>
    if starts leftBrace hs then [node .body (if constructor then .constructorBody else .block)]
    else if starts "default" hs then [next, many unit, phrase semicolon]
    else [phrase semicolon]
  | statements =>
    if isLoneCall hs then [node .part .error] else [many (statement .part)]
  | constructorStatements =>
    if startsConstructorCall hs then [node .part .constructorCall, many (statement .part)]
    else [phrase statements]
  | statement role => expandStatement role hs
  | branch role => if hs.isEmpty then [missing "statement"] else [phrase (statement role)]
  | alternative => if starts "else" hs then [next, phrase (branch .alternative)] else []
  | doCondition =>
    if starts "while" hs then [next, node .condition .parentheses, phrase semicolon]
    else [missing "while"]
  | handlers resources =>
    if starts "catch" hs then [many catchHandler, phrase finallyHandler]
    else if starts "finally" hs then [phrase finallyHandler]
    else if resources then []
    else [missing "catch"]
  | catchHandler => if starts "catch" hs then [node .part .catchClause] else []
  | finallyHandler => if starts "finally" hs then [node .part .finallyClause] else []
  | cases => [many case]
  | case =>
    if starts "case" hs || starts "default" hs then
      match labelLength? 0 hs with
      | some n => [raw n]
      | none => [next, missing ":"]
    else expandStatement .part hs
  | unit => expandUnit hs
  | contents => if starts "," hs then [unfit .part, many piece] else [many piece]
  | piece =>
    if starts ";" hs then [next]
    else if starts "," hs then if endsOperand hs.tail then [unfit .part] else [next]
    else expandUnit hs
  | elements => [many element]
  | element => if starts "," hs then [next] else expandUnit hs
  | lambdaBody =>
    if starts leftBrace hs then [node .body .block]
    else if hs.isEmpty then [missing "expression"] else []
  | creationRest => if starts "(" hs then [group "(" contents, phrase classBody] else []
  | semicolon => if starts ";" hs then [next] else [missing ";"]

end Phrase

end BranchExclusion.Java
