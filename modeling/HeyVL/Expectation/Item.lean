import HeyVL.Category
import HeyVL.Token.Basic

/-!
What may come next in a source. An item is a phrase that is still expected; one token decides
whether the phrase begins with it and what of the phrase is left behind it. Phrases that share
their first token are told apart behind that token: a node is then built around children that
are already there.
-/

namespace HeyVL

/-- A step of building nodes between two tokens. -/
inductive Action
  /-- Begin a node that has no children yet. -/
  | enter
  /-- Begin a node around the last child, which gets the given role in it. -/
  | adopt (role : Option Field)
  /-- Complete the innermost node that was begun. -/
  | leave (role : Option Field) (category : Category)
deriving DecidableEq, Repr

/-- A phrase that is expected. Roles are those of the phrase in the node around it. -/
inductive Item
  /-- One token. -/
  | leaf (role : Option Field) (token : Token)
  /-- Nothing but the end of the node around it. -/
  | leave (role : Option Field) (category : Category)
  /-- The phrase or nothing. -/
  | maybe (item : Item)
  /-- The phrase any number of times. -/
  | many (item : Item)
  /-- Any number of commas, each followed by the phrase. -/
  | more (role : Option Field) (item : Item)
  /-- Nothing, or the phrase with more of it behind commas. -/
  | series (item : Item)
  | declaration
  | direction
  | specification
  | domainItem
  | functionBody
  | parameters (role : Option Field)
  | parameter
  | type (role : Option Field)
  | block (role : Option Field)
  | statement (role : Option Field)
  /-- A statement of a block with the semicolon that may follow it. -/
  | blockStatement
  /-- A statement behind the identifier that it begins with. -/
  | nameTail (role : Option Field)
  /-- A statement behind the word `if` that it begins with. -/
  | ifTail (role : Option Field)
  | initializer
  | annotationInputs
  /-- An expression with all operators that follow it. -/
  | expression (role : Option Field)
  /-- An expression that no binary operator joins at its top. -/
  | operand (role : Option Field)
  /-- The arguments that make a call of the identifier before them, if there are any. -/
  | callTail (role : Option Field)
  /-- Binary operators of at least the given level with their right operands, behind a left
  operand. -/
  | operators (role : Option Field) (level : Nat)
  | quantifierVariable
  | trigger
deriving DecidableEq, Repr

/-- What a token does: the steps before it, the role of its leaf, and what is expected behind
it. -/
structure Move where
  before : List Action
  role : Option Field
  after : List Item
deriving DecidableEq, Repr

namespace Move

/-- The same move with more expected behind it. -/
def followedBy (m : Move) (items : List Item) : Move :=
  { m with after := m.after ++ items }

/-- The token is the first child of a new node, and `items` are its other children. -/
def opening (category : Category) (role first : Option Field) (items : List Item) : Move :=
  ⟨[.enter], first, items ++ [.leave role category]⟩

end Move

def Command.category : Command → Category
  | havoc | cohavoc => .havocStatement
  | assert | coassert => .assertStatement
  | assume | coassume => .assumeStatement
  | compare | cocompare => .compareStatement
  | reward => .rewardStatement
  | tick => .tickStatement
  | negate | conegate => .negateStatement
  | validate | covalidate => .validateStatement

namespace Item

def mark (p : Punctuation) : Item := .leaf none (.punctuation p)

def word : Item := .leaf none .identifier

/-- The identifier that names a declaration. -/
def name : Item := .leaf (some .name) .identifier

def commandOperands : Command → List Item
  | .havoc | .cohavoc => [word, .more none word]
  | .negate | .conegate | .validate | .covalidate => []
  | _ => [.expression none]

/-- A procedure behind its direction. -/
def procedureRest : List Item :=
  [name, .parameters (some .inputs), mark .arrow, .parameters (some .outputs),
    .many .specification, .maybe (.block (some .body))]

/-- The two blocks of a conditional statement. -/
def branches : List Item :=
  [.block (some .consequent), .leaf none (.keyword .kwElse), .block (some .otherwise)]

def startDeclaration : Token → Option Move
  | .keyword .kwDomain =>
    some (.opening .domainDeclaration none none
      [name, mark .braceOpen, .many .domainItem, mark .braceClose])
  | .keyword .kwProc | .keyword .kwCoproc =>
    some (.opening .procDeclaration none (some .direction) procedureRest)
  | .punctuation .atSign =>
    some ⟨[.enter, .enter], none,
      [word, .leave (some .calculus) .annotationCalculus, .direction] ++ procedureRest ++
        [.leave none .procDeclaration]⟩
  | _ => none

def startSpecification : Token → Option Move
  | .keyword .kwPre => some (.opening .preCondition none none [.expression none])
  | .keyword .kwPost => some (.opening .postCondition none none [.expression none])
  | _ => none

def startDomainItem : Token → Option Move
  | .keyword .kwFunc =>
    some (.opening .functionDeclaration none none
      [name, .parameters (some .inputs), mark .colon, .type (some .output), .functionBody])
  | .keyword .kwAxiom =>
    some (.opening .axiomDeclaration none none [name, .expression (some .statedAxiom)])
  | _ => none

def startBlock (role : Option Field) : Token → Option Move
  | .punctuation .braceOpen =>
    some (.opening .block role none [.many .blockStatement, mark .braceClose])
  | _ => none

def startType (role : Option Field) : Token → Option Move
  | .identifier => some (.opening .typeIdentifier role none [])
  | .punctuation .list => some (.opening .listType role none [.type none])
  | _ => none

/-- How an expression begins, and what follows up to the first binary operator at its top. A
unary operator takes one operand, a quantifier the whole expression behind its point. -/
def startOperand (role : Option Field) : Token → Option Move
  | .identifier => some ⟨[], role, [.callTail role]⟩
  | .string | .integer | .decimal | .infinity | .boolean => some (.opening .literal role none [])
  | .quantifier _ =>
    some (.opening .quantifierExpression role (some .quantifier)
      [.quantifierVariable, .more (some .variableList) .quantifierVariable, .many .trigger,
        mark .dot, .expression (some .expression)])
  | .unary _ => some (.opening .unaryExpression role (some .operator) [.operand none])
  | .punctuation .bracketOpen =>
    some (.opening .iversonExpression role none [.expression none, mark .bracketClose])
  | .punctuation .parenOpen =>
    some (.opening .parenthesizedExpression role none [.expression none, mark .parenClose])
  | .keyword .kwLet =>
    some (.opening .letExpression role none
      [mark .parenOpen, word, mark .comma, .expression none, mark .comma, .expression none,
        mark .parenClose])
  | .keyword .kwIte =>
    some (.opening .iteExpression role none
      [mark .parenOpen, .expression none, mark .comma, .expression none, mark .comma,
        .expression none, mark .parenClose])
  | _ => none

def startExpression (role : Option Field) (t : Token) : Option Move :=
  (startOperand role t).map fun m => m.followedBy [.operators role 0]

def startStatement (role : Option Field) (t : Token) : Option Move :=
  match t with
  | .keyword .kwVar =>
    some (.opening .variableDeclarationStatement role none
      [name, mark .colon, .type (some .type), .maybe .initializer])
  | .identifier => some ⟨[], none, [.nameTail role]⟩
  | .command c => some (.opening c.category role none (commandOperands c))
  | .keyword .kwIf => some ⟨[.enter], none, [.ifTail role]⟩
  | .keyword .kwWhile =>
    some (.opening .whileStatement role none
      [.expression (some .condition), .block (some .body)])
  | .punctuation .atSign =>
    some (.opening .annotatedStatement role none
      [name, .maybe .annotationInputs, .statement (some .statement)])
  | .keyword .kwLabel => some (.opening .labelStatement role none [word])
  | t => startBlock role t

/-- A statement that begins with an identifier is a call or an assignment. -/
def startNameTail (role : Option Field) : Token → Option Move
  | .punctuation .parenOpen =>
    some ⟨[.adopt none, .adopt (some .function)], none,
      [.series (.expression none), mark .parenClose, .leave none .callExpression,
        .leave role .callStatement]⟩
  | .punctuation .comma =>
    some ⟨[.adopt none], none,
      [word, .more none word, mark .assign, .expression none, .leave role .assignmentStatement]⟩
  | .punctuation .assign =>
    some ⟨[.adopt none], none, [.expression none, .leave role .assignmentStatement]⟩
  | _ => none

/-- A conditional chooses demonically, angelically or by a condition. -/
def startIfTail (role : Option Field) (t : Token) : Option Move :=
  match t with
  | .binary .meet | .binary .meetAscii =>
    some ⟨[], none, branches ++ [.leave role .demonicIfStatement]⟩
  | .binary .join | .binary .joinAscii =>
    some ⟨[], none, branches ++ [.leave role .angelicIfStatement]⟩
  | t => (startExpression (some .condition) t).map fun m =>
    m.followedBy (branches ++ [.leave role .ifStatement])

/-- Binary operators associate to the left: the right operand takes only tighter ones, and what
is joined so far becomes the left operand of the next one. -/
def startOperators (role : Option Field) (level : Nat) : Token → Option Move
  | .binary o =>
    if level ≤ o.level then
      some ⟨[.adopt none], none,
        [.operand none, .operators none (o.level + 1), .leave role .binaryExpression,
          .operators role level]⟩
    else none
  | _ => none

/-- The move of a token that the phrase begins with. -/
def start : Item → Token → Option Move
  | .leaf role token, t => if t = token then some ⟨[], role, []⟩ else none
  | .leave _ _, _ => none
  | .maybe item, t => item.start t
  | .many item, t => (item.start t).map fun m => m.followedBy [.many item]
  | .more role item, t =>
    if t = .punctuation .comma then some ⟨[], role, [item, .more role item]⟩ else none
  | .series item, t => (item.start t).map fun m => m.followedBy [.more none item]
  | .declaration, t => startDeclaration t
  | .direction, t => match t with
    | .keyword .kwProc | .keyword .kwCoproc => some ⟨[], some .direction, []⟩
    | _ => none
  | .specification, t => startSpecification t
  | .domainItem, t => startDomainItem t
  | .functionBody, t => match t with
    | .punctuation .assign => some ⟨[], none, [.expression (some .body)]⟩
    | .punctuation .computable => some ⟨[], none, []⟩
    | _ => none
  | .parameters role, t =>
    if t = .punctuation .parenOpen then
      some (.opening .parameterList role none [.series .parameter, mark .parenClose])
    else none
  | .parameter, t =>
    if t = .identifier then
      some (.opening .parameter none (some .name) [mark .colon, .type (some .type)])
    else none
  | .type role, t => startType role t
  | .block role, t => startBlock role t
  | .statement role, t => startStatement role t
  | .blockStatement, t => (startStatement none t).map fun m =>
    m.followedBy [.maybe (mark .semicolon)]
  | .nameTail role, t => startNameTail role t
  | .ifTail role, t => startIfTail role t
  | .initializer, t =>
    if t = .punctuation .assign then some ⟨[], none, [.expression (some .value)]⟩ else none
  | .annotationInputs, t =>
    if t = .punctuation .parenOpen then
      some (.opening .annotationInputs none none [.series (.expression none), mark .parenClose])
    else none
  | .expression role, t => startExpression role t
  | .operand role, t => startOperand role t
  | .callTail role, t =>
    if t = .punctuation .parenOpen then
      some ⟨[.adopt (some .function)], none,
        [.series (.expression none), mark .parenClose, .leave role .callExpression]⟩
    else none
  | .operators role level, t => startOperators role level t
  | .quantifierVariable, t =>
    if t = .identifier then
      some (.opening .quantifierVariable (some .variableList) (some .name)
        [mark .colon, .type (some .type)])
    else none
  | .trigger, t =>
    if t = .punctuation .trigger then
      some (.opening .quantifierTrigger none none
        [mark .parenOpen, .series (.expression none), mark .parenClose])
    else none

/-- Whether nothing at all is a text of the phrase. -/
def optional : Item → Bool
  | .leave _ _ | .maybe _ | .many _ | .more _ _ | .series _ | .functionBody | .callTail _
  | .operators _ _ => true
  | _ => false

/-- What happens where nothing is taken for the phrase. -/
def skipped : Item → List Action
  | .leave role category => [.leave role category]
  | _ => []

end Item

end HeyVL
