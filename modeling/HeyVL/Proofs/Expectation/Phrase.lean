import HeyVL.Expectation.Advance
import HeyVL.Proofs.Grammar.Expansion

/-!
Expected phrases as productions. The phrase of an item is the production that it is a text of; the
tails, which come behind a beginning that is read already, have the rest of a production. Nodes
that begin with a token of their own have a layout.
-/

namespace HeyVL

namespace Production

def inRole : Option Field → Production → Production
  | none, p => p
  | some f, p => .field f p

def anyOperator : Production :=
  oneOf (operator .or)
    ([.and, .eq, .ne, .lt, .le, .ge, .gt, .meet, .meetAscii, .join, .joinAscii, .implies,
      .impliesAscii, .coimplies, .coimpliesAscii, .compare, .cocompare, .add, .sub, .mul, .div,
      .mod].map operator)

/-- The productions of binary expressions above the lowest level. -/
def binaryLevels : List Production :=
  [binaryLevel 3 .and [],
    binaryLevel 4 .eq [.ne, .lt, .le, .ge, .gt],
    binaryLevel 5 .meet [.meetAscii, .join, .joinAscii, .implies, .impliesAscii, .coimplies,
      .coimpliesAscii, .compare, .cocompare],
    binaryLevel 6 .add [.sub],
    binaryLevel 7 .mul [.div, .mod]]

theorem exists_binaryLevel (o : BinaryOperator) :
    ∃ n first others, binaryLevel n first others ∈ binaryLevel 2 .or [] :: binaryLevels ∧
      o ∈ first :: others := by
  cases o
  case or => exact ⟨_, _, _, .head _, by decide⟩
  case and => exact ⟨_, _, _, .tail _ (.head _), by decide⟩
  case eq | ne | lt | le | ge | gt => exact ⟨_, _, _, .tail _ (.tail _ (.head _)), by decide⟩
  case add | sub =>
    exact ⟨_, _, _, .tail _ (.tail _ (.tail _ (.tail _ (.head _)))), by decide⟩
  case mul | div | mod =>
    exact ⟨_, _, _, .tail _ (.tail _ (.tail _ (.tail _ (.tail _ (.head _))))), by decide⟩
  all_goals exact ⟨_, _, _, .tail _ (.tail _ (.tail _ (.head _))), by decide⟩

@[simp] theorem generates_inRole_iff {role : Option Field} {p : Production} {w : List Token} :
    Generates (inRole role p) w ↔ Generates p w := by
  cases role with
  | none => rfl
  | some f => exact generates_field_iff

end Production

open Production (inRole)

/-- The production that an item is a text of. -/
def Item.phrase : Item → Production
  | .leaf role t => inRole role (.token t)
  | .leave _ _ => .empty
  | .maybe item => .maybe item.phrase
  | .many item => .many item.phrase
  | .more role item => .many (.seq (inRole role (.mark .comma)) item.phrase)
  | .series item => .separated item.phrase
  | .declaration => .symbol (.hidden .declaration)
  | .direction => .field .direction (.choice (.kw .kwProc) (.kw .kwCoproc))
  | .specification => .symbol (.hidden .procedureSpec)
  | .domainItem => .symbol (.hidden .domainSpec)
  | .functionBody =>
    .choice (.seq (.mark .assign) (.field .body .expression)) (.maybe (.mark .computable))
  | .parameters role => inRole role (.node .parameterList)
  | .parameter => .node .parameter
  | .type role => inRole role .type
  | .block role => inRole role (.node .block)
  | .statement role => inRole role .statement
  | .blockStatement => .seq .statement (.maybe (.mark .semicolon))
  | .nameTail _ =>
    .choice (.inParentheses .expression)
      (.inOrder [.many (.seq (.mark .comma) .word), .mark .assign, .expression])
  | .ifTail _ =>
    .inOrder (.choice (.choice (.operator .meet) (.operator .meetAscii))
      (.choice (.choice (.operator .join) (.operator .joinAscii))
        (.field .condition .expression)) :: Production.branches)
  | .initializer => .seq (.mark .assign) (.field .value .expression)
  | .annotationInputs => .node .annotationInputs
  | .expression role => inRole role .expression
  | .operand role => inRole role .expression
  | .callTail _ => .maybe (.inParentheses .expression)
  | .operators _ _ => .many (.seq .anyOperator .expression)
  | .quantifierVariable => .field .variableList (.node .quantifierVariable)
  | .trigger => .node .quantifierTrigger

/-- The production of all that is expected. -/
def Expectation.phrase (todo : Expectation) : Production := .inOrder (todo.map Item.phrase)

namespace Category

def statements : List Category :=
  [block, variableDeclarationStatement, assignmentStatement, callStatement, havocStatement,
    assertStatement, assumeStatement, compareStatement, rewardStatement, tickStatement,
    negateStatement, validateStatement, demonicIfStatement, angelicIfStatement, ifStatement,
    whileStatement, annotatedStatement, labelStatement]

def expressions : List Category :=
  [quantifierExpression, binaryExpression, unaryExpression, letExpression, iteExpression,
    callExpression, iversonExpression, parenthesizedExpression, literal]

end Category

/-- How a node is laid out that begins with a token of its own: the role of this token, the tokens
that it can be, and what follows. -/
structure Layout where
  role : Option Field
  token : Token
  others : List Token
  items : List Item

namespace Layout

def tokens (l : Layout) : List Token := l.token :: l.others

def head (l : Layout) : Production :=
  inRole l.role (.oneOf (.token l.token) (l.others.map .token))

def production (l : Layout) : Production := .inOrder (l.head :: l.items.map Item.phrase)

open Item (name mark word) in
/-- The layout of a category. Declarations of procedures, whose annotation may be missing, and
nodes that begin with another node or share their first token with others have none. -/
def of? : Category → Option Layout
  | .domainDeclaration =>
    some ⟨none, .keyword .kwDomain, [],
      [name, mark .braceOpen, .many .domainItem, mark .braceClose]⟩
  | .functionDeclaration =>
    some ⟨none, .keyword .kwFunc, [],
      [name, .parameters (some .inputs), mark .colon, .type (some .output), .functionBody]⟩
  | .axiomDeclaration =>
    some ⟨none, .keyword .kwAxiom, [], [name, .expression (some .statedAxiom)]⟩
  | .parameterList =>
    some ⟨none, .punctuation .parenOpen, [], [.series .parameter, mark .parenClose]⟩
  | .parameter => some ⟨some .name, .identifier, [], [mark .colon, .type (some .type)]⟩
  | .preCondition => some ⟨none, .keyword .kwPre, [], [.expression none]⟩
  | .postCondition => some ⟨none, .keyword .kwPost, [], [.expression none]⟩
  | .block =>
    some ⟨none, .punctuation .braceOpen, [], [.many .blockStatement, mark .braceClose]⟩
  | .variableDeclarationStatement =>
    some ⟨none, .keyword .kwVar, [],
      [name, mark .colon, .type (some .type), .maybe .initializer]⟩
  | .havocStatement =>
    some ⟨none, .command .havoc, [.command .cohavoc], [word, .more none word]⟩
  | .assertStatement =>
    some ⟨none, .command .assert, [.command .coassert], [.expression none]⟩
  | .assumeStatement =>
    some ⟨none, .command .assume, [.command .coassume], [.expression none]⟩
  | .compareStatement =>
    some ⟨none, .command .compare, [.command .cocompare], [.expression none]⟩
  | .rewardStatement => some ⟨none, .command .reward, [], [.expression none]⟩
  | .tickStatement => some ⟨none, .command .tick, [], [.expression none]⟩
  | .negateStatement => some ⟨none, .command .negate, [.command .conegate], []⟩
  | .validateStatement => some ⟨none, .command .validate, [.command .covalidate], []⟩
  | .whileStatement =>
    some ⟨none, .keyword .kwWhile, [], [.expression (some .condition), .block (some .body)]⟩
  | .annotatedStatement =>
    some ⟨none, .punctuation .atSign, [],
      [name, .maybe .annotationInputs, .statement (some .statement)]⟩
  | .annotationInputs =>
    some ⟨none, .punctuation .parenOpen, [], [.series (.expression none), mark .parenClose]⟩
  | .labelStatement => some ⟨none, .keyword .kwLabel, [], [word]⟩
  | .typeIdentifier => some ⟨none, .identifier, [], []⟩
  | .listType => some ⟨none, .punctuation .list, [], [.type none]⟩
  | .quantifierExpression =>
    some ⟨some .quantifier, .quantifier .infimum,
      [.quantifier .supremum, .quantifier .existential, .quantifier .universal],
      [.quantifierVariable, .more (some .variableList) .quantifierVariable, .many .trigger,
        mark .dot, .expression (some .expression)]⟩
  | .unaryExpression =>
    some ⟨some .operator, .unary .not, [.unary .conot, .unary .embed], [.operand none]⟩
  | .iversonExpression =>
    some ⟨none, .punctuation .bracketOpen, [], [.expression none, mark .bracketClose]⟩
  | .letExpression =>
    some ⟨none, .keyword .kwLet, [],
      [mark .parenOpen, word, mark .comma, .expression none, mark .comma, .expression none,
        mark .parenClose]⟩
  | .iteExpression =>
    some ⟨none, .keyword .kwIte, [],
      [mark .parenOpen, .expression none, mark .comma, .expression none, mark .comma,
        .expression none, mark .parenClose]⟩
  | .parenthesizedExpression =>
    some ⟨none, .punctuation .parenOpen, [], [.expression none, mark .parenClose]⟩
  | .quantifierVariable =>
    some ⟨some .name, .identifier, [], [mark .colon, .type (some .type)]⟩
  | .quantifierTrigger =>
    some ⟨none, .punctuation .trigger, [],
      [mark .parenOpen, .series (.expression none), mark .parenClose]⟩
  | .literal =>
    some ⟨none, .string, [.integer, .decimal, .infinity, .boolean], []⟩
  | _ => none

end Layout

/-- The move begins a node of one of the categories with the token. -/
def Move.Opens (cs : List Category) (role : Option Field) (t : Token) (m : Move) : Prop :=
  ∃ c ∈ cs, ∃ l, Layout.of? c = some l ∧ t ∈ l.tokens ∧ m = .opening c role l.role l.items

theorem Move.opens_of {cs : List Category} {c : Category} {role first : Option Field}
    {t : Token} {items : List Item} (hc : c ∈ cs)
    (hl : ∃ l, Layout.of? c = some l ∧ t ∈ l.tokens ∧ l.role = first ∧ l.items = items) :
    (Move.opening c role first items).Opens cs role t := by
  obtain ⟨l, hl, ht, rfl, rfl⟩ := hl
  exact ⟨c, hc, l, hl, ht, rfl⟩

namespace Item

variable {role : Option Field} {t : Token} {m : Move}

theorem startDeclaration_cases (hm : startDeclaration t = some m) :
    m.Opens [.domainDeclaration] none t ∨
      ((t = .keyword .kwProc ∨ t = .keyword .kwCoproc) ∧
        m = .opening .procDeclaration none (some .direction) procedureRest) ∨
      t = .punctuation .atSign ∧
        m = ⟨[.enter, .enter], none,
          [word, .leave (some .calculus) .annotationCalculus, .direction] ++ procedureRest ++
            [.leave none .procDeclaration]⟩ := by
  unfold startDeclaration at hm
  split at hm <;> cases hm
  · exact .inl (Move.opens_of (by decide) ⟨_, rfl, by decide, rfl, rfl⟩)
  · exact .inr (.inl ⟨.inl rfl, rfl⟩)
  · exact .inr (.inl ⟨.inr rfl, rfl⟩)
  · exact .inr (.inr ⟨rfl, rfl⟩)

theorem opens_of_startSpecification (hm : startSpecification t = some m) :
    m.Opens [.preCondition, .postCondition] none t := by
  unfold startSpecification at hm
  split at hm <;> cases hm
  all_goals exact Move.opens_of (by decide) ⟨_, rfl, by decide, rfl, rfl⟩

theorem opens_of_startDomainItem (hm : startDomainItem t = some m) :
    m.Opens [.functionDeclaration, .axiomDeclaration] none t := by
  unfold startDomainItem at hm
  split at hm <;> cases hm
  all_goals exact Move.opens_of (by decide) ⟨_, rfl, by decide, rfl, rfl⟩

theorem opens_of_startBlock (hm : startBlock role t = some m) : m.Opens [.block] role t := by
  unfold startBlock at hm
  split at hm <;> cases hm
  exact Move.opens_of (by decide) ⟨_, rfl, by decide, rfl, rfl⟩

theorem opens_of_startType (hm : startType role t = some m) :
    m.Opens [.typeIdentifier, .listType] role t := by
  unfold startType at hm
  split at hm <;> cases hm
  all_goals exact Move.opens_of (by decide) ⟨_, rfl, by decide, rfl, rfl⟩

theorem startOperand_cases (hm : startOperand role t = some m) :
    (t = .identifier ∧ m = ⟨[], role, [.callTail role]⟩) ∨
      m.Opens Category.expressions role t := by
  unfold startOperand at hm
  split at hm <;> cases hm
  case h_1 => exact .inl ⟨rfl, rfl⟩
  case h_7 q =>
    exact .inr (Move.opens_of (by decide) ⟨_, rfl, by cases q <;> decide, rfl, rfl⟩)
  case h_8 o =>
    exact .inr (Move.opens_of (by decide) ⟨_, rfl, by cases o <;> decide, rfl, rfl⟩)
  all_goals exact .inr (Move.opens_of (by decide) ⟨_, rfl, by decide, rfl, rfl⟩)

theorem startStatement_cases (hm : startStatement role t = some m) :
    (t = .identifier ∧ m = ⟨[], none, [.nameTail role]⟩) ∨
      (t = .keyword .kwIf ∧ m = ⟨[.enter], none, [.ifTail role]⟩) ∨
      m.Opens Category.statements role t := by
  unfold startStatement at hm
  split at hm
  case h_2 => exact .inl ⟨rfl, by cases hm; rfl⟩
  case h_3 c =>
    cases hm
    refine .inr (.inr ?_)
    cases c <;> exact Move.opens_of (by decide) ⟨_, rfl, by decide, rfl, rfl⟩
  case h_4 => exact .inr (.inl ⟨rfl, by cases hm; rfl⟩)
  case h_8 =>
    obtain ⟨c, hc, l, hl, ht, rfl⟩ := opens_of_startBlock hm
    obtain rfl := List.mem_singleton.mp hc
    exact .inr (.inr ⟨_, by decide, l, hl, ht, rfl⟩)
  all_goals
    cases hm
    exact .inr (.inr (Move.opens_of (by decide) ⟨_, rfl, by decide, rfl, rfl⟩))

end Item

end HeyVL
