import HeyVL.Category

namespace HeyVL

/-- Nonterminals that make no node of their own. -/
inductive Hidden
  | declaration | domainSpec | procedureSpec | statement | type | expression
deriving DecidableEq, Repr

def Hidden.name : Hidden → String
  | declaration => "_declaration"
  | domainSpec => "_domain_spec"
  | procedureSpec => "_procedure_spec"
  | statement => "_statement"
  | type => "_type"
  | expression => "_expression"

/-- What the grammar has a production for. -/
inductive Nonterminal
  | visible (c : Category)
  | hidden (h : Hidden)
deriving DecidableEq, Repr

namespace Nonterminal

def name : Nonterminal → String
  | visible c => c.name
  | hidden h => h.name

/-- Every nonterminal once, in the order of the grammar; the first is the start symbol. -/
def all : List Nonterminal :=
  [visible .sourceFile, hidden .declaration, visible .domainDeclaration, hidden .domainSpec,
    visible .functionDeclaration, visible .axiomDeclaration, visible .procDeclaration,
    visible .annotationCalculus, visible .parameterList, visible .parameter,
    hidden .procedureSpec, visible .preCondition, visible .postCondition, visible .block,
    hidden .statement, visible .variableDeclarationStatement, visible .assignmentStatement,
    visible .callStatement, visible .havocStatement, visible .assertStatement,
    visible .assumeStatement, visible .compareStatement, visible .rewardStatement,
    visible .tickStatement, visible .negateStatement, visible .validateStatement,
    visible .demonicIfStatement, visible .angelicIfStatement, visible .ifStatement,
    visible .whileStatement, visible .annotatedStatement, visible .annotationInputs,
    visible .labelStatement, hidden .type, visible .typeIdentifier, visible .listType,
    hidden .expression, visible .quantifierExpression, visible .binaryExpression,
    visible .unaryExpression, visible .iversonExpression, visible .letExpression,
    visible .iteExpression, visible .callExpression, visible .parenthesizedExpression,
    visible .quantifierVariable, visible .quantifierTrigger, visible .literal]

theorem mem_all (n : Nonterminal) : n ∈ all := by
  cases n with
  | visible c => cases c <;> decide
  | hidden h => cases h <;> decide

end Nonterminal

end HeyVL
