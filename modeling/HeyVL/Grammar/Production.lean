import HeyVL.Grammar.Nonterminal
import HeyVL.Token.Basic

/-!
The grammar of HeyVL. Each nonterminal has one production, an expression over tokens and
nonterminals. Ambiguous productions carry a precedence; which sources are in the language does
not depend on it.
-/

namespace HeyVL

/-- The side to which operators of one level associate. -/
inductive Associativity
  | left | right
deriving DecidableEq, Repr

/-- The right side of a grammar rule. -/
inductive Production
  | empty
  | token (t : Token)
  | symbol (n : Nonterminal)
  | seq (first rest : Production)
  | choice (this other : Production)
  | many (item : Production)
  | field (f : Field) (body : Production)
  | prec (side : Associativity) (level : Nat) (body : Production)
deriving DecidableEq, Repr

namespace Production

def inOrder : List Production → Production
  | [] => empty
  | [p] => p
  | p :: rest => seq p (inOrder rest)

def oneOf (first : Production) : List Production → Production
  | [] => first
  | p :: rest => choice first (oneOf p rest)

def maybe (p : Production) : Production := choice p empty

/-- At least one, separated by commas. -/
def separated1 (p : Production) : Production :=
  seq p (many (seq (token (.punctuation .comma)) p))

/-- Any number, separated by commas. -/
def separated (p : Production) : Production := maybe (separated1 p)

def kw (k : Keyword) : Production := token (.keyword k)

def mark (p : Punctuation) : Production := token (.punctuation p)

def command (c : Command) : Production := token (.command c)

def operator (o : BinaryOperator) : Production := token (.binary o)

def word : Production := token .identifier

/-- The identifier that names a declaration. -/
def declaredName : Production := field .name word

def node (c : Category) : Production := symbol (.visible c)

def type : Production := symbol (.hidden .type)

def expression : Production := symbol (.hidden .expression)

def statement : Production := symbol (.hidden .statement)

/-- A comma-separated list in parentheses. -/
def inParentheses (p : Production) : Production :=
  inOrder [mark .parenOpen, separated p, mark .parenClose]

/-- Operators of one level between two expressions. -/
def binaryLevel (level : Nat) (first : BinaryOperator) (others : List BinaryOperator) :
    Production :=
  prec .left level
    (inOrder [expression, oneOf (operator first) (others.map operator), expression])

/-- The two blocks of a conditional statement. -/
def branches : List Production :=
  [field .consequent (node .block), kw .kwElse, field .otherwise (node .block)]

end Production

namespace Hidden

open Production

def production : Hidden → Production
  | declaration => choice (node .procDeclaration) (node .domainDeclaration)
  | domainSpec => choice (node .functionDeclaration) (node .axiomDeclaration)
  | procedureSpec => choice (node .preCondition) (node .postCondition)
  | statement =>
    oneOf (node .block)
      [node .variableDeclarationStatement, node .assignmentStatement, node .callStatement,
        node .havocStatement, node .assertStatement, node .assumeStatement,
        node .compareStatement, node .rewardStatement, node .tickStatement,
        node .negateStatement, node .validateStatement, node .demonicIfStatement,
        node .angelicIfStatement, node .ifStatement, node .whileStatement,
        node .annotatedStatement, node .labelStatement]
  | type => choice (node .typeIdentifier) (node .listType)
  | expression =>
    oneOf (node .quantifierExpression)
      [node .binaryExpression, node .unaryExpression, node .letExpression, node .iteExpression,
        node .callExpression, node .iversonExpression, node .parenthesizedExpression,
        node .literal, word]

end Hidden

namespace Category

open Production

def production : Category → Production
  | sourceFile => many (symbol (.hidden .declaration))
  | domainDeclaration =>
    inOrder [kw .kwDomain, declaredName, mark .braceOpen, many (symbol (.hidden .domainSpec)),
      mark .braceClose]
  | functionDeclaration =>
    inOrder [kw .kwFunc, declaredName, field .inputs (node .parameterList), mark .colon,
      field .output type,
      choice (seq (mark .assign) (field .body expression)) (maybe (mark .computable))]
  | axiomDeclaration => inOrder [kw .kwAxiom, declaredName, field .statedAxiom expression]
  | procDeclaration =>
    inOrder [maybe (field .calculus (node .annotationCalculus)),
      field .direction (choice (kw .kwProc) (kw .kwCoproc)), declaredName,
      field .inputs (node .parameterList), mark .arrow, field .outputs (node .parameterList),
      many (symbol (.hidden .procedureSpec)), field .body (maybe (node .block))]
  | annotationCalculus => seq (mark .atSign) word
  | parameterList => inParentheses (node .parameter)
  | parameter => inOrder [declaredName, mark .colon, field .type type]
  | preCondition => seq (kw .kwPre) expression
  | postCondition => seq (kw .kwPost) expression
  | block =>
    inOrder [mark .braceOpen, many (seq statement (maybe (mark .semicolon))), mark .braceClose]
  | variableDeclarationStatement =>
    inOrder [kw .kwVar, declaredName, mark .colon, field .type type,
      maybe (seq (mark .assign) (field .value expression))]
  | assignmentStatement => inOrder [separated1 word, mark .assign, expression]
  | callStatement => node .callExpression
  | havocStatement => seq (choice (command .havoc) (command .cohavoc)) (separated1 word)
  | assertStatement => seq (choice (command .assert) (command .coassert)) expression
  | assumeStatement => seq (choice (command .assume) (command .coassume)) expression
  | compareStatement => seq (choice (command .compare) (command .cocompare)) expression
  | rewardStatement => seq (command .reward) expression
  | tickStatement => seq (command .tick) expression
  | negateStatement => choice (command .negate) (command .conegate)
  | validateStatement => choice (command .validate) (command .covalidate)
  | demonicIfStatement =>
    inOrder ([kw .kwIf, choice (operator .meet) (operator .meetAscii)] ++ branches)
  | angelicIfStatement =>
    inOrder ([kw .kwIf, choice (operator .join) (operator .joinAscii)] ++ branches)
  | ifStatement => inOrder ([kw .kwIf, field .condition expression] ++ branches)
  | whileStatement =>
    inOrder [kw .kwWhile, field .condition expression, field .body (node .block)]
  | annotatedStatement =>
    inOrder [mark .atSign, declaredName, maybe (node .annotationInputs), field .statement statement]
  | annotationInputs => inParentheses expression
  | labelStatement => seq (kw .kwLabel) word
  | typeIdentifier => word
  | listType => seq (mark .list) type
  | quantifierExpression =>
    prec .right 1 (inOrder
      [field .quantifier (oneOf (token (.quantifier .infimum))
          [token (.quantifier .supremum), token (.quantifier .existential),
            token (.quantifier .universal)]),
        field .variableList (separated1 (node .quantifierVariable)),
        many (node .quantifierTrigger), mark .dot, field .expression expression])
  | binaryExpression =>
    oneOf (binaryLevel 2 .or [])
      [binaryLevel 3 .and [],
        binaryLevel 4 .eq [.ne, .lt, .le, .ge, .gt],
        binaryLevel 5 .meet [.meetAscii, .join, .joinAscii, .implies, .impliesAscii, .coimplies,
          .coimpliesAscii, .compare, .cocompare],
        binaryLevel 6 .add [.sub],
        binaryLevel 7 .mul [.div, .mod]]
  | unaryExpression =>
    prec .right 8 (seq
      (field .operator (oneOf (token (.unary .not)) [token (.unary .conot), token (.unary .embed)]))
      expression)
  | iversonExpression =>
    prec .right 8 (inOrder [mark .bracketOpen, expression, mark .bracketClose])
  | letExpression =>
    inOrder [kw .kwLet, mark .parenOpen, word, mark .comma, expression, mark .comma, expression,
      mark .parenClose]
  | iteExpression =>
    inOrder [kw .kwIte, mark .parenOpen, expression, mark .comma, expression, mark .comma,
      expression, mark .parenClose]
  | callExpression => seq (field .function word) (inParentheses expression)
  | parenthesizedExpression => inOrder [mark .parenOpen, expression, mark .parenClose]
  | quantifierVariable => inOrder [declaredName, mark .colon, field .type type]
  | quantifierTrigger => seq (mark .trigger) (inParentheses expression)
  | literal =>
    oneOf (token .string) [token .integer, token .decimal, token .infinity, token .boolean]

end Category

namespace Nonterminal

def production : Nonterminal → Production
  | visible c => c.production
  | hidden h => h.production

end Nonterminal

end HeyVL
