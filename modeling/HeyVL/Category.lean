namespace HeyVL

/-- The kinds of inner nodes. -/
inductive Category
  | sourceFile
  | domainDeclaration | functionDeclaration | axiomDeclaration | procDeclaration
  | annotationCalculus | parameterList | parameter | preCondition | postCondition
  | block | variableDeclarationStatement | assignmentStatement | callStatement | havocStatement
  | assertStatement | assumeStatement | compareStatement | rewardStatement | tickStatement
  | negateStatement | validateStatement | demonicIfStatement | angelicIfStatement | ifStatement
  | whileStatement | annotatedStatement | annotationInputs | labelStatement
  | typeIdentifier | listType
  | quantifierExpression | binaryExpression | unaryExpression | iversonExpression
  | letExpression | iteExpression | callExpression | parenthesizedExpression
  | quantifierVariable | quantifierTrigger | literal
deriving DecidableEq, Repr

namespace Category

/-- The name of a category in the symbol table and in S-expressions. -/
def name : Category → String
  | sourceFile => "source_file"
  | domainDeclaration => "domain_declaration"
  | functionDeclaration => "function_declaration"
  | axiomDeclaration => "axiom_declaration"
  | procDeclaration => "proc_declaration"
  | annotationCalculus => "annotation_calculus"
  | parameterList => "parameter_list"
  | parameter => "parameter"
  | preCondition => "pre_condition"
  | postCondition => "post_condition"
  | block => "block"
  | variableDeclarationStatement => "variable_declaration_statement"
  | assignmentStatement => "assignment_statement"
  | callStatement => "call_statement"
  | havocStatement => "havoc_statement"
  | assertStatement => "assert_statement"
  | assumeStatement => "assume_statement"
  | compareStatement => "compare_statement"
  | rewardStatement => "reward_statement"
  | tickStatement => "tick_statement"
  | negateStatement => "negate_statement"
  | validateStatement => "validate_statement"
  | demonicIfStatement => "demonic_if_statement"
  | angelicIfStatement => "angelic_if_statement"
  | ifStatement => "if_statement"
  | whileStatement => "while_statement"
  | annotatedStatement => "annotated_statement"
  | annotationInputs => "annotation_inputs"
  | labelStatement => "label_statement"
  | typeIdentifier => "type_identifier"
  | listType => "list_type"
  | quantifierExpression => "quantifier_expression"
  | binaryExpression => "binary_expression"
  | unaryExpression => "unary_expression"
  | iversonExpression => "iverson_expression"
  | letExpression => "let_expression"
  | iteExpression => "ite_expression"
  | callExpression => "call_expression"
  | parenthesizedExpression => "parenthesized_expression"
  | quantifierVariable => "quantifier_variable"
  | quantifierTrigger => "quantifier_annotation"
  | literal => "literal"

/-- Every category once, in the order of the symbol table. -/
def all : List Category :=
  [sourceFile, domainDeclaration, functionDeclaration, axiomDeclaration, procDeclaration,
    annotationCalculus, parameterList, parameter, preCondition, postCondition, block,
    variableDeclarationStatement, assignmentStatement, callStatement, havocStatement,
    assertStatement, assumeStatement, compareStatement, rewardStatement, tickStatement,
    negateStatement, validateStatement, demonicIfStatement, angelicIfStatement, ifStatement,
    whileStatement, annotatedStatement, annotationInputs, labelStatement, typeIdentifier,
    listType, quantifierExpression, binaryExpression, unaryExpression, iversonExpression,
    letExpression, iteExpression, callExpression, parenthesizedExpression, quantifierVariable,
    quantifierTrigger, literal]

theorem mem_all (c : Category) : c ∈ all := by
  cases c <;> decide

end Category

/-- The roles that a child can have in its parent. -/
inductive Field
  | calculus | statedAxiom | body | condition | direction | otherwise | expression | function
  | inputs | name | operator | output | outputs | quantifier | statement | consequent | type
  | value | variableList
deriving DecidableEq, Repr

namespace Field

def text : Field → String
  | calculus => "annotation"
  | statedAxiom => "axiom"
  | body => "body"
  | condition => "condition"
  | direction => "direction"
  | otherwise => "else"
  | expression => "expression"
  | function => "function"
  | inputs => "inputs"
  | name => "name"
  | operator => "operator"
  | output => "output"
  | outputs => "outputs"
  | quantifier => "quantifier"
  | statement => "statement"
  | consequent => "then"
  | type => "type"
  | value => "value"
  | variableList => "variables"

/-- Every field once, in the order of the field table. -/
def all : List Field :=
  [calculus, statedAxiom, body, condition, direction, otherwise, expression, function, inputs,
    name, operator, output, outputs, quantifier, statement, consequent, type, value, variableList]

theorem mem_all (f : Field) : f ∈ all := by
  cases f <;> decide

end Field

end HeyVL
