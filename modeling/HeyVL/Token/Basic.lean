import HeyVL.Bytes

namespace HeyVL

/-- Words that structure declarations, statements and expressions. -/
inductive Keyword
  | kwDomain | kwFunc | kwAxiom | kwProc | kwCoproc | kwPre | kwPost
  | kwVar | kwIf | kwElse | kwWhile | kwLabel | kwLet | kwIte
deriving DecidableEq, Repr

/-- Words that are a statement of their own, together with what follows them. -/
inductive Command
  | havoc | cohavoc | assert | coassert | assume | coassume | compare | cocompare
  | reward | tick | negate | conegate | validate | covalidate
deriving DecidableEq, Repr

/-- The words that open a quantifier expression. -/
inductive Quantifier
  | infimum | supremum | existential | universal
deriving DecidableEq, Repr

/-- The operators between two operands. The lattice operators have a symbol and an ASCII
spelling, and these are different tokens. -/
inductive BinaryOperator
  | or | and
  | eq | ne | lt | le | ge | gt
  | meet | meetAscii | join | joinAscii | implies | impliesAscii | coimplies | coimpliesAscii
  | compare | cocompare
  | add | sub | mul | div | mod
deriving DecidableEq, Repr

/-- The operators before an operand. -/
inductive UnaryOperator
  | not | conot | embed
deriving DecidableEq, Repr

/-- Everything else with one fixed spelling. -/
inductive Punctuation
  | braceOpen | braceClose | colon | assign | computable | arrow | atSign
  | parenOpen | comma | parenClose | semicolon | list | dot
  | bracketOpen | bracketClose | trigger
deriving DecidableEq, Repr

/-- The tokens of the language, comments included. -/
inductive Token
  | identifier | decimal | integer | string | infinity | boolean | comment
  | keyword (k : Keyword)
  | command (c : Command)
  | quantifier (q : Quantifier)
  | binary (o : BinaryOperator)
  | unary (o : UnaryOperator)
  | punctuation (p : Punctuation)
deriving DecidableEq, Repr

namespace Keyword

def text : Keyword → String
  | kwDomain => "domain" | kwFunc => "func" | kwAxiom => "axiom" | kwProc => "proc"
  | kwCoproc => "coproc" | kwPre => "pre" | kwPost => "post" | kwVar => "var" | kwIf => "if"
  | kwElse => "else" | kwWhile => "while" | kwLabel => "label" | kwLet => "let" | kwIte => "ite"

end Keyword

namespace Command

def text : Command → String
  | havoc => "havoc" | cohavoc => "cohavoc" | assert => "assert" | coassert => "coassert"
  | assume => "assume" | coassume => "coassume" | compare => "compare" | cocompare => "cocompare"
  | reward => "reward" | tick => "tick" | negate => "negate" | conegate => "conegate"
  | validate => "validate" | covalidate => "covalidate"

end Command

namespace Quantifier

def text : Quantifier → String
  | infimum => "inf" | supremum => "sup" | existential => "exists" | universal => "forall"

end Quantifier

namespace BinaryOperator

def text : BinaryOperator → String
  | or => "||" | and => "&&"
  | eq => "==" | ne => "!=" | lt => "<" | le => "<=" | ge => ">=" | gt => ">"
  | meet => "⊓" | meetAscii => "\\cap" | join => "⊔" | joinAscii => "\\cup"
  | implies => "→" | impliesAscii => "==>" | coimplies => "←" | coimpliesAscii => "<=="
  | compare => "↘" | cocompare => "↖"
  | add => "+" | sub => "-" | mul => "*" | div => "/" | mod => "%"

/-- The precedence level of a binary operator: a higher level binds tighter. -/
def level : BinaryOperator → Nat
  | or => 2
  | and => 3
  | eq | ne | lt | le | ge | gt => 4
  | meet | meetAscii | join | joinAscii | implies | impliesAscii | coimplies | coimpliesAscii
  | compare | cocompare => 5
  | add | sub => 6
  | mul | div | mod => 7

end BinaryOperator

namespace UnaryOperator

def text : UnaryOperator → String
  | not => "!" | conot => "~" | embed => "?"

end UnaryOperator

namespace Punctuation

def text : Punctuation → String
  | braceOpen => "\x7b" | braceClose => "\x7d" | colon => ":" | assign => "="
  | computable => "@computable" | arrow => "->" | atSign => "@" | parenOpen => "(" | comma => ","
  | parenClose => ")" | semicolon => ";" | list => "[]" | dot => "."
  | bracketOpen => "[" | bracketClose => "]" | trigger => "@trigger"

end Punctuation

namespace Token

/-- The spelling of a token that has only one. -/
def fixedText? : Token → Option String
  | keyword k => some k.text
  | command c => some c.text
  | quantifier q => some q.text
  | binary o => some o.text
  | unary o => some o.text
  | punctuation p => some p.text
  | _ => none

/-- The name of a token: its spelling if it has only one, else the name of its class. -/
def name : Token → String
  | identifier => "identifier"
  | decimal => "decimal_literal"
  | integer => "integer_literal"
  | string => "string_literal"
  | infinity => "infinity_literal"
  | boolean => "boolean_literal"
  | comment => "comment"
  | keyword k => k.text
  | command c => c.text
  | quantifier q => q.text
  | binary o => o.text
  | unary o => o.text
  | punctuation p => p.text

/-- A token is named when it is a class of spellings; a fixed spelling is its own name. -/
def named (t : Token) : Bool := t.fixedText?.isNone

/-- Every token once, in the order of the symbol table. -/
def all : List Token :=
  [identifier, keyword .kwDomain, punctuation .braceOpen, punctuation .braceClose,
    keyword .kwFunc, punctuation .colon, punctuation .assign, punctuation .computable,
    keyword .kwAxiom, keyword .kwProc, keyword .kwCoproc, punctuation .arrow, punctuation .atSign,
    punctuation .parenOpen, punctuation .comma, punctuation .parenClose, keyword .kwPre,
    keyword .kwPost, punctuation .semicolon, keyword .kwVar, command .havoc, command .cohavoc,
    command .assert, command .coassert, command .assume, command .coassume, command .compare,
    command .cocompare, command .reward, command .tick, command .negate, command .conegate,
    command .validate, command .covalidate, keyword .kwIf, binary .meet, binary .meetAscii,
    keyword .kwElse, binary .join, binary .joinAscii, keyword .kwWhile, keyword .kwLabel,
    punctuation .list, quantifier .infimum, quantifier .supremum, quantifier .existential,
    quantifier .universal,
    punctuation .dot, binary .or, binary .and, binary .eq, binary .ne, binary .lt, binary .le,
    binary .ge, binary .gt, binary .implies, binary .impliesAscii, binary .coimplies,
    binary .coimpliesAscii, binary .compare, binary .cocompare, binary .add, binary .sub,
    binary .mul, binary .div, binary .mod, unary .not, unary .conot, unary .embed,
    punctuation .bracketOpen, punctuation .bracketClose, keyword .kwLet, keyword .kwIte,
    punctuation .trigger, decimal, integer, string, infinity, boolean, comment]

theorem mem_all (t : Token) : t ∈ all := by
  cases t with
  | keyword k => cases k <;> decide
  | command c => cases c <;> decide
  | quantifier q => cases q <;> decide
  | binary o => cases o <;> decide
  | unary o => cases o <;> decide
  | punctuation p => cases p <;> decide
  | _ => decide

end Token

end HeyVL
