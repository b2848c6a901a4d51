import HeyVL.Highlight.Query

namespace HeyVL

namespace Highlight

def namePart : Part := ⟨some .name, .identifier⟩

def annotationSign : Part := ⟨none, .punctuation .atSign⟩

/-- The rules in order; a capture tells the number of its rule. -/
def rules : List Rule :=
  [⟨.anyOf [.keyword .kwDomain, .keyword .kwFunc, .keyword .kwAxiom, .keyword .kwProc,
      .keyword .kwCoproc, .keyword .kwVar, .keyword .kwLabel], "keyword"⟩,
    ⟨.anyOf [.keyword .kwPre, .keyword .kwPost], "keyword.directive"⟩,
    ⟨.anyOf [.command .havoc, .command .cohavoc, .command .assert, .command .coassert,
      .command .assume, .command .coassume, .command .compare, .command .cocompare,
      .command .reward, .command .tick, .command .negate, .command .conegate,
      .command .validate, .command .covalidate], "keyword.statement"⟩,
    ⟨.anyOf [.keyword .kwIf, .keyword .kwElse], "keyword.conditional"⟩,
    ⟨.anyOf [.keyword .kwWhile], "keyword.repeat"⟩,
    ⟨.anyOf [.quantifier .infimum, .quantifier .supremum, .quantifier .existential,
      .quantifier .universal], "keyword.operator"⟩,
    ⟨.anyOf [.keyword .kwLet, .keyword .kwIte], "function.builtin"⟩,
    ⟨.inside .procDeclaration [namePart], "function"⟩,
    ⟨.inside .functionDeclaration [namePart], "function"⟩,
    ⟨.inside .domainDeclaration [namePart], "type.definition"⟩,
    ⟨.inside .axiomDeclaration [namePart], "label"⟩,
    ⟨.inside .labelStatement [⟨none, .identifier⟩], "label"⟩,
    ⟨.inside .callExpression [⟨some .function, .identifier⟩], "function.call"⟩,
    ⟨.inside .parameter [namePart], "variable.parameter"⟩,
    ⟨.inside .quantifierVariable [namePart], "variable.parameter"⟩,
    ⟨.inside .annotationCalculus [annotationSign, ⟨none, .identifier⟩], "attribute"⟩,
    ⟨.inside .annotatedStatement [annotationSign, namePart], "attribute"⟩,
    ⟨.node .typeIdentifier, "type"⟩,
    ⟨.anyOf [.string], "string"⟩,
    ⟨.anyOf [.integer], "number"⟩,
    ⟨.anyOf [.decimal], "number.float"⟩,
    ⟨.anyOf [.boolean], "boolean"⟩,
    ⟨.anyOf [.infinity], "constant.builtin"⟩,
    ⟨.anyOf [.comment], "comment"⟩,
    ⟨.anyOf [.binary .or, .binary .and, .binary .eq, .binary .ne, .binary .lt, .binary .le,
      .binary .ge, .binary .gt, .binary .add, .binary .sub, .binary .mul, .binary .div,
      .binary .mod, .unary .not, .unary .conot, .unary .embed, .binary .meet, .binary .join,
      .binary .implies, .binary .impliesAscii, .binary .coimplies, .binary .coimpliesAscii,
      .binary .compare, .binary .cocompare, .punctuation .assign, .punctuation .arrow,
      .punctuation .list], "operator"⟩,
    ⟨.anyOf [.punctuation .parenOpen, .punctuation .parenClose, .punctuation .braceOpen,
      .punctuation .braceClose, .punctuation .bracketOpen, .punctuation .bracketClose],
      "punctuation.bracket"⟩,
    ⟨.anyOf [.punctuation .comma, .punctuation .colon, .punctuation .semicolon,
      .punctuation .dot], "punctuation.delimiter"⟩,
    ⟨.anyOf [.identifier], "variable"⟩]

/-- The capture names in the order in which they first occur. -/
def captureNames : List String := (rules.map Rule.capture).eraseDups

end Highlight

end HeyVL
