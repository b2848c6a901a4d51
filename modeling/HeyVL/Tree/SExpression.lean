import HeyVL.Tree.Basic

namespace HeyVL

namespace Tree

/-- The text that stands before a child with the given role. -/
def roleLabel : Option Field → String
  | none => ""
  | some f => f.text ++ ": "

mutual

/-- The S-expression of a node without its role. Only named children are written. -/
def sexp : Tree → String
  | leaf _ lexeme => "(" ++ lexeme.token.name ++ ")"
  | node _ category children => "(" ++ category.name ++ sexpOfList children ++ ")"

def sexpOfList : List Tree → String
  | [] => ""
  | t :: rest =>
    if t.named then " " ++ roleLabel t.role ++ t.sexp ++ sexpOfList rest else sexpOfList rest

end

end Tree

end HeyVL
