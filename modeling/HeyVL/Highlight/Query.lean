import HeyVL.Tree.Basic

namespace HeyVL

namespace Highlight

/-- A token to be found among the children of a node, in the given role if there is one. -/
structure Part where
  role : Option Field
  token : Token
deriving DecidableEq, Repr

/-- A description of nodes. -/
inductive Pattern
  /-- A leaf of one of the tokens. -/
  | anyOf (tokens : List Token)
  /-- A node of the category. -/
  | node (category : Category)
  /-- Children of a node of the category that are the given parts in this order, with anything
  between them. -/
  | inside (category : Category) (parts : List Part)
deriving DecidableEq, Repr

/-- A pattern with the name of what it describes. -/
structure Rule where
  pattern : Pattern
  capture : String
deriving DecidableEq, Repr

namespace Part

def isMatch (p : Part) (t : Tree) : Bool :=
  t.kind == .token p.token && (p.role.isNone || t.role == p.role)

/-- All ways to find the parts among the children, in order. -/
def choices : List Part → List Tree → List (List Tree)
  | [], _ => [[]]
  | _ :: _, [] => []
  | p :: ps, t :: ts =>
    (if p.isMatch t then (choices ps ts).map (t :: ·) else []) ++ choices (p :: ps) ts

end Part

namespace Pattern

/-- The matches of a pattern at a node, each with the nodes that it describes. -/
def matchesAt : Pattern → Tree → List (List Tree)
  | .anyOf tokens, t =>
    match t with
    | .leaf _ lexeme => if lexeme.token ∈ tokens then [[t]] else []
    | .node .. => []
  | .node category, t => if t.kind = .category category then [[t]] else []
  | .inside category parts, t =>
    if t.kind = .category category then Part.choices parts t.children else []

end Pattern

end Highlight

end HeyVL
