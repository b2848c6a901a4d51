import HeyVL.Tree.Basic

/-!
Placing comments. A comment becomes a child of the deepest node that has a token before it and a
token behind it, between the children that surround it there.
-/

namespace HeyVL

namespace Tree

mutual

/-- A tree with a comment placed among its leaves. -/
def placeIn (comment : Lexeme) : Tree → Tree
  | leaf role lexeme => leaf role lexeme
  | node role category children => node role category (placeAmong comment children)

/-- The trees with a comment placed in the one that surrounds it, or else between them. -/
def placeAmong (comment : Lexeme) : List Tree → List Tree
  | [] => [leaf none comment]
  | t :: rest =>
    if t.stop ≤ comment.start then t :: placeAmong comment rest
    else if t.start < comment.start then t.placeIn comment :: rest
    else leaf none comment :: t :: rest

end

def placeAll (comments : List Lexeme) (forest : List Tree) : List Tree :=
  comments.foldl (fun trees comment => placeAmong comment trees) forest

end Tree

end HeyVL
