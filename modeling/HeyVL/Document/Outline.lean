import HeyVL.Document.Basic

namespace HeyVL

structure Row where
  depth : Nat
  role : Option Field
  kind : Kind
  start : Nat
  stop : Nat
  first : Point
  last : Point
deriving DecidableEq, Repr

namespace Document

/-- The row of a node, where `place` tells the place of an offset. -/
def rowOf (d : Document) (place : Nat → Point) (depth : Nat) (t : Tree) : Row :=
  { depth
    role := t.role
    kind := t.kind
    start := d.startOf t
    stop := d.stopOf t
    first := place (d.startOf t)
    last := place (d.stopOf t) }

mutual

/-- The rows of a node at the given depth and of all below it. -/
def rows (d : Document) (place : Nat → Point) (depth : Nat) : Tree → List Row
  | .leaf role lexeme => [d.rowOf place depth (.leaf role lexeme)]
  | .node role category children =>
    d.rowOf place depth (.node role category children) ::
      rowsOfList d place (depth + 1) children

def rowsOfList (d : Document) (place : Nat → Point) (depth : Nat) : List Tree → List Row
  | [] => []
  | t :: rest => rows d place depth t ++ rowsOfList d place depth rest

end

/-- All nodes of the document in preorder. The places of all offsets are found once. -/
def outline (d : Document) : List Row :=
  let points := d.source.points
  let past := d.source.foldl Point.advance ⟨0, 0⟩
  d.rows (fun offset => points.getD offset past) 0 d.root

theorem outline_eq_rows (d : Document) : d.outline = d.rows d.source.pointAt 0 d.root := by
  simp only [outline, Bytes.getD_points]

end Document

end HeyVL
