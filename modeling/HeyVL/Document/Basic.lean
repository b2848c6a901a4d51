import HeyVL.Tree.Builder
import HeyVL.Tree.Comments

namespace HeyVL

/-- An accepted source and its tree. -/
structure Document where
  source : Bytes
  root : Tree
deriving Repr

namespace Document

/-- The document of a source. -/
def parse (source : Bytes) : Except SyntaxError Document :=
  (Event.read source).map fun events =>
    ⟨source, .node none .sourceFile
      (Tree.placeAll (Event.comments events) (Builder.forest events))⟩

/-- Where a node of the document begins. The source file begins with its first child, and at the
end of the source if it has none. -/
def startOf (d : Document) : Tree → Nat
  | .node _ .sourceFile [] => d.source.length
  | t => t.start

/-- Where a node of the document ends. The source file takes in all of the source. -/
def stopOf (d : Document) : Tree → Nat
  | .node _ .sourceFile _ => d.source.length
  | t => t.stop

/-- The text of a node, unless its bytes are not UTF-8. -/
def textOf? (d : Document) (t : Tree) : Option String :=
  (d.source.slice (d.startOf t) (d.stopOf t)).text?

end Document

end HeyVL
