import HeyVL.Document.Basic
import HeyVL.Highlight.Rules

namespace HeyVL

/-- A stretch of source that a rule gives a name. -/
structure Capture where
  start : Nat
  stop : Nat
  rule : Nat
  name : String
deriving DecidableEq, Repr

namespace Capture

/-- The order of captures: by start, then by end, then by rule. -/
def le (a b : Capture) : Bool :=
  a.start < b.start || a.start == b.start &&
    (a.stop < b.stop || a.stop == b.stop && a.rule ≤ b.rule)

end Capture

namespace Tree

mutual

/-- A tree and all trees within it, in preorder. -/
def subtrees : Tree → List Tree
  | leaf role lexeme => [leaf role lexeme]
  | node role category children => node role category children :: subtreesOfList children

def subtreesOfList : List Tree → List Tree
  | [] => []
  | t :: rest => t.subtrees ++ subtreesOfList rest

end

end Tree

namespace Document

/-- The captures of the rule with the given number at a node. -/
def capturesAt (d : Document) (number : Nat) (rule : Highlight.Rule) (t : Tree) :
    List Capture :=
  (rule.pattern.matchesAt t).flatten.map fun u =>
    ⟨d.startOf u, d.stopOf u, number, rule.capture⟩

def captures (d : Document) : List Capture :=
  let found := d.root.subtrees.flatMap fun t =>
    Highlight.rules.zipIdx.flatMap fun (rule, number) => d.capturesAt number rule t
  found.mergeSort Capture.le

end Document

end HeyVL
