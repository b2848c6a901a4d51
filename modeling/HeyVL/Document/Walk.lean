import HeyVL.Document.Basic
import HeyVL.Tree.Cursor

namespace HeyVL

namespace Walk

/-- What is asked of the node at the cursor. -/
inductive Request
  /-- Go to another node; there is no step for a field that does not exist. -/
  | step (s : Option Cursor.Step)
  /-- Tell the text of the node. -/
  | text
  /-- Tell the roles of the children. -/
  | fields
deriving DecidableEq, Repr

/-- What a walk tells about a node that it comes to. -/
structure Visit where
  kind : Kind
  isComment : Bool
  start : Nat
  stop : Nat
  childCount : Nat
  namedChildCount : Nat
deriving DecidableEq, Repr

inductive Reply
  | visit (v : Option Visit)
  | text (s : Option String)
  | fields (roles : List (Option Field))
deriving DecidableEq, Repr

def visitOf (d : Document) (t : Tree) : Visit :=
  { kind := t.kind
    isComment := t.isComment
    start := d.startOf t
    stop := d.stopOf t
    childCount := t.children.length
    namedChildCount := t.children.countP Tree.named }

/-- The cursor behind a request and the answer to it. -/
def respond (d : Document) (c : Cursor) : Request → Cursor × Reply
  | .step s =>
    match s.bind c.step? with
    | some c' => (c', .visit (some (visitOf d c'.focus)))
    | none => (c, .visit none)
  | .text => (c, .text (d.textOf? c.focus))
  | .fields => (c, .fields (c.focus.children.map Tree.role))

def replies (d : Document) (c : Cursor) : List Request → List Reply
  | [] => []
  | r :: rest =>
    let (c', reply) := respond d c r
    reply :: replies d c' rest

/-- The answers of a walk from the root. -/
def run (d : Document) (requests : List Request) : List Reply :=
  replies d (.ofTree d.root) requests

end Walk

end HeyVL
