import HeyVL.Category
import HeyVL.Event

namespace HeyVL

/-- A syntax tree with every token of the source. -/
inductive Tree
  | leaf (role : Option Field) (lexeme : Lexeme)
  | node (role : Option Field) (category : Category) (children : List Tree)
deriving Repr

/-- The kind of a node: a token or a category. -/
inductive Kind
  | token (t : Token)
  | category (c : Category)
deriving DecidableEq, Repr

namespace Kind

def name : Kind → String
  | token t => t.name
  | category c => c.name

/-- Whether the kind is named; tokens with one spelling are not. -/
def named : Kind → Bool
  | token t => t.named
  | category _ => true

end Kind

namespace Tree

def role : Tree → Option Field
  | leaf role _ => role
  | node role _ _ => role

def withRole (role : Option Field) : Tree → Tree
  | leaf _ lexeme => leaf role lexeme
  | node _ category children => node role category children

def kind : Tree → Kind
  | leaf _ lexeme => .token lexeme.token
  | node _ category _ => .category category

/-- The children of a node; a leaf has none. -/
def children : Tree → List Tree
  | leaf _ _ => []
  | node _ _ children => children

def isComment (t : Tree) : Bool := t.kind == .token .comment

def named (t : Tree) : Bool := t.kind.named

mutual

/-- The offset at which a node begins: that of its first leaf. -/
def start : Tree → Nat
  | leaf _ lexeme => lexeme.start
  | node _ _ children => startOfList children

def startOfList : List Tree → Nat
  | [] => 0
  | t :: _ => t.start

end

mutual

/-- The offset at which a node ends: that of its last leaf. -/
def stop : Tree → Nat
  | leaf _ lexeme => lexeme.stop
  | node _ _ children => stopOfList children

def stopOfList : List Tree → Nat
  | [] => 0
  | [t] => t.stop
  | _ :: u :: rest => stopOfList (u :: rest)

end

mutual

/-- The leaves of a tree from left to right. -/
def leaves : Tree → List Lexeme
  | leaf _ lexeme => [lexeme]
  | node _ _ children => leavesOfList children

def leavesOfList : List Tree → List Lexeme
  | [] => []
  | t :: rest => t.leaves ++ leavesOfList rest

end

end Tree

end HeyVL
