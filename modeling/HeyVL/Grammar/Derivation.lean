import HeyVL.Grammar.Production
import HeyVL.Tree.Basic

namespace HeyVL

/-- A child of a node as its parent's production sees it. -/
abbrev Label := Option Field × Kind

namespace Production

/-- The token sequences of a production. Precedence plays no part. -/
inductive Generates : Production → List Token → Prop
  | empty : Generates .empty []
  | token (t : Token) : Generates (.token t) [t]
  | symbol {n : Nonterminal} {w : List Token} (h : Generates n.production w) :
      Generates (.symbol n) w
  | seq {p q : Production} {u v : List Token} (hp : Generates p u) (hq : Generates q v) :
      Generates (.seq p q) (u ++ v)
  | this {p q : Production} {w : List Token} (h : Generates p w) : Generates (.choice p q) w
  | other {p q : Production} {w : List Token} (h : Generates q w) : Generates (.choice p q) w
  | none (p : Production) : Generates (.many p) []
  | again {p : Production} {u v : List Token} (hp : Generates p u)
      (hq : Generates (.many p) v) : Generates (.many p) (u ++ v)
  | field {p : Production} {f : Field} {w : List Token} (h : Generates p w) :
      Generates (.field f p) w
  | prec {p : Production} {s : Associativity} {n : Nat} {w : List Token} (h : Generates p w) :
      Generates (.prec s n p) w

/-- The child lists of a production: the children of hidden nonterminals take the place of these,
and a field is the role of every child of its body. -/
inductive Expands : Production → List Label → Prop
  | empty : Expands .empty []
  | token (t : Token) : Expands (.token t) [(none, .token t)]
  | visible (c : Category) : Expands (.symbol (.visible c)) [(none, .category c)]
  | hidden {h : Hidden} {w : List Label} (hw : Expands h.production w) :
      Expands (.symbol (.hidden h)) w
  | seq {p q : Production} {u v : List Label} (hp : Expands p u) (hq : Expands q v) :
      Expands (.seq p q) (u ++ v)
  | this {p q : Production} {w : List Label} (h : Expands p w) : Expands (.choice p q) w
  | other {p q : Production} {w : List Label} (h : Expands q w) : Expands (.choice p q) w
  | none (p : Production) : Expands (.many p) []
  | again {p : Production} {u v : List Label} (hp : Expands p u) (hq : Expands (.many p) v) :
      Expands (.many p) (u ++ v)
  | field {p : Production} {f : Field} {w : List Label} (h : Expands p w) :
      Expands (.field f p) (w.map fun label => (some f, label.2))
  | prec {p : Production} {s : Associativity} {n : Nat} {w : List Label} (h : Expands p w) :
      Expands (.prec s n p) w

end Production

namespace Grammar

/-- The token sequences of the language. -/
def Derivable (tokens : List Token) : Prop :=
  Production.Generates (.symbol (.visible .sourceFile)) tokens

/-- A token may stand behind the others if some token sequence of the language goes on so. -/
def Viable (before : List Token) (t : Token) : Prop :=
  ∃ after, Derivable (before ++ t :: after)

end Grammar

namespace Tree

/-- A node as its parent's production sees it. -/
def label (t : Tree) : Label := (t.role, t.kind)

/-- The children of a node as its production sees them: comments do not count. -/
def labels (children : List Tree) : List Label :=
  (children.filter fun t => !t.isComment).map label

/-- A tree of the grammar: the children of every inner node are a child list of its category. -/
inductive IsDerivation : Tree → Prop
  | leaf (role : Option Field) (lexeme : Lexeme) : IsDerivation (leaf role lexeme)
  | node {role : Option Field} {category : Category} {children : List Tree}
      (expands : category.production.Expands (labels children))
      (inner : ∀ t ∈ children, IsDerivation t) : IsDerivation (node role category children)

end Tree

end HeyVL
