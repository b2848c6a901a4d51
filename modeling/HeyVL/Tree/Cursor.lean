import HeyVL.Tree.Basic

/-!
Walking through a tree. A cursor is a node together with everything around it, so that a step to
a neighbour needs nothing but the cursor and no step loses a part of the tree.
-/

namespace HeyVL

/-- The node around a place, with its children before the place, the nearest first, and those
behind it. -/
structure Crumb where
  role : Option Field
  category : Category
  before : List Tree
  after : List Tree
deriving Repr

/-- A node of a tree with the nodes around it, the innermost first. -/
structure Cursor where
  focus : Tree
  path : List Crumb
deriving Repr

namespace Cursor

def ofTree (t : Tree) : Cursor := ⟨t, []⟩

/-- Passes over trees until `n` of those that satisfy `p` are passed, and stops at the next such
one. The trees passed over are added to `before` in reverse. -/
def seek (p : Tree → Bool) : Nat → List Tree → List Tree →
    Option (List Tree × Tree × List Tree)
  | _, _, [] => none
  | n, before, t :: after =>
    if p t then
      match n with
      | 0 => some (before, t, after)
      | n + 1 => seek p n (t :: before) after
    else seek p n (t :: before) after

/-- The child with number `n` among those that satisfy `p`. -/
def childWhere? (p : Tree → Bool) (n : Nat) (c : Cursor) : Option Cursor :=
  match c.focus with
  | .leaf _ _ => none
  | .node role category children =>
    (seek p n [] children).map fun (before, t, after) =>
      ⟨t, ⟨role, category, before, after⟩ :: c.path⟩

/-- The nearest later sibling that satisfies `p`. -/
def nextWhere? (p : Tree → Bool) (c : Cursor) : Option Cursor :=
  match c.path with
  | [] => none
  | crumb :: path =>
    (seek p 0 (c.focus :: crumb.before) crumb.after).map fun (before, t, after) =>
      ⟨t, { crumb with before, after } :: path⟩

/-- The nearest earlier sibling that satisfies `p`. -/
def prevWhere? (p : Tree → Bool) (c : Cursor) : Option Cursor :=
  match c.path with
  | [] => none
  | crumb :: path =>
    (seek p 0 (c.focus :: crumb.after) crumb.before).map fun (after, t, before) =>
      ⟨t, { crumb with before, after } :: path⟩

def parent? (c : Cursor) : Option Cursor :=
  match c.path with
  | [] => none
  | crumb :: path =>
    some ⟨.node crumb.role crumb.category (crumb.before.reverse ++ c.focus :: crumb.after), path⟩

inductive Step
  | child (n : Nat)
  | namedChild (n : Nat)
  | field (f : Field)
  | parent
  | next
  | prev
  | nextNamed
  | prevNamed
deriving DecidableEq, Repr

/-- The cursor behind a step, if there is such a node. -/
def step? (c : Cursor) : Step → Option Cursor
  | .child n => c.childWhere? (fun _ => true) n
  | .namedChild n => c.childWhere? Tree.named n
  | .field f => c.childWhere? (fun t => t.role == some f) 0
  | .parent => c.parent?
  | .next => c.nextWhere? fun _ => true
  | .prev => c.prevWhere? fun _ => true
  | .nextNamed => c.nextWhere? Tree.named
  | .prevNamed => c.prevWhere? Tree.named

end Cursor

end HeyVL
