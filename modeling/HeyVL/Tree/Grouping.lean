import HeyVL.Tree.Basic

/-!
How operators group their operands. An expression is open to the right when it ends with the body
of a quantifier; an operator behind it would belong to that body.
-/

namespace HeyVL

namespace Tree

mutual

/-- Whether the expression ends with the body of a quantifier. -/
def isRightOpen : Tree → Bool
  | node _ .quantifierExpression _ => true
  | node _ .unaryExpression children => lastIsRightOpen children
  | node _ .binaryExpression children => lastIsRightOpen children
  | _ => false

def lastIsRightOpen : List Tree → Bool
  | [] => false
  | [t] => t.isRightOpen
  | _ :: u :: rest => lastIsRightOpen (u :: rest)

end

/-- The level of a binary expression, which is that of the operator among its children. -/
def level? : Tree → Option Nat
  | node _ .binaryExpression children =>
    children.findSome? fun
      | leaf _ ⟨.binary o, _, _⟩ => some o.level
      | _ => none
  | _ => none

/-- Whether the expression is joined by a binary operator of a level that satisfies `p`. -/
def hasLevel (p : Nat → Bool) (t : Tree) : Bool := t.level?.any p

/-- The operands of an operator expression: its children other than operators and comments. -/
def operands (children : List Tree) : List Tree :=
  children.filter fun
    | leaf _ ⟨.binary _, _, _⟩ => false
    | leaf _ ⟨.unary _, _, _⟩ => false
    | t => !t.isComment

/-- The condition on the operands of one node. A binary operator takes to its left what neither
is open nor joined on a lower level, and to its right what is joined on a higher level only; a
unary operator takes nothing that is joined. -/
def isGroupedAt : Tree → Bool
  | node role .binaryExpression children =>
    match (node role .binaryExpression children).level?, operands children with
    | some p, [left, right] =>
      !left.isRightOpen && !left.hasLevel (· < p) && !right.hasLevel (· ≤ p)
    | _, _ => false
  | node _ .unaryExpression children =>
    match operands children with
    | [operand] => !operand.hasLevel fun _ => true
    | _ => false
  | _ => true

end Tree

end HeyVL
