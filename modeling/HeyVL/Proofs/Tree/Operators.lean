import HeyVL.Proofs.Tree.Syntax

namespace HeyVL

open Production

namespace Production

theorem expands_binaryLevel_iff {n : Nat} {first : BinaryOperator}
    {others : List BinaryOperator} {w : List Label} :
    Expands (binaryLevel n first others) w ↔
      ∃ o ∈ first :: others, ∃ left ∈ Kind.expressions, ∃ right ∈ Kind.expressions,
        w = [(none, left), (none, .token (.binary o)), (none, right)] := by
  have hoperator {w} : Expands (oneOf (operator first) (others.map operator)) w ↔
      ∃ o ∈ first :: others, w = [(none, .token (.binary o))] :=
    expands_oneOf_map_iff (f := operator) fun _ _ => expands_token_iff
  constructor
  · intro h
    obtain ⟨_, _, hl, hbehind, rfl⟩ := expands_seq_iff.mp (expands_prec_iff.mp h)
    obtain ⟨_, _, ho, hr, rfl⟩ := expands_seq_iff.mp hbehind
    obtain ⟨left, hleft, rfl⟩ := expands_expression_iff.mp hl
    obtain ⟨o, hmem, rfl⟩ := hoperator.mp ho
    obtain ⟨right, hright, rfl⟩ := expands_expression_iff.mp hr
    exact ⟨o, hmem, left, hleft, right, hright, rfl⟩
  · rintro ⟨o, hmem, left, hleft, right, hright, rfl⟩
    exact .prec (.seq (expands_expression_iff.mpr ⟨left, hleft, rfl⟩)
      (.seq (hoperator.mpr ⟨o, hmem, rfl⟩) (expands_expression_iff.mpr ⟨right, hright, rfl⟩)))

theorem expands_binaryExpression_iff {w : List Label} :
    Expands Category.binaryExpression.production w ↔
      ∃ o, ∃ left ∈ Kind.expressions, ∃ right ∈ Kind.expressions,
        w = [(none, left), (none, .token (.binary o)), (none, right)] := by
  constructor
  · intro h
    obtain ⟨q, hq, hw⟩ := expands_oneOf_iff.mp h
    have hlevel : ∃ n first others, q = binaryLevel n first others := by
      simp only [List.mem_cons, List.not_mem_nil, or_false] at hq
      rcases hq with rfl | rfl | rfl | rfl | rfl | rfl
      all_goals exact ⟨_, _, _, rfl⟩
    obtain ⟨n, first, others, rfl⟩ := hlevel
    obtain ⟨o, -, left, hleft, right, hright, rfl⟩ := expands_binaryLevel_iff.mp hw
    exact ⟨o, left, hleft, right, hright, rfl⟩
  · rintro ⟨o, left, hleft, right, hright, rfl⟩
    obtain ⟨n, first, others, hlevel, ho⟩ := exists_binaryLevel o
    exact expands_oneOf_iff.mpr
      ⟨_, hlevel, expands_binaryLevel_iff.mpr ⟨o, ho, left, hleft, right, hright, rfl⟩⟩

theorem expands_unaryExpression_iff {w : List Label} :
    Expands Category.unaryExpression.production w ↔
      ∃ o, ∃ k ∈ Kind.expressions, w = [(some .operator, .token (.unary o)), (none, k)] := by
  have hoperator {w} : Expands (oneOf (.token (.unary .not))
      ([.conot, .embed].map fun o => .token (.unary o))) w ↔
      ∃ o ∈ [UnaryOperator.not, .conot, .embed], w = [(none, .token (.unary o))] :=
    expands_oneOf_map_iff (f := fun o => .token (.unary o)) fun _ _ => expands_token_iff
  constructor
  · intro h
    obtain ⟨_, _, hu, hv, rfl⟩ := expands_seq_iff.mp (expands_prec_iff.mp h)
    obtain ⟨u, hchoice, rfl⟩ := expands_field_iff.mp hu
    obtain ⟨o, -, rfl⟩ := hoperator.mp hchoice
    obtain ⟨k, hk, rfl⟩ := expands_expression_iff.mp hv
    exact ⟨o, k, hk, rfl⟩
  · rintro ⟨o, k, hk, rfl⟩
    have ho : o ∈ [UnaryOperator.not, .conot, .embed] := by cases o <;> decide
    exact .prec (.seq (.field (hoperator.mpr ⟨o, ho, rfl⟩)) (expands_expression_iff.mpr ⟨k, hk, rfl⟩))

end Production

namespace Tree

variable {role : Option Field} {ts : List Tree} {left right : Tree} {x : Lexeme}

theorem eq_of_expands_binary
    (h : Expands Category.binaryExpression.production (ts.map label)) :
    ∃ left x right o, left.kind ∈ Kind.expressions ∧ right.kind ∈ Kind.expressions ∧
      left.role = none ∧ right.role = none ∧ x.token = .binary o ∧
      ts = [left, leaf none x, right] := by
  obtain ⟨o, k₁, hk₁, k₂, hk₂, hts⟩ := expands_binaryExpression_iff.mp h
  obtain ⟨left, ts, rfl, hleft, hts⟩ := List.map_eq_cons_iff.mp hts
  obtain ⟨op, ts, rfl, hop, hts⟩ := List.map_eq_cons_iff.mp hts
  obtain ⟨right, rfl, hright⟩ := eq_singleton_of_labels hts
  obtain ⟨x, hx, rfl⟩ := eq_leaf_of_label hop
  obtain ⟨hrole₁, rfl⟩ := Prod.mk.inj hleft
  obtain ⟨hrole₂, rfl⟩ := Prod.mk.inj hright
  exact ⟨left, x, right, o, hk₁, hk₂, hrole₁, hrole₂, hx, rfl⟩

theorem eq_of_expands_unary
    (h : Expands Category.unaryExpression.production (ts.map label)) :
    ∃ x operand o, operand.kind ∈ Kind.expressions ∧ operand.role = none ∧
      x.token = .unary o ∧ ts = [leaf (some .operator) x, operand] := by
  obtain ⟨o, k, hk, hts⟩ := expands_unaryExpression_iff.mp h
  obtain ⟨op, ts, rfl, hop, hts⟩ := List.map_eq_cons_iff.mp hts
  obtain ⟨operand, rfl, hoperand⟩ := eq_singleton_of_labels hts
  obtain ⟨x, hx, rfl⟩ := eq_leaf_of_label hop
  obtain ⟨hrole, rfl⟩ := Prod.mk.inj hoperand
  exact ⟨x, operand, o, hk, hrole, hx, rfl⟩

@[simp] theorem isRightOpen_withRole (role : Option Field) (t : Tree) :
    (t.withRole role).isRightOpen = t.isRightOpen := by
  cases t with
  | leaf => rfl
  | node _ c _ => cases c <;> rfl

@[simp] theorem level?_withRole (role : Option Field) (t : Tree) :
    (t.withRole role).level? = t.level? := by
  cases t with
  | leaf => rfl
  | node _ c _ => cases c <;> rfl

@[simp] theorem hasLevel_withRole (role : Option Field) (t : Tree) (p : Nat → Bool) :
    (t.withRole role).hasLevel p = t.hasLevel p := by
  rw [hasLevel, level?_withRole]
  rfl

@[simp] theorem kind_withRole (role : Option Field) (t : Tree) :
    (t.withRole role).kind = t.kind := by
  cases t <;> rfl

@[simp] theorem role_withRole (role : Option Field) (t : Tree) :
    (t.withRole role).role = role := by
  cases t <;> rfl

theorem operands_cons_of_mem_expressions (h : left.kind ∈ Kind.expressions) (ts : List Tree) :
    operands (left :: ts) = left :: operands ts := by
  cases left with
  | node => rfl
  | leaf r l =>
    obtain ⟨token, start, stop⟩ := l
    obtain rfl : token = .identifier := eq_identifier_of_mem_expressions h
    rfl

theorem level?_binary {o : BinaryOperator} (h : left.kind ∈ Kind.expressions)
    (hx : x.token = .binary o) :
    (node role .binaryExpression [left, leaf none x, right]).level? = some o.level := by
  obtain ⟨token, start, stop⟩ := x
  obtain rfl : token = .binary o := hx
  cases left with
  | node => rfl
  | leaf r l =>
    obtain ⟨token, start, stop⟩ := l
    obtain rfl : token = .identifier := eq_identifier_of_mem_expressions h
    rfl

theorem isRightOpen_binary :
    (node role .binaryExpression [left, leaf none x, right]).isRightOpen =
      right.isRightOpen := by
  simp [isRightOpen, lastIsRightOpen]

theorem isGroupedAt_binary {o : BinaryOperator} (hleft : left.kind ∈ Kind.expressions)
    (hright : right.kind ∈ Kind.expressions) (hx : x.token = .binary o) :
    (node role .binaryExpression [left, leaf none x, right]).isGroupedAt =
      (!left.isRightOpen && !left.hasLevel (· < o.level) && !right.hasLevel (· ≤ o.level)) := by
  have hoperands : operands [left, leaf none x, right] = [left, right] := by
    obtain ⟨token, start, stop⟩ := x
    obtain rfl : token = .binary o := hx
    rw [operands_cons_of_mem_expressions hleft]
    exact congrArg (left :: ·) (operands_cons_of_mem_expressions hright [])
  rw [isGroupedAt, level?_binary hleft hx, hoperands]

theorem level?_eq_none {c : Category} {children : List Tree} (hc : c ≠ .binaryExpression) :
    (node role c children).level? = none := by
  cases c
  case binaryExpression => exact absurd rfl hc
  all_goals rfl

theorem isRightOpen_unary :
    (node role .unaryExpression [leaf (some .operator) x, right]).isRightOpen =
      right.isRightOpen := by
  simp [isRightOpen, lastIsRightOpen]

theorem isGroupedAt_unary {o : UnaryOperator} (hright : right.kind ∈ Kind.expressions)
    (hx : x.token = .unary o) :
    (node role .unaryExpression [leaf (some .operator) x, right]).isGroupedAt =
      right.level?.isNone := by
  have hoperands : operands [leaf (some .operator) x, right] = [right] := by
    obtain ⟨token, start, stop⟩ := x
    obtain rfl : token = .unary o := hx
    exact operands_cons_of_mem_expressions hright []
  rw [isGroupedAt, hoperands]
  cases h : right.level? <;> simp [hasLevel, h]

end Tree

end HeyVL
