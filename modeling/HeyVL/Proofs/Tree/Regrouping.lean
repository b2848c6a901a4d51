import HeyVL.Proofs.Tree.Operators

/-!
Regrouping operators. In whatever way an expression is derived, its operators can be grouped as the
levels demand. An operand is joined to the expression before it at the outermost place that is
neither open nor joined on a lower level; an expression with operators is joined operand by
operand.
-/

namespace HeyVL

open Production

namespace Production

/-- The last child of a quantifier expression is its body, and any expression can be that. -/
theorem exists_body_of_expands {ts : List Tree}
    (h : Expands Category.quantifierExpression.production (ts.map Tree.label)) :
    ∃ front body, ts = front ++ [body] ∧ body.role = some .expression ∧
      body.kind ∈ Kind.expressions ∧ ∀ other : Tree, other.role = some .expression →
        other.kind ∈ Kind.expressions →
          Expands Category.quantifierExpression.production ((front ++ [other]).map Tree.label) := by
  have hbody {w : List Label} : Expands (inRole (some .expression) expression) w ↔
      ∃ k ∈ Kind.expressions, w = [(some .expression, k)] :=
    expands_inRole_of_kinds _ fun w => expands_expression_iff
  obtain ⟨word, ts₁, rfl, hword, h₁⟩ := split_of_expands_seq (expands_prec_iff.mp h)
  obtain ⟨names, ts₂, rfl, hnames, h₂⟩ := split_of_expands_seq h₁
  obtain ⟨triggers, ts₃, rfl, htriggers, h₃⟩ := split_of_expands_seq h₂
  obtain ⟨point, ts₄, rfl, hpoint, h₄⟩ := split_of_expands_seq h₃
  obtain ⟨k, hk, hts₄⟩ := hbody.mp h₄
  obtain ⟨body, rfl, hlabel⟩ := Tree.eq_singleton_of_labels hts₄
  obtain ⟨hrole, rfl⟩ := Prod.mk.inj hlabel
  refine ⟨word ++ (names ++ (triggers ++ point)), body, by simp, hrole, hk, ?_⟩
  intro other hrole hkind
  have hlast : Expands (inRole (some .expression) expression) ([other].map Tree.label) :=
    hbody.mpr ⟨other.kind, hkind, by simp [Tree.label, hrole]⟩
  have hall : Expands Category.quantifierExpression.production _ :=
    .prec (.seq hword (.seq hnames (.seq htriggers (.seq hpoint hlast))))
  simpa using hall

end Production

namespace Tree

variable {role : Option Field} {left right t : Tree} {x : Lexeme} {ts : List Tree}

/-- A syntax tree of an expression. -/
structure IsExpression (t : Tree) : Prop where
  isSyntax : t.IsSyntax
  kind_mem : t.kind ∈ Kind.expressions

theorem IsSyntax.withRole (h : t.IsSyntax) (role : Option Field) :
    (t.withRole role).IsSyntax := by
  cases h with
  | leaf _ hx => exact .leaf role hx
  | @node _ c _ expands grouped inner =>
    refine .node expands ?_ inner
    cases c <;> exact grouped

theorem IsExpression.withRole (h : t.IsExpression) (role : Option Field) :
    (t.withRole role).IsExpression :=
  ⟨h.isSyntax.withRole role, by simpa using h.kind_mem⟩

theorem isExpression_binary {o : BinaryOperator} (hleft : left.IsExpression)
    (hright : right.IsExpression) (hroles : left.role = none ∧ right.role = none)
    (hx : x.token = .binary o)
    (hgrouped : left.isRightOpen = false ∧ left.hasLevel (· < o.level) = false ∧
      right.hasLevel (· ≤ o.level) = false) (role : Option Field) :
    (node role .binaryExpression [left, leaf none x, right]).IsExpression := by
  refine ⟨.node ?_ ?_ ?_, Kind.mem_expressions_iff.mpr (by decide)⟩
  · refine expands_binaryExpression_iff.mpr
      ⟨o, left.kind, hleft.kind_mem, right.kind, hright.kind_mem, ?_⟩
    simp [label, hroles, hx]
  · rw [isGroupedAt_binary hleft.kind_mem hright.kind_mem hx]
    simp [hgrouped]
  · intro t ht
    simp only [List.mem_cons, List.not_mem_nil, or_false] at ht
    rcases ht with rfl | rfl | rfl
    · exact hleft.isSyntax
    · exact .leaf none (by simp [hx])
    · exact hright.isSyntax

theorem isExpression_unary {o : UnaryOperator} (hright : right.IsExpression)
    (hrole : right.role = none) (hx : x.token = .unary o) (hlevel : right.level? = none)
    (role : Option Field) :
    (node role .unaryExpression [leaf (some .operator) x, right]).IsExpression := by
  refine ⟨.node ?_ ?_ ?_, Kind.mem_expressions_iff.mpr (by decide)⟩
  · refine expands_unaryExpression_iff.mpr ⟨o, right.kind, hright.kind_mem, ?_⟩
    simp [label, hrole, hx]
  · rw [isGroupedAt_unary hright.kind_mem hx, hlevel]
    rfl
  · intro t ht
    simp only [List.mem_cons, List.not_mem_nil, or_false] at ht
    rcases ht with rfl | rfl
    · exact .leaf _ (by simp [hx])
    · exact hright.isSyntax

/-- The tree is an expression of the leaves of both others with an operator between them. -/
structure IsJoin (left : Tree) (x : Lexeme) (right t : Tree) : Prop where
  isExpression : t.IsExpression
  role_eq : t.role = left.role
  leaves_eq : t.leaves = left.leaves ++ x :: right.leaves

theorem isJoin_binary {o : BinaryOperator} (hleft : left.IsExpression)
    (hright : right.IsExpression) (hrole : right.role = none) (hx : x.token = .binary o)
    (hgrouped : left.isRightOpen = false ∧ left.hasLevel (· < o.level) = false ∧
      right.hasLevel (· ≤ o.level) = false) :
    IsJoin left x right
      (node left.role .binaryExpression [left.withRole none, leaf none x, right]) where
  isExpression := isExpression_binary (hleft.withRole none) hright (by simp [hrole]) hx
    (by simpa using hgrouped) left.role
  role_eq := rfl
  leaves_eq := by simp [leaves, leavesOfList]

theorem IsJoin.inBody {front : List Tree} {body : Tree} (h : IsJoin body x right t)
    (expands : Category.quantifierExpression.production.Expands ((front ++ [t]).map label))
    (inner : ∀ u ∈ front, u.IsSyntax) :
    IsJoin (.node role .quantifierExpression (front ++ [body])) x right
      (.node role .quantifierExpression (front ++ [t])) where
  isExpression := by
    refine ⟨.node expands rfl fun u hu => ?_, Kind.mem_expressions_iff.mpr (by decide)⟩
    rcases List.mem_append.mp hu with hu | hu
    · exact inner u hu
    · obtain rfl := List.mem_singleton.mp hu
      exact h.isExpression.isSyntax
  role_eq := rfl
  leaves_eq := by simp [leaves, leavesOfList_append, h.leaves_eq]

theorem IsJoin.inOperand {operand : Tree} {y : Lexeme} {o : UnaryOperator}
    (h : IsJoin operand x right t) (hrole : operand.role = none) (hy : y.token = .unary o)
    (hlevel : t.level? = none) :
    IsJoin (.node role .unaryExpression [.leaf (some .operator) y, operand]) x right
      (.node role .unaryExpression [.leaf (some .operator) y, t]) where
  isExpression := isExpression_unary h.isExpression (h.role_eq.trans hrole) hy hlevel role
  role_eq := rfl
  leaves_eq := by simp [leaves, leavesOfList, h.leaves_eq]

theorem IsJoin.inRight {first last : Tree} {y : Lexeme} {p : BinaryOperator}
    (h : IsJoin last x right t) (hfirst : first.IsExpression)
    (hroles : first.role = none ∧ last.role = none) (hy : y.token = .binary p)
    (hgrouped : first.isRightOpen = false ∧ first.hasLevel (· < p.level) = false ∧
      t.hasLevel (· ≤ p.level) = false) :
    IsJoin (.node role .binaryExpression [first, .leaf none y, last]) x right
      (.node role .binaryExpression [first, .leaf none y, t]) where
  isExpression := isExpression_binary hfirst h.isExpression
    ⟨hroles.1, h.role_eq.trans hroles.2⟩ hy hgrouped role
  role_eq := rfl
  leaves_eq := by simp [leaves, leavesOfList, h.leaves_eq]

/-- An operand can be joined to any expression before it. The level at the top stays what it was,
or it becomes that of the operator, unless the expression was open to the right. -/
theorem IsSyntax.exists_isJoin_operand {o : BinaryOperator} (h : left.IsSyntax)
    (hx : x.token = .binary o) (hright : right.IsExpression) (hrole : right.role = none)
    (hlevel : right.level? = none) (hkind : left.kind ∈ Kind.expressions) :
    ∃ t, IsJoin left x right t ∧
      (t.level? = left.level? ∨ left.isRightOpen = false ∧ t.level? = some o.level) := by
  have hfits {left : Tree} (h : left.IsExpression) (hopen : left.isRightOpen = false)
      (hlower : left.hasLevel (· < o.level) = false) : ∃ t, IsJoin left x right t ∧
        (t.level? = left.level? ∨ left.isRightOpen = false ∧ t.level? = some o.level) :=
    ⟨_, isJoin_binary h hright hrole hx ⟨hopen, hlower, by simp [hasLevel, hlevel]⟩,
      .inr ⟨hopen, level?_binary (by simpa using h.kind_mem) hx⟩⟩
  induction h with
  | leaf role h => exact hfits ⟨.leaf role h, hkind⟩ rfl rfl
  | @node role c ts expands grouped inner ih =>
    have hleft : (Tree.node role c ts).IsExpression := ⟨.node expands grouped inner, hkind⟩
    by_cases hunfit : (Tree.node role c ts).isRightOpen = false ∧
        (Tree.node role c ts).hasLevel (· < o.level) = false
    · exact hfits hleft hunfit.1 hunfit.2
    by_cases hquantifier : c = .quantifierExpression
    · subst hquantifier
      obtain ⟨front, body, rfl, hbodyRole, hbodyKind, hother⟩ := exists_body_of_expands expands
      obtain ⟨t, ht, -⟩ := ih body (by simp) hbodyKind
      have hexpands := hother t (ht.role_eq.trans hbodyRole) ht.isExpression.kind_mem
      exact ⟨_, ht.inBody hexpands fun u hu => inner u (by simp [hu]), .inl rfl⟩
    by_cases hunary : c = .unaryExpression
    · subst hunary
      obtain ⟨y, operand, u, hoperand, hnone, hy, rfl⟩ := eq_of_expands_unary expands
      have hfree : operand.level? = none := by
        simpa [isGroupedAt_unary hoperand hy] using grouped
      have hopen : operand.isRightOpen = true := by
        have hnolevel : (Tree.node role .unaryExpression
            [.leaf (some .operator) y, operand]).hasLevel (· < o.level) = false := rfl
        simpa [isRightOpen_unary, hnolevel] using hunfit
      obtain ⟨t, ht, htlevel⟩ := ih operand (by simp) hoperand
      have htlevel : t.level? = none := by
        rcases htlevel with h | ⟨h, -⟩
        · exact h.trans hfree
        · rw [hopen] at h
          cases h
      exact ⟨_, ht.inOperand hnone hy htlevel, .inl rfl⟩
    by_cases hbinary : c = .binaryExpression
    · subst hbinary
      obtain ⟨first, y, last, p, hfirst, hlast, hfirstRole, hlastRole, hy, rfl⟩ :=
        eq_of_expands_binary expands
      rw [isGroupedAt_binary hfirst hlast hy] at grouped
      simp only [Bool.and_eq_true, Bool.not_eq_true'] at grouped
      obtain ⟨t, ht, htlevel⟩ := ih last (by simp) hlast
      have hgrouped : t.hasLevel (· ≤ p.level) = false := by
        rcases htlevel with h | ⟨h, hto⟩
        · rw [hasLevel, h]
          exact grouped.2
        · have hlower : p.level < o.level := by
            simpa [isRightOpen_binary, h, hasLevel, level?_binary hfirst hy] using hunfit
          simp [hasLevel, hto, hlower]
      refine ⟨_, ht.inRight ⟨inner first (by simp), hfirst⟩ ⟨hfirstRole, hlastRole⟩ hy
        ⟨grouped.1.1, grouped.1.2, hgrouped⟩, .inl ?_⟩
      rw [level?_binary hfirst hy, level?_binary hfirst hy]
    -- no other expression is open or joined
    refine absurd ?_ hunfit
    cases c <;> first | exact ⟨rfl, rfl⟩ | contradiction

theorem IsSyntax.exists_isJoin (h : right.IsSyntax) (hkind : right.kind ∈ Kind.expressions)
    (hrole : right.role = none) {o : BinaryOperator} (hx : x.token = .binary o)
    (hleft : left.IsExpression) : ∃ t, IsJoin left x right t := by
  induction h generalizing left x o with
  | leaf role h =>
    obtain ⟨t, ht, -⟩ := hleft.isSyntax.exists_isJoin_operand hx ⟨.leaf role h, hkind⟩ hrole rfl
      hleft.kind_mem
    exact ⟨t, ht⟩
  | @node role c ts expands grouped inner ih =>
    have hright : (Tree.node role c ts).IsExpression := ⟨.node expands grouped inner, hkind⟩
    by_cases hbinary : c = .binaryExpression
    · subst hbinary
      obtain ⟨first, y, last, p, hfirst, hlast, hfirstRole, hlastRole, hy, rfl⟩ :=
        eq_of_expands_binary expands
      obtain ⟨t, ht⟩ := ih first (by simp) hfirst hfirstRole hx hleft
      obtain ⟨u, hu⟩ := ih last (by simp) hlast hlastRole hy ht.isExpression
      refine ⟨u, hu.isExpression, hu.role_eq.trans ht.role_eq, ?_⟩
      simp [leaves, leavesOfList, hu.leaves_eq, ht.leaves_eq]
    · obtain ⟨t, ht, -⟩ := hleft.isSyntax.exists_isJoin_operand hx hright hrole
        (level?_eq_none hbinary) hleft.kind_mem
      exact ⟨t, ht⟩

/-- A unary operator before an expression is one before its first operand. -/
theorem IsSyntax.exists_prefixed (h : t.IsSyntax) (hkind : t.kind ∈ Kind.expressions)
    (hrole : t.role = none) {o : UnaryOperator} (hx : x.token = .unary o) :
    ∃ u : Tree, u.IsExpression ∧ u.role = none ∧ u.leaves = x :: t.leaves := by
  have hoperand {t : Tree} (h : t.IsExpression) (hrole : t.role = none)
      (hlevel : t.level? = none) :
      ∃ u : Tree, u.IsExpression ∧ u.role = none ∧ u.leaves = x :: t.leaves :=
    ⟨_, isExpression_unary h hrole hx hlevel none, rfl, by simp [leaves, leavesOfList]⟩
  induction h with
  | leaf role h => exact hoperand ⟨.leaf role h, hkind⟩ hrole rfl
  | @node role c ts expands grouped inner ih =>
    by_cases hbinary : c = .binaryExpression
    · subst hbinary
      obtain ⟨first, y, last, p, hfirst, hlast, hfirstRole, hlastRole, hy, rfl⟩ :=
        eq_of_expands_binary expands
      obtain ⟨t, ht, htrole, htleaves⟩ := ih first (by simp) hfirst hfirstRole
      obtain ⟨u, hu⟩ := (inner last (by simp)).exists_isJoin hlast hlastRole hy ht
      refine ⟨u, hu.isExpression, hu.role_eq.trans htrole, ?_⟩
      simp [leaves, leavesOfList, hu.leaves_eq, htleaves]
    · exact hoperand ⟨.node expands grouped inner, hkind⟩ hrole (level?_eq_none hbinary)

end Tree

end HeyVL
