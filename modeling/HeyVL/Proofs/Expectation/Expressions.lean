import HeyVL.Proofs.Expectation.Carrying
import HeyVL.Proofs.Tree.Grafting

namespace HeyVL

open Production HeyVL.Tree

namespace Crumb

variable {k : Crumb} {t u : Tree} {role : Option Field}

/-- The tree stands in the place as an expression: it is one, and a literal could be there instead. -/
structure HoldsExpression (k : Crumb) (t : Tree) : Prop where
  kind_mem : t.kind ∈ Kind.expressions
  expands : k.category.production.Expands
    (labels k.before.reverse ++ (t.role, .category .literal) :: labels k.after)

/-- A literal may be in the place, in the given role. -/
def TakesExpression (k : Crumb) (role : Option Field) : Prop :=
  k.category.production.Expands
    (k.before.reverse.map label ++ (role, .category .literal) :: k.after.map label)

theorem HoldsExpression.bare (h : k.HoldsExpression t) : k.bare.TakesExpression t.role := by
  have hexpands := h.expands
  rw [labels_eq, labels_eq] at hexpands
  rwa [TakesExpression, Crumb.bare, List.reverse_reverse]

theorem TakesExpression.expands (h : k.TakesExpression t.role) (ht : t.kind ∈ Kind.expressions) :
    k.category.production.Expands ((k.before.reverse ++ t :: k.after).map label) := by
  rw [List.map_append, List.map_cons]
  exact Expands.exchange_at h literal_mem_kinds (mentions_literal _) ht

theorem TakesExpression.ne_callStatement (h : k.TakesExpression role) :
    k.category ≠ .callStatement := by
  intro hcategory
  rw [TakesExpression, hcategory] at h
  obtain ⟨x, hx, heq⟩ := expands_node_iff.mp h
  have hmem : (role, Kind.category .literal) ∈ [(none, x)] := by
    rw [← heq]
    simp
  obtain rfl := List.mem_singleton.mp hx
  simp at hmem

/-- An expression behind the place is one whichever expression is in the place. -/
theorem TakesExpression.behind {between after : List Tree} {r : Option Field} {l : Lexeme}
    (h : k.TakesExpression t.role) (ht : t.kind ∈ Kind.expressions)
    (hafter : k.after = between ++ leaf r l :: after) (hl : l.token = .identifier) :
    k.category.production.Expands
      ((k.before.reverse ++ ([t] ++ between)).map label ++ (r, .category .literal) :: after.map label) := by
  have hleaf : (leaf r l).label = (r, .token .identifier) := by rw [label, role_leaf, kind_leaf, hl]
  rw [TakesExpression, hafter, List.map_append, List.map_cons, hleaf] at h
  have hliteral : Kind.category .literal ∈ Kind.expressions := by decide
  have hbehind := Expands.behind_expression h (wordsFirst_category _) (mentions_literal _) hliteral rfl
  have hexchange := Expands.exchange_at hbehind literal_mem_kinds (mentions_literal _) ht
  simpa [label] using hexchange

/-- Parentheses around a place. They cover nothing, so that they are among no other lexemes. -/
def parentheses (role : Option Field) : Crumb :=
  ⟨role, .parenthesizedExpression, [leaf none ⟨.punctuation .parenOpen, 0, 0⟩],
    [leaf none ⟨.punctuation .parenClose, 0, 0⟩]⟩

theorem parentheses_takesExpression (role : Option Field) :
    (parentheses role).TakesExpression none := by
  have hexpression : Expands expression [(none, .category .literal)] :=
    expands_expression_iff.mpr ⟨_, by decide, rfl⟩
  exact .seq (.token _) (.seq hexpression (.token _))

end Crumb

namespace Tree

variable {path path' : List Crumb} {k k' : Crumb} {t root root' : Tree} {l : Lexeme}
  {r : Option Field}

theorem bare_withRole (role : Option Field) (t : Tree) :
    (t.withRole role).bare = t.bare.withRole role := by
  cases t <;> rfl

theorem isSyntax_parenthesized {o c : Lexeme} (ho : o.token = .punctuation .parenOpen)
    (hc : c.token = .punctuation .parenClose) (ht : t.IsSyntax) (hkind : t.kind ∈ Kind.expressions)
    (role : Option Field) :
    (node role .parenthesizedExpression [leaf none o, t.withRole none, leaf none c]).IsSyntax := by
  have hopen : Expands (mark .parenOpen) [(leaf none o).label] := by
    rw [label, kind_leaf, ho]
    exact .token _
  have hclose : Expands (mark .parenClose) [(leaf none c).label] := by
    rw [label, kind_leaf, hc]
    exact .token _
  have hexpression : Expands expression [(t.withRole none).label] :=
    expands_expression_iff.mpr ⟨t.kind, hkind, by rw [label, role_withRole, kind_withRole]⟩
  refine .node (.seq hopen (.seq hexpression hclose)) rfl fun x hx => ?_
  simp only [List.mem_cons, List.not_mem_nil, or_false] at hx
  rcases hx with rfl | rfl | rfl
  · exact .leaf none (by simp [ho])
  · exact ht.withRole none
  · exact .leaf none (by simp [hc])

theorem inExpression_of_takes (hfill : fill (k :: path) [t] = [root])
    (hk : k.TakesExpression t.role) (ht : (∃ r, t = leaf r l) ∨ t.Calls l) : root.InExpression l := by
  have hmem := around_mem_subtrees hfill
  rcases ht with ⟨r, rfl⟩ | hcalls
  · exact .alone hmem hk
  · exact .call hmem (mem_children_around_iff.mpr (by simp)) hcalls
      fun h => hk.ne_callStatement (Kind.category.inj h)

theorem isSyntax_parentheses (ht : t.IsSyntax) (hkind : t.kind ∈ Kind.expressions)
    (role : Option Field) : ((Crumb.parentheses role).around [t.withRole none]).IsSyntax :=
  isSyntax_parenthesized rfl rfl ht hkind role

theorem mem_subtrees_of_withRole {role : Option Field} {c : Category} {ts : List Tree}
    (h : node role c ts ∈ (t.withRole r).subtrees) : ∃ role', node role' c ts ∈ t.subtrees := by
  cases t with
  | leaf => cases List.mem_singleton.mp h
  | node role' c' us =>
    rcases mem_subtrees_node_iff.mp h with heq | ⟨u, hu, hmem⟩
    · obtain ⟨-, rfl, rfl⟩ := Tree.node.inj heq
      exact ⟨role', mem_subtrees_self _⟩
    · exact ⟨role, mem_subtrees_of_mem_children hu hmem⟩

/-- An identifier of an expression is in the position in which it is where the expression is in another
place. -/
theorem positions_of_expression (hfill : fill (k :: path) [t] = [root])
    (hk : k.TakesExpression t.role) (hfill' : fill (k' :: path') [t.withRole r] = [root'])
    (hk' : k'.TakesExpression r)
    (hnodup : (front (k' :: path') ++ (leavesOfList [t.withRole r] ++ back (k' :: path'))).Nodup)
    (hl : l ∈ t.leaves) :
    ((root'.InExpression l → root.InExpression l) ∧
        (root'.StartsStatement l → root.StartsStatement l)) ∨
      root'.InExpression l ∧ root.InExpression l := by
  have hl' : l ∈ leavesOfList [t.withRole r] := by
    rwa [leavesOfList_singleton, leaves_withRole]
  have hmem (role : Option Field) (c : Category) (ts : List Tree)
      (h : node role c ts ∈ subtreesOfList [t.withRole r]) :
      ∃ role', node role' c ts ∈ root.subtrees := by
    rw [subtreesOfList_eq_flatMap, List.flatMap_singleton] at h
    obtain ⟨role', hmem⟩ := mem_subtrees_of_withRole h
    have hself : t ∈ root.subtrees :=
      mem_subtrees_trans (around_mem_subtrees hfill)
        (mem_subtrees_of_mem (mem_children_around_iff.mpr (by simp)))
    exact ⟨role', mem_subtrees_trans hself hmem⟩
  -- The place matters only if the expression is the identifier or calls it.
  by_cases htop : (∃ r, t = leaf r l) ∨ t.Calls l
  · right
    refine ⟨inExpression_of_takes hfill' (by rwa [role_withRole]) ?_,
      inExpression_of_takes hfill hk htop⟩
    rcases htop with ⟨r', rfl⟩ | hcalls
    · exact .inl ⟨r, rfl⟩
    · exact .inr (hcalls.withRole r)
  · left
    have hother : ∀ x ∈ [t.withRole r], (∀ r, x ≠ leaf r l) ∧ ¬ x.Calls l := by
      intro x hx
      obtain rfl := List.mem_singleton.mp hx
      rw [not_or, not_exists] at htop
      constructor
      · intro r' heq
        have hrole := congrArg (Tree.withRole t.role) heq
        rw [withRole_withRole, withRole_role] at hrole
        exact htop.1 _ hrole
      · intro hcalls
        have hrole := hcalls.withRole t.role
        rw [withRole_withRole, withRole_role] at hrole
        exact htop.2 hrole
    exact ⟨fun h => h.of_inside hfill' hnodup hl' hother hmem,
      fun h => h.of_inside hfill' hnodup hl' hother hmem⟩

end Tree

end HeyVL
