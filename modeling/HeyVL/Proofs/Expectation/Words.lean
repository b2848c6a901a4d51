import HeyVL.Proofs.Expectation.Positions
import HeyVL.Proofs.Tree.Replacing

namespace HeyVL

open Production

namespace Item

variable {item : Item} {t : Token}

theorem start_of_literal (hoccurs : item.occurs = true) (h : (item.start .boolean).isSome = true)
    (ht : t.isExpressionWord = true) : (item.start t).isSome = true := by
  have hoperand (role : Option Field) : (startOperand role t).isSome = true := by
    cases t with
    | keyword k => cases k <;> first | rfl | cases ht
    | quantifier q => rfl
    | boolean => rfl
    | _ => cases ht
  induction item with
  | leaf role token =>
    rw [start] at h
    split at h
    · next heq =>
      subst heq
      cases hoccurs
    · cases h
  | maybe item ih => exact ih (occurs_of_maybe hoccurs) h
  | many item ih =>
    rw [start, Option.isSome_map] at h ⊢
    exact ih (occurs_of_many hoccurs) h
  | series item ih =>
    rw [start, Option.isSome_map] at h ⊢
    exact ih (occurs_of_series hoccurs).1 h
  | expression role =>
    rw [start, startExpression, Option.isSome_map]
    exact hoperand role
  | operand role => exact hoperand role
  | ifTail role =>
    have hother : (Item.ifTail role).start t =
        ((startOperand (some .condition) t).map
          fun m => m.followedBy [.operators (some .condition) 0]).map fun m =>
            m.followedBy (branches ++ [.leave role .ifStatement]) := by
      cases t <;> first | rfl | cases ht
    rw [hother, Option.isSome_map, Option.isSome_map]
    exact hoperand _
  | _ => cases h

theorem start_of_negate (hoccurs : item.occurs = true)
    (h : (item.start (.command .negate)).isSome = true) (ht : t.isStatementWord = true) :
    (item.start t).isSome = true := by
  have hstatement (role : Option Field) : (startStatement role t).isSome = true := by
    cases t with
    | keyword k => cases k <;> first | rfl | cases ht
    | command c => rfl
    | _ => cases ht
  induction item with
  | leaf role token =>
    rw [start] at h
    split at h
    · next heq =>
      subst heq
      cases hoccurs
    · cases h
  | maybe item ih => exact ih (occurs_of_maybe hoccurs) h
  | many item ih =>
    rw [start, Option.isSome_map] at h ⊢
    exact ih (occurs_of_many hoccurs) h
  | series item ih =>
    rw [start, Option.isSome_map] at h ⊢
    exact ih (occurs_of_series hoccurs).1 h
  | statement role => exact hstatement role
  | blockStatement =>
    rw [start, Option.isSome_map]
    exact hstatement none
  | _ => cases h

end Item

namespace Grammar

variable {us : List Token} {t u : Token}

theorem viable_of_start
    (hstart : ∀ item : Item, item.occurs = true → (item.start t).isSome = true →
      (item.start u).isSome = true)
    (h : Viable us t) : Viable us u := by
  obtain ⟨after, hderivable⟩ := h
  obtain ⟨todo, htodo, -⟩ := Expectation.exists_after?_of_derivable hderivable
  have hexpects : todo.expects t = true := (Expectation.expects_iff_viable htodo).mpr ⟨after, hderivable⟩
  refine (Expectation.expects_iff_viable htodo).mp ?_
  have hoccurs := Expectation.occurs_of_after? htodo
  clear htodo
  induction todo with
  | nil => cases hexpects
  | cons item rest ih =>
    rw [List.all_cons, Bool.and_eq_true] at hoccurs
    rw [Expectation.expects_cons, Bool.or_eq_true, Bool.and_eq_true] at hexpects ⊢
    exact hexpects.imp (hstart item hoccurs.1) fun h => ⟨h.1, ih h.2 hoccurs.2⟩

theorem viable_of_literal (h : Viable us .boolean) (ht : t.isExpressionWord = true) : Viable us t :=
  viable_of_start (fun _ hoccurs h => Item.start_of_literal hoccurs h ht) h

theorem viable_of_negate (h : Viable us (.command .negate)) (ht : t.isStatementWord = true) :
    Viable us t :=
  viable_of_start (fun _ hoccurs h => Item.start_of_negate hoccurs h ht) h

theorem not_viable_statementWord (hidentifier : Viable us .identifier) (ht : t.isExpressionWord = true)
    (hviable : Viable us t) (hu : u.isStatementWord = true) : ¬ Viable us u := by
  intro hu'
  obtain ⟨after, hderivable⟩ := hidentifier
  obtain ⟨todo, htodo, -⟩ := Expectation.exists_after?_of_derivable hderivable
  obtain ⟨m, hm⟩ := Option.isSome_iff_exists.mp
    ((Expectation.expects_iff_viable htodo).mpr ⟨after, hderivable⟩)
  have hreserved (t : Token) (ht : t.isExpressionWord = true ∨ t.isStatementWord = true) :
      t.isReserved = true := by
    cases t with
    | keyword | command | quantifier | boolean => rfl
    | _ => simp [Token.isExpressionWord, Token.isStatementWord] at ht
  have hno (t : Token) (h : t.isExpressionWord = true) : t.isStatementWord = false := by
    cases t with
    | keyword k => cases k <;> first | rfl | cases h
    | quantifier | boolean => rfl
    | _ => cases h
  obtain ⟨-, literal, -, before, role, rest, rfl, -⟩ | ⟨hword, -⟩ :=
    Expectation.word_of_expects htodo hm (hreserved t (.inl ht))
      ((Expectation.expects_iff_viable htodo).mpr hviable)
  · obtain ⟨hword, -⟩ | ⟨-, before', role', rest', heq⟩ :=
      Expectation.word_of_expects htodo hm (hreserved u (.inr hu))
        ((Expectation.expects_iff_viable htodo).mpr hu')
    · rw [hno u hword] at hu
      cases hu
    · simp at heq
  · rw [hno t ht] at hword
    cases hword

end Grammar

namespace Tree

variable {path : List Crumb} {k : Crumb} {t x root : Tree} {l y : Lexeme} {us vs ls ms : List Lexeme}
  {ts : List Tree}

theorem derivable_of_isSyntax (h : (node none .sourceFile ts).IsSyntax) :
    Grammar.Derivable ((leavesOfList ts).map Lexeme.token) := by
  rw [← Expectation.accepts_source_iff, ← Expectation.isSome_build? .source [[]],
    Expectation.build?_source_iff.mpr ⟨h, rfl⟩]
  rfl

/-- A token is viable if a tree that begins with it can replace one that begins in the place. -/
theorem viable_of_replaced (hroot : (node none .sourceFile ts).IsSyntax)
    (hleaves : leavesOfList ts = us ++ l :: vs) (hnodup : (us ++ l :: vs).Nodup)
    (hfill : fill (k :: path) [t] = [node none .sourceFile ts]) (ht : t.leaves = l :: ls)
    (hsign : t.IsNoSign) (hx : x.IsSyntax) (hxleaves : x.leaves = y :: ms) (hloosens : Loosens t x)
    (expands : k.category.production.Expands ((k.before.reverse ++ x :: k.after).map label)) :
    Grammar.Viable (us.map Lexeme.token) y.token := by
  have hsyntax : ∀ u ∈ fill path [k.around [t]], u.IsSyntax := by
    intro u hu
    have hmem : u ∈ fill (k :: path) [t] := hu
    rw [hfill, List.mem_singleton] at hmem
    exact hmem ▸ hroot
  obtain ⟨hnew, haround⟩ :=
    (isSyntax_of_fill hsyntax _ (List.mem_singleton_self _)).around hx hloosens hsign expands
  obtain ⟨ts', hfill'⟩ := exists_fill_of_fill hfill [x]
  have hroot' : (node none .sourceFile ts').IsSyntax := by
    refine isSyntax_fill hsyntax hnew rfl haround (isNoSign_node _ _ _) _ ?_
    show _ ∈ fill (k :: path) [x]
    rw [hfill', List.mem_singleton]
  have hold : us ++ l :: vs = front (k :: path) ++ l :: (ls ++ back (k :: path)) := by
    have heq := leavesOfList_fill (k :: path) [t]
    rw [hfill, leavesOfList_singleton, leaves, hleaves, leavesOfList_singleton, ht] at heq
    exact heq
  have hfront : us = front (k :: path) := by
    have hus : l ∉ us := fun h => (List.nodup_append.mp hnodup).2.2 l h l (by simp) rfl
    have hvs : l ∉ vs := (List.nodup_cons.mp (List.nodup_append.mp hnodup).2.1).1
    exact ((List.append_cons_inj_of_notMem hus hvs).mp hold).1
  refine ⟨(ms ++ back (k :: path)).map Lexeme.token, ?_⟩
  have hderivable := derivable_of_isSyntax hroot'
  have heq := leavesOfList_fill (k :: path) [x]
  rw [hfill', leavesOfList_singleton, leaves, leavesOfList_singleton, hxleaves, ← hfront] at heq
  rwa [heq, List.cons_append, List.map_append, List.map_cons] at hderivable

/-- A literal of one token. -/
def literalOf (role : Option Field) : Tree := node role .literal [leaf none ⟨.boolean, 0, 0⟩]

/-- A statement of one token. -/
def negation (role : Option Field) : Tree :=
  node role .negateStatement [leaf none ⟨.command .negate, 0, 0⟩]

theorem isSyntax_literalOf (role : Option Field) : (literalOf role).IsSyntax := by
  refine .node ?_ rfl fun t ht => ?_
  · exact .other (.other (.other (.other (.token .boolean))))
  · obtain rfl := List.mem_singleton.mp ht
    exact .leaf none Token.noConfusion

theorem isSyntax_negation (role : Option Field) : (negation role).IsSyntax := by
  refine .node ?_ rfl fun t ht => ?_
  · exact .this (.token (.command .negate))
  · obtain rfl := List.mem_singleton.mp ht
    exact .leaf none Token.noConfusion

theorem exists_fill_of_mem_node {role : Option Field} {c : Category} {before after : List Tree}
    (h : node role c (before ++ t :: after) ∈ root.subtrees) :
    ∃ path, fill (⟨role, c, before.reverse, after⟩ :: path) [t] = [root] := by
  obtain ⟨path, hpath⟩ := exists_fill_of_mem_subtrees h
  refine ⟨path, ?_⟩
  rw [fill, Crumb.around, List.reverse_reverse, List.singleton_append]
  exact hpath

theorem mentions_callExpression {c : Category} (hc : c ≠ .callStatement) :
    c.production.mentions (.category .callExpression) = false := by
  cases c <;> first | rfl | exact absurd rfl hc

theorem mentions_statement (c : Category) {k : Kind} (hk : k ∈ Hidden.statement.kinds)
    (hblock : k ≠ .category .block) : c.production.mentions k = false := by
  have hall : Category.all.all (fun c => Hidden.statement.kinds.all fun k =>
      k == .category .block || !c.production.mentions k) = true := by decide
  simpa [hblock] using List.all_eq_true.mp (List.all_eq_true.mp hall c c.mem_all) k hk

section Places

variable (hroot : (node none .sourceFile ts).IsSyntax) (hleaves : leavesOfList ts = us ++ l :: vs)
  (hnodup : (us ++ l :: vs).Nodup)

include hroot hleaves hnodup

theorem InExpression.viable (h : (node none .sourceFile ts).InExpression l)
    (hl : l.token = .identifier) : Grammar.Viable (us.map Lexeme.token) .boolean := by
  cases h with
  | @alone role r c before after mem expands =>
    obtain ⟨path, hfill⟩ := exists_fill_of_mem_node mem
    have hsign : (leaf r l).IsNoSign := fun x hx => (Kind.token.inj hx).symm.trans hl
    refine viable_of_replaced hroot hleaves hnodup hfill (x := literalOf r) rfl hsign
      (isSyntax_literalOf r) rfl ⟨rfl, .inl rfl, nofun⟩ ?_
    rwa [List.reverse_reverse, List.map_append, List.map_cons]
  | @call parent call mem child calls ne =>
    cases parent with
    | leaf => cases child
    | node role c children =>
      obtain ⟨before, after, rfl⟩ := List.append_of_mem child
      obtain ⟨path, hfill⟩ := exists_fill_of_mem_node mem
      obtain ⟨r, args, rfl⟩ := calls
      refine viable_of_replaced hroot hleaves hnodup hfill (x := literalOf r) rfl
        (isNoSign_node _ _ _) (isSyntax_literalOf r) rfl ⟨rfl, .inl rfl, nofun⟩ ?_
      cases hroot.of_mem_subtrees mem with
      | node expands =>
        rw [List.map_append, List.map_cons] at expands
        rw [List.reverse_reverse, List.map_append, List.map_cons]
        have hcall : Kind.category .callExpression ∈ Hidden.expression.kinds := by decide
        exact expands.exchange_at hcall
          (mentions_callExpression fun hc => ne (congrArg Kind.category hc)) literal_mem_kinds

/-- A statement can be replaced by another one, unless it is a block. -/
theorem viable_of_statement {role : Option Field} {c : Category} {children : List Tree}
    (h : node role c children ∈ (node none .sourceFile ts).subtrees)
    (hc : .category c ∈ Hidden.statement.kinds) (hblock : c ≠ .block)
    (hl : leavesOfList children = l :: ls) :
    Grammar.Viable (us.map Lexeme.token) (.command .negate) := by
  obtain ⟨path, hfill⟩ := exists_fill_of_mem_subtrees h
  cases path with
  | nil =>
    obtain ⟨-, rfl, -⟩ : _ ∧ _ ∧ _ := by simpa [fill] using hfill
    exact absurd hc (by decide)
  | cons k path =>
    refine viable_of_replaced hroot hleaves hnodup hfill (x := negation role) hl
      (isNoSign_node _ _ _) (isSyntax_negation role) rfl ⟨rfl, .inl rfl, Bool.noConfusion⟩ ?_
    cases hroot.of_mem_subtrees (around_mem_subtrees hfill) with
    | node expands =>
      rw [List.singleton_append, List.map_append, List.map_cons] at expands
      rw [List.map_append, List.map_cons]
      have hnegate : Kind.category .negateStatement ∈ Hidden.statement.kinds := by decide
      exact expands.exchange_at hc
        (mentions_statement k.category hc fun heq => hblock (Kind.category.inj heq)) hnegate

theorem StartsStatement.viable (h : (node none .sourceFile ts).StartsStatement l) :
    Grammar.Viable (us.map Lexeme.token) (.command .negate) := by
  cases h with
  | @assignment role r rest mem =>
    exact viable_of_statement hroot hleaves hnodup mem (by decide) (by decide) rfl
  | @call parent call mem child calls eq =>
    cases parent with
    | leaf => cases child
    | node role c children =>
      obtain rfl := Kind.category.inj eq
      cases hroot.of_mem_subtrees mem with
      | node expands =>
        obtain ⟨k, -, hlabels⟩ := expands_node_iff.mp expands
        obtain ⟨u, rfl, -⟩ := eq_singleton_of_labels hlabels
        obtain rfl := List.mem_singleton.mp child
        obtain ⟨r, args, rfl⟩ := calls
        have hargs : leavesOfList [node none .callExpression (leaf (some .function) l :: args)] =
            l :: leavesOfList args := leavesOfList_singleton _
        exact viable_of_statement hroot hleaves hnodup mem (by decide) (by decide) hargs

end Places

end Tree

end HeyVL
