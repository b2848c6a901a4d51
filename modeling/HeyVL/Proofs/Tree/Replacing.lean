import HeyVL.Proofs.Tree.Trimmed
import HeyVL.Proofs.Tree.Regrouping
import HeyVL.Proofs.Grammar.Exchange

namespace HeyVL

namespace Tree

variable {t u x : Tree} {ts us : List Tree} {k : Crumb} {path : List Crumb}

/-- The new tree can be an operand wherever the old one can: it is joined by the same operator, if by
any, and it is not open where the old one was not. -/
structure Loosens (old new : Tree) : Prop where
  role_eq : new.role = old.role
  level?_eq : new.level? = none ∨ new.level? = old.level?
  isRightOpen : new.isRightOpen = true → old.isRightOpen = true

namespace Loosens

theorem hasLevel (h : Loosens t u) {p : Nat → Bool} (ht : t.hasLevel p = false) :
    u.hasLevel p = false := by
  rcases h.level?_eq with hnone | heq
  · rw [Tree.hasLevel, hnone]
    rfl
  · rwa [Tree.hasLevel, heq]

theorem isRightOpen_eq_false (h : Loosens t u) (ht : t.isRightOpen = false) :
    u.isRightOpen = false := by
  cases hu : u.isRightOpen with
  | false => rfl
  | true => exact absurd (h.isRightOpen hu) (by simp [ht])

end Loosens

/-- The node is no token, unless it is an identifier. -/
def IsNoSign (t : Tree) : Prop := ∀ x, t.kind = .token x → x = .identifier

theorem isNoSign_of_mem_expressions (h : t.kind ∈ Kind.expressions) : t.IsNoSign := by
  intro x hx
  cases t with
  | leaf role l =>
    obtain rfl := Kind.token.inj hx
    exact eq_identifier_of_mem_expressions h
  | node => cases hx

theorem isComment_of_mem_expressions (h : t.kind ∈ Kind.expressions) : t.isComment = false := by
  rw [isComment, beq_eq_false_iff_ne]
  rintro heq
  cases isNoSign_of_mem_expressions h _ heq

theorem isNoSign_node (role : Option Field) (c : Category) (ts : List Tree) :
    (node role c ts).IsNoSign := fun _ h => nomatch h

theorem Loosens.binary {role : Option Field} {before after : List Tree} (h : Loosens t u)
    (ht : t.IsNoSign)
    (expands : Category.binaryExpression.production.Expands ((before ++ t :: after).map label))
    (expands' : Category.binaryExpression.production.Expands ((before ++ u :: after).map label))
    (hgrouped : (node role .binaryExpression (before ++ t :: after)).isGroupedAt = true) :
    (node role .binaryExpression (before ++ u :: after)).isGroupedAt = true ∧
      Loosens (node role .binaryExpression (before ++ t :: after))
        (node role .binaryExpression (before ++ u :: after)) := by
  obtain ⟨left, l, right, o, hleft, hright, -, -, hl, heq⟩ := eq_of_expands_binary expands
  obtain ⟨left', l', right', o', hleft', hright', -, -, hl', heq'⟩ := eq_of_expands_binary expands'
  rw [heq, isGroupedAt_binary hleft hright hl] at hgrouped
  simp only [Bool.and_eq_true, Bool.not_eq_true'] at hgrouped
  obtain ⟨⟨hopen, hlower⟩, hhigher⟩ := hgrouped
  match before with
  | [] =>
    obtain ⟨rfl, rfl⟩ := List.cons.inj heq
    obtain ⟨rfl, hrest⟩ := List.cons.inj heq'
    obtain ⟨hleaf, hlast⟩ := List.cons.inj hrest
    obtain ⟨rfl, -⟩ := List.cons.inj hlast
    rw [List.nil_append, List.nil_append, isGroupedAt_binary hleft' hright hl,
      h.isRightOpen_eq_false hopen, h.hasLevel hlower, hhigher]
    exact ⟨rfl, rfl, .inr (by rw [level?_binary hleft' hl, level?_binary hleft hl]),
      by rw [isRightOpen_binary, isRightOpen_binary]; exact id⟩
  | [_] =>
    obtain ⟨-, hrest⟩ := List.cons.inj heq
    obtain ⟨rfl, -⟩ := List.cons.inj hrest
    exact absurd (ht l.token rfl) (by simp [hl])
  | [_, _] =>
    obtain ⟨rfl, hrest⟩ := List.cons.inj heq
    obtain ⟨rfl, hlast⟩ := List.cons.inj hrest
    obtain ⟨rfl, rfl⟩ := List.cons.inj hlast
    obtain ⟨-, hrest⟩ := List.cons.inj heq'
    obtain ⟨-, hlast⟩ := List.cons.inj hrest
    obtain ⟨rfl, -⟩ := List.cons.inj hlast
    rw [List.cons_append, List.cons_append, List.cons_append, List.cons_append, List.nil_append,
      List.nil_append, isGroupedAt_binary hleft hright' hl, hopen, hlower, h.hasLevel hhigher]
    exact ⟨rfl, rfl, .inr (by rw [level?_binary hleft hl, level?_binary hleft hl]),
      by rw [isRightOpen_binary, isRightOpen_binary]; exact h.isRightOpen⟩
  | _ :: _ :: _ :: _ => simp at heq

theorem Loosens.unary {role : Option Field} {before after : List Tree} (h : Loosens t u)
    (ht : t.IsNoSign)
    (expands : Category.unaryExpression.production.Expands ((before ++ t :: after).map label))
    (expands' : Category.unaryExpression.production.Expands ((before ++ u :: after).map label))
    (hgrouped : (node role .unaryExpression (before ++ t :: after)).isGroupedAt = true) :
    (node role .unaryExpression (before ++ u :: after)).isGroupedAt = true ∧
      Loosens (node role .unaryExpression (before ++ t :: after))
        (node role .unaryExpression (before ++ u :: after)) := by
  obtain ⟨l, operand, o, hoperand, -, hl, heq⟩ := eq_of_expands_unary expands
  obtain ⟨l', operand', o', hoperand', -, hl', heq'⟩ := eq_of_expands_unary expands'
  rw [heq, isGroupedAt_unary hoperand hl, Option.isNone_iff_eq_none] at hgrouped
  match before with
  | [] =>
    obtain ⟨rfl, -⟩ := List.cons.inj heq
    exact absurd (ht l.token rfl) (by simp [hl])
  | [_] =>
    obtain ⟨rfl, hrest⟩ := List.cons.inj heq
    obtain ⟨rfl, rfl⟩ := List.cons.inj hrest
    obtain ⟨-, hrest⟩ := List.cons.inj heq'
    obtain ⟨rfl, -⟩ := List.cons.inj hrest
    have hnone : u.level? = none := h.level?_eq.elim id fun heq => heq.trans hgrouped
    rw [List.cons_append, List.cons_append, List.nil_append, List.nil_append,
      isGroupedAt_unary hoperand' hl, hnone]
    exact ⟨rfl, rfl, .inl (level?_eq_none Category.noConfusion),
      by rw [isRightOpen_unary, isRightOpen_unary]; exact h.isRightOpen⟩
  | _ :: _ :: _ => simp at heq

theorem loosens_of_not_operator {role : Option Field} {c : Category}
    (hbinary : c ≠ .binaryExpression) (hunary : c ≠ .unaryExpression) (ts us : List Tree) :
    (node role c us).isGroupedAt = true ∧ Loosens (node role c ts) (node role c us) := by
  have hlevel : (node role c us).level? = none := level?_eq_none hbinary
  cases c
  case binaryExpression => exact absurd rfl hbinary
  case unaryExpression => exact absurd rfl hunary
  all_goals exact ⟨rfl, rfl, .inl hlevel, id⟩

theorem IsSyntax.around_of_not_operator {ys : List Tree} (h : (k.around ts).IsSyntax)
    (hys : ∀ y ∈ ys, y.IsSyntax) (hbinary : k.category ≠ .binaryExpression)
    (hunary : k.category ≠ .unaryExpression)
    (expands : k.category.production.Expands ((k.before.reverse ++ (ys ++ k.after)).map label)) :
    (k.around ys).IsSyntax ∧ Loosens (k.around ts) (k.around ys) := by
  obtain ⟨role, c, before, after⟩ := k
  obtain ⟨hgrouped, hloosens⟩ : (Tree.node role c (before.reverse ++ (ys ++ after))).isGroupedAt = true ∧
      Loosens (.node role c (before.reverse ++ (ts ++ after)))
        (.node role c (before.reverse ++ (ys ++ after))) := loosens_of_not_operator hbinary hunary _ _
  cases h with
  | node _ _ inner =>
    refine ⟨.node expands hgrouped fun v hv => ?_, hloosens⟩
    rw [List.mem_append, List.mem_append] at hv
    rcases hv with hv | hv | hv
    · exact inner v (by simp [hv])
    · exact hys v hv
    · exact inner v (by simp [hv])

/-- The node around a replaced one is grouped and can itself replace the old node. -/
theorem IsSyntax.around (h : (k.around [t]).IsSyntax) (hu : u.IsSyntax) (hloosens : Loosens t u)
    (ht : t.IsNoSign)
    (expands : k.category.production.Expands ((k.before.reverse ++ u :: k.after).map label)) :
    (k.around [u]).IsSyntax ∧ Loosens (k.around [t]) (k.around [u]) := by
  obtain ⟨role, c, before, after⟩ := k
  cases h with
  | node expands₀ grouped inner =>
    have hplace : (Tree.node role c (before.reverse ++ u :: after)).isGroupedAt = true ∧
        Loosens (.node role c (before.reverse ++ t :: after))
          (.node role c (before.reverse ++ u :: after)) := by
      by_cases hbinary : c = .binaryExpression
      · subst hbinary
        exact hloosens.binary ht expands₀ expands grouped
      by_cases hunary : c = .unaryExpression
      · subst hunary
        exact hloosens.unary ht expands₀ expands grouped
      exact loosens_of_not_operator hbinary hunary _ _
    refine ⟨.node expands hplace.1 fun v hv => ?_, hplace.2⟩
    rw [List.mem_append, List.singleton_append, List.mem_cons] at hv
    rcases hv with hv | rfl | hv
    · exact inner v (by simp [hv])
    · exact hu
    · exact inner v (by simp [hv])

theorem isSyntax_of_fill (h : ∀ x ∈ fill path ts, x.IsSyntax) : ∀ t ∈ ts, t.IsSyntax := by
  intro t ht
  have hmem := mem_subtreesOfList_fill (mem_subtreesOfList_iff.mpr ⟨t, ht, t.mem_subtrees_self⟩) path
  obtain ⟨x, hx, htx⟩ := mem_subtreesOfList_iff.mp hmem
  exact (h x hx).of_mem_subtrees htx

/-- A node can be replaced by one that looks alike to its parent and can be an operand wherever the old
one can. -/
theorem isSyntax_fill (h : ∀ x ∈ fill path [t], x.IsSyntax) (hu : u.IsSyntax)
    (hlabel : u.label = t.label) (hloosens : Loosens t u) (ht : t.IsNoSign) :
    ∀ x ∈ fill path [u], x.IsSyntax := by
  induction path generalizing t u with
  | nil => simpa [fill] using hu
  | cons k path ih =>
    have hplace : ∀ x ∈ [k.around [t]], x.IsSyntax := isSyntax_of_fill h
    have haround := hplace _ (List.mem_singleton_self _)
    have hexpands : k.category.production.Expands
        ((k.before.reverse ++ u :: k.after).map label) := by
      cases haround with
      | node expands =>
        rw [List.singleton_append, List.map_append, List.map_cons, ← hlabel] at expands
        rwa [List.map_append, List.map_cons]
    obtain ⟨hnew, hplace⟩ := haround.around hu hloosens ht hexpands
    exact ih h hnew rfl hplace (isNoSign_node _ _ _)

theorem isSyntax_fill_moved (h : ∀ x ∈ fill path ts, x.IsSyntax) (f g f' g' : Nat → Nat) :
    ∀ x ∈ fill (path.map (Crumb.moved f g)) (ts.map (moved f' g')), x.IsSyntax := by
  -- Without their places the trees are the same.
  have hsame : (fill (path.map (Crumb.moved f g)) (ts.map (moved f' g'))).map
        (moved (fun _ => 0) fun _ => 0) =
      (fill path ts).map (moved (fun _ => 0) fun _ => 0) := by
    have hpath (k : Crumb) : (k.moved f g).moved (fun _ => 0) (fun _ => 0) =
        k.moved (fun _ => 0) fun _ => 0 := by
      simp only [Crumb.moved, List.map_map]
      congr 1 <;> exact List.map_congr_left fun t _ => moved_moved _ _ _ _ t
    rw [map_moved_fill, map_moved_fill, List.map_map, List.map_map]
    congr 1
    · exact List.map_congr_left fun k _ => hpath k
    · exact List.map_congr_left fun t _ => moved_moved _ _ _ _ t
  intro x hx
  have hmem := List.mem_map_of_mem (f := moved (fun _ => 0) fun _ => 0) hx
  rw [hsame] at hmem
  obtain ⟨y, hy, heq⟩ := List.mem_map.mp hmem
  exact isSyntax_of_moved (heq ▸ (h y hy).moved)

theorem isTrimmed_of_fill (h : ∀ x ∈ fill path ts, x.IsTrimmed) : ∀ t ∈ ts, t.IsTrimmed := by
  intro t ht
  have hmem := mem_subtreesOfList_fill (mem_subtreesOfList_iff.mpr ⟨t, ht, t.mem_subtrees_self⟩) path
  obtain ⟨x, hx, htx⟩ := mem_subtreesOfList_iff.mp hmem
  exact (h x hx).of_mem_subtrees htx

theorem IsTrimmed.around (h : (k.around [t]).IsTrimmed) (hu : u.IsTrimmed)
    (hcomment : u.isComment = t.isComment) : (k.around [u]).IsTrimmed := by
  have hends {before after : List Tree} :
      ((∀ x ∈ (before ++ t :: after).head?, x.isComment = false) →
        ∀ x ∈ (before ++ u :: after).head?, x.isComment = false) ∧
      ((∀ x ∈ (before ++ t :: after).getLast?, x.isComment = false) →
        ∀ x ∈ (before ++ u :: after).getLast?, x.isComment = false) := by
    constructor
    · cases before with
      | nil => simp [hcomment]
      | cons => exact id
    · cases after using List.reverseRecOn with
      | nil => simp [hcomment]
      | append_singleton after y => simp [List.getLast?_append, List.getLast?_cons]
  cases h with
  | node _ hc hts head last inner =>
    refine .node _ hc (by simp) (hends.1 head) (hends.2 last) fun v hv => ?_
    rw [List.mem_append, List.singleton_append, List.mem_cons] at hv
    rcases hv with hv | rfl | hv
    · exact inner v (by simp [hv])
    · exact hu
    · exact inner v (by simp [hv])

theorem IsTrimmed.around_list {xs ys : List Tree} (h : (k.around xs).IsTrimmed)
    (hys : ∀ y ∈ ys, y.IsTrimmed)
    (hhead : ∀ t ∈ (k.before.reverse ++ (ys ++ k.after)).head?, t.isComment = false)
    (hlast : ∀ t ∈ (k.before.reverse ++ (ys ++ k.after)).getLast?, t.isComment = false)
    (hne : k.before.reverse ++ (ys ++ k.after) ≠ []) : (k.around ys).IsTrimmed := by
  cases h with
  | node _ hc _ _ _ inner =>
    refine .node _ hc hne hhead hlast fun v hv => ?_
    rw [List.mem_append, List.mem_append] at hv
    rcases hv with hv | hv | hv
    · exact inner v (by simp [hv])
    · exact hys v hv
    · exact inner v (by simp [hv])

theorem IsTrimmed.around_inside {xs ys : List Tree} (h : (k.around xs).IsTrimmed)
    (hys : ∀ y ∈ ys, y.IsTrimmed) (hbefore : k.before ≠ []) (hafter : k.after ≠ []) :
    (k.around ys).IsTrimmed := by
  have hreverse : k.before.reverse ≠ [] := List.reverse_eq_nil_iff.not.mpr hbefore
  have hhead (zs : List Tree) : (k.before.reverse ++ (zs ++ k.after)).head? = k.before.reverse.head? :=
    List.head?_append_of_ne_nil _ hreverse
  have hlast (zs : List Tree) : (k.before.reverse ++ (zs ++ k.after)).getLast? = k.after.getLast? := by
    rw [List.getLast?_append_of_ne_nil _ (List.append_ne_nil_of_right_ne_nil _ hafter),
      List.getLast?_append_of_ne_nil _ hafter]
  have hends : (∀ t ∈ k.before.reverse.head?, t.isComment = false) ∧
      ∀ t ∈ k.after.getLast?, t.isComment = false := by
    cases h with
    | node _ _ _ head last => exact ⟨hhead xs ▸ head, hlast xs ▸ last⟩
  refine h.around_list hys ?_ ?_ (List.append_ne_nil_of_left_ne_nil hreverse _)
  · rw [hhead]
    exact hends.1
  · rw [hlast]
    exact hends.2

theorem isTrimmed_fill (h : ∀ x ∈ fill path [t], x.IsTrimmed) (hu : u.IsTrimmed)
    (hcomment : u.isComment = t.isComment) : ∀ x ∈ fill path [u], x.IsTrimmed := by
  induction path generalizing t u with
  | nil => simpa [fill] using hu
  | cons k path ih =>
    have hplace : ∀ x ∈ [k.around [t]], x.IsTrimmed := isTrimmed_of_fill h
    have haround := hplace _ (List.mem_singleton_self _)
    exact ih h (haround.around hu hcomment) rfl

section Children

variable {root root' : Tree} (h : ∀ x ∈ root.children, x.IsTrimmed)

include h

theorem isTrimmed_of_children (hfill : fill (k :: path) ts = [root]) : ∀ t ∈ ts, t.IsTrimmed := by
  obtain ⟨inner, last, hpath⟩ := (List.eq_nil_or_concat' (k :: path)).resolve_left (List.cons_ne_nil _ _)
  rw [hpath, fill_append, fill, fill, List.singleton_inj] at hfill
  subst hfill
  have hplace : ∀ x ∈ fill inner ts, x.IsTrimmed := fun x hx =>
    h x (mem_children_around_iff.mpr (.inr (.inl hx)))
  exact isTrimmed_of_fill hplace

theorem isTrimmed_children (hfill : fill (k :: path) [t] = [root])
    (hfill' : fill (k :: path) [u] = [root']) (hu : u.IsTrimmed)
    (hcomment : u.isComment = t.isComment) : ∀ x ∈ root'.children, x.IsTrimmed := by
  obtain ⟨inner, last, hpath⟩ := (List.eq_nil_or_concat' (k :: path)).resolve_left (List.cons_ne_nil _ _)
  rw [hpath, fill_append, fill, fill, List.singleton_inj] at hfill hfill'
  subst hfill hfill'
  have hplace : ∀ x ∈ fill inner [t], x.IsTrimmed := fun x hx =>
    h x (mem_children_around_iff.mpr (.inr (.inl hx)))
  intro x hx
  rcases mem_children_around_iff.mp hx with hx | hx | hx
  · exact h x (mem_children_around_iff.mpr (.inl hx))
  · exact isTrimmed_fill hplace hu hcomment x hx
  · exact h x (mem_children_around_iff.mpr (.inr (.inr hx)))

theorem isTrimmed_children_of_inside {k' : Crumb} {xs ys : List Tree}
    (hfill : fill (k :: k' :: path) xs = [root]) (hfill' : fill (k :: k' :: path) ys = [root'])
    (hys : ∀ y ∈ ys, y.IsTrimmed) (hbefore : k.before ≠ []) (hafter : k.after ≠ []) :
    ∀ x ∈ root'.children, x.IsTrimmed := by
  have hold : fill (k' :: path) [k.around xs] = [root] := hfill
  have hnew : fill (k' :: path) [k.around ys] = [root'] := hfill'
  have haround : (k.around xs).IsTrimmed := isTrimmed_of_children h hold _ (List.mem_singleton_self _)
  exact isTrimmed_children h hold hnew (haround.around_inside hys hbefore hafter) rfl

end Children

end Tree

end HeyVL
