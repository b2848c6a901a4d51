import HeyVL.Proofs.Tree.Subtrees
import HeyVL.Tree.Builder

namespace HeyVL

namespace Tree

mutual

/-- The tree with `u` in the place of each leaf of the lexeme, in the role of the leaf. -/
def graft (l : Lexeme) (u : Tree) : Tree → Tree
  | leaf role m => if m = l then u.withRole role else leaf role m
  | node role c ts => node role c (graftOfList l u ts)

def graftOfList (l : Lexeme) (u : Tree) : List Tree → List Tree
  | [] => []
  | t :: rest => graft l u t :: graftOfList l u rest

end

variable {l m : Lexeme} {t u v : Tree} {role : Option Field}

theorem graftOfList_eq (l : Lexeme) (u : Tree) (ts : List Tree) :
    graftOfList l u ts = ts.map (graft l u) := by
  induction ts with
  | nil => rfl
  | cons t ts ih => rw [graftOfList, ih, List.map_cons]

theorem graft_node (l : Lexeme) (u : Tree) (role : Option Field) (c : Category) (ts : List Tree) :
    graft l u (.node role c ts) = .node role c (ts.map (graft l u)) := by
  rw [graft, graftOfList_eq]

theorem graft_leaf (l : Lexeme) (u : Tree) (role : Option Field) :
    graft l u (leaf role l) = u.withRole role := by
  rw [graft, if_pos rfl]

theorem graft_leaf_of_ne (h : m ≠ l) (u : Tree) (role : Option Field) :
    graft l u (leaf role m) = leaf role m := by
  rw [graft, if_neg h]

theorem withRole_withRole (role other : Option Field) (t : Tree) :
    (t.withRole role).withRole other = t.withRole other := by
  cases t <;> rfl

theorem withRole_graft (l : Lexeme) (u : Tree) (role : Option Field) (t : Tree) :
    graft l u (t.withRole role) = (graft l u t).withRole role := by
  cases t with
  | leaf other m =>
    by_cases hm : m = l
    · subst hm
      rw [withRole, graft_leaf, graft_leaf, withRole_withRole]
    · rw [withRole, graft_leaf_of_ne hm, graft_leaf_of_ne hm, withRole]
  | node other c ts => rw [withRole, graft_node, graft_node, withRole]

theorem label_graft (h : ∀ role, t ≠ leaf role l) (u : Tree) : (graft l u t).label = t.label := by
  cases t with
  | leaf role m =>
    have hm : m ≠ l := by
      rintro rfl
      exact h role rfl
    rw [graft_leaf_of_ne hm]
  | node role c ts => rw [graft_node, label, label, role_node, role_node, kind_node, kind_node]

theorem graft_eq_self (h : l ∉ t.leaves) (u : Tree) : graft l u t = t := by
  induction t using inductionOnChildren with
  | leaf role m =>
    rw [graft_leaf_of_ne]
    rintro rfl
    exact h (List.mem_singleton_self m)
  | node role c ts ih =>
    rw [leaves, leavesOfList_eq_flatMap, List.mem_flatMap, not_exists] at h
    rw [graft_node, List.map_congr_left fun t ht => ih t ht fun hl => h t ⟨ht, hl⟩, List.map_id']

theorem mem_subtrees_graft (h : v ∈ t.subtrees) (l : Lexeme) (u : Tree) :
    graft l u v ∈ (graft l u t).subtrees := by
  induction t using inductionOnChildren with
  | leaf role m =>
    obtain rfl := List.mem_singleton.mp h
    exact mem_subtrees_self _
  | node role c ts ih =>
    rcases mem_subtrees_node_iff.mp h with rfl | ⟨t, ht, hv⟩
    · exact mem_subtrees_self _
    · rw [graft_node]
      exact mem_subtrees_of_mem_children (List.mem_map_of_mem ht) (ih t ht hv)

/-- Where a leaf occurs once, the node around it has the grafted tree as a child, and its other
children look as before. -/
theorem exists_slot {ts : List Tree} (hnodup : (leavesOfList (ts.map (graft l u))).Nodup)
    (hl : l ∈ leavesOfList (ts.map (graft l u))) (hu : l ∈ u.leaves) :
    ∃ (role : Option Field) (c : Category) (r : Option Field) (v w : List Label), ∀ x : Tree,
      ∃ before after, .node role c (before ++ x.withRole r :: after) ∈
          (Tree.node none .sourceFile (ts.map (graft l x))).subtrees ∧
        before.map label = v ∧ after.map label = w := by
  have hmem : l ∈ (Tree.node none .sourceFile ts).leaves := by
    by_contra hnot
    have hself := graft_eq_self hnot u
    rw [graft_node] at hself
    rw [(Tree.node.inj hself).2.2] at hl
    exact hnot hl
  obtain ⟨r, hleaf⟩ := mem_leaves_iff.mp hmem
  rcases exists_parent hleaf with hroot | ⟨p, hp, hchild⟩
  · cases hroot
  obtain ⟨role, c, cs, rfl⟩ : ∃ role c cs, p = .node role c cs := by
    cases p with
    | leaf => cases hchild
    | node role c cs => exact ⟨role, c, cs, rfl⟩
  obtain ⟨before, after, rfl⟩ := List.append_of_mem (show leaf r l ∈ cs from hchild)
  have hgrafted (x : Tree) : .node role c
      (before.map (graft l x) ++ x.withRole r :: after.map (graft l x)) ∈
        (Tree.node none .sourceFile (ts.map (graft l x))).subtrees := by
    have hx := mem_subtrees_graft hp l x
    rwa [graft_node, graft_node, List.map_append, List.map_cons, graft_leaf] at hx
  -- A second leaf would be a second place for the leaves of `u`.
  have honce := (isInfix_leaves (hgrafted u)).sublist.nodup hnodup
  rw [leaves, leavesOfList_append, leavesOfList, leaves_withRole] at honce
  have hother {t : Tree} (ht : t ∈ before ∨ t ∈ after) (role : Option Field) : t ≠ leaf role l := by
    rintro rfl
    have hsecond {xs : List Tree} (hxs : leaf role l ∈ xs) :
        l ∈ leavesOfList (xs.map (graft l u)) := by
      rw [leavesOfList_eq_flatMap, List.mem_flatMap]
      refine ⟨_, List.mem_map_of_mem hxs, ?_⟩
      rwa [graft_leaf, leaves_withRole]
    rcases ht with ht | ht
    · exact (List.nodup_append.mp honce).2.2 l (hsecond ht) l (List.mem_append_left _ hu) rfl
    · exact (List.nodup_append.mp (List.nodup_append.mp honce).2.1).2.2 l hu l (hsecond ht) rfl
  have hlabels {xs : List Tree} (hxs : ∀ t ∈ xs, ∀ role, t ≠ leaf role l) (x : Tree) :
      (xs.map (graft l x)).map label = xs.map label := by
    rw [List.map_map]
    exact List.map_congr_left fun t ht => label_graft (hxs t ht) x
  exact ⟨role, c, r, before.map label, after.map label, fun x => ⟨_, _, hgrafted x,
    hlabels (fun t ht => hother (.inl ht)) x, hlabels (fun t ht => hother (.inr ht)) x⟩⟩

end Tree

namespace Builder

/-- The children so far with `u` in the place of the lexeme. -/
def graft (l : Lexeme) (u : Tree) (b : Builder) : Builder := b.map (List.map (Tree.graft l u))

variable {l : Lexeme} {u : Tree}

theorem add_graft (l : Lexeme) (u t : Tree) (b : Builder) :
    graft l u (b.add t) = (graft l u b).add (Tree.graft l u t) := by
  cases b with
  | nil => rfl
  | cons children outer => simp [add, graft]

theorem act_graft (l : Lexeme) (u : Tree) (a : Action) (b : Builder) :
    graft l u (b.act a) = (graft l u b).act a := by
  cases b with
  | nil => cases a <;> rfl
  | cons children outer =>
    cases a with
    | enter => rfl
    | adopt role =>
      have hcons : graft l u (children :: outer) =
          children.map (Tree.graft l u) :: graft l u outer := rfl
      rw [hcons, act, act, List.getLast?_map]
      cases children.getLast? with
      | none => rfl
      | some t =>
        simp only [Option.map_some, graft, List.map_cons, List.map_dropLast, List.map_nil,
          Tree.withRole_graft]
    | leave role c =>
      rw [act, add_graft, Tree.graft_node]
      rfl

theorem foldl_act_graft (l : Lexeme) (u : Tree) (actions : List Action) (b : Builder) :
    graft l u (actions.foldl act b) = actions.foldl act (graft l u b) := by
  induction actions generalizing b with
  | nil => rfl
  | cons a actions ih => rw [List.foldl_cons, List.foldl_cons, ih, act_graft]

theorem add_ne_nil (t : Tree) (b : Builder) : b.add t ≠ [] := by
  cases b <;> exact List.cons_ne_nil _ _

theorem act_ne_nil {b : Builder} (hb : b ≠ []) (a : Action) : b.act a ≠ [] := by
  obtain ⟨children, outer, rfl⟩ := List.exists_cons_of_ne_nil hb
  cases a with
  | enter => exact List.cons_ne_nil _ _
  | adopt role =>
    rw [act]
    split <;> exact List.cons_ne_nil _ _
  | leave role c => exact add_ne_nil _ _

theorem foldl_act_ne_nil {b : Builder} (hb : b ≠ []) (actions : List Action) :
    actions.foldl act b ≠ [] := by
  induction actions generalizing b with
  | nil => exact hb
  | cons a actions ih => exact ih (act_ne_nil hb a)

end Builder

end HeyVL
