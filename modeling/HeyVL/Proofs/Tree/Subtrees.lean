import HeyVL.Proofs.Tree.Extents
import Mathlib.Data.List.Nodup
import Mathlib.Data.List.Pairwise

namespace HeyVL

namespace Tree

variable {t u v p q : Tree} {ts : List Tree} {l : Lexeme} {role : Option Field} {c : Category}

@[elab_as_elim]
theorem inductionOnChildren {motive : Tree → Prop}
    (leaf : ∀ role l, motive (leaf role l))
    (node : ∀ role c ts, (∀ t ∈ ts, motive t) → motive (node role c ts)) (t : Tree) : motive t := by
  cases t with
  | leaf role l => exact leaf role l
  | node role c ts => exact node role c ts fun t _ => inductionOnChildren leaf node t

theorem mem_subtrees_self (t : Tree) : t ∈ t.subtrees := by
  cases t <;> exact List.mem_cons_self

theorem mem_subtreesOfList_iff : u ∈ subtreesOfList ts ↔ ∃ t ∈ ts, u ∈ t.subtrees := by
  rw [subtreesOfList_eq_flatMap, List.mem_flatMap]

theorem mem_subtrees_node_iff :
    u ∈ (Tree.node role c ts).subtrees ↔ u = .node role c ts ∨ ∃ t ∈ ts, u ∈ t.subtrees := by
  rw [subtrees, List.mem_cons, mem_subtreesOfList_iff]

theorem mem_subtrees_of_mem_children (ht : t ∈ ts) (hu : u ∈ t.subtrees) :
    u ∈ (Tree.node role c ts).subtrees :=
  mem_subtrees_node_iff.mpr (.inr ⟨t, ht, hu⟩)

theorem mem_subtrees_of_mem (h : u ∈ t.children) : u ∈ t.subtrees := by
  cases t with
  | leaf role l => cases h
  | node role c ts => exact mem_subtrees_of_mem_children h u.mem_subtrees_self

theorem mem_subtrees_trans (hu : u ∈ t.subtrees) (hv : v ∈ u.subtrees) : v ∈ t.subtrees := by
  induction t using inductionOnChildren with
  | leaf role l =>
    obtain rfl := List.mem_singleton.mp hu
    exact hv
  | node role c ts ih =>
    rcases mem_subtrees_node_iff.mp hu with rfl | ⟨t, ht, hu⟩
    · exact hv
    · exact mem_subtrees_of_mem_children ht (ih t ht hu)

theorem exists_parent (h : u ∈ t.subtrees) : u = t ∨ ∃ p ∈ t.subtrees, u ∈ p.children := by
  induction t using inductionOnChildren with
  | leaf role l => exact .inl (List.mem_singleton.mp h)
  | node role c ts ih =>
    rcases mem_subtrees_node_iff.mp h with rfl | ⟨t, ht, hu⟩
    · exact .inl rfl
    · right
      rcases ih t ht hu with rfl | ⟨p, hp, hu⟩
      · exact ⟨_, mem_subtrees_self _, ht⟩
      · exact ⟨p, mem_subtrees_of_mem_children ht hp, hu⟩

theorem mem_leaves_iff : l ∈ t.leaves ↔ ∃ role, .leaf role l ∈ t.subtrees := by
  induction t using inductionOnChildren with
  | leaf role m => simp [leaves, subtrees]
  | node role c ts ih =>
    rw [leaves, leavesOfList_eq_flatMap, List.mem_flatMap]
    constructor
    · rintro ⟨t, ht, hl⟩
      obtain ⟨r, hr⟩ := (ih t ht).mp hl
      exact ⟨r, mem_subtrees_of_mem_children ht hr⟩
    · rintro ⟨r, hr⟩
      rcases mem_subtrees_node_iff.mp hr with hr | ⟨t, ht, hr⟩
      · cases hr
      · exact ⟨t, ht, (ih t ht).mpr ⟨r, hr⟩⟩

theorem isInfix_leaves (h : u ∈ t.subtrees) : u.leaves <:+: t.leaves := by
  induction t using inductionOnChildren with
  | leaf role l =>
    obtain rfl := List.mem_singleton.mp h
    exact List.infix_rfl
  | node role c ts ih =>
    rcases mem_subtrees_node_iff.mp h with rfl | ⟨t, ht, hu⟩
    · exact List.infix_rfl
    · obtain ⟨us, vs, rfl⟩ := List.append_of_mem ht
      rw [leaves, leavesOfList_append]
      exact (ih t ht hu).trans ⟨leavesOfList us, leavesOfList vs, List.append_assoc _ _ _⟩

theorem mem_leaves_of_mem_children (h : .leaf role l ∈ p.children) (hp : p ∈ t.subtrees) :
    l ∈ t.leaves :=
  mem_leaves_iff.mpr ⟨role, mem_subtrees_trans hp (mem_subtrees_of_mem h)⟩

theorem nodup_leaves_of_mem (hnodup : (leavesOfList ts).Nodup) (ht : t ∈ ts) : t.leaves.Nodup := by
  rw [leavesOfList_eq_flatMap, List.nodup_flatMap] at hnodup
  exact hnodup.1 t ht

theorem eq_of_common_leaf (hnodup : (leavesOfList ts).Nodup) (ht : t ∈ ts) (hu : u ∈ ts)
    (hlt : l ∈ t.leaves) (hlu : l ∈ u.leaves) : t = u := by
  rw [leavesOfList_eq_flatMap, List.nodup_flatMap] at hnodup
  by_contra hne
  have : Std.Symm (Function.onFun List.Disjoint leaves) := ⟨fun _ _ h _ hb ha => h ha hb⟩
  exact hnodup.2.forall ht hu hne hlt hlu

theorem eq_of_common_child {role' : Option Field} (hnodup : t.leaves.Nodup) (hp : p ∈ t.subtrees)
    (hq : q ∈ t.subtrees) (hlp : .leaf role l ∈ p.children) (hlq : .leaf role' l ∈ q.children) :
    p = q := by
  induction t using inductionOnChildren with
  | leaf role m =>
    obtain rfl := List.mem_singleton.mp hp
    cases hlp
  | node r c ts ih =>
    -- A node of a child that is this leaf has no children.
    have hdeeper {r r' : Option Field} {p q : Tree} (hp : p ∈ ts) (hq : q ∈ p.subtrees)
        (hlq : .leaf r' l ∈ q.children) (hlp : .leaf r l ∈ ts) : False := by
      have hl : l ∈ (Tree.leaf r l).leaves := List.mem_singleton_self l
      obtain rfl := eq_of_common_leaf hnodup hp hlp (mem_leaves_of_mem_children hlq hq) hl
      obtain rfl := List.mem_singleton.mp hq
      cases hlq
    rcases mem_subtrees_node_iff.mp hp with rfl | ⟨u, hu, hp⟩
    · rcases mem_subtrees_node_iff.mp hq with rfl | ⟨v, hv, hq⟩
      · rfl
      · exact absurd hlp fun hlp => hdeeper hv hq hlq hlp
    · rcases mem_subtrees_node_iff.mp hq with rfl | ⟨v, hv, hq⟩
      · exact absurd hlq fun hlq => hdeeper hu hp hlp hlq
      · obtain rfl := eq_of_common_leaf hnodup hu hv (mem_leaves_of_mem_children hlp hp)
          (mem_leaves_of_mem_children hlq hq)
        exact ih u hu (nodup_leaves_of_mem hnodup hu) hp hq

theorem sizeOf_le_of_mem_subtrees (h : u ∈ t.subtrees) : sizeOf u ≤ sizeOf t := by
  induction t using inductionOnChildren with
  | leaf role l => rw [List.mem_singleton.mp h]
  | node role c ts ih =>
    rcases mem_subtrees_node_iff.mp h with rfl | ⟨t, ht, hu⟩
    · exact le_rfl
    · have hchild := List.sizeOf_lt_of_mem ht
      have hinner := ih t ht hu
      rw [node.sizeOf_spec]
      omega

theorem nodup_subtrees (h : ∀ u ∈ t.children, u.IsFull) (hnodup : t.leaves.Nodup) :
    t.subtrees.Nodup := by
  induction t using inductionOnChildren with
  | leaf role l => exact List.nodup_singleton _
  | node role c ts ih =>
    rw [subtrees, List.nodup_cons, subtreesOfList_eq_flatMap]
    constructor
    · rw [List.mem_flatMap]
      rintro ⟨t, ht, hmem⟩
      have hchild := List.sizeOf_lt_of_mem ht
      have hinner := sizeOf_le_of_mem_subtrees hmem
      rw [node.sizeOf_spec] at hinner
      omega
    · rw [leaves, leavesOfList_eq_flatMap] at hnodup
      obtain ⟨hinner, hdisjoint⟩ := List.nodup_flatMap.mp hnodup
      refine List.nodup_flatMap.mpr ⟨fun t ht => ?_, hdisjoint.imp_of_mem fun ht hu hleaves => ?_⟩
      · have hfull : ∀ u ∈ t.children, u.IsFull := fun u hu =>
          (h t ht).of_mem_subtrees (mem_subtrees_of_mem hu)
        exact ih t ht hfull (hinner t ht)
      · -- A node of two children would have its leaves in both.
        intro v hvt hvu
        obtain ⟨l, hl⟩ := List.exists_mem_of_ne_nil _ ((h _ ht).of_mem_subtrees hvt).leaves_ne_nil
        exact hleaves ((isInfix_leaves hvt).subset hl) ((isInfix_leaves hvu).subset hl)

end Tree

end HeyVL
