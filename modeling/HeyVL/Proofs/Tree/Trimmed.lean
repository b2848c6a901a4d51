import HeyVL.Proofs.Tree.Slots

namespace HeyVL

open Lexeme

namespace Lexeme

variable {xs ys ms ns : List Lexeme}

theorem exists_comment_of_significant (h : significant xs = []) (hxs : xs ≠ []) :
    ∃ l ∈ xs.getLast?, l.token = .comment := by
  obtain ⟨front, l, rfl⟩ := (List.eq_nil_or_concat' xs).resolve_left hxs
  refine ⟨l, by simp, ?_⟩
  have hall := List.filter_eq_nil_iff.mp h l (by simp)
  simpa using hall

/-- Of two beginnings of a list with the same tokens that do not end with a comment, none is longer. -/
theorem eq_of_append_eq_append (h : xs ++ ms = ys ++ ns)
    (hsignificant : significant xs = significant ys)
    (hxs : ∀ l ∈ xs.getLast?, l.token ≠ .comment) (hys : ∀ l ∈ ys.getLast?, l.token ≠ .comment) :
    xs = ys ∧ ms = ns := by
  have hnil {us vs : List Lexeme} (hlast : ∀ l ∈ (us ++ vs).getLast?, l.token ≠ .comment)
      (hsignificant : significant us = significant (us ++ vs)) : vs = [] := by
    by_contra hne
    have hvs : significant vs = [] := by
      rw [significant, significant, List.filter_append] at hsignificant
      simpa [significant] using hsignificant
    obtain ⟨l, hl, htoken⟩ := exists_comment_of_significant hvs hne
    refine hlast l ?_ htoken
    rwa [List.getLast?_append_of_ne_nil _ hne]
  rcases List.append_eq_append_iff.mp h with ⟨zs, rfl, rfl⟩ | ⟨zs, rfl, rfl⟩
  · obtain rfl := hnil hys hsignificant
    simp
  · obtain rfl := hnil hxs hsignificant.symm
    simp

end Lexeme

namespace Tree

/-- A tree in which no node begins or ends with a comment and comments have no role. The source file
is not part of it. -/
inductive IsTrimmed : Tree → Prop
  | leaf {role : Option Field} {l : Lexeme} (h : l.token = .comment → role = none) :
      IsTrimmed (leaf role l)
  | node (role : Option Field) {c : Category} {ts : List Tree} (hc : c ≠ .sourceFile)
      (hts : ts ≠ []) (head : ∀ t ∈ ts.head?, t.isComment = false)
      (last : ∀ t ∈ ts.getLast?, t.isComment = false) (inner : ∀ t ∈ ts, IsTrimmed t) :
      IsTrimmed (node role c ts)

variable {t u : Tree} {ts us : List Tree} {k : Crumb} {path : List Crumb} {f g : Nat → Nat}

theorem IsTrimmed.isFull (h : t.IsTrimmed) : t.IsFull := by
  induction h with
  | leaf => exact .leaf _ _
  | node role hc hts _ _ _ ih => exact .node role hc hts ih

theorem IsTrimmed.of_mem_subtrees (h : t.IsTrimmed) (hu : u ∈ t.subtrees) : u.IsTrimmed := by
  induction h with
  | leaf hrole =>
    obtain rfl := List.mem_singleton.mp hu
    exact .leaf hrole
  | node role hc hts head last inner ih =>
    rcases mem_subtrees_node_iff.mp hu with rfl | ⟨t, ht, hu⟩
    · exact .node role hc hts head last inner
    · exact ih t ht hu

theorem IsTrimmed.headIsBare (h : t.IsTrimmed) : ∀ u ∈ t.subtrees, u.headIsBare = true := by
  intro u hu
  cases h.of_mem_subtrees hu with
  | leaf => rfl
  | node _ _ _ head => simpa [Tree.headIsBare, children, Option.all_eq_true] using head

theorem IsTrimmed.endsBare (h : t.IsTrimmed) : t.endsBare = true := by
  induction h with
  | leaf => rfl
  | node _ _ _ _ last _ ih =>
    rw [Tree.endsBare, endBare_eq, Bool.and_eq_true, List.all_eq_true, Option.all_eq_true]
    exact ⟨fun t ht => by simpa using last t ht, ih⟩

theorem IsFull.isTrimmed (h : t.IsFull) (hhead : ∀ u ∈ t.subtrees, u.headIsBare = true)
    (hend : t.endsBare = true)
    (hrole : ∀ role l, .leaf role l ∈ t.subtrees → l.token = .comment → role = none) :
    t.IsTrimmed := by
  induction h with
  | leaf role l => exact .leaf (hrole role l (mem_subtrees_self _))
  | @node role c ts hc hts inner ih =>
    have hbelow {u v : Tree} (hu : u ∈ ts) (hv : v ∈ u.subtrees) :
        v ∈ (Tree.node role c ts).subtrees := mem_subtrees_of_mem_children hu hv
    refine .node role hc hts (fun u hu => ?_) (fun u hu => ?_) fun u hu => ?_
    · have hnode := hhead _ (mem_subtrees_self _)
      rw [Tree.headIsBare, children, Option.all_eq_true] at hnode
      simpa using hnode u hu
    · have hnode := endsBare_getLast hend
      rw [children, Option.all_eq_true] at hnode
      simpa using hnode u hu
    · exact ih u hu (fun v hv => hhead v (hbelow hu hv))
        (endsBare_of_mem_subtrees hend (hbelow hu u.mem_subtrees_self))
        fun r l hl => hrole r l (hbelow hu hl)

theorem IsTrimmed.moved (h : t.IsTrimmed) : (t.moved f g).IsTrimmed := by
  induction h with
  | leaf h => exact .leaf h
  | node role hc hts head last inner ih =>
    rw [moved_node]
    refine .node role hc (by simpa using hts) ?_ ?_ (by simpa using ih)
    · simpa using head
    · simpa using last

theorem IsTrimmed.withRole (h : t.IsTrimmed) (ht : t.isComment = false) (role : Option Field) :
    (t.withRole role).IsTrimmed := by
  cases h with
  | leaf h =>
    refine .leaf fun htoken => ?_
    simp [isComment, htoken] at ht
  | node _ hc hts head last inner => exact .node role hc hts head last inner

theorem eq_of_bare_leaf {role : Option Field} {l : Lexeme} (h : u.bare = .leaf role l) :
    u = .leaf role l := by
  cases u with
  | leaf => exact h
  | node => cases h

theorem exists_of_isComment (h : t.IsTrimmed) (ht : t.isComment = true) :
    ∃ l, t = leaf none l ∧ l.token = .comment := by
  cases h with
  | @leaf role l hrole =>
    have hl : l.token = .comment := by simpa [isComment] using ht
    obtain rfl := hrole hl
    exact ⟨l, rfl, hl⟩
  | node => cases ht

theorem isComment_eq_of_head (ht : t.IsTrimmed) (hu : u.IsTrimmed)
    (hleaves : t.leaves ++ leavesOfList ts = u.leaves ++ leavesOfList us)
    (hcomment : t.isComment = true) : t = u := by
  obtain ⟨l, rfl, hl⟩ := exists_of_isComment ht hcomment
  obtain ⟨m, ms, hm⟩ := List.exists_cons_of_ne_nil hu.isFull.leaves_ne_nil
  rw [hm] at hleaves
  obtain ⟨rfl, -⟩ := List.cons.inj hleaves
  cases hbare : u.isComment with
  | true =>
    obtain ⟨m', rfl, -⟩ := exists_of_isComment hu hbare
    obtain ⟨rfl, -⟩ := List.cons.inj hm
    rfl
  | false =>
    exact absurd hl (hu.isFull.head_ne_comment hu.headIsBare hbare l (by simp [hm]))

theorem eq_of_bareOfList_eq_of_forall
    (ih : ∀ t ∈ ts, ∀ u : Tree, t.IsTrimmed → u.IsTrimmed → t.bare = u.bare →
      t.leaves = u.leaves → t = u)
    (hts : ∀ t ∈ ts, t.IsTrimmed) (hus : ∀ u ∈ us, u.IsTrimmed)
    (hbare : bareOfList ts = bareOfList us) (hleaves : leavesOfList ts = leavesOfList us) :
    ts = us := by
  induction ts generalizing us with
  | nil =>
    cases us with
    | nil => rfl
    | cons u us =>
      have hne := (hus u (by simp)).isFull.leaves_ne_nil
      simp [leavesOfList, hne] at hleaves
  | cons t ts ihts =>
    have ht := hts t (by simp)
    cases us with
    | nil => simp [leavesOfList, ht.isFull.leaves_ne_nil] at hleaves
    | cons u us =>
      have hu := hus u (by simp)
      have hrest (hbare : bareOfList ts = bareOfList us)
          (hleaves : leavesOfList ts = leavesOfList us) : ts = us :=
        ihts (fun v hv => ih v (by simp [hv])) (fun v hv => hts v (by simp [hv]))
          (fun v hv => hus v (by simp [hv])) hbare hleaves
      rw [leavesOfList_cons, leavesOfList_cons] at hleaves
      by_cases hcomment : t.isComment = true ∨ u.isComment = true
      · -- A comment is the same leaf on both sides.
        obtain rfl : t = u := hcomment.elim (isComment_eq_of_head ht hu hleaves)
          fun h => (isComment_eq_of_head hu ht hleaves.symm h).symm
        rw [bareOfList, bareOfList] at hbare
        rw [if_pos (by simpa using hcomment), if_pos (by simpa using hcomment)] at hbare
        rw [hrest hbare (List.append_cancel_left hleaves)]
      · rw [not_or, Bool.not_eq_true, Bool.not_eq_true] at hcomment
        rw [bareOfList, bareOfList, hcomment.1, hcomment.2] at hbare
        obtain ⟨hroot, hbare⟩ := List.cons.inj hbare
        have hsignificant : significant t.leaves = significant u.leaves := by
          rw [← leaves_bare hcomment.1, ← leaves_bare hcomment.2, hroot]
        obtain ⟨hfirst, hleaves⟩ := eq_of_append_eq_append hleaves hsignificant
          (ht.isFull.getLast_ne_comment ht.endsBare hcomment.1)
          (hu.isFull.getLast_ne_comment hu.endsBare hcomment.2)
        rw [ih t (by simp) u ht hu hroot hfirst, hrest hbare hleaves]

theorem IsTrimmed.eq_of_bare_eq (ht : t.IsTrimmed) (hu : u.IsTrimmed) (hbare : t.bare = u.bare)
    (hleaves : t.leaves = u.leaves) : t = u := by
  induction t using inductionOnChildren generalizing u with
  | leaf role l => exact (eq_of_bare_leaf hbare.symm).symm
  | node role c ts ih =>
    cases u with
    | leaf => cases hbare
    | node role' c' us =>
      obtain ⟨rfl, rfl, hchildren⟩ : role = role' ∧ c = c' ∧ bareOfList ts = bareOfList us := by
        simpa [bare] using hbare
      cases ht with
      | node _ _ _ _ _ hts =>
        cases hu with
        | node _ _ _ _ _ hus =>
          rw [eq_of_bareOfList_eq_of_forall (fun t h u ht hu => ih t h ht hu) hts hus
            hchildren hleaves]

/-- Trimmed trees are told by their leaves and what they are without comments. -/
theorem eq_of_bareOfList_eq (hts : ∀ t ∈ ts, t.IsTrimmed) (hus : ∀ u ∈ us, u.IsTrimmed)
    (hbare : bareOfList ts = bareOfList us) (hleaves : leavesOfList ts = leavesOfList us) : ts = us :=
  eq_of_bareOfList_eq_of_forall (fun _ _ _ ht hu hbare hleaves => ht.eq_of_bare_eq hu hbare hleaves)
    hts hus hbare hleaves

end Tree

end HeyVL
