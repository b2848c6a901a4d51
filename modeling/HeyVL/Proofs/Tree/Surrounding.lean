import HeyVL.Proofs.Tree.Extents
import HeyVL.Proofs.Tree.Subtrees

namespace HeyVL

open Lexeme

namespace Tree

variable {t u p q : Tree} {ts : List Tree} {comment l : Lexeme}

/-- Whether the first child of the node is no comment. -/
def headIsBare (t : Tree) : Bool := t.children.head?.all fun u => !u.isComment

/-- A token among the leaves stands before the comment, and another one behind it. -/
def Surrounds (comment : Lexeme) (t : Tree) : Prop :=
  (∃ l ∈ t.leaves, l.token ≠ .comment ∧ l.stop ≤ comment.start) ∧
    ∃ l ∈ t.leaves, l.token ≠ .comment ∧ comment.stop ≤ l.start

theorem all_head?_placeAmong (hstart : startOfList ts < comment.start)
    (hstop : comment.start < stopOfList ts) (h : ts.head?.all (fun t => !t.isComment) = true) :
    (placeAmong comment ts).head?.all (fun t => !t.isComment) = true := by
  cases ts with
  | nil => cases hstop
  | cons t rest =>
    rw [placeAmong]
    split
    · exact h
    · split
      · rw [List.head?_cons, Option.all_some, isComment_placeIn]
        exact h
      · next hlt => exact absurd hstart hlt

mutual

theorem headIsBare_placeIn {comment : Lexeme} {t : Tree} (hstart : t.start < comment.start)
    (hstop : comment.start < t.stop) (h : ∀ u ∈ t.subtrees, u.headIsBare = true) :
    ∀ u ∈ (t.placeIn comment).subtrees, u.headIsBare = true := by
  cases t with
  | leaf role l => exact h
  | node role c ts =>
    intro u hu
    rcases List.mem_cons.mp hu with rfl | hu
    · exact all_head?_placeAmong hstart hstop (h _ List.mem_cons_self)
    · exact headIsBare_placeAmong (fun v hv => h v (List.mem_cons_of_mem _ hv)) u hu

theorem headIsBare_placeAmong {comment : Lexeme} {ts : List Tree}
    (h : ∀ u ∈ subtreesOfList ts, u.headIsBare = true) :
    ∀ u ∈ subtreesOfList (placeAmong comment ts), u.headIsBare = true := by
  have hleaf : ∀ u ∈ (leaf none comment).subtrees, u.headIsBare = true := by
    intro u hu
    obtain rfl := List.mem_singleton.mp hu
    rfl
  intro u hu
  cases ts with
  | nil => exact hleaf u (by simpa [placeAmong, subtreesOfList] using hu)
  | cons t rest =>
    have hfirst : ∀ v ∈ t.subtrees, v.headIsBare = true :=
      fun v hv => h v (List.mem_append_left _ hv)
    have hrest : ∀ v ∈ subtreesOfList rest, v.headIsBare = true :=
      fun v hv => h v (List.mem_append_right _ hv)
    rw [placeAmong] at hu
    split at hu
    · rcases List.mem_append.mp hu with hu | hu
      · exact hfirst u hu
      · exact headIsBare_placeAmong hrest u hu
    · next hstop =>
      split at hu
      · next hstart =>
        rcases List.mem_append.mp hu with hu | hu
        · exact headIsBare_placeIn hstart (Nat.lt_of_not_le hstop) hfirst u hu
        · exact hrest u hu
      · rcases List.mem_append.mp hu with hu | hu
        · exact hleaf u hu
        · exact h u hu

end

theorem headIsBare_placeAll {cs : List Lexeme} (h : ∀ u ∈ subtreesOfList ts, u.headIsBare = true) :
    ∀ u ∈ subtreesOfList (placeAll cs ts), u.headIsBare = true := by
  induction cs generalizing ts with
  | nil => exact h
  | cons c cs ih => exact ih (headIsBare_placeAmong h)

theorem IsSyntax.headIsBare (h : t.IsSyntax) : t.headIsBare = true := by
  rw [Tree.headIsBare, Option.all_eq_true]
  cases h with
  | leaf => simp [children]
  | node _ _ inner =>
    intro u hu
    simp [(inner u (List.mem_of_mem_head? hu)).bare_eq.1]

theorem endsBare_getLast (h : t.endsBare = true) :
    t.children.getLast?.all (fun u => !u.isComment) = true := by
  cases t with
  | leaf role l => rfl
  | node role c ts =>
    rw [endsBare, Bool.and_eq_true] at h
    exact h.1

theorem IsFull.head_ne_comment (h : t.IsFull) (hbare : ∀ u ∈ t.subtrees, u.headIsBare = true)
    (ht : t.isComment = false) : ∀ l ∈ t.leaves.head?, l.token ≠ .comment := by
  induction h with
  | leaf role l =>
    intro m hm
    obtain rfl : l = m := by simpa [leaves] using hm
    simpa [isComment] using ht
  | @node role c ts hc hts inner ih =>
    obtain ⟨u, rest, rfl⟩ := List.exists_cons_of_ne_nil hts
    have hu : u.isComment = false := by
      simpa [Tree.headIsBare, children] using hbare _ (mem_subtrees_self _)
    rw [leaves, leavesOfList_cons, List.head?_append_of_ne_nil _ (inner u (by simp)).leaves_ne_nil]
    exact ih u (by simp) (fun v hv => hbare v (mem_subtrees_of_mem_children (by simp) hv)) hu

theorem IsFull.getLast_ne_comment (h : t.IsFull) (hbare : t.endsBare = true)
    (ht : t.isComment = false) : ∀ l ∈ t.leaves.getLast?, l.token ≠ .comment := by
  induction h with
  | leaf role l =>
    intro m hm
    obtain rfl : l = m := by simpa [leaves] using hm
    simpa [isComment] using ht
  | @node role c ts hc hts inner ih =>
    obtain ⟨front, u, rfl⟩ := (List.eq_nil_or_concat' ts).resolve_left hts
    have hu : u.isComment = false := by simpa [children] using endsBare_getLast hbare
    rw [leaves, leavesOfList_append, leavesOfList_singleton,
      List.getLast?_append_of_ne_nil _ (inner u (by simp)).leaves_ne_nil]
    exact ih u (by simp)
      (endsBare_of_mem_subtrees hbare (mem_subtrees_of_mem_children (by simp) u.mem_subtrees_self)) hu

theorem subtrees_bare (ht : t.isComment = false) :
    t.bare.subtrees = (t.subtrees.filter fun u => !u.isComment).map bare := by
  induction t using inductionOnChildren with
  | leaf role l => simp [bare, subtrees, ht]
  | node role c ts ih =>
    rw [bare, subtrees, subtrees, List.filter_cons_of_pos rfl, List.map_cons, bare]
    apply congrArg
    clear ht
    induction ts with
    | nil => rfl
    | cons u ts ihts =>
      have hrest := ihts fun v hv => ih v (by simp [hv])
      rw [bareOfList, subtreesOfList, List.filter_append, List.map_append, ← hrest]
      cases hu : u.isComment with
      | true =>
        cases u with
        | leaf role l => simp [subtrees, hu]
        | node => cases hu
      | false =>
        rw [← ih u (by simp) hu]
        rfl

theorem bareOfList_append_singleton (ts : List Tree) (ht : t.isComment = false) :
    bareOfList (ts ++ [t]) = bareOfList ts ++ [t.bare] := by
  simp [bareOfList_eq, ht]

theorem IsFull.start_bare (h : t.IsFull) (hbare : ∀ u ∈ t.subtrees, u.headIsBare = true) :
    t.bare.start = t.start := by
  induction h with
  | leaf => rfl
  | @node role c ts hc hts inner ih =>
    obtain ⟨u, rest, rfl⟩ := List.exists_cons_of_ne_nil hts
    have hu : u.isComment = false := by
      simpa [Tree.headIsBare, children] using hbare _ (mem_subtrees_self _)
    rw [bare, bareOfList, hu]
    exact ih u (by simp) fun v hv => hbare v (mem_subtrees_of_mem_children (by simp) hv)

theorem IsFull.stop_bare (h : t.IsFull) (hbare : t.endsBare = true) : t.bare.stop = t.stop := by
  induction h with
  | leaf => rfl
  | @node role c ts hc hts inner ih =>
    obtain ⟨front, u, rfl⟩ := (List.eq_nil_or_concat' ts).resolve_left hts
    have hu : u.isComment = false := by simpa [children] using endsBare_getLast hbare
    have hends := endsBare_of_mem_subtrees hbare
      (mem_subtrees_of_mem_children (by simp) u.mem_subtrees_self)
    rw [bare, bareOfList_append_singleton front hu, stop, stop,
      stopOfList_eq _ u.bare (by simp), stopOfList_eq _ u (by simp)]
    exact ih u (by simp) hends

theorem IsFull.surrounds (h : t.IsFull) (horder : InOrder t.leaves)
    (hhead : ∀ u ∈ t.subtrees, u.headIsBare = true) (hend : t.endsBare = true)
    (ht : t.isComment = false) (hmem : comment ∈ t.leaves) (hcomment : comment.token = .comment) :
    t.Surrounds comment := by
  have hpos := horder.nonempty comment hmem
  constructor
  · obtain ⟨x, xs, hx⟩ := List.exists_cons_of_ne_nil h.leaves_ne_nil
    have hfirst : x ∈ t.leaves.head? := by simp [hx]
    have htoken := h.head_ne_comment hhead ht x hfirst
    have hle := h.start_le horder comment hmem
    rw [h.start_eq x hfirst] at hle
    refine ⟨x, List.mem_of_mem_head? hfirst, htoken, ?_⟩
    have hne : x ≠ comment := by
      rintro rfl
      exact htoken hcomment
    have := horder.apart_of_mem (List.mem_of_mem_head? hfirst) hmem hne
    omega
  · obtain ⟨xs, x, hx⟩ := (List.eq_nil_or_concat' t.leaves).resolve_left h.leaves_ne_nil
    have hlast : x ∈ t.leaves.getLast? := by simp [hx]
    have htoken := h.getLast_ne_comment hend ht x hlast
    have hle := h.le_stop horder comment hmem
    rw [h.stop_eq x hlast] at hle
    refine ⟨x, List.mem_of_getLast? hlast, htoken, ?_⟩
    have hne : x ≠ comment := by
      rintro rfl
      exact htoken hcomment
    have := horder.apart_of_mem (List.mem_of_getLast? hlast) hmem hne
    omega

theorem Surrounds.of_mem_subtrees (h : u.Surrounds comment) (hu : u ∈ t.subtrees) :
    t.Surrounds comment := by
  obtain ⟨⟨a, ha, hbefore⟩, b, hb, hbehind⟩ := h
  have hsubset := (isInfix_leaves hu).subset
  exact ⟨⟨a, hsubset ha, hbefore⟩, b, hsubset hb, hbehind⟩

/-- A comment between two leaves of a node is a leaf of the node, since there are no others between
these in the tree. -/
theorem Surrounds.mem_leaves (h : q.Surrounds comment) (horder : InOrder t.leaves)
    (hq : q ∈ t.subtrees) (hmem : comment ∈ t.leaves) : comment ∈ q.leaves := by
  obtain ⟨⟨a, ha, -, hbefore⟩, b, hb, -, hbehind⟩ := h
  obtain ⟨us, vs, hsplit⟩ := isInfix_leaves hq
  have hpos := horder.nonempty comment hmem
  rw [← hsplit, inOrder_append_iff, inOrder_append_iff] at horder
  obtain ⟨⟨-, hinner, hleft⟩, -, hright⟩ := horder
  have hapos := hinner.nonempty a ha
  have hbpos := hinner.nonempty b hb
  rw [← hsplit, List.mem_append, List.mem_append] at hmem
  rcases hmem with (hmem | hmem) | hmem
  · have := hleft comment hmem a ha
    omega
  · exact hmem
  · have := hright b (List.mem_append_right _ hb) comment hmem
    omega

/-- The parent of a comment lies in all nodes that surround the comment. -/
theorem Surrounds.mem_subtrees (h : q.Surrounds comment) (horder : InOrder t.leaves)
    (hq : q ∈ t.subtrees) (hp : p ∈ t.subtrees) (hchild : .leaf none comment ∈ p.children)
    (hrole : ∀ role, .leaf role comment ∈ t.subtrees → role = none) : p ∈ q.subtrees := by
  have hmem := h.mem_leaves horder hq (mem_leaves_of_mem_children hchild hp)
  obtain ⟨role, hleaf⟩ := mem_leaves_iff.mp hmem
  obtain rfl := hrole role (mem_subtrees_trans hq hleaf)
  rcases exists_parent hleaf with rfl | ⟨r, hr, hchild'⟩
  · obtain ⟨⟨a, ha, -, hle⟩, -⟩ := h
    obtain rfl := List.mem_singleton.mp ha
    have := horder.nonempty a (mem_leaves_of_mem_children hchild hp)
    omega
  · obtain rfl := eq_of_common_child horder.nodup hp (mem_subtrees_trans hq hr) hchild hchild'
    exact hr

theorem pairwise_stop_le_start (h : ∀ t ∈ ts, t.IsFull) (horder : InOrder (leavesOfList ts)) :
    ts.Pairwise fun a b => a.stop ≤ b.start := by
  induction ts with
  | nil => exact .nil
  | cons t rest ih =>
    rw [leavesOfList_cons, inOrder_append_iff] at horder
    obtain ⟨-, hrest, happart⟩ := horder
    refine List.pairwise_cons.mpr ⟨?_, ih (fun u hu => h u (by simp [hu])) hrest⟩
    intro u hu
    have htfull := h t (by simp)
    have hufull := h u (by simp [hu])
    obtain ⟨xs, x, hx⟩ := (List.eq_nil_or_concat' t.leaves).resolve_left htfull.leaves_ne_nil
    obtain ⟨y, ys, hy⟩ := List.exists_cons_of_ne_nil hufull.leaves_ne_nil
    rw [htfull.stop_eq x (by simp [hx]), hufull.start_eq y (by simp [hy])]
    apply happart x (by simp [hx])
    rw [leavesOfList_eq_flatMap]
    exact List.mem_flatMap.mpr ⟨u, hu, by simp [hy]⟩

end Tree

end HeyVL
