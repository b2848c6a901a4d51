import HeyVL.Proofs.Document.Rewriting
import HeyVL.Proofs.Tree.Surrounding

namespace HeyVL

open Token Grammar Lexeme

namespace Bytes

theorem foldl_advance_congr {bytes bytes' : Bytes}
    (h : bytes.map (· == 10) = bytes'.map (· == 10)) (p : Point) :
    bytes.foldl Point.advance p = bytes'.foldl Point.advance p := by
  induction bytes generalizing bytes' p with
  | nil =>
    obtain rfl := List.map_eq_nil_iff.mp h.symm
    rfl
  | cons b bytes ih =>
    obtain ⟨b', bytes', rfl, hb, hbytes⟩ := List.map_eq_cons_iff.mp h.symm
    have hstep : p.advance b = p.advance b' := by
      rw [Point.advance, Point.advance]
      by_cases hnewline : b = 10
      · rw [if_pos hnewline, if_pos (by simpa [hnewline] using hb)]
      · rw [if_neg hnewline, if_neg (by simpa [hnewline] using hb)]
    rw [List.foldl_cons, List.foldl_cons, hstep]
    exact ih hbytes.symm _

theorem pointAt_congr {bytes bytes' : Bytes} (h : bytes.map (· == 10) = bytes'.map (· == 10))
    (offset : Nat) : bytes.pointAt offset = bytes'.pointAt offset := by
  rw [pointAt, pointAt]
  apply foldl_advance_congr
  rw [List.map_take, List.map_take, h]

end Bytes

namespace Tree

/-- The node has the comment as its child. It is the deepest node that surrounds the comment, or the
root if none does. -/
structure IsParent (root : Tree) (comment : Lexeme) (parent : Tree) : Prop where
  mem : parent ∈ root.subtrees
  only : ∀ t ∈ root.subtrees, .leaf none comment ∈ t.children ↔ t = parent
  around : parent.Surrounds comment ∨ parent = root ∧ ∀ t ∈ root.subtrees, ¬ t.Surrounds comment
  deepest : ∀ t ∈ root.subtrees, t.Surrounds comment → parent ∈ t.subtrees

end Tree

namespace Document

variable {d d' : Document} {t : Tree} {ls : List Lexeme} {ts : List Tree} {c : Lexeme}

/-- The source with blanks in the place of its comments. Newlines are kept. -/
def blanked (d : Document) : Bytes :=
  d.source.mapIdx fun i b =>
    if b ≠ 10 ∧ ∃ l ∈ d.root.leaves, l.token = .comment ∧ l.start ≤ i ∧ i < l.stop then 32 else b

theorem Built.mem_subtreesOfList (h : d.Built ls ts) (ht : t ∈ d.root.subtrees) :
    t = d.root ∨ t ∈ Tree.subtreesOfList d.root.children := by
  rw [h.root_eq] at ht ⊢
  exact List.mem_cons.mp ht

theorem Built.headIsBare (h : d.Built ls ts) (ht : t ∈ Tree.subtreesOfList d.root.children) :
    t.headIsBare = true := by
  rw [h.root_eq] at ht
  refine Tree.headIsBare_placeAll (fun u hu => ?_) t ht
  exact (h.isSyntax.of_mem_subtrees (List.mem_cons_of_mem _ hu)).headIsBare

theorem Built.endsBare (h : d.Built ls ts) (ht : t ∈ Tree.subtreesOfList d.root.children) :
    t.endsBare = true := by
  rw [h.root_eq] at ht
  have hroot := h.isSyntax.endsBare
  rw [Tree.endsBare, Bool.and_eq_true] at hroot
  exact Tree.endsBare_of_mem_subtreesOfList (Tree.endBare_placeAll hroot.2) ht

theorem Built.inOrder (h : d.Built ls ts) : InOrder d.root.leaves := by
  rw [h.leaves_root]
  exact Lexes.inOrder h.lexes

theorem mem_subtreesOfList_of_mem_subtrees {u : Tree} {us : List Tree}
    (ht : t ∈ Tree.subtreesOfList us) (hu : u ∈ t.subtrees) : u ∈ Tree.subtreesOfList us := by
  rw [Tree.mem_subtreesOfList_iff] at ht ⊢
  obtain ⟨v, hv, ht⟩ := ht
  exact ⟨v, hv, Tree.mem_subtrees_trans ht hu⟩

theorem Built.surrounds (h : d.Built ls ts) (ht : t ∈ Tree.subtreesOfList d.root.children)
    (htoken : t.isComment = false) (hc : c ∈ t.leaves) (hcomment : c.token = .comment) :
    t.Surrounds c := by
  have hmem : t ∈ d.root.subtrees := by
    rw [h.root_eq] at ht ⊢
    exact List.mem_cons_of_mem _ ht
  have horder := h.inOrder.sublist (Tree.isInfix_leaves hmem).sublist
  refine (h.isFull ht).surrounds horder (fun u hu => ?_) (h.endsBare ht) htoken hc hcomment
  exact h.headIsBare (mem_subtreesOfList_of_mem_subtrees ht hu)

theorem Built.exists_isParent (h : d.Built ls ts) (hc : c ∈ onlyComments ls) :
    ∃ parent, d.root.IsParent c parent := by
  obtain ⟨hmem, hcomment⟩ := mem_onlyComments_iff.mp hc
  rw [← h.leaves_root] at hmem
  have hrole (role : Option Field) (hleaf : .leaf role c ∈ d.root.subtrees) : role = none := by
    have hnone := h.role_of_isComment hleaf (by simp [Tree.isComment, hcomment])
    exact hnone
  obtain ⟨role, hleaf⟩ := Tree.mem_leaves_iff.mp hmem
  obtain rfl := hrole role hleaf
  rcases Tree.exists_parent hleaf with hroot | ⟨p, hp, hchild⟩
  · rw [h.root_eq] at hroot
    cases hroot
  · refine ⟨p, hp, ?_, ?_, ?_⟩
    · intro t ht
      constructor
      · intro hother
        exact Tree.eq_of_common_child h.inOrder.nodup ht hp hother hchild
      · rintro rfl
        exact hchild
    · rcases h.mem_subtreesOfList hp with rfl | hinner
      · by_cases hroot : d.root.Surrounds c
        · exact .inl hroot
        · exact .inr ⟨rfl, fun t ht ht' => hroot (ht'.of_mem_subtrees ht)⟩
      · left
        have htoken : p.isComment = false := by
          cases p with
          | leaf => cases hchild
          | node => rfl
        exact h.surrounds hinner htoken
          (Tree.mem_leaves_of_mem_children hchild p.mem_subtrees_self) hcomment
    · intro t ht hsurrounds
      exact hsurrounds.mem_subtrees h.inOrder ht hp hchild hrole

theorem getElem?_blanked (d : Document) (i : Nat) :
    d.blanked[i]? = d.source[i]?.map fun b =>
      if b ≠ 10 ∧ ∃ l ∈ d.root.leaves, l.token = .comment ∧ l.start ≤ i ∧ i < l.stop then 32
      else b := by
  rw [blanked, List.getElem?_mapIdx]

theorem length_blanked (d : Document) : d.blanked.length = d.source.length := by
  rw [blanked, List.length_mapIdx]

theorem getElem?_of_blanked {i : Nat} {b : UInt8} (h : d.blanked[i]? = some b)
    (hb : Bytes.isSpace b = false) : d.source[i]? = some b := by
  rw [getElem?_blanked] at h
  obtain ⟨a, ha, heq⟩ := Option.map_eq_some_iff.mp h
  split at heq
  · subst heq
    cases hb
  · rw [ha, heq]

theorem getElem?_blanked_of_not_comment {i : Nat}
    (h : ∀ l ∈ d.root.leaves, l.token = .comment → ¬ (l.start ≤ i ∧ i < l.stop)) :
    d.blanked[i]? = d.source[i]? := by
  rw [getElem?_blanked]
  cases d.source[i]? with
  | none => rfl
  | some b =>
    rw [Option.map_some, if_neg]
    rintro ⟨-, l, hl, hcomment, hi⟩
    exact h l hl hcomment hi

theorem isSpace_blanked {i : Nat} {b : UInt8} (h : d.blanked[i]? = some b)
    (hc : c ∈ d.root.leaves) (hcomment : c.token = .comment) (hi : c.start ≤ i ∧ i < c.stop) :
    Bytes.isSpace b = true := by
  rw [getElem?_blanked] at h
  obtain ⟨a, -, heq⟩ := Option.map_eq_some_iff.mp h
  split at heq
  · subst heq
    rfl
  · next hnot =>
    have ha : a = 10 := by
      by_contra hne
      exact hnot ⟨hne, c, hc, hcomment, hi⟩
    rw [← heq, ha]
    rfl

theorem pointAt_blanked (d : Document) (offset : Nat) :
    d.blanked.pointAt offset = d.source.pointAt offset := by
  apply Bytes.pointAt_congr
  apply List.ext_getElem?
  intro i
  rw [List.getElem?_map, List.getElem?_map, getElem?_blanked]
  cases d.source[i]? with
  | none => rfl
  | some b =>
    rw [Option.map_some, Option.map_some, Option.map_some]
    split
    · next hb => simp [hb.1]
    · rfl

theorem Built.lexesTo_blanked (h : d.Built ls ts) : LexesTo d.blanked (significant ls) [] := by
  have hleaves := h.leaves_root
  have horder := h.inOrder
  have hwithin := h.lexes.within
  rw [hleaves] at horder
  -- No comment is over another lexeme or over the byte order mark.
  have hkept {l : Lexeme} (hl : l ∈ significant ls) {i : Nat} (hi : l.start ≤ i ∧ i < l.stop) :
      d.blanked[i]? = d.source[i]? := by
    obtain ⟨hl, htoken⟩ := mem_significant_iff.mp hl
    apply getElem?_blanked_of_not_comment
    intro c hc hcomment
    rw [hleaves] at hc
    have hne : l ≠ c := by
      rintro rfl
      exact htoken hcomment
    have := horder.apart_of_mem hl hc hne
    omega
  apply LexesTo.of_taken d.source
  · apply List.ext_getElem?
    intro i
    rw [List.getElem?_take, List.getElem?_take]
    split
    · apply getElem?_blanked_of_not_comment
      intro c hc _
      rw [hleaves] at hc
      have := hwithin c hc
      omega
    · rfl
  · rw [length_blanked]
    exact markLength_le d.source
  · exact horder.sublist List.filter_sublist
  · intro l hl
    exact (hwithin l (mem_significant_iff.mp hl).1).1
  · intro us l vs hsplit
    have hl : l ∈ significant ls := by simp [hsplit]
    have hpos := horder.nonempty l (mem_significant_iff.mp hl).1
    have hslice : d.blanked.slice l.start l.stop = d.source.slice l.start l.stop := by
      apply List.ext_getElem?
      intro i
      rw [Bytes.getElem?_slice, Bytes.getElem?_slice]
      split
      · exact hkept hl (by omega)
      · rfl
    have htoken : tokensOf us = us.map token := by
      rw [tokensOf, significant_eq_self]
      intro m hm
      have hmem : m ∈ significant ls := by simp [hsplit, hm]
      exact (mem_significant_iff.mp hmem).2
    rw [htoken, Bytes.drop_eq_slice_append _ hpos.le, hslice]
    apply (h.lexes.takenAt hsplit).of_agree
    apply Bytes.isPrefix_takeWhile
    intro i b hi hb
    rw [List.getElem?_drop] at hi ⊢
    exact getElem?_of_blanked hi hb
  · intro i b hi hb hnone
    by_cases hcomment : ∃ c ∈ ls, c.token = .comment ∧ c.start ≤ i ∧ i < c.stop
    · obtain ⟨c, hc, hcomment, hplace⟩ := hcomment
      exact isSpace_blanked hb (by rwa [hleaves]) hcomment hplace
    · have hsame : d.blanked[i]? = d.source[i]? := by
        apply getElem?_blanked_of_not_comment
        intro c hc htoken hplace
        rw [hleaves] at hc
        exact hcomment ⟨c, hc, htoken, hplace⟩
      rw [hsame] at hb
      refine (h.lexes.isSpace_of_uncovered hb fun l hl hplace => ?_).resolve_right (by omega)
      by_cases htoken : l.token = .comment
      · exact hcomment ⟨l, hl, htoken, hplace⟩
      · exact hnone l (mem_significant_iff.mpr ⟨hl, htoken⟩) hplace

theorem Built.parse_blanked (h : d.Built ls ts) :
    parse d.blanked = .ok ⟨d.blanked, d.root.bare⟩ := by
  have hcomments : ∀ l ∈ significant ls, l.token ≠ .comment :=
    fun l hl => (mem_significant_iff.mp hl).2
  have hparse := parse_eq_ok h.lexesTo_blanked h.isSyntax
    (h.leaves_eq.trans (significant_eq_self hcomments).symm)
  rw [hparse, onlyComments_eq_nil hcomments, h.bare_root]
  rfl

theorem startOf_eq_start (h : t.kind ≠ .category .sourceFile) : d.startOf t = t.start := by
  cases t with
  | leaf => rfl
  | node role c ts => cases c <;> first | rfl | exact absurd rfl h

theorem stopOf_eq_stop (h : t.kind ≠ .category .sourceFile) : d.stopOf t = t.stop := by
  cases t with
  | leaf => rfl
  | node role c ts => cases c <;> first | rfl | exact absurd rfl h

theorem kind_ne_sourceFile (h : t.IsFull) : t.kind ≠ .category .sourceFile := by
  cases h with
  | leaf => simp
  | node role hc => simpa using hc

theorem rowOf_bare (d d' : Document) (h : t.IsFull) (hhead : ∀ u ∈ t.subtrees, u.headIsBare = true)
    (hend : t.endsBare = true) (place : Nat → Point) (depth : Nat) :
    d'.rowOf place depth t.bare = d.rowOf place depth t := by
  have hkind := kind_ne_sourceFile h
  have hbare : t.bare.kind ≠ .category .sourceFile := by rwa [Tree.kind_bare]
  rw [rowOf, rowOf, Tree.role_bare, Tree.kind_bare, startOf_eq_start hbare, stopOf_eq_stop hbare,
    h.start_bare hhead, h.stop_bare hend, startOf_eq_start hkind, stopOf_eq_stop hkind]

theorem filter_cons_rowOf (ht : t.isComment = false) (place : Nat → Point) (depth : Nat)
    (rows : List Row) :
    (d.rowOf place depth t :: rows).filter (·.kind != .token .comment) =
      d.rowOf place depth t :: rows.filter (·.kind != .token .comment) := by
  apply List.filter_cons_of_pos
  rw [Tree.isComment] at ht
  rw [rowOf, bne, ht]
  rfl

theorem filter_rows_comment (ht : t.isComment = true) (place : Nat → Point) (depth : Nat) :
    (d.rows place depth t).filter (·.kind != .token .comment) = [] := by
  cases t with
  | leaf role l =>
    apply List.filter_cons_of_neg
    rw [Tree.isComment] at ht
    rw [rowOf, bne, ht]
    decide
  | node => cases ht

theorem rowsOfList_bare {place : Nat → Point} {depth : Nat} {us : List Tree}
    (h : ∀ u ∈ us, u.isComment = false →
      d'.rows place depth u.bare = (d.rows place depth u).filter (·.kind != .token .comment)) :
    d'.rowsOfList place depth (Tree.bareOfList us) =
      (d.rowsOfList place depth us).filter (·.kind != .token .comment) := by
  induction us with
  | nil => rfl
  | cons u us ih =>
    have hrest := ih fun v hv => h v (by simp [hv])
    rw [rowsOfList, List.filter_append, Tree.bareOfList, ← hrest]
    cases hcomment : u.isComment with
    | true =>
      rw [filter_rows_comment hcomment]
      rfl
    | false =>
      rw [← h u (by simp) hcomment]
      rfl

theorem rows_bare (h : t.IsFull) (hhead : ∀ u ∈ t.subtrees, u.headIsBare = true)
    (hend : t.endsBare = true) (ht : t.isComment = false) (place : Nat → Point) (depth : Nat) :
    d'.rows place depth t.bare =
      (d.rows place depth t).filter (·.kind != .token .comment) := by
  have hrow := rowOf_bare d d' h hhead hend place depth
  induction h generalizing depth with
  | leaf role l =>
    rw [rows, filter_cons_rowOf ht, ← hrow]
    rfl
  | @node role c us hc hus inner ih =>
    rw [rows, filter_cons_rowOf ht, ← hrow, Tree.bare, rows]
    refine congrArg _ (rowsOfList_bare fun u hu hcomment => ?_)
    have hends : u.endsBare = true :=
      Tree.endsBare_of_mem_subtrees hend (Tree.mem_subtrees_of_mem_children hu u.mem_subtrees_self)
    have hheads : ∀ v ∈ u.subtrees, v.headIsBare = true :=
      fun v hv => hhead v (Tree.mem_subtrees_of_mem_children hu hv)
    exact ih u hu hheads hends hcomment _ (rowOf_bare d d' (inner u hu) hheads hends place _)

/-- Without the comments the outline keeps all other rows, except that the source file starts with
its first token. -/
theorem Built.outline_blanked (h : d.Built ls ts) (hd' : d' = ⟨d.blanked, d.root.bare⟩) :
    d'.outline = (d.outline.filter (·.kind != .token .comment)).modifyHead fun r =>
      { r with start := d'.startOf d'.root, first := d'.source.pointAt (d'.startOf d'.root) } := by
  have hplace : d'.source.pointAt = d.source.pointAt := by
    funext offset
    rw [hd']
    exact pointAt_blanked d offset
  have hlength : d'.source.length = d.source.length := by
    rw [hd']
    exact length_blanked d
  have hrows : d'.rowsOfList d.source.pointAt (0 + 1) (Tree.bareOfList d.root.children) =
      (d.rowsOfList d.source.pointAt (0 + 1) d.root.children).filter (·.kind != .token .comment) := by
    apply rowsOfList_bare
    intro u hu hcomment
    have hmem : ∀ v ∈ u.subtrees, v ∈ Tree.subtreesOfList d.root.children :=
      fun v hv => Tree.mem_subtreesOfList_iff.mpr ⟨u, hu, hv⟩
    exact rows_bare (h.isFull (hmem u u.mem_subtrees_self)) (fun v hv => h.headIsBare (hmem v hv))
      (h.endsBare (hmem u u.mem_subtrees_self)) hcomment _ _
  obtain ⟨us, hus⟩ : ∃ us, d.root = .node none .sourceFile us := ⟨_, h.root_eq⟩
  rw [hus, Tree.children] at hrows
  have hroot : d'.root = .node none .sourceFile (Tree.bareOfList us) := by
    rw [hd', hus]
    rfl
  rw [outline_eq_rows, outline_eq_rows, hplace, hroot, hus, rows, rows, filter_cons_rowOf rfl,
    List.modifyHead_cons, hrows]
  simp only [rowOf, stopOf, hlength]
  rfl

/-- The comments among the lexemes are in their places in the tree, and without them the source has
the same tree otherwise. -/
structure HasPlaced (d : Document) (ls : List Lexeme) : Prop where
  once : ∀ c ∈ onlyComments ls, d.root.leaves.count c = 1
  roleless : ∀ c ∈ onlyComments ls, ∀ role, .leaf role c ∈ d.root.subtrees → role = none
  parent : ∀ c ∈ onlyComments ls, ∃ parent, d.root.IsParent c parent
  inOrder : ∀ t ∈ d.root.subtrees, t.children.Pairwise fun a b => d.stopOf a ≤ d.startOf b
  /-- No comment is the first or the last child of a node other than the source file. -/
  inner : ∀ t ∈ Tree.subtreesOfList d.root.children, ∀ u,
    u ∈ t.children.head? ∨ u ∈ t.children.getLast? → u.isComment = false
  blanked : ∃ d', parse d.blanked = .ok d' ∧ d'.root = d.root.bare ∧
    d'.outline = (d.outline.filter (·.kind != .token .comment)).modifyHead fun r =>
      { r with start := d'.startOf d'.root, first := d'.source.pointAt (d'.startOf d'.root) }

theorem Built.pairwise_children (h : d.Built ls ts) (ht : t ∈ d.root.subtrees) :
    t.children.Pairwise fun a b => d.stopOf a ≤ d.startOf b := by
  have hfull : ∀ u ∈ t.children, u.IsFull := by
    intro u hu
    rcases h.mem_subtreesOfList ht with rfl | ht
    · exact h.leavesOfList_children.2 u hu
    · exact (h.isFull ht).of_mem_subtrees (Tree.mem_subtrees_of_mem hu)
  have horder : InOrder (Tree.leavesOfList t.children) := by
    have hleaves := h.inOrder.sublist (Tree.isInfix_leaves ht).sublist
    cases t with
    | leaf => exact ⟨by simp [Tree.children, Tree.leavesOfList], .nil⟩
    | node => exact hleaves
  refine (Tree.pairwise_stop_le_start hfull horder).imp_of_mem fun ha hb hle => ?_
  rwa [stopOf_eq (hfull _ ha), startOf_eq (hfull _ hb)]

theorem exists_hasPlaced_of_parse (source : Bytes) (d : Document) (h : parse source = .ok d) :
    ∃ ls, LexesTo source ls [] ∧ d.HasPlaced ls := by
  obtain ⟨rfl, ls, ts, hbuilt⟩ := exists_built h
  refine ⟨ls, hbuilt.lexes, ?_, ?_, ?_, ?_, ?_, ?_⟩
  · intro c hc
    rw [hbuilt.leaves_root]
    exact List.count_eq_one_of_mem (Lexes.inOrder hbuilt.lexes).nodup (mem_onlyComments_iff.mp hc).1
  · intro c hc role hleaf
    have hnone := hbuilt.role_of_isComment hleaf
      (by simp [Tree.isComment, (mem_onlyComments_iff.mp hc).2])
    exact hnone
  · intro c hc
    exact hbuilt.exists_isParent hc
  · intro t ht
    exact hbuilt.pairwise_children ht
  · rintro t ht u (hu | hu)
    · have hhead := hbuilt.headIsBare ht
      rw [Tree.headIsBare, Option.all_eq_true] at hhead
      simpa using hhead u hu
    · have hlast := Tree.endsBare_getLast (hbuilt.endsBare ht)
      rw [Option.all_eq_true] at hlast
      simpa using hlast u hu
  · exact ⟨_, hbuilt.parse_blanked, rfl, hbuilt.outline_blanked rfl⟩

theorem exists_hasPlaced_of_call :
    ∃ source d, source = Bytes.ofText "proc p(/* a */) -> () \x7b f(x // b\n) /* c */ \x7d // d" ∧
      parse source = .ok d ∧ ∃ ls, LexesTo source ls [] ∧ d.HasPlaced ls := by
  obtain ⟨d, hd⟩ := isOk_parse_iff.mp
    (show (parse (Bytes.ofText
      "proc p(/* a */) -> () \x7b f(x // b\n) /* c */ \x7d // d")).isOk = true by decide +kernel)
  exact ⟨_, d, rfl, hd, exists_hasPlaced_of_parse _ d hd⟩

end Document

end HeyVL
