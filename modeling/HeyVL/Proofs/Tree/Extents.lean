import HeyVL.Proofs.Event.Extents
import HeyVL.Proofs.Grammar.ChildLists
import HeyVL.Proofs.Tree.Placing

namespace HeyVL

open Lexeme

namespace Tree

/-- A tree in which every node has children. The source file, which may have none, is not part of
such a tree. -/
inductive IsFull : Tree → Prop
  | leaf (role : Option Field) (l : Lexeme) : IsFull (leaf role l)
  | node (role : Option Field) {c : Category} {ts : List Tree} (hc : c ≠ .sourceFile)
      (hts : ts ≠ []) (inner : ∀ t ∈ ts, IsFull t) : IsFull (node role c ts)

variable {t u : Tree} {ts : List Tree}

theorem leavesOfList_cons (t : Tree) (ts : List Tree) :
    leavesOfList (t :: ts) = t.leaves ++ leavesOfList ts := rfl

theorem IsFull.of_mem_subtrees (h : t.IsFull) (hu : u ∈ t.subtrees) : u.IsFull := by
  induction h with
  | leaf role l =>
    obtain rfl := List.mem_singleton.mp hu
    exact .leaf role l
  | @node role c ts hc hts inner ih =>
    rcases List.mem_cons.mp hu with rfl | hu
    · exact .node role hc hts inner
    · rw [subtreesOfList_eq_flatMap] at hu
      obtain ⟨v, hv, hu⟩ := List.mem_flatMap.mp hu
      exact ih v hv hu

theorem IsFull.leaves_ne_nil (h : t.IsFull) : t.leaves ≠ [] := by
  induction h with
  | leaf => simp [leaves]
  | @node role c ts hc hts inner ih =>
    obtain ⟨u, rest, rfl⟩ := List.exists_cons_of_ne_nil hts
    rw [leaves, leavesOfList_cons]
    intro hnil
    exact ih u (by simp) (List.append_eq_nil_iff.mp hnil).1

theorem IsFull.start_eq (h : t.IsFull) : ∀ l ∈ t.leaves.head?, t.start = l.start := by
  induction h with
  | leaf role l => simp [leaves, start]
  | @node role c ts hc hts inner ih =>
    obtain ⟨u, rest, rfl⟩ := List.exists_cons_of_ne_nil hts
    intro l hl
    rw [leaves, leavesOfList_cons, List.head?_append_of_ne_nil _ (inner u (by simp)).leaves_ne_nil] at hl
    rw [start, startOfList]
    exact ih u (by simp) l hl

theorem stopOfList_eq (ts : List Tree) : ∀ t ∈ ts.getLast?, stopOfList ts = t.stop := by
  induction ts with
  | nil => simp
  | cons t rest ih =>
    cases rest with
    | nil => simp [stopOfList]
    | cons u rest =>
      intro v hv
      rw [List.getLast?_cons_cons] at hv
      rw [stopOfList]
      exact ih v hv

theorem IsFull.stop_eq (h : t.IsFull) : ∀ l ∈ t.leaves.getLast?, t.stop = l.stop := by
  induction h with
  | leaf role l => simp [leaves, stop]
  | @node role c ts hc hts inner ih =>
    obtain ⟨front, u, rfl⟩ := (List.eq_nil_or_concat' ts).resolve_left hts
    intro l hl
    rw [leaves, leavesOfList_append, leavesOfList_singleton,
      List.getLast?_append_of_ne_nil _ (inner u (by simp)).leaves_ne_nil] at hl
    rw [stop, stopOfList_eq _ u (by simp)]
    exact ih u (by simp) l hl

theorem IsFull.start_le (h : t.IsFull) (horder : InOrder t.leaves) :
    ∀ l ∈ t.leaves, t.start ≤ l.start := by
  obtain ⟨x, xs, hx⟩ := List.exists_cons_of_ne_nil h.leaves_ne_nil
  rw [h.start_eq x (by simp [hx]), hx]
  rw [hx, inOrder_cons_iff] at horder
  intro l hl
  rcases List.mem_cons.mp hl with rfl | hl
  · exact Nat.le_refl _
  · have := horder.2.2 l hl
    omega

theorem IsFull.le_stop (h : t.IsFull) (horder : InOrder t.leaves) :
    ∀ l ∈ t.leaves, l.stop ≤ t.stop := by
  obtain ⟨xs, x, hx⟩ := (List.eq_nil_or_concat' t.leaves).resolve_left h.leaves_ne_nil
  rw [h.stop_eq x (by simp [hx]), hx]
  rw [hx, inOrder_append_iff] at horder
  obtain ⟨-, hlast, happart⟩ := horder
  have hpos := hlast.nonempty x (by simp)
  intro l hl
  rcases List.mem_append.mp hl with hl | hl
  · have := happart l hl x (by simp)
    omega
  · obtain rfl := List.mem_singleton.mp hl
    exact Nat.le_refl _

mutual

theorem isFull_placeIn {t : Tree} (h : t.IsFull) (comment : Lexeme) :
    (t.placeIn comment).IsFull := by
  cases t with
  | leaf role l => exact .leaf role l
  | node role c ts =>
    cases h with
    | node _ hc hts inner =>
      obtain ⟨u, us, hus⟩ := exists_cons_placeAmong comment ts
      refine .node role hc ?_ (isFull_of_mem_placeAmong inner comment)
      rw [hus]
      exact List.cons_ne_nil u us

theorem isFull_of_mem_placeAmong {ts : List Tree} (h : ∀ t ∈ ts, t.IsFull) (comment : Lexeme) :
    ∀ t ∈ placeAmong comment ts, t.IsFull := by
  cases ts with
  | nil =>
    intro t ht
    obtain rfl := List.mem_singleton.mp ht
    exact .leaf none comment
  | cons u rest =>
    have hrest : ∀ t ∈ rest, t.IsFull := fun t ht => h t (List.mem_cons_of_mem _ ht)
    rw [placeAmong]
    split
    · simpa using ⟨h u (by simp), isFull_of_mem_placeAmong hrest comment⟩
    · split
      · simpa using ⟨isFull_placeIn (h u (by simp)) comment, hrest⟩
      · simpa using ⟨.leaf none comment, h u (by simp), hrest⟩

end

mutual

theorem leaves_placeIn {t : Tree} {comment : Lexeme} {us vs : List Lexeme} (h : t.IsFull)
    (horder : InOrder (us ++ comment :: vs))
    (hleaves : t.leaves = us ++ vs) (hus : us ≠ []) (hvs : vs ≠ []) :
    (t.placeIn comment).leaves = us ++ comment :: vs := by
  cases t with
  | leaf role l =>
    have hlength := congrArg List.length hleaves
    have hupos := List.length_pos_of_ne_nil hus
    have hvpos := List.length_pos_of_ne_nil hvs
    rw [leaves, List.length_append, List.length_singleton] at hlength
    omega
  | node role c ts =>
    cases h with
    | node _ _ _ inner => exact leavesOfList_placeAmong inner horder hleaves

theorem leavesOfList_placeAmong {ts : List Tree} {comment : Lexeme} {us vs : List Lexeme}
    (h : ∀ t ∈ ts, t.IsFull) (horder : InOrder (us ++ comment :: vs)) (hleaves : leavesOfList ts = us ++ vs) :
    leavesOfList (placeAmong comment ts) = us ++ comment :: vs := by
  cases ts with
  | nil =>
    obtain ⟨rfl, rfl⟩ := List.append_eq_nil_iff.mp hleaves.symm
    rfl
  | cons t rest =>
    have ht := h t (by simp)
    obtain ⟨x, xs, hx⟩ := List.exists_cons_of_ne_nil ht.leaves_ne_nil
    obtain ⟨ys, y, hy⟩ := (List.eq_nil_or_concat' t.leaves).resolve_left ht.leaves_ne_nil
    have hstart := ht.start_eq x (by simp [hx])
    have hstop := ht.stop_eq y (by simp [hy])
    obtain ⟨-, hrest, happart⟩ := inOrder_append_iff.mp horder
    obtain ⟨hcomment, -, hbehind⟩ := inOrder_cons_iff.mp hrest
    have hbefore : ∀ l ∈ us, l.stop ≤ comment.start := fun l hl => happart l hl comment (by simp)
    have hsplit := hleaves
    rw [leavesOfList_cons, List.append_eq_append_iff] at hsplit
    rw [placeAmong]
    split
    · next hle =>
      -- All leaves of the first tree are before the comment.
      obtain ⟨ws, rfl, hrest⟩ : ∃ ws, us = t.leaves ++ ws ∧ leavesOfList rest = ws ++ vs := by
        rcases hsplit with hsplit | ⟨ws, hws, rfl⟩
        · exact hsplit
        · rcases List.eq_nil_or_concat' ws with rfl | ⟨zs, z, rfl⟩
          · exact ⟨[], by simpa using hws.symm, rfl⟩
          · rw [hy, ← List.append_assoc] at hws
            obtain rfl : y = z := by simpa using (List.append_inj' hws rfl).2
            have := hbehind y (by simp)
            have := horder.nonempty y (by simp)
            omega
      rw [List.append_assoc] at horder
      have hplaced := leavesOfList_placeAmong (fun u hu => h u (by simp [hu]))
        (horder.sublist (List.sublist_append_right _ _)) hrest
      rw [leavesOfList_cons, hplaced, List.append_assoc]
    · next hlt =>
      split
      · next hstarts =>
        -- The first leaf of the first tree is before the comment and the last one is behind it.
        obtain ⟨ws, hws, rfl⟩ : ∃ ws, t.leaves = us ++ ws ∧ vs = ws ++ leavesOfList rest := by
          rcases hsplit with ⟨ws, rfl, hrest⟩ | hsplit
          · have := hbefore y (by simp [hy])
            omega
          · exact hsplit
        have hus : us ≠ [] := by
          rintro rfl
          rw [List.nil_append] at hws
          have := hbehind x (by simp [← hws, hx])
          omega
        have hwsne : ws ≠ [] := by
          rintro rfl
          rw [List.append_nil] at hws
          have := hbefore y (by simp [← hws, hy])
          omega
        have hinner : InOrder (us ++ comment :: ws) := by
          apply horder.sublist
          simp
        rw [leavesOfList_cons, leaves_placeIn ht hinner hws hus hwsne]
        simp
      · next hstarts =>
        obtain rfl : us = [] := by
          cases us with
          | nil => rfl
          | cons z zs =>
            rw [leavesOfList_cons, hx] at hleaves
            obtain rfl : x = z := (List.cons.inj hleaves).1
            have := hbefore x (by simp)
            have := horder.nonempty x (by simp)
            omega
        rw [leavesOfList_cons, hleaves]
        rfl

end

/-- All comments are placed where they stand among the leaves. -/
theorem leavesOfList_placeAll {cs ls : List Lexeme} {ts : List Tree} (h : ∀ t ∈ ts, t.IsFull)
    (hls : InOrder ls) (hleaves : InOrder (leavesOfList ts))
    (hperm : (leavesOfList ts ++ cs).Perm ls) :
    leavesOfList (placeAll cs ts) = ls ∧ ∀ t ∈ placeAll cs ts, t.IsFull := by
  induction cs generalizing ts with
  | nil =>
    rw [List.append_nil] at hperm
    exact ⟨hleaves.eq_of_perm hls hperm, h⟩
  | cons c cs ih =>
    have hc : c ∈ ls := hperm.subset (by simp)
    have hnodup := hperm.nodup_iff.mpr hls.nodup
    have hsplit : ∃ us vs, leavesOfList ts = us ++ vs ∧ InOrder (us ++ c :: vs) := by
      apply hleaves.exists_split (hls.nonempty c hc)
      intro l hl
      apply hls.apart_of_mem (hperm.subset (by simp [hl])) hc
      rintro rfl
      exact (List.nodup_append.mp hnodup).2.2 l hl l (by simp) rfl
    obtain ⟨us, vs, hsplit, horder⟩ := hsplit
    have hplaced := leavesOfList_placeAmong h horder hsplit
    apply ih (isFull_of_mem_placeAmong h c)
    · rwa [hplaced]
    · rw [hplaced]
      rw [hsplit] at hperm
      refine List.Perm.trans ?_ hperm
      simpa using List.perm_middle.symm.append_left us

theorem IsSyntax.isFull (h : t.IsSyntax) (hkind : t.kind ≠ .category .sourceFile) : t.IsFull := by
  induction h with
  | leaf role h => exact .leaf role _
  | @node role c ts expands _ inner ih =>
    have hc : c ≠ .sourceFile := fun hc => hkind (by rw [kind_node, hc])
    refine .node role hc ?_ fun u hu => ih u hu ?_
    · rintro rfl
      have hempty := expands.isNullable
      rw [Category.isNullable_production hc] at hempty
      cases hempty
    · exact Category.ne_sourceFile_of_mem_labels (expands.mem_labels _ (List.mem_map_of_mem hu))

theorem IsSyntax.isFull_of_mem {role : Option Field} {c : Category}
    (h : (Tree.node role c ts).IsSyntax) (ht : t ∈ ts) : t.IsFull := by
  cases h with
  | node expands _ inner =>
    apply (inner t ht).isFull
    exact Category.ne_sourceFile_of_mem_labels (expands.mem_labels _ (List.mem_map_of_mem ht))

end Tree

end HeyVL
