import HeyVL.Proofs.Grammar.Repetition
import HeyVL.Proofs.Tree.Replacing
import Mathlib.Data.List.TakeWhile

namespace HeyVL

open Production HeyVL.Tree

/-- Where a list without some elements is cut in three, the list itself is, and the part in the middle
neither begins nor ends with one that is left out. -/
theorem exists_split_of_filter {α : Type} {p : α → Bool} {l u v w : List α}
    (h : l.filter p = u ++ (v ++ w)) :
    ∃ a b c, l = a ++ (b ++ c) ∧ a.filter p = u ∧ b.filter p = v ∧ c.filter p = w ∧
      (∀ x ∈ b.head?, p x = true) ∧ ∀ x ∈ b.getLast?, p x = true := by
  have hafter {k vs : List α} {x : α} (h : k.filter p = x :: vs) :
      ∃ a c, k = a ++ x :: c ∧ a.filter p = [] ∧ p x = true ∧ c.filter p = vs := by
    obtain ⟨a, c, rfl, ha, hx, hc⟩ := List.filter_eq_cons_iff.mp h
    exact ⟨a, c, rfl, List.filter_eq_nil_iff.mpr ha, hx, hc⟩
  obtain ⟨a, m, rfl, ha, hm⟩ := List.filter_eq_append_iff.mp h
  cases v with
  | nil => exact ⟨a, [], m, rfl, ha, rfl, hm, nofun, nofun⟩
  | cons x v =>
    obtain ⟨a', m, rfl, ha', hx, hm⟩ := hafter hm
    rcases List.eq_nil_or_concat' v with rfl | ⟨v, y, rfl⟩
    · refine ⟨a ++ a', [x], m, by simp, by simp [ha, ha'], by simp [hx], hm, ?_, ?_⟩
      · simpa using hx
      · simpa using hx
    · have hm : m.filter p = v ++ (y :: w) := hm.trans (by simp)
      obtain ⟨b, m, rfl, hb, hm⟩ := List.filter_eq_append_iff.mp hm
      obtain ⟨b', c, rfl, hb', hy, hc⟩ := hafter hm
      refine ⟨a ++ a', x :: (b ++ b' ++ [y]), c, by simp, by simp [ha, ha'], by simp [hx, hb, hb', hy], hc,
        ?_, ?_⟩
      · simpa using hx
      · intro z hz
        rw [← List.cons_append, List.getLast?_concat] at hz
        exact Option.some.inj hz ▸ hy

namespace Crumb

/-- The place is in the list of the node, among its elements. -/
structure IsAmong (r : Repetition) (k : Crumb) : Prop where
  category_eq : k.category = r.category
  precedes : r.Precedes (labels k.before.reverse)
  follows : r.Follows (labels k.after)

/-- The list of the node stands in the place, from its first element to its last one. -/
structure HoldsList (r : Repetition) (k : Crumb) (xs : List Tree) : Prop where
  category_eq : k.category = r.category
  first : Expands (inOrder r.first) (labels k.before.reverse)
  elements : Expands (many r.item) (labels xs)
  last : Expands (inOrder r.last) (labels k.after)
  head : ∀ x ∈ xs.head?, x.isComment = false
  getLast : ∀ x ∈ xs.getLast?, x.isComment = false

/-- An element of the list of the node stands in the place. -/
structure HoldsElement (r : Repetition) (k : Crumb) (xs : List Tree) : Prop extends IsAmong r k where
  element : Expands r.item (labels xs)
  head : ∀ x ∈ xs.head?, x.isComment = false
  getLast : ∀ x ∈ xs.getLast?, x.isComment = false

variable {r : Repetition} {k : Crumb} {path : List Crumb} {t : Tree} {xs ys us vs : List Tree}

theorem HoldsList.isAmong (h : k.HoldsList r xs) : k.IsAmong r :=
  ⟨h.category_eq, Repetition.precedes_of_first h.first, Repetition.follows_of_last h.last⟩

theorem exists_holdsList (role : Option Field) {ts : List Tree}
    (h : r.category.production.Expands (labels ts)) :
    ∃ k xs, k.around xs = .node role r.category ts ∧ HoldsList r k xs := by
  rw [Repetition.production_eq] at h
  obtain ⟨u, _, hu, hrest, hlabels⟩ := expands_inOrder_append_iff.mp h
  obtain ⟨v, w, hv, hw, rfl⟩ := expands_inOrder_cons_iff.mp hrest
  obtain ⟨us, rest, hsplit, hus, hrest⟩ := List.map_eq_append_iff.mp hlabels.symm
  obtain ⟨vs, ws, rfl, hvs, hws⟩ := List.map_eq_append_iff.mp hrest
  obtain ⟨a, b, c, rfl, rfl, rfl, rfl, hhead, hgetLast⟩ := exists_split_of_filter hsplit
  refine ⟨⟨role, r.category, a.reverse, c⟩, b, by rw [around, List.reverse_reverse], rfl, ?_, ?_, ?_,
    ?_, ?_⟩
  · rw [List.reverse_reverse, Tree.labels, hus]
    exact hu
  · rw [Tree.labels, hvs]
    exact hv
  · rw [Tree.labels, hws]
    exact hw
  · simpa using hhead
  · simpa using hgetLast

/-- The place between some of the trees that are in another one. -/
def between (k : Crumb) (us vs : List Tree) : Crumb :=
  { k with before := us.reverse ++ k.before, after := vs ++ k.after }

theorem around_between (k : Crumb) (us vs ts : List Tree) :
    (k.between us vs).around ts = k.around (us ++ (ts ++ vs)) := by
  simp [around, between]

theorem front_between (k : Crumb) (us vs : List Tree) (path : List Crumb) :
    front (k.between us vs :: path) = front (k :: path) ++ leavesOfList us := by
  simp [front, between, leavesOfList_append]

theorem back_between (k : Crumb) (us vs : List Tree) (path : List Crumb) :
    back (k.between us vs :: path) = leavesOfList vs ++ back (k :: path) := by
  simp [back, between, leavesOfList_append]

theorem labels_before_bare (k : Crumb) :
    k.bare.before.reverse.map label = labels k.before.reverse := by
  rw [Crumb.bare, List.reverse_reverse, labels_eq]

theorem labels_after_bare (k : Crumb) : k.bare.after.map label = labels k.after :=
  (labels_eq k.after).symm

theorem IsAmong.isSyntax_fill_of_expands (hk : k.IsAmong r)
    (h : ∀ x ∈ fill (k.bare :: path.map Crumb.bare) xs, x.IsSyntax) (hys : ∀ y ∈ ys, y.IsSyntax)
    (hexpands : r.category.production.Expands
      (labels k.before.reverse ++ (ys.map label ++ labels k.after))) :
    ∀ x ∈ fill (k.bare :: path.map Crumb.bare) ys, x.IsSyntax := by
  have hold : ∀ x ∈ fill (path.map Crumb.bare) [k.bare.around xs], x.IsSyntax := h
  have haround := isSyntax_of_fill hold _ (List.mem_singleton_self _)
  have hcategory : k.bare.category = r.category := hk.category_eq
  have hlabels : k.bare.category.production.Expands
      ((k.bare.before.reverse ++ (ys ++ k.bare.after)).map label) := by
    rwa [hcategory, List.map_append, List.map_append, labels_before_bare, labels_after_bare]
  have hbinary : k.bare.category ≠ .binaryExpression := by
    rw [hcategory]
    cases r <;> exact Category.noConfusion
  have hunary : k.bare.category ≠ .unaryExpression := by
    rw [hcategory]
    cases r <;> exact Category.noConfusion
  obtain ⟨hnew, hloosens⟩ := haround.around_of_not_operator hys hbinary hunary hlabels
  have hfill : ∀ x ∈ fill (path.map Crumb.bare) [k.bare.around ys], x.IsSyntax :=
    Tree.isSyntax_fill hold hnew rfl hloosens (isNoSign_node _ _ _)
  exact hfill

theorem IsAmong.isSyntax_fill (hk : k.IsAmong r)
    (h : ∀ x ∈ fill (k.bare :: path.map Crumb.bare) xs, x.IsSyntax) (hys : ∀ y ∈ ys, y.IsSyntax)
    (hexpands : Expands (many r.item) (ys.map label)) :
    ∀ x ∈ fill (k.bare :: path.map Crumb.bare) ys, x.IsSyntax :=
  hk.isSyntax_fill_of_expands h hys (hk.precedes.expands (hk.follows.append hexpands))

/-- The node with other elements in its list. A procedure that is left without specifications and body
ends before the comments that stood before them, and these are behind it. -/
def settled (k : Crumb) (ys : List Tree) : List Tree :=
  if k.category = .procDeclaration ∧ ys.isEmpty ∧ k.after.isEmpty then
    { k with before := k.before.dropWhile isComment }.around [] ::
      (k.before.takeWhile isComment).reverse
  else [k.around ys]

theorem reverse_before (k : Crumb) : k.before.reverse =
    (k.before.dropWhile isComment).reverse ++ (k.before.takeWhile isComment).reverse := by
  rw [← List.reverse_append, List.takeWhile_append_dropWhile]

theorem leavesOfList_settled (k : Crumb) (ys : List Tree) :
    leavesOfList (k.settled ys) = (k.around ys).leaves := by
  rw [settled]
  split
  · next h =>
    obtain ⟨-, hys, hafter⟩ := h
    rw [List.isEmpty_iff] at hys hafter
    rw [leavesOfList_cons, leaves_around, leaves_around, hys, hafter, k.reverse_before, leavesOfList_append]
    simp [leavesOfList]
  · exact leavesOfList_singleton _

theorem bareOfList_settled (k : Crumb) (ys : List Tree) :
    bareOfList (k.settled ys) = [(k.around ys).bare] := by
  rw [settled]
  split
  · next h =>
    obtain ⟨-, hys, hafter⟩ := h
    have hcomments : bareOfList (k.before.takeWhile isComment).reverse = [] := by
      rw [bareOfList_eq, List.filter_eq_nil_iff.mpr, List.map_nil]
      intro t ht
      simp [List.all_eq_true.mp List.all_takeWhile t (List.mem_reverse.mp ht)]
    have hbefore : bareOfList k.before.reverse = bareOfList (k.before.dropWhile isComment).reverse := by
      rw [k.reverse_before, bareOfList_append, hcomments, List.append_nil]
    rw [List.isEmpty_iff] at hys hafter
    rw [bareOfList, around, isComment, kind_node, hys, hafter, hcomments]
    have hbare : (Tree.node k.role k.category (k.before.dropWhile isComment).reverse).bare =
        (Tree.node k.role k.category k.before.reverse).bare := by
      rw [Tree.bare, Tree.bare, hbefore]
    simpa [around, hafter] using hbare
  · exact bareOfList_singleton rfl

theorem HoldsList.dropWhile_ne_nil (hk : k.HoldsList r xs) (hr : r ≠ .declarations) :
    k.before.dropWhile isComment ≠ [] := by
  intro hnil
  have hall := List.dropWhile_eq_nil_iff.mp hnil
  have hnone : Tree.labels k.before.reverse = [] := by
    rw [Tree.labels, List.filter_eq_nil_iff.mpr, List.map_nil]
    intro t ht
    simp [hall t (List.mem_reverse.mp ht)]
  obtain ⟨v, x, hlabels, -⟩ := Repetition.exists_last_of_first hk.first hr
  rw [hnone] at hlabels
  simp at hlabels

/-- Only behind the list of a procedure there may be nothing. -/
theorem HoldsList.eq_specifications (hk : k.HoldsList r xs) (hr : r ≠ .declarations)
    (hafter : k.after = []) : r = .specifications := by
  have hlast := hk.last
  rw [hafter] at hlast
  cases r with
  | declarations => exact absurd rfl hr
  | specifications => rfl
  | items | statements => cases expands_token_iff.mp hlast

/-- The node with other elements in its list ends with no comment, nor do the nodes in it. -/
theorem isTrimmed_settled (h : (k.around xs).IsTrimmed) (hr : r ≠ .declarations)
    (hk : k.HoldsList r xs) (hys : ∀ y ∈ ys, y.IsTrimmed)
    (hlast : ∀ y ∈ ys.getLast?, y.isComment = false) : ∀ t ∈ k.settled ys, t.IsTrimmed := by
  have hne := hk.dropWhile_ne_nil hr
  have hsplit := k.reverse_before
  have hreverse : (k.before.dropWhile isComment).reverse ≠ [] := List.reverse_eq_nil_iff.not.mpr hne
  have hhead (ts : List Tree) : (k.before.reverse ++ ts).head? =
      (k.before.dropWhile isComment).reverse.head? := by
    rw [hsplit, List.append_assoc, List.head?_append_of_ne_nil _ hreverse]
  have hfirst : ∀ t ∈ (k.before.dropWhile isComment).reverse.head?, t.isComment = false := by
    cases h with
    | node _ _ _ head => exact hhead _ ▸ head
  rw [settled]
  split
  · next hcase =>
    -- The procedure ends before the comments, each of which is trimmed on its own.
    obtain ⟨-, -, hafter⟩ := hcase
    rw [List.isEmpty_iff] at hafter
    intro u hu
    rcases List.mem_cons.mp hu with rfl | hu
    · rw [around, hafter, List.append_nil, List.append_nil]
      cases h with
      | node _ hc _ _ _ inner =>
        refine .node _ hc hreverse hfirst (fun t ht => ?_) fun t ht => inner t ?_
        · rw [List.getLast?_reverse] at ht
          have hnot := List.head?_dropWhile_not isComment k.before
          rw [Option.mem_def.mp ht] at hnot
          simpa using hnot
        · rw [List.mem_append]
          exact .inl (hsplit ▸ List.mem_append_left _ ht)
    · cases h with
      | node _ _ _ _ _ inner =>
        refine inner u ?_
        rw [List.mem_append]
        exact .inl (hsplit ▸ List.mem_append_right _ hu)
  · next hcase =>
    intro u hu
    obtain rfl := List.mem_singleton.mp hu
    refine h.around_list hys (fun t ht => hfirst t (hhead _ ▸ ht)) ?_ ?_
    · by_cases hafter : k.after = []
      · have hne' : ys ≠ [] := by
          intro hnil
          refine hcase ⟨?_, by simp [hnil], by simp [hafter]⟩
          rw [hk.category_eq, hk.eq_specifications hr hafter]
          rfl
        rwa [hafter, List.append_nil, List.getLast?_append_of_ne_nil _ hne']
      · cases h with
        | node _ _ _ _ last =>
          rw [List.getLast?_append_of_ne_nil _ (List.append_ne_nil_of_right_ne_nil _ hafter),
            List.getLast?_append_of_ne_nil _ hafter] at last ⊢
          exact last
    · rw [hsplit, List.append_assoc]
      exact List.append_ne_nil_of_left_ne_nil hreverse _

/-- But for the comments at the end of the node, the tree is the same. -/
theorem eq_of_fill_settled {role : Option Field} {c : Category}
    (hus : fill path (k.settled ys) = [.node role c us]) (hvs : fill (k :: path) ys = [.node role c vs]) :
    bareOfList us = bareOfList vs ∧ leavesOfList us = leavesOfList vs := by
  have hvs' : fill path [k.around ys] = [.node role c vs] := hvs
  constructor
  · have hbare := bareOfList_fill path (k.settled ys)
    have haround : bareOfList [k.around ys] = [(k.around ys).bare] := bareOfList_singleton rfl
    rw [bareOfList_settled, ← haround, ← bareOfList_fill, hus, hvs', bareOfList_singleton rfl,
      bareOfList_singleton rfl, List.singleton_inj] at hbare
    exact (Tree.node.inj hbare).2.2
  · have hleaves := leavesOfList_fill path (k.settled ys)
    rw [leavesOfList_settled, ← leavesOfList_singleton (k.around ys), ← leavesOfList_fill, hus, hvs',
      leavesOfList_singleton, leavesOfList_singleton] at hleaves
    exact hleaves

theorem HoldsList.moved (hk : k.HoldsList r xs) (f g : Nat → Nat) :
    (k.moved f g).HoldsList r (xs.map (Tree.moved f g)) := by
  refine ⟨hk.category_eq, ?_, ?_, ?_, fun x hx => ?_, fun x hx => ?_⟩
  · rw [Crumb.moved, ← List.map_reverse, labels_map_moved]
    exact hk.first
  · rw [labels_map_moved]
    exact hk.elements
  · rw [Crumb.moved, labels_map_moved]
    exact hk.last
  · rw [List.head?_map] at hx
    obtain ⟨u, hu, rfl⟩ := Option.mem_map.mp hx
    rw [isComment_moved, hk.head u hu]
  · rw [List.getLast?_map] at hx
    obtain ⟨u, hu, rfl⟩ := Option.mem_map.mp hx
    rw [isComment_moved, hk.getLast u hu]

section Source

variable {root : Tree} (h : ∀ x ∈ root.children, x.IsTrimmed)

include h

theorem isTrimmed_around {k' : Crumb} (hfill : fill (k :: k' :: path) xs = [root]) :
    (k.around xs).IsTrimmed := by
  have hplace : fill (k' :: path) [k.around xs] = [root] := hfill
  exact isTrimmed_of_children h hplace _ (List.mem_singleton_self _)

theorem ne_declarations {k' : Crumb} (hfill : fill (k :: k' :: path) xs = [root])
    (hk : k.category = r.category) : r ≠ .declarations := by
  rintro rfl
  cases isTrimmed_around h hfill with
  | node _ hc => exact hc hk

theorem eq_sourceFile {k' : Crumb} (hfill : fill (k :: k' :: path) xs = [root])
    (htree : root.bare.IsSyntax) (hk : k.category = .procDeclaration) :
    k'.category = .sourceFile ∧ path = [] := by
  have hroot : bareOfList [root] = [root.bare] := by
    obtain ⟨role, c, hnode⟩ := exists_fill_cons k (k' :: path)
    obtain ⟨us, hus⟩ := hnode xs
    obtain rfl : root = .node role c us := by simpa [hfill] using hus
    exact bareOfList_singleton rfl
  have hbare := bareOfList_fill (k' :: path) [k.around xs]
  rw [show fill (k' :: path) [k.around xs] = [root] from hfill, hroot,
    bareOfList_singleton (t := k.around xs) rfl] at hbare
  have hparent : (k'.bare.around [(k.around xs).bare]).IsSyntax := by
    have hplace : ∀ x ∈ fill (path.map Crumb.bare) [k'.bare.around [(k.around xs).bare]], x.IsSyntax := by
      intro x hx
      have hx' : x ∈ [root.bare] := hbare ▸ hx
      exact List.mem_singleton.mp hx' ▸ htree
    exact isSyntax_of_fill hplace _ (List.mem_singleton_self _)
  have hcategory : k'.category = .sourceFile := by
    cases hparent with
    | node expands =>
      refine Repetition.eq_sourceFile_of_mem_labels
        (expands.mem_labels (k.around xs).bare.label (List.mem_map_of_mem (by simp))) ?_
      rw [label, kind_bare, Crumb.around, kind_node, hk]
  refine ⟨hcategory, ?_⟩
  cases path with
  | nil => rfl
  | cons k'' path =>
    have hplace : fill (k' :: k'' :: path) [k.around xs] = [root] := hfill
    cases isTrimmed_around h hplace with
    | node _ hc => exact absurd hcategory hc

theorem HoldsList.isTrimmed_children (hk : k.HoldsList r xs) (hfill : fill (k :: path) xs = [root])
    (htree : root.bare.IsSyntax) (hroot : root.kind = .category .sourceFile)
    (hys : ∀ y ∈ ys, y.IsTrimmed) (hlast : ∀ y ∈ ys.getLast?, y.isComment = false) :
    ∃ us, fill path (k.settled ys) = [.node root.role .sourceFile us] ∧ ∀ u ∈ us, u.IsTrimmed := by
  cases path with
  | nil =>
    obtain rfl : k.around xs = root := by simpa [fill] using hfill
    have hcategory : k.category = .sourceFile := by simpa [around] using hroot
    have hsettled : k.settled ys = [k.around ys] := if_neg fun hcase => by
      rw [hcategory] at hcase
      cases hcase.1
    refine ⟨k.before.reverse ++ (ys ++ k.after), ?_, fun u hu => ?_⟩
    · rw [hsettled, around, hcategory]
      rfl
    · rw [List.mem_append, List.mem_append] at hu
      rcases hu with hu | hu | hu
      · exact h u (mem_children_around_iff.mpr (.inl hu))
      · exact hys u hu
      · exact h u (mem_children_around_iff.mpr (.inr (.inr hu)))
  | cons k' path =>
    have hr := ne_declarations h hfill hk.category_eq
    have hsettled := isTrimmed_settled (isTrimmed_around h hfill) hr hk hys hlast
    by_cases hcase : k.category = .procDeclaration ∧ ys.isEmpty ∧ k.after.isEmpty
    · obtain ⟨hcategory, rfl⟩ := eq_sourceFile h hfill htree hcase.1
      obtain rfl : k'.around [k.around xs] = root := by simpa [fill] using hfill
      refine ⟨k'.before.reverse ++ (k.settled ys ++ k'.after), ?_, fun u hu => ?_⟩
      · rw [fill, fill, around, hcategory]
        rfl
      · rw [List.mem_append, List.mem_append] at hu
        rcases hu with hu | hu | hu
        · exact h u (mem_children_around_iff.mpr (.inl hu))
        · exact hsettled u hu
        · exact h u (mem_children_around_iff.mpr (.inr (.inr hu)))
    · have hone : k.settled ys = [k.around ys] := if_neg hcase
      rw [hone] at hsettled ⊢
      cases root with
      | leaf => cases hroot
      | node role c ts =>
        obtain rfl : c = .sourceFile := by simpa using hroot
        obtain ⟨us, hus⟩ := exists_fill_of_fill hfill ys
        have hold : fill (k' :: path) [k.around xs] = [.node role .sourceFile ts] := hfill
        exact ⟨us, hus, Tree.isTrimmed_children h hold hus (hsettled _ (List.mem_singleton_self _)) rfl⟩

end Source

end Crumb

end HeyVL
