import HeyVL.Proofs.Document.Splicing
import HeyVL.Proofs.Tree.Lists

namespace HeyVL

open Token Grammar Lexeme

/-- An element of a list in the tree of an accepted source. -/
structure Element (r : Repetition) where
  source : Bytes
  document : Document
  parse_eq : Document.parse source = .ok document
  path : List Crumb
  crumb : Crumb
  trees : List Tree
  fill_eq : Tree.fill (crumb :: path) trees = [document.root]
  element : crumb.HoldsElement r trees

namespace Element

variable {r : Repetition}

def start (x : Element r) : Nat := Tree.startOfList x.trees

def stop (x : Element r) : Nat := Tree.stopOfList x.trees

def text (x : Element r) : Bytes := x.source.slice x.start x.stop

/-- The element with its text at the given offset. -/
def placed (x : Element r) (offset : Nat) : List Tree :=
  x.trees.map (Tree.moved (carry x.start offset) (carry x.start offset))

/-- The texts of the elements, each with newlines around it. -/
def textOf : List (Element r) → Bytes
  | [] => []
  | x :: rest => 10 :: (x.text ++ 10 :: textOf rest)

/-- The elements with their texts, and the newlines, at the given offset. -/
def placedFrom (offset : Nat) : List (Element r) → List Tree
  | [] => []
  | x :: rest => x.placed (offset + 1) ++ placedFrom (offset + 1 + x.text.length + 1) rest

theorem trees_ne_nil (x : Element r) : x.trees ≠ [] := by
  intro hnil
  have helement := x.element.element
  rw [hnil] at helement
  have hnullable := Production.Expands.isNullable helement
  cases r <;> cases hnullable

theorem exists_built (x : Element r) : ∃ ls ts, x.document.Built ls ts ∧ x.document.source = x.source ∧
    x.document.HasSlot (x.crumb :: x.path) x.trees x.start x.stop := by
  obtain ⟨hsource, ls, ts, hbuilt⟩ := Document.exists_built x.parse_eq
  exact ⟨ls, ts, hbuilt, hsource, hbuilt.hasSlot_of_ne_nil x.fill_eq x.trees_ne_nil⟩

theorem isTrimmed_placed (x : Element r) (offset : Nat) : ∀ t ∈ x.placed offset, t.IsTrimmed := by
  obtain ⟨ls, ts, hbuilt, -, -⟩ := x.exists_built
  intro t ht
  obtain ⟨u, hu, rfl⟩ := List.mem_map.mp ht
  exact (Tree.isTrimmed_of_children hbuilt.isTrimmed x.fill_eq u hu).moved

theorem leavesOfList_placed (x : Element r) (offset : Nat) :
    Tree.leavesOfList (x.placed offset) = carried x.start offset (Tree.leavesOfList x.trees) :=
  Tree.leavesOfList_map_moved _ _ _

theorem inOrder_placed (x : Element r) (offset : Nat) :
    InOrder (Tree.leavesOfList (x.placed offset)) ∧ ∀ l ∈ Tree.leavesOfList (x.placed offset),
      offset ≤ l.start ∧ l.stop ≤ offset + x.text.length := by
  obtain ⟨ls, ts, hbuilt, hsource, hslot⟩ := x.exists_built
  have horder := Lexes.inOrder hbuilt.lexes
  rw [← hslot.leaves_eq hbuilt] at horder
  have hinner := (inOrder_append_iff.mp (inOrder_append_iff.mp horder).2.1).1
  rw [leavesOfList_placed, text, ← hsource, Bytes.length_slice _ _ hslot.stop_le]
  exact hinner.carried offset hslot.inside

theorem length_textOf_cons (x : Element r) (rest : List (Element r)) :
    (textOf (x :: rest)).length = 1 + x.text.length + 1 + (textOf rest).length := by
  rw [textOf, List.length_cons, List.length_append, List.length_cons]
  omega

theorem inOrder_placedFrom (elements : List (Element r)) (offset : Nat) :
    InOrder (Tree.leavesOfList (placedFrom offset elements)) ∧
      ∀ l ∈ Tree.leavesOfList (placedFrom offset elements),
        offset ≤ l.start ∧ l.stop ≤ offset + (textOf elements).length := by
  induction elements generalizing offset with
  | nil => exact ⟨⟨by simp [placedFrom, Tree.leavesOfList], .nil⟩, by simp [placedFrom, Tree.leavesOfList]⟩
  | cons x rest ih =>
    obtain ⟨hx, hxle⟩ := x.inOrder_placed (offset + 1)
    obtain ⟨hrest, hrestLe⟩ := ih (offset + 1 + x.text.length + 1)
    rw [placedFrom, Tree.leavesOfList_append, length_textOf_cons]
    refine ⟨inOrder_append_iff.mpr ⟨hx, hrest, fun a ha b hb => ?_⟩, fun l hl => ?_⟩
    · have := (hxle a ha).2
      have := (hrestLe b hb).1
      omega
    · rcases List.mem_append.mp hl with hl | hl
      · have := hxle l hl
        omega
      · have := hrestLe l hl
        omega

theorem labels_placed (x : Element r) (offset : Nat) :
    Production.Expands r.item (Tree.labels (x.placed offset)) := by
  rw [placed, Tree.labels_map_moved]
  exact x.element.element

theorem labels_placedFrom (elements : List (Element r)) (offset : Nat) :
    Production.Expands (.many r.item) (Tree.labels (placedFrom offset elements)) := by
  induction elements generalizing offset with
  | nil => exact .none _
  | cons x rest ih =>
    rw [placedFrom, Tree.labels_append]
    exact .again (x.labels_placed _) (ih _)

theorem isSyntax_trees (x : Element r) : ∀ t ∈ Tree.bareOfList x.trees, t.IsSyntax := by
  obtain ⟨ls, ts, hbuilt, -, hslot⟩ := x.exists_built
  exact Tree.isSyntax_of_fill (hslot.isSyntax_fill_bare hbuilt)

theorem isSyntax_placed (x : Element r) (offset : Nat) :
    ∀ t ∈ Tree.bareOfList (x.placed offset), t.IsSyntax := by
  intro t ht
  rw [placed, Tree.bareOfList_map_moved] at ht
  obtain ⟨u, hu, rfl⟩ := List.mem_map.mp ht
  exact (x.isSyntax_trees u hu).moved

theorem isSyntax_placedFrom (elements : List (Element r)) (offset : Nat) :
    ∀ t ∈ Tree.bareOfList (placedFrom offset elements), t.IsSyntax := by
  induction elements generalizing offset with
  | nil => exact nofun
  | cons x rest ih =>
    intro t ht
    rw [placedFrom, Tree.bareOfList_append, List.mem_append] at ht
    exact ht.elim (x.isSyntax_placed _ t) (ih _ t)

theorem isTrimmed_placedFrom (elements : List (Element r)) (offset : Nat) :
    ∀ t ∈ placedFrom offset elements, t.IsTrimmed := by
  induction elements generalizing offset with
  | nil => exact nofun
  | cons x rest ih =>
    intro t ht
    rw [placedFrom, List.mem_append] at ht
    exact ht.elim (x.isTrimmed_placed _ t) (ih _ t)

theorem getLast_placedFrom (elements : List (Element r)) (offset : Nat) :
    ∀ t ∈ (placedFrom offset elements).getLast?, t.isComment = false := by
  induction elements generalizing offset with
  | nil => exact nofun
  | cons x rest ih =>
    intro t ht
    rw [placedFrom, List.getLast?_append] at ht
    cases hlast : (placedFrom (offset + 1 + x.text.length + 1) rest).getLast? with
    | some u =>
      rw [hlast] at ht
      obtain rfl : u = t := by simpa using ht
      exact ih _ u hlast
    | none =>
      rw [hlast, Option.none_or, placed, List.getLast?_map] at ht
      obtain ⟨u, hu, rfl⟩ := Option.mem_map.mp ht
      rw [Tree.isComment_moved]
      exact x.element.getLast u hu

end Element

namespace Document

variable {d : Document} {ls : List Lexeme} {ts xs us zs ts' : List Tree} {path path' : List Crumb}
  {k k' : Crumb} {r : Repetition} {start stop : Nat}

/-- Elements are cut into the same lexemes in every place among elements. -/
theorem HasSlot.lexes_elements (hbuilt : d.Built ls ts) (h : d.HasSlot path xs start stop)
    (hxs : Production.Expands (.many r.item) (Tree.labels xs)) {v : Bytes} (offset : Nat)
    (hroot : Tree.fill (k' :: path') zs = [.node none .sourceFile ts'])
    (htree : ∀ x ∈ Tree.fill (k' :: path') (Tree.bareOfList xs), x.IsSyntax)
    (hnodup : (Tree.front (k' :: path') ++ Tree.back (k' :: path')).Nodup)
    (hv : ∀ b ∈ v.head?, Bytes.isBreak b = true)
    (hline : (∃ l ∈ Tree.leavesOfList xs, l.token = .comment ∧ l.stop = stop) → ∀ b ∈ v.head?, b = 10) :
    Lexes ((Tree.front (k' :: path')).map token) offset (d.source.slice start stop ++ v)
      (carried start offset (Tree.leavesOfList xs)) v := by
  refine h.lexes_in hbuilt offset hroot htree (Tree.leavesOfList_bareOfList xs) hnodup hv hline
    fun l hl htoken n root hfill hdisjoint => .inl ?_
  have hbare := h.fill_bare hbuilt
  rw [← hbuilt.bare_root] at hbare
  have hmem (role : Option Field) (c : Category) (us : List Tree)
      (hu : .node role c us ∈ Tree.subtreesOfList (Tree.bareOfList xs)) :
      ∃ role', .node role' c us ∈ d.root.bare.subtrees :=
    ⟨role, (Tree.mem_subtrees_iff_of_fill hbare).mpr (.inl hu)⟩
  -- Elements are neither identifiers nor calls.
  have hname : ∀ x ∈ Tree.bareOfList xs, (∀ role, x ≠ .leaf role l) ∧ ¬ x.Calls l := by
    intro x hx
    have hlabel : x.label ∈ Tree.labels xs := by
      rw [Tree.labels_eq]
      exact List.mem_map_of_mem hx
    obtain ⟨hidentifier, hcall⟩ := Repetition.not_name_of_item hxs hlabel
    constructor
    · rintro role rfl
      exact hidentifier (congrArg Kind.token htoken)
    · rintro ⟨role, args, rfl⟩
      exact hcall rfl
  exact ⟨fun h => h.of_inside hfill hdisjoint hl hname hmem,
    fun h => h.of_inside hfill hdisjoint hl hname hmem⟩

section Among

variable {vs : List Tree} (hk : k.IsAmong r)
  (hroot : Tree.fill (k.bare :: path.map Crumb.bare) zs = [.node none .sourceFile ts'])
  (htree : ∀ x ∈ Tree.fill (k.bare :: path.map Crumb.bare) zs, x.IsSyntax)
  (hus : ∀ u ∈ us, u.IsSyntax) (hexpands : Production.Expands (.many r.item) (us.map Tree.label))

include hk hroot htree hus hexpands

theorem lexes_placed (x : Element r) (offset : Nat) (rest : Bytes) (hvs : ∀ v ∈ vs, v.IsSyntax)
    (hexpands' : Production.Expands (.many r.item) (vs.map Tree.label))
    (hnodup : (Tree.front (k.bare :: path.map Crumb.bare) ++ (Tree.leavesOfList us ++
      (Tree.leavesOfList vs ++ Tree.back (k.bare :: path.map Crumb.bare)))).Nodup) :
    Lexes (tokensOf (Tree.front (k :: path)) ++ (Tree.leavesOfList us).map token) offset
      (x.text ++ 10 :: rest) (Tree.leavesOfList (x.placed offset)) (10 :: rest) := by
  obtain ⟨ls, ts, hbuilt, hsource, hslot⟩ := x.exists_built
  have hx := x.element.element.many_singleton
  have hfill (bs : List Tree) : Tree.fill (k.bare.between us vs :: path.map Crumb.bare) bs =
      Tree.fill (k.bare :: path.map Crumb.bare) (us ++ (bs ++ vs)) := by
    rw [Tree.fill, Crumb.around_between]
    rfl
  obtain ⟨ts'', hroot'⟩ := Tree.exists_fill_of_fill hroot (us ++ (Tree.bareOfList x.trees ++ vs))
  rw [← hfill] at hroot'
  have htree' : ∀ y ∈ Tree.fill (k.bare.between us vs :: path.map Crumb.bare)
      (Tree.bareOfList x.trees), y.IsSyntax := by
    rw [hfill]
    refine hk.isSyntax_fill htree (fun y hy => ?_) ?_
    · rw [List.mem_append, List.mem_append] at hy
      rcases hy with hy | hy | hy
      · exact hus y hy
      · exact x.isSyntax_trees y hy
      · exact hvs y hy
    · rw [Tree.labels_eq] at hx
      rw [List.map_append, List.map_append]
      exact hexpands.many_append (hx.many_append hexpands')
  have hnodup' : (Tree.front (k.bare.between us vs :: path.map Crumb.bare) ++
      Tree.back (k.bare.between us vs :: path.map Crumb.bare)).Nodup := by
    rwa [Crumb.front_between, Crumb.back_between, List.append_assoc]
  have htext : Lexes _ offset (_ ++ 10 :: rest) _ (10 :: rest) :=
    hslot.lexes_elements hbuilt hx offset hroot' htree' hnodup' (fun b hb => by cases hb; rfl)
      fun _ b hb => by cases hb; rfl
  rw [Crumb.front_between, List.map_append, ← List.map_cons, Tree.map_token_front, hsource,
    ← x.leavesOfList_placed] at htext
  exact htext

theorem lexes_placedFrom (elements : List (Element r)) (offset : Nat) (rest : Bytes)
    (hnodup : (Tree.front (k.bare :: path.map Crumb.bare) ++ (Tree.leavesOfList us ++
      (Tree.leavesOfList (Tree.bareOfList (Element.placedFrom offset elements)) ++
        Tree.back (k.bare :: path.map Crumb.bare)))).Nodup) :
    Lexes (tokensOf (Tree.front (k :: path)) ++ (Tree.leavesOfList us).map token) offset
      (Element.textOf elements ++ rest) (Tree.leavesOfList (Element.placedFrom offset elements))
      rest := by
  induction elements generalizing offset us with
  | nil => exact .stop _ _ _
  | cons x elements ih =>
    have hplaced := (x.labels_placed (offset + 1)).many_singleton
    have hlater := Element.labels_placedFrom elements (offset + 1 + x.text.length + 1)
    rw [Tree.labels_eq] at hplaced hlater
    rw [Element.placedFrom, Tree.bareOfList_append, Tree.leavesOfList_append, List.append_assoc]
      at hnodup
    have htext := lexes_placed hk hroot htree hus hexpands x (offset + 1)
      (Element.textOf elements ++ rest) (Element.isSyntax_placedFrom elements _) hlater
      (hnodup.sublist ((List.Sublist.refl _).append
        ((List.Sublist.refl _).append (List.sublist_append_right _ _))))
    have hbefore : ∀ y ∈ us ++ Tree.bareOfList (x.placed (offset + 1)), y.IsSyntax := by
      intro y hy
      rcases List.mem_append.mp hy with hy | hy
      · exact hus y hy
      · exact x.isSyntax_placed _ y hy
    have hrest := ih hbefore (by rw [List.map_append]; exact hexpands.many_append hplaced)
      (offset + 1 + x.text.length + 1)
      (by rw [Tree.leavesOfList_append, List.append_assoc]; exact hnodup)
    have htokens : (Tree.leavesOfList (us ++ Tree.bareOfList (x.placed (offset + 1)))).map token =
        (Tree.leavesOfList us).map token ++ tokensOf (Tree.leavesOfList (x.placed (offset + 1))) := by
      rw [Tree.leavesOfList_append, Tree.leavesOfList_bareOfList, List.map_append, tokensOf]
    have hlength : offset + 1 + ((x.text ++ 10 :: (Element.textOf elements ++ rest)).length -
        (10 :: (Element.textOf elements ++ rest) : Bytes).length) = offset + 1 + x.text.length := by
      rw [List.length_append, Nat.add_sub_cancel]
    rw [htokens, ← List.append_assoc] at hrest
    rw [Element.textOf, List.cons_append, List.append_assoc, List.cons_append, Element.placedFrom,
      Tree.leavesOfList_append]
    refine .space (by decide) (htext.append (.space (by decide) ?_))
    rw [hlength]
    exact hrest

end Among

end Document

end HeyVL
