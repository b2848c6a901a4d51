import HeyVL.Document.Edit
import HeyVL.Proofs.Document.Comments
import HeyVL.Proofs.Event.Cutting
import HeyVL.Proofs.Event.Transfer
import HeyVL.Proofs.Expectation.Carrying

/-!
Splicing a source. When the text of a slot is replaced and what is new there is cut into lexemes, what is
before and behind it is cut as before, and the tree has the new nodes in the slot.
-/

namespace HeyVL

open Token Grammar Lexeme

namespace Lexes

variable {before : List Token} {offset n : Nat} {bytes : Bytes} {ls : List Lexeme}

theorem skip (h : Lexes before offset bytes ls []) (hn : n ≤ bytes.length)
    (hls : ∀ l ∈ ls, offset + n ≤ l.start) : Lexes before (offset + n) (bytes.drop n) ls [] := by
  induction n generalizing offset bytes with
  | zero => exact h
  | succ n ih =>
    have hoffset : offset + (n + 1) = offset + 1 + n := by omega
    cases h with
    | stop => cases hn
    | space hb h =>
      rw [hoffset]
      exact ih h (Nat.le_of_succ_le_succ hn) (by rwa [← hoffset])
    | lexeme =>
      have hstart : offset + (n + 1) ≤ offset := hls _ List.mem_cons_self
      omega

end Lexes

namespace Lexeme

theorem viable_of_derivable {us vs : List Lexeme} {l : Lexeme}
    (h : Derivable (tokensOf (us ++ l :: vs))) :
    l.token = .comment ∨ Viable (tokensOf us) l.token := by
  by_cases hl : l.token = .comment
  · exact .inl hl
  · refine .inr ⟨tokensOf vs, ?_⟩
    have htokens : tokensOf (l :: vs) = l.token :: tokensOf vs := by simp [tokensOf, significant, hl]
    rwa [tokensOf_append, htokens] at h

end Lexeme

namespace Edit

/-- Where a token begins after the edit that began at `n` before it. -/
def startAfter (e : Edit) (n : Nat) : Nat :=
  if n < e.start then n else e.start + e.inserted.length + (n - e.stop)

/-- Where a token ends after the edit that ended at `n` before it. -/
def stopAfter (e : Edit) (n : Nat) : Nat :=
  if n ≤ e.start then n else e.start + e.inserted.length + (n - e.stop)

variable {e : Edit} {ls : List Lexeme}

theorem map_moved_before (h : ∀ l ∈ ls, l.start < l.stop ∧ l.stop ≤ e.start) :
    ls.map (Lexeme.moved e.startAfter e.stopAfter) = ls := by
  refine (List.map_congr_left fun l hl => ?_).trans (List.map_id ls)
  obtain ⟨hpos, hstop⟩ := h l hl
  rw [Lexeme.moved, startAfter, stopAfter, if_pos (by omega), if_pos hstop]
  rfl

theorem moved_before {t : Tree} (h : ∀ l ∈ t.leaves, l.start < l.stop ∧ l.stop ≤ e.start) :
    t.moved e.startAfter e.stopAfter = t := by
  refine (Tree.moved_congr fun l hl => ?_).trans (Tree.moved_id t)
  obtain ⟨hpos, hstop⟩ := h l hl
  rw [startAfter, stopAfter, if_pos (by omega), if_pos hstop]
  exact ⟨rfl, rfl⟩

theorem map_moved_behind (hle : e.start ≤ e.stop)
    (h : ∀ l ∈ ls, l.start < l.stop ∧ e.stop ≤ l.start) :
    ls.map (Lexeme.moved e.startAfter e.stopAfter) =
      carried e.stop (e.start + e.inserted.length) ls := by
  refine List.map_congr_left fun l hl => ?_
  obtain ⟨hpos, hstart⟩ := h l hl
  rw [Lexeme.moved, Lexeme.moved, startAfter, stopAfter, if_neg (by omega), if_neg (by omega), carry,
    carry]

end Edit

namespace Document

variable {d : Document} {source : Bytes} {us vs ls : List Lexeme} {ts xs ys : List Tree} {n : Nat}
  {path : List Crumb} {k : Crumb} {e : Edit}

theorem LexesTo.behind (h : LexesTo source (us ++ vs) []) (hmark : markLength source ≤ n)
    (hn : n ≤ source.length) (hus : ∀ l ∈ us, l.stop ≤ n) (hvs : ∀ l ∈ vs, n ≤ l.start) :
    Lexes (tokensOf us) n (source.drop n) vs [] := by
  rcases List.eq_nil_or_concat' us with rfl | ⟨us, l, rfl⟩
  · have hoffset : markLength source + (n - markLength source) = n := by omega
    have hskip := Lexes.skip (n := n - markLength source) h (by rw [List.length_drop]; omega)
      (by rwa [hoffset])
    rwa [List.drop_drop, hoffset] at hskip
  · rw [List.append_assoc, List.singleton_append] at h
    have hstop := hus l (by simp)
    have hoffset : l.stop + (n - l.stop) = n := by omega
    have hskip := Lexes.skip (n := n - l.stop) h.exists_taken.2 (by rw [List.length_drop]; omega)
      (by rwa [hoffset])
    rwa [List.drop_drop, hoffset] at hskip

theorem Built.isTrimmed (h : d.Built ls ts) : ∀ t ∈ d.root.children, t.IsTrimmed := by
  intro t ht
  have hbelow {u : Tree} (hu : u ∈ t.subtrees) : u ∈ Tree.subtreesOfList d.root.children :=
    Tree.mem_subtreesOfList_iff.mpr ⟨t, ht, hu⟩
  have hself := hbelow t.mem_subtrees_self
  refine (h.isFull hself).isTrimmed (fun u hu => h.headIsBare (hbelow hu)) (h.endsBare hself) ?_
  intro role l hl htoken
  refine h.role_of_isComment (t := .leaf role l) ?_ (by simp [Tree.isComment, htoken])
  exact Tree.mem_subtrees_trans (Tree.mem_subtrees_of_mem ht) hl

theorem Built.isTrimmed_moved (h : d.Built ls ts) (f g : Nat → Nat) :
    ∀ t ∈ (d.root.moved f g).children, t.IsTrimmed := by
  intro t ht
  rw [Tree.children_moved] at ht
  obtain ⟨u, hu, rfl⟩ := List.mem_map.mp ht
  exact (h.isTrimmed u hu).moved

/-- A source that is cut into the leaves of a tree of the language is read as this tree, if no comment
is at an end of a node. -/
theorem parse_eq_ok_of_trimmed (hlexes : LexesTo source (Tree.leavesOfList ts) [])
    (htree : (Tree.node none .sourceFile (Tree.bareOfList ts)).IsSyntax)
    (htrimmed : ∀ t ∈ ts, t.IsTrimmed) :
    parse source = .ok ⟨source, .node none .sourceFile ts⟩ := by
  have hleaves := Tree.leavesOfList_bareOfList ts
  have hparse := parse_eq_ok hlexes htree hleaves
  have hbuilt : Built ⟨source, .node none .sourceFile
      (Tree.placeAll (onlyComments (Tree.leavesOfList ts)) (Tree.bareOfList ts))⟩
      (Tree.leavesOfList ts) (Tree.bareOfList ts) := ⟨hlexes, htree, hleaves, rfl⟩
  have hplaced : Tree.placeAll (onlyComments (Tree.leavesOfList ts)) (Tree.bareOfList ts) = ts :=
    Tree.eq_of_bareOfList_eq hbuilt.isTrimmed htrimmed (Tree.node.inj hbuilt.bare_root).2.2
      hbuilt.leavesOfList_children.1
  rw [hparse, hplaced]

/-- The place of an edit in the tree of a document: the nodes around the place, and what is in it. -/
structure HasSlot (d : Document) (path : List Crumb) (xs : List Tree) (start stop : Nat) : Prop where
  fill_eq : Tree.fill path xs = [d.root]
  front_le : ∀ l ∈ Tree.front path, l.stop ≤ start
  inside : ∀ l ∈ Tree.leavesOfList xs, start ≤ l.start ∧ l.stop ≤ stop
  le_back : ∀ l ∈ Tree.back path, stop ≤ l.start
  le : start ≤ stop
  mark_le : markLength d.source ≤ start
  stop_le : stop ≤ d.source.length

namespace HasSlot

variable {start stop : Nat}

theorem leaves_eq (hbuilt : d.Built ls ts) (h : d.HasSlot path xs start stop) :
    Tree.front path ++ (Tree.leavesOfList xs ++ Tree.back path) = ls := by
  rw [← Tree.leavesOfList_fill, h.fill_eq, Tree.leavesOfList_singleton, hbuilt.leaves_root]

theorem fill_bare (hbuilt : d.Built ls ts) (h : d.HasSlot path xs start stop) :
    Tree.fill (path.map Crumb.bare) (Tree.bareOfList xs) = [.node none .sourceFile ts] := by
  rw [← Tree.bareOfList_fill, h.fill_eq, ← hbuilt.bare_root]
  refine Tree.bareOfList_singleton ?_
  rw [hbuilt.root_eq]
  rfl

theorem isSyntax_fill_bare (hbuilt : d.Built ls ts) (h : d.HasSlot path xs start stop) :
    ∀ x ∈ Tree.fill (path.map Crumb.bare) (Tree.bareOfList xs), x.IsSyntax := by
  rw [h.fill_bare hbuilt]
  intro x hx
  exact List.mem_singleton.mp hx ▸ hbuilt.isSyntax

theorem nodup_around (hbuilt : d.Built ls ts) (h : d.HasSlot path xs start stop) :
    (Tree.front (path.map Crumb.bare) ++ Tree.back (path.map Crumb.bare)).Nodup := by
  have hnodup := (Lexes.inOrder hbuilt.lexes).nodup
  rw [← h.leaves_eq hbuilt] at hnodup
  rw [Tree.front_map_bare, Tree.back_map_bare, significant, significant, ← List.filter_append]
  exact hnodup.sublist (List.filter_sublist.trans
    ((List.Sublist.refl _).append (List.sublist_append_right _ _)))

theorem exists_fill_moved (hbuilt : d.Built ls ts) (h : d.HasSlot (k :: path) xs start stop) (e : Edit)
    (ys : List Tree) :
    ∃ ts', Tree.fill ((k :: path).map (Crumb.moved e.startAfter e.stopAfter)) ys =
      [.node none .sourceFile ts'] := by
  have hold := congrArg (List.map (Tree.moved e.startAfter e.stopAfter)) h.fill_eq
  rw [Tree.map_moved_fill, hbuilt.root_eq, List.map_singleton, Tree.moved_node] at hold
  exact Tree.exists_fill_of_fill hold ys

theorem front_moved (hbuilt : d.Built ls ts) (h : d.HasSlot path xs e.start e.stop) :
    Tree.front (path.map (Crumb.moved e.startAfter e.stopAfter)) = Tree.front path := by
  have horder := Lexes.inOrder hbuilt.lexes
  rw [← h.leaves_eq hbuilt] at horder
  rw [Tree.front_map_moved]
  exact Edit.map_moved_before fun l hl => ⟨horder.nonempty l (by simp [hl]), h.front_le l hl⟩

theorem back_moved (hbuilt : d.Built ls ts) (h : d.HasSlot path xs e.start e.stop) :
    Tree.back (path.map (Crumb.moved e.startAfter e.stopAfter)) =
      carried e.stop (e.start + e.inserted.length) (Tree.back path) := by
  have horder := Lexes.inOrder hbuilt.lexes
  rw [← h.leaves_eq hbuilt] at horder
  rw [Tree.back_map_moved]
  exact Edit.map_moved_behind h.le fun l hl => ⟨horder.nonempty l (by simp [hl]), h.le_back l hl⟩

theorem inOrder_spliced (hbuilt : d.Built ls ts) (h : d.HasSlot path xs e.start e.stop)
    (hus : InOrder us) (hle : ∀ l ∈ us, e.start ≤ l.start ∧ l.stop ≤ e.start + e.inserted.length) :
    InOrder (Tree.front (path.map (Crumb.moved e.startAfter e.stopAfter)) ++
      (us ++ Tree.back (path.map (Crumb.moved e.startAfter e.stopAfter)))) := by
  have hlex := hbuilt.lexes
  rw [← h.leaves_eq hbuilt] at hlex
  obtain ⟨hfront, hrest, -⟩ := inOrder_append_iff.mp (Lexes.inOrder hlex)
  have hwithin : ∀ l ∈ Tree.back path, e.stop ≤ l.start ∧ l.stop ≤ d.source.length := fun l hl =>
    ⟨h.le_back l hl, (hlex.within l (by simp [hl])).2⟩
  obtain ⟨hback, hbackLe⟩ := (inOrder_append_iff.mp hrest).2.1.carried (e.start + e.inserted.length)
    hwithin
  rw [h.front_moved hbuilt, h.back_moved hbuilt]
  refine inOrder_append_iff.mpr ⟨hfront, inOrder_append_iff.mpr ⟨hus, hback, fun a ha b hb => ?_⟩,
    fun a ha b hb => (h.front_le a ha).trans ?_⟩
  · exact (hle a ha).2.trans (hbackLe b hb).1
  · rcases List.mem_append.mp hb with hb | hb
    · exact (hle b hb).1
    · exact (Nat.le_add_right _ _).trans (hbackLe b hb).1

/-- Behind a slot, a word is reserved in the place of an identifier only if it was before something
else was in the slot. -/
theorem viable_behind (hbuilt : d.Built ls ts) (h : d.HasSlot (k :: path) xs start stop)
    (htree : ∀ x ∈ Tree.fill ((k :: path).map Crumb.bare) (Tree.bareOfList ys), x.IsSyntax)
    (hys : (Tree.leavesOfList ys).Nodup)
    (hne : path ≠ [] → Tree.leavesOfList k.bare.before.reverse ++
      Tree.leavesOfList (Tree.bareOfList ys) ≠ [])
    (hslot : ∀ between r l after, k.bare.after = between ++ .leaf r l :: after →
      l.token = .identifier →
      k.category.production.Expands
        ((k.bare.before.reverse ++ (Tree.bareOfList ys ++ between)).map Tree.label ++
          (r, .category .literal) :: after.map Tree.label) →
      k.category.production.Expands
        ((k.bare.before.reverse ++ (Tree.bareOfList xs ++ between)).map Tree.label ++
          (r, .category .literal) :: after.map Tree.label))
    {us vs : List Lexeme} {l : Lexeme} (hback : Tree.back (k :: path) = us ++ l :: vs)
    (hl : l.token = .identifier) {w : Token} (hreserved : w.isReserved = true)
    (hw : Viable (tokensOf (Tree.front (k :: path) ++ (Tree.leavesOfList ys ++ us))) w) :
    Viable (tokensOf (Tree.front (k :: path) ++ (Tree.leavesOfList xs ++ us))) w := by
  have hfill := h.fill_bare hbuilt
  have hleaves := h.leaves_eq hbuilt
  have hnodup : ls.Nodup := (Lexes.inOrder hbuilt.lexes).nodup
  have hsignificant (ms : List Lexeme) : significant (ms ++ l :: vs) =
      significant ms ++ l :: significant vs := by simp [significant, hl]
  have hbackBare : Tree.back ((k :: path).map Crumb.bare) = significant us ++ l :: significant vs := by
    rw [Tree.back_map_bare, hback, hsignificant]
  -- The new nodes get leaves that are nowhere else in the tree.
  obtain ⟨n, hdisjoint⟩ : ∃ n, (Tree.front ((k :: path).map Crumb.bare) ++
      ((Tree.leavesOfList (Tree.bareOfList ys)).map (delayed n) ++
        Tree.back ((k :: path).map Crumb.bare))).Nodup := by
    apply exists_nodup_inside
    · rw [Tree.front_map_bare, Tree.back_map_bare, significant, significant, ← List.filter_append]
      rw [← hleaves] at hnodup
      exact hnodup.sublist (List.filter_sublist.trans
        ((List.Sublist.refl _).append (List.sublist_append_right _ _)))
    · rw [Tree.leavesOfList_bareOfList]
      exact hys.sublist List.filter_sublist
  have hdelayed := Tree.isSyntax_fill_moved htree id id (· + n) (· + n)
  rw [Tree.map_moved_id] at hdelayed
  obtain ⟨ts', hfill', htree', hleaves'⟩ := Tree.exists_sourceFile hfill hdelayed
  have hnew : Tree.leavesOfList ts' = (Tree.front ((k :: path).map Crumb.bare) ++
      ((Tree.leavesOfList (Tree.bareOfList ys)).map (delayed n) ++ significant us)) ++
        l :: significant vs := by
    rw [List.map_cons] at hbackBare ⊢
    rw [hleaves', Tree.leavesOfList_map_moved, hbackBare]
    simp only [List.append_assoc]
    rfl
  have hold : Tree.leavesOfList ts =
      significant (Tree.front (k :: path) ++ (Tree.leavesOfList xs ++ us)) ++ l :: significant vs := by
    rw [hbuilt.leaves_eq, ← hleaves, hback, ← hsignificant]
    simp only [List.append_assoc]
  have htokens : (Tree.front ((k :: path).map Crumb.bare) ++
      ((Tree.leavesOfList (Tree.bareOfList ys)).map (delayed n) ++ significant us)).map token =
        tokensOf (Tree.front (k :: path) ++ (Tree.leavesOfList ys ++ us)) := by
    rw [Tree.front_map_bare, Tree.leavesOfList_bareOfList, List.map_append, List.map_append,
      map_token_delayed, tokensOf_append, tokensOf_append]
    rfl
  have hnodupOld : (significant ls).Nodup := hnodup.sublist List.filter_sublist
  rw [← hbuilt.leaves_eq, hold] at hnodupOld
  rw [← htokens] at hw
  have hmem : l ∈ Tree.back (k.bare :: path.map Crumb.bare) := by
    rw [← List.map_cons, hbackBare]
    simp
  have hdisjoint' : (Tree.front (k.bare :: path.map Crumb.bare) ++ (Tree.leavesOfList
      ((Tree.bareOfList ys).map (Tree.moved (· + n) (· + n))) ++
        Tree.back (k.bare :: path.map Crumb.bare))).Nodup := by
    rw [Tree.leavesOfList_map_moved]
    exact hdisjoint
  have hne' : path.map Crumb.bare ≠ [] → Tree.leavesOfList k.bare.before.reverse ++
      Tree.leavesOfList ((Tree.bareOfList ys).map (Tree.moved (· + n) (· + n))) ≠ [] := by
    rw [Tree.leavesOfList_map_moved]
    simpa using hne
  refine Tree.viable_of_positions htree' hnew ?_ hl hbuilt.isSyntax hold hnodupOld hl hreserved hw
    (fun hplace => ?_) fun hplace => ?_
  · rw [← hnew, hleaves']
    exact hdisjoint'
  · refine hplace.of_behind hfill' hfill hdisjoint' hmem hne' fun between r after hafter hexpands => ?_
    refine hslot between r l after hafter hl ?_
    rw [List.map_append, List.map_append, Tree.map_label_map_moved] at hexpands
    rw [List.map_append, List.map_append]
    exact hexpands
  · exact hplace.of_behind hfill' hfill hdisjoint' hmem hne' rfl

/-- In the nodes that come from another source, a word is reserved in the place of an identifier only if
it was there, when the identifier is in the same position in both trees. -/
theorem viable_inside (hbuilt : d.Built ls ts) (h : d.HasSlot path xs start stop)
    {path' : List Crumb} {k' : Crumb} {zs ts' : List Tree}
    (hroot : Tree.fill (k' :: path') zs = [.node none .sourceFile ts'])
    (htree : ∀ x ∈ Tree.fill (k' :: path') ys, x.IsSyntax)
    (hys : Tree.leavesOfList ys = significant (Tree.leavesOfList xs))
    (hnodup : (Tree.front (k' :: path') ++ Tree.back (k' :: path')).Nodup)
    {us vs : List Lexeme} {l : Lexeme} (hxs : Tree.leavesOfList xs = us ++ l :: vs)
    (hl : l.token = .identifier)
    (hplaces : ∀ n root, Tree.fill ((k' :: path').map (Crumb.moved (· + n) (· + n))) ys = [root] →
      (Tree.front ((k' :: path').map (Crumb.moved (· + n) (· + n))) ++ (Tree.leavesOfList ys ++
        Tree.back ((k' :: path').map (Crumb.moved (· + n) (· + n))))).Nodup →
      ((root.InExpression l → d.root.bare.InExpression l) ∧
          (root.StartsStatement l → d.root.bare.StartsStatement l)) ∨
        root.InExpression l ∧ d.root.bare.InExpression l)
    {w : Token} (hreserved : w.isReserved = true)
    (hw : Viable ((Tree.front (k' :: path')).map token ++ tokensOf us) w) :
    Viable (tokensOf (Tree.front path ++ us)) w := by
  have hleaves := h.leaves_eq hbuilt
  have hnodupOld : (significant ls).Nodup :=
    (Lexes.inOrder hbuilt.lexes).nodup.sublist List.filter_sublist
  have hsplit : significant (Tree.leavesOfList xs) = significant us ++ l :: significant vs := by
    rw [hxs]
    simp [significant, hl]
  -- The new tree is moved away from the leaves that come from the other source.
  have hysNodup : (Tree.leavesOfList ys).Nodup := by
    rw [hys]
    rw [← hleaves, significant, List.filter_append, List.filter_append] at hnodupOld
    exact hnodupOld.sublist ((List.sublist_append_left _ _).trans (List.sublist_append_right _ _))
  obtain ⟨n, hdisjoint⟩ := exists_nodup_around hnodup hysNodup
  have hmoved := congrArg (List.map (Tree.moved (· + n) (· + n))) hroot
  rw [Tree.map_moved_fill, List.map_singleton, Tree.moved_node] at hmoved
  have hdelayed := Tree.isSyntax_fill_moved htree (· + n) (· + n) id id
  have hid : ys.map (Tree.moved id id) = ys :=
    (List.map_congr_left fun t _ => Tree.moved_id t).trans (List.map_id _)
  rw [hid] at hdelayed
  obtain ⟨ts'', hfill, htree', hleaves'⟩ := Tree.exists_sourceFile hmoved hdelayed
  have hfront := Tree.front_map_moved (· + n) (· + n) (k' :: path')
  have hback := Tree.back_map_moved (· + n) (· + n) (k' :: path')
  have hnodup' : (Tree.front ((k' :: path').map (Crumb.moved (· + n) (· + n))) ++
      (Tree.leavesOfList ys ++ Tree.back ((k' :: path').map (Crumb.moved (· + n) (· + n))))).Nodup := by
    rw [hfront, hback]
    exact hdisjoint
  have hnew : Tree.leavesOfList ts'' = (Tree.front ((k' :: path').map (Crumb.moved (· + n) (· + n))) ++
      significant us) ++ l :: (significant vs ++
        Tree.back ((k' :: path').map (Crumb.moved (· + n) (· + n)))) := by
    rw [List.map_cons, hleaves', hys, hsplit]
    simp only [List.append_assoc, List.cons_append]
  have hold : Tree.leavesOfList ts = significant (Tree.front path ++ us) ++
      l :: (significant vs ++ significant (Tree.back path)) := by
    rw [hbuilt.leaves_eq, ← hleaves, hxs]
    simp [significant, hl]
  have htokens : (Tree.front ((k' :: path').map (Crumb.moved (· + n) (· + n))) ++
      significant us).map token = (Tree.front (k' :: path')).map token ++ tokensOf us := by
    rw [hfront, List.map_append]
    exact congrArg (· ++ tokensOf us) (map_token_delayed n _)
  rw [← htokens] at hw
  rw [← hbuilt.leaves_eq, hold] at hnodupOld
  have hnodupNew : ((Tree.front ((k' :: path').map (Crumb.moved (· + n) (· + n))) ++
      significant us) ++ l :: (significant vs ++
        Tree.back ((k' :: path').map (Crumb.moved (· + n) (· + n))))).Nodup := by
    rw [← hnew, hleaves']
    exact hnodup'
  have hplaces := hplaces n _ hfill hnodup'
  rw [hbuilt.bare_root] at hplaces
  rcases hplaces with ⟨hexpression, hstatement⟩ | ⟨hplace, hplace'⟩
  · exact Tree.viable_of_positions htree' hnew hnodupNew hl hbuilt.isSyntax hold hnodupOld hl
      hreserved hw hexpression hstatement
  · exact Tree.viable_of_inExpression htree' hnew hnodupNew hl hbuilt.isSyntax hold hnodupOld hl
      hreserved hw hplace hplace'

theorem lexes_inside (hbuilt : d.Built ls ts) (h : d.HasSlot path xs start stop)
    {before' : List Token} {offset' : Nat} {v : Bytes} (hv : ∀ b ∈ v.head?, Bytes.isBreak b = true)
    (hline : (∃ l ∈ Tree.leavesOfList xs, l.token = .comment ∧ l.stop = stop) → ∀ b ∈ v.head?, b = 10)
    (hviable : ∀ us l vs, Tree.leavesOfList xs = us ++ l :: vs →
      l.token = .comment ∨ Viable (before' ++ tokensOf us) l.token)
    (hwords : ∀ us l vs, Tree.leavesOfList xs = us ++ l :: vs → l.token = .identifier →
      ∀ w : Token, w.isReserved = true → Viable (before' ++ tokensOf us) w →
        Viable (tokensOf (Tree.front path ++ us)) w) :
    Lexes before' offset' (d.source.slice start stop ++ v)
      (carried start offset' (Tree.leavesOfList xs)) v := by
  have hlex := hbuilt.lexes
  rw [← h.leaves_eq hbuilt] at hlex
  have hold : Lexes (tokensOf (Tree.front path)) start (d.source.drop start)
      (Tree.leavesOfList xs ++ Tree.back path) [] := by
    refine hlex.behind h.mark_le (h.le.trans h.stop_le) h.front_le fun l hl => ?_
    rcases List.mem_append.mp hl with hl | hl
    · exact (h.inside l hl).1
    · exact h.le.trans (h.le_back l hl)
  rw [Bytes.drop_eq_slice_append _ h.le] at hold
  have hlength : start + (d.source.slice start stop).length = stop := by
    rw [Bytes.length_slice _ _ h.stop_le]
    exact Nat.add_sub_cancel' h.le
  refine hold.transfer (fun l hl => ?_) (fun m hm => ?_) (.inr (.inl hv)) ?_ hviable
    fun us l vs hsplit hl w hw => ?_
  · exact (h.inside l hl).2.trans hlength.ge
  · exact hlength.le.trans (h.le_back m hm)
  · rintro ⟨l, hl, hcomment, hstop⟩
    exact fun _ => hline ⟨l, hl, hcomment, hstop.trans hlength⟩
  · rw [← tokensOf_append]
    exact hwords us l vs hsplit hl w hw

/-- The text of the slot is cut into the same lexemes in another place, if the identifiers of the slot
are in the same positions there. -/
theorem lexes_in (hbuilt : d.Built ls ts) (h : d.HasSlot path xs start stop) {path' : List Crumb}
    {k' : Crumb} {zs ts' : List Tree} {v : Bytes} (offset : Nat)
    (hroot : Tree.fill (k' :: path') zs = [.node none .sourceFile ts'])
    (htree : ∀ x ∈ Tree.fill (k' :: path') ys, x.IsSyntax)
    (hys : Tree.leavesOfList ys = significant (Tree.leavesOfList xs))
    (hnodup : (Tree.front (k' :: path') ++ Tree.back (k' :: path')).Nodup)
    (hv : ∀ b ∈ v.head?, Bytes.isBreak b = true)
    (hline : (∃ l ∈ Tree.leavesOfList xs, l.token = .comment ∧ l.stop = stop) → ∀ b ∈ v.head?, b = 10)
    (hplaces : ∀ l ∈ Tree.leavesOfList ys, l.token = .identifier → ∀ n root,
      Tree.fill ((k' :: path').map (Crumb.moved (· + n) (· + n))) ys = [root] →
      (Tree.front ((k' :: path').map (Crumb.moved (· + n) (· + n))) ++ (Tree.leavesOfList ys ++
        Tree.back ((k' :: path').map (Crumb.moved (· + n) (· + n))))).Nodup →
      ((root.InExpression l → d.root.bare.InExpression l) ∧
          (root.StartsStatement l → d.root.bare.StartsStatement l)) ∨
        root.InExpression l ∧ d.root.bare.InExpression l) :
    Lexes ((Tree.front (k' :: path')).map token) offset (d.source.slice start stop ++ v)
      (carried start offset (Tree.leavesOfList xs)) v := by
  refine h.lexes_inside hbuilt hv hline (fun us l vs hsplit => ?_)
    fun us l vs hsplit hl w hw hviable => ?_
  · obtain ⟨ts'', -, htree', hleaves'⟩ := Tree.exists_sourceFile hroot htree
    have hderivable := Tree.derivable_of_isSyntax htree'
    rw [hleaves', hys, List.map_append, List.map_append, hsplit] at hderivable
    by_cases hl : l.token = .comment
    · exact .inl hl
    · refine .inr ⟨tokensOf vs ++ (Tree.back (k' :: path')).map token, ?_⟩
      have htokens : (significant (us ++ l :: vs)).map token = tokensOf us ++ l.token :: tokensOf vs := by
        simp [tokensOf, significant, hl]
      rw [htokens] at hderivable
      simpa only [List.append_assoc, List.cons_append] using hderivable
  · have hmem : l ∈ Tree.leavesOfList ys := by
      rw [hys, hsplit]
      simp [significant, hl]
    exact h.viable_inside hbuilt hroot htree hys hnodup hsplit hl (hplaces l hmem hl) hw hviable

theorem stop_lt_of_comment (hbuilt : d.Built ls ts) (h : d.HasSlot path xs start stop)
    (hlast : ∀ l ∈ (Tree.leavesOfList xs).getLast?, l.token ≠ .comment) :
    ∀ l ∈ Tree.leavesOfList xs, l.token = .comment → l.stop < stop := by
  intro l hl hcomment
  have horder := Lexes.inOrder hbuilt.lexes
  rw [← h.leaves_eq hbuilt] at horder
  obtain ⟨front, m, hsplit⟩ := (List.eq_nil_or_concat' _).resolve_left (List.ne_nil_of_mem hl)
  have hm : m ∈ Tree.leavesOfList xs := by simp [hsplit]
  have hne : l ≠ m := by
    rintro rfl
    exact hlast l (by simp [hsplit]) hcomment
  have hfront : l ∈ front := by
    rw [hsplit, List.mem_append, List.mem_singleton] at hl
    exact hl.resolve_right hne
  have hpos := horder.nonempty m (by simp [hm])
  have hbefore : l.stop ≤ m.start := by
    have hinner := (inOrder_append_iff.mp (inOrder_append_iff.mp horder).2.1).1
    rw [hsplit] at hinner
    exact (inOrder_append_iff.mp hinner).2.2 l hfront m (by simp)
  have hstop := (h.inside m hm).2
  omega

end HasSlot

theorem Built.hasSlot_of_ne_nil (hbuilt : d.Built ls ts)
    (hfill : Tree.fill (k :: path) xs = [d.root]) (hne : xs ≠ []) :
    d.HasSlot (k :: path) xs (Tree.startOfList xs) (Tree.stopOfList xs) := by
  have hleaves := Tree.leavesOfList_fill (k :: path) xs
  rw [hfill, Tree.leavesOfList_singleton, hbuilt.leaves_root] at hleaves
  have hlex := hbuilt.lexes
  have horder := Lexes.inOrder hlex
  have hwithin := hlex.within
  rw [hleaves] at horder hwithin
  obtain ⟨hfront, hrest, hfrontLe⟩ := inOrder_append_iff.mp horder
  obtain ⟨hxs, hback, hxsLe⟩ := inOrder_append_iff.mp hrest
  have hfull : (Tree.node none .block xs).IsFull := .node none Category.noConfusion hne fun t ht =>
    (Tree.isTrimmed_of_children hbuilt.isTrimmed hfill t ht).isFull
  obtain ⟨first, hfirst⟩ := Option.isSome_iff_exists.mp (List.isSome_head?.mpr hfull.leaves_ne_nil)
  obtain ⟨last, hlast⟩ := Option.isSome_iff_exists.mp
    (List.getLast?_isSome.mpr hfull.leaves_ne_nil)
  have hfirstMem : first ∈ Tree.leavesOfList xs := List.mem_of_mem_head? hfirst
  have hlastMem : last ∈ Tree.leavesOfList xs := List.mem_of_mem_getLast? hlast
  have hstart : Tree.startOfList xs = first.start := hfull.start_eq first hfirst
  have hstop : Tree.stopOfList xs = last.stop := hfull.stop_eq last hlast
  refine ⟨hfill, fun l hl => ?_, fun l hl => ?_, fun l hl => ?_, ?_, ?_, ?_⟩
  · exact (hfrontLe l hl first (by simp [hfirstMem])).trans hstart.ge
  · exact ⟨hfull.start_le hxs l hl, hfull.le_stop hxs l hl⟩
  · exact hstop.le.trans (hxsLe last hlastMem l hl)
  · have hpos := hxs.nonempty first hfirstMem
    exact (hfull.start_le hxs first hfirstMem).trans (hpos.le.trans (hfull.le_stop hxs first hfirstMem))
  · rw [hstart]
    exact (hwithin first (by simp [hfirstMem])).1
  · rw [hstop]
    exact (hwithin last (by simp [hlastMem])).2

theorem Built.head_ne_newline (hbuilt : d.Built ls ts)
    (hfill : Tree.fill (k :: path) xs = [d.root]) (hne : xs ≠ []) :
    ∃ b ∈ (d.source.drop (Tree.startOfList xs)).head?, b ≠ 10 := by
  have hslot := hbuilt.hasSlot_of_ne_nil hfill hne
  have hfull : (Tree.node none .block xs).IsFull := .node none Category.noConfusion hne fun t ht =>
    (Tree.isTrimmed_of_children hbuilt.isTrimmed hfill t ht).isFull
  obtain ⟨l, hl⟩ := Option.isSome_iff_exists.mp (List.isSome_head?.mpr hfull.leaves_ne_nil)
  obtain ⟨rest, hrest⟩ := List.head?_eq_some_iff.mp hl
  have hstart : Tree.startOfList xs = l.start := hfull.start_eq l hl
  have hleaves : Tree.leavesOfList xs = l :: rest := hrest
  have hlex := hbuilt.lexes
  rw [← hslot.leaves_eq hbuilt, hleaves, List.cons_append] at hlex
  obtain ⟨b, bytes, hbytes, hbegins, -⟩ := exists_begins hlex.exists_taken.1.stands.text
  rw [hstart, hbytes]
  refine ⟨b, rfl, ?_⟩
  rintro rfl
  cases (not_isSpace_of_begins hbegins).1

theorem Built.hasSlot {t : Tree} (hbuilt : d.Built ls ts)
    (hfill : Tree.fill (k :: path) [t] = [d.root]) :
    t.IsFull ∧ d.HasSlot (k :: path) [t] (d.startOf t) (d.stopOf t) := by
  have hfull : t.IsFull := (Tree.isTrimmed_of_children hbuilt.isTrimmed hfill t (by simp)).isFull
  rw [startOf_eq hfull, stopOf_eq hfull]
  exact ⟨hfull, hbuilt.hasSlot_of_ne_nil hfill (List.cons_ne_nil _ _)⟩

namespace HasSlot

variable {start stop : Nat}

theorem lexes_before (hbuilt : d.Built ls ts) (h : d.HasSlot path xs start stop) {v : Bytes}
    (hv : v = d.source.drop start ∨ (∀ b ∈ v.head?, Bytes.isBreak b = true) ∨ Closed (Tree.front path))
    (hline : (∃ l ∈ Tree.front path, l.token = .comment ∧ l.stop = start) →
      (∀ b ∈ (d.source.drop start).head?, b = 10) → ∀ b ∈ v.head?, b = 10) :
    Lexes [] (markLength d.source) (d.source.slice (markLength d.source) start ++ v)
      (Tree.front path) v := by
  have hmark : markLength d.source + (d.source.slice (markLength d.source) start).length = start := by
    rw [Bytes.length_slice _ _ (h.le.trans h.stop_le)]
    exact Nat.add_sub_cancel' h.mark_le
  have hold : Lexes [] (markLength d.source)
      (d.source.slice (markLength d.source) start ++ d.source.drop start)
      (Tree.front path ++ (Tree.leavesOfList xs ++ Tree.back path)) [] := by
    rw [← Bytes.drop_eq_slice_append _ h.mark_le, h.leaves_eq hbuilt]
    exact hbuilt.lexes
  have hfront : ∀ l ∈ Tree.front path,
      l.stop ≤ markLength d.source + (d.source.slice (markLength d.source) start).length :=
    fun l hl => (h.front_le l hl).trans hmark.ge
  have hbehind : ∀ l ∈ Tree.leavesOfList xs ++ Tree.back path,
      markLength d.source + (d.source.slice (markLength d.source) start).length ≤ l.start := by
    rw [hmark]
    intro l hl
    rcases List.mem_append.mp hl with hl | hl
    · exact (h.inside l hl).1
    · exact h.le.trans (h.le_back l hl)
  have hlast : (∃ l ∈ Tree.front path, l.token = .comment ∧
      l.stop = markLength d.source + (d.source.slice (markLength d.source) start).length) →
        (∀ b ∈ (d.source.drop start).head?, b = 10) → ∀ b ∈ v.head?, b = 10 := by
    rwa [hmark]
  rcases hv with hv | hv | hclosed
  · exact hold.before_other hfront hbehind (.inl hv) hlast
  · exact hold.before_other hfront hbehind (.inr (.inl hv)) hlast
  · exact hold.before_any hfront hbehind hclosed hlast

/-- A source with something else in the slot is read as the tree with this in the slot, but for the
comments at its end, if what is new is cut into its leaves and the words that are reserved behind it are
reserved there before. -/
theorem parse_eq_ok_of_spliced (hbuilt : d.Built ls ts)
    (h : d.HasSlot (k :: path) xs e.start e.stop)
    (hbefore : Lexes [] (markLength d.source)
      (d.source.slice (markLength d.source) e.start ++ (e.inserted ++ d.source.drop e.stop))
      (Tree.front (k :: path)) (e.inserted ++ d.source.drop e.stop))
    (hlexes : Lexes (tokensOf (Tree.front (k :: path))) e.start (e.inserted ++ d.source.drop e.stop)
      (Tree.leavesOfList ys) (d.source.drop e.stop))
    (htree : ∀ x ∈ Tree.fill ((k :: path).map Crumb.bare) (Tree.bareOfList ys), x.IsSyntax)
    (hwords : ∀ us l vs, Tree.back (k :: path) = us ++ l :: vs → l.token = .identifier →
      ∀ w : Token, w.isReserved = true →
        Viable (tokensOf (Tree.front (k :: path) ++ (Tree.leavesOfList ys ++ us))) w →
        Viable (tokensOf (Tree.front (k :: path) ++ (Tree.leavesOfList xs ++ us))) w)
    {zs : List Tree} (htrimmed : ∀ t ∈ zs, t.IsTrimmed)
    (hsame : ∀ us, Tree.fill ((k :: path).map (Crumb.moved e.startAfter e.stopAfter)) ys =
      [.node none .sourceFile us] →
        Tree.bareOfList zs = Tree.bareOfList us ∧ Tree.leavesOfList zs = Tree.leavesOfList us) :
    parse (d.source.splice e.start e.stop e.inserted) =
      .ok ⟨d.source.splice e.start e.stop e.inserted, .node none .sourceFile zs⟩ := by
  have hleaves := h.leaves_eq hbuilt
  have hlex := hbuilt.lexes
  rw [← hleaves] at hlex
  have hwithin := hlex.within
  have hstart := h.le.trans h.stop_le
  -- The new tree, and what it makes viable.
  obtain ⟨ts', hroot⟩ := h.exists_fill_moved hbuilt e ys
  obtain ⟨hbareEq, hleavesEq⟩ := hsame ts' hroot
  have hbare : (Tree.node none .sourceFile (Tree.bareOfList zs)).IsSyntax := by
    refine Tree.isSyntax_fill_moved htree e.startAfter e.stopAfter id id _ ?_
    have hbare := Tree.bareOfList_fill ((k :: path).map (Crumb.moved e.startAfter e.stopAfter)) ys
    rw [hroot, Tree.map_bare_map_moved] at hbare
    have hid : (Tree.bareOfList ys).map (Tree.moved id id) = Tree.bareOfList ys :=
      (List.map_congr_left fun t _ => Tree.moved_id t).trans (List.map_id _)
    rw [hid, ← hbare, hbareEq]
    exact List.mem_singleton_self _
  have hzs : Tree.leavesOfList zs = Tree.front (k :: path) ++ (Tree.leavesOfList ys ++
      carried e.stop (e.start + e.inserted.length) (Tree.back (k :: path))) := by
    have hfill := Tree.leavesOfList_fill ((k :: path).map (Crumb.moved e.startAfter e.stopAfter)) ys
    rwa [hroot, Tree.leavesOfList_singleton, Tree.leaves, ← hleavesEq, h.front_moved hbuilt,
      h.back_moved hbuilt] at hfill
  have hderivable : Derivable (tokensOf (Tree.front (k :: path) ++ (Tree.leavesOfList ys ++
      Tree.back (k :: path)))) := by
    have htokens := Tree.derivable_of_isSyntax hbare
    rw [Tree.leavesOfList_bareOfList, hzs] at htokens
    rwa [tokensOf_append, tokensOf_append, ← tokensOf_carried e.stop (e.start + e.inserted.length)
      (Tree.back (k :: path)), ← tokensOf_append, ← tokensOf_append]
  have hmark : markLength d.source + (d.source.slice (markLength d.source) e.start).length = e.start := by
    rw [Bytes.length_slice _ _ hstart]
    exact Nat.add_sub_cancel' h.mark_le
  have hbehind : Lexes (tokensOf (Tree.front (k :: path)) ++ tokensOf (Tree.leavesOfList ys))
      (e.start + e.inserted.length) (d.source.drop e.stop)
      (carried e.stop (e.start + e.inserted.length) (Tree.back (k :: path))) [] := by
    have hold : Lexes (tokensOf (Tree.front (k :: path) ++ Tree.leavesOfList xs)) e.stop
        (d.source.drop e.stop) (Tree.back (k :: path)) [] := by
      rw [← List.append_assoc] at hlex
      refine hlex.behind (h.mark_le.trans h.le) h.stop_le (fun l hl => ?_) h.le_back
      rcases List.mem_append.mp hl with hl | hl
      · exact (h.front_le l hl).trans h.le
      · exact (h.inside l hl).2
    rw [← List.append_nil (Tree.back (k :: path)), ← List.append_nil (d.source.drop e.stop)] at hold
    rw [← List.append_nil (d.source.drop e.stop)]
    refine hold.transfer (fun l hl => ?_) (by simp) (.inl rfl) (fun _ => id)
      (fun us l vs hsplit => ?_) fun us l vs hsplit hl w hw => ?_
    · rw [List.length_drop, Nat.add_sub_cancel' h.stop_le]
      exact (hwithin l (by simp [hl])).2
    · rw [hsplit, ← List.append_assoc, ← List.append_assoc] at hderivable
      rw [← tokensOf_append, ← tokensOf_append]
      exact viable_of_derivable hderivable
    · rw [← tokensOf_append, ← tokensOf_append, ← tokensOf_append, List.append_assoc,
        List.append_assoc]
      exact hwords us l vs hsplit hl w hw
  have hsource : LexesTo (d.source.splice e.start e.stop e.inserted) (Tree.leavesOfList zs) [] := by
    rw [hzs]
    refine lexesTo_iff.mpr ⟨d.source.take (markLength d.source),
      d.source.slice (markLength d.source) e.start ++ (e.inserted ++ d.source.drop e.stop),
      take_markLength _, ?_, ?_⟩
    · have htake : (d.source.splice e.start e.stop e.inserted).take (markLength d.source) =
          d.source.take (markLength d.source) := Bytes.take_splice_of_le h.mark_le hstart
      rw [← Bytes.drop_splice_of_le h.mark_le hstart, ← htake, List.take_append_drop]
    · have hmarkLength : (d.source.take (markLength d.source)).length = markLength d.source := by
        rw [List.length_take, Nat.min_eq_left (markLength_le _)]
      rw [hmarkLength]
      refine hbefore.append ?_
      rw [List.length_append, Nat.add_sub_cancel, hmark, List.nil_append]
      refine hlexes.append ?_
      rwa [List.length_append, Nat.add_sub_cancel]
  exact parse_eq_ok_of_trimmed hsource hbare htrimmed

/-- The tree with something else in the slot is that of a source, if no node of it ends with a
comment. -/
theorem parse_splice (hbuilt : d.Built ls ts) (h : d.HasSlot (k :: path) xs e.start e.stop)
    (hbefore : Lexes [] (markLength d.source)
      (d.source.slice (markLength d.source) e.start ++ (e.inserted ++ d.source.drop e.stop))
      (Tree.front (k :: path)) (e.inserted ++ d.source.drop e.stop))
    (hlexes : Lexes (tokensOf (Tree.front (k :: path))) e.start (e.inserted ++ d.source.drop e.stop)
      (Tree.leavesOfList ys) (d.source.drop e.stop))
    (htree : ∀ x ∈ Tree.fill ((k :: path).map Crumb.bare) (Tree.bareOfList ys), x.IsSyntax)
    (htrimmed : ∀ root, Tree.fill ((k :: path).map (Crumb.moved e.startAfter e.stopAfter)) ys = [root] →
      ∀ t ∈ root.children, t.IsTrimmed)
    (hwords : ∀ us l vs, Tree.back (k :: path) = us ++ l :: vs → l.token = .identifier →
      ∀ w : Token, w.isReserved = true →
        Viable (tokensOf (Tree.front (k :: path) ++ (Tree.leavesOfList ys ++ us))) w →
        Viable (tokensOf (Tree.front (k :: path) ++ (Tree.leavesOfList xs ++ us))) w) :
    ∃ d', parse (d.source.splice e.start e.stop e.inserted) = .ok d' ∧
      [d'.root] = Tree.fill ((k :: path).map (Crumb.moved e.startAfter e.stopAfter)) ys := by
  obtain ⟨zs, hroot⟩ := h.exists_fill_moved hbuilt e ys
  have hparse := h.parse_eq_ok_of_spliced hbuilt hbefore hlexes htree hwords (htrimmed _ hroot)
    fun us hus => by
      obtain rfl : zs = us := by simpa using hroot.symm.trans hus
      exact ⟨rfl, rfl⟩
  exact ⟨_, hparse, hroot.symm⟩

end HasSlot

end Document

end HeyVL
