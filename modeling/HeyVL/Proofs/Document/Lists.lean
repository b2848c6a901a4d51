import HeyVL.Proofs.Document.Elements

namespace HeyVL

open Token Grammar Lexeme

namespace Crumb

/-- The place behind the given children of a source file. -/
def behind (ts : List Tree) : Crumb := ⟨none, .sourceFile, ts.reverse, []⟩

variable {k : Crumb} {r : Repetition}

theorem IsAmong.labels_before_ne_nil (hk : k.IsAmong r) (hr : r ≠ .declarations) :
    Tree.labels k.before.reverse ≠ [] := by
  obtain ⟨u, v, hfirst, -, hlabels⟩ := Production.expands_inOrder_append_iff.mp hk.precedes
  obtain ⟨w, x, rfl, -⟩ := Repetition.exists_last_of_first hfirst hr
  rw [← hlabels]
  simp

end Crumb

namespace Tree

theorem IsSyntax.exists_sign {t : Tree} (h : t.IsSyntax)
    (ht : t.kind = .token (.punctuation .braceOpen) ∨ t.kind = .category .parameterList) :
    ∃ us l p b, t.leaves = us ++ [l] ∧ (p, b) ∈ signs ∧ l.token = .punctuation p := by
  rcases ht with hbrace | hlist
  · have hlabel : t.label = (t.role, .token (.punctuation .braceOpen)) := by rw [label, hbrace]
    obtain ⟨l, hl, heq⟩ := eq_leaf_of_label hlabel
    exact ⟨[], l, .braceOpen, 123, by rw [heq]; rfl, by decide, hl⟩
  · have hlabel : t.label = (t.role, .category .parameterList) := by rw [label, hlist]
    obtain ⟨us, heq⟩ := eq_node_of_label hlabel
    rw [heq] at h
    cases h with
    | node expands =>
      obtain ⟨v, hv⟩ := Repetition.exists_last_of_parameterList expands
      obtain ⟨xs, ys, rfl, -, hys⟩ := List.map_eq_append_iff.mp hv
      obtain ⟨x, rfl, hx⟩ := eq_singleton_of_labels hys
      obtain ⟨l, hl, rfl⟩ := eq_leaf_of_label hx
      refine ⟨leavesOfList xs, l, .parenClose, 41, ?_, by decide, hl⟩
      rw [heq, leaves, leavesOfList_append, leavesOfList_singleton]
      rfl

end Tree

namespace Document

variable {d : Document} {ls : List Lexeme} {ts xs ys zs : List Tree} {path : List Crumb} {k : Crumb}
  {r : Repetition} {e : Edit} {start stop : Nat}

/-- The list of a node in a document. It is in the source from its first element to its last one, or, if
it has none, anywhere between the tokens around it. -/
structure HasList (d : Document) (r : Repetition) (path : List Crumb) (k : Crumb) (xs : List Tree)
    (start stop : Nat) : Prop extends HasSlot d (k :: path) xs start stop where
  list : k.HoldsList r xs
  whole : xs ≠ [] → start = Tree.startOfList xs ∧ stop = Tree.stopOfList xs
  empty : xs = [] → start = stop

theorem Built.exists_hasSlot_nil (hbuilt : d.Built ls ts) (hfill : Tree.fill path [] = [d.root]) :
    ∃ n, d.HasSlot path [] n n := by
  have hleaves := Tree.leavesOfList_fill path []
  rw [hfill, Tree.leavesOfList_singleton, hbuilt.leaves_root] at hleaves
  have hlex := hbuilt.lexes
  have horder := Lexes.inOrder hlex
  have hwithin := hlex.within
  rw [hleaves] at horder hwithin
  obtain ⟨hfront, -, hle⟩ := inOrder_append_iff.mp horder
  rcases List.eq_nil_or_concat' (Tree.front path) with hnil | ⟨us, l, hlast⟩
  · refine ⟨markLength d.source, hfill, ?_, nofun, fun m hm => (hwithin m (by simp [hm])).1, Nat.le_refl _,
      Nat.le_refl _, markLength_le _⟩
    rw [hnil]
    exact nofun
  · have hl : l ∈ Tree.front path := by simp [hlast]
    obtain ⟨hmark, hstop⟩ := hwithin l (by simp [hl])
    refine ⟨l.stop, hfill, fun m hm => ?_, nofun, fun m hm => hle l hl m (by simp [hm]), Nat.le_refl _,
      hmark.trans (horder.nonempty l (by simp [hl])).le, hstop⟩
    rw [hlast] at hm hfront
    rcases List.mem_append.mp hm with hm | hm
    · exact ((inOrder_append_iff.mp hfront).2.2 m hm l (by simp)).trans
        (horder.nonempty l (by simp [hl])).le
    · exact (List.mem_singleton.mp hm ▸ Nat.le_refl _)

theorem Built.hasList (hbuilt : d.Built ls ts) (hfill : Tree.fill (k :: path) xs = [d.root])
    (hlist : k.HoldsList r xs) (hne : xs ≠ []) :
    d.HasList r path k xs (Tree.startOfList xs) (Tree.stopOfList xs) :=
  ⟨hbuilt.hasSlot_of_ne_nil hfill hne, hlist, fun _ => ⟨rfl, rfl⟩, fun hnil => absurd hnil hne⟩

theorem Built.exists_hasList {t : Tree} (hbuilt : d.Built ls ts) (ht : t ∈ d.root.subtrees)
    (hkind : t.kind = .category r.category) :
    ∃ path k xs start stop, d.HasList r path k xs start stop ∧ k.around xs = t := by
  cases t with
  | leaf => cases hkind
  | node role c us =>
    obtain rfl : c = r.category := by simpa using hkind
    have hexpands : r.category.production.Expands (Tree.labels us) := by
      rw [Tree.labels_eq]
      cases hbuilt.isSyntax_bare ht rfl with
      | node expands => exact expands
    obtain ⟨k, xs, haround, hlist⟩ := Crumb.exists_holdsList role hexpands
    obtain ⟨path, hpath⟩ := Tree.exists_fill_of_mem_subtrees ht
    have hfill : Tree.fill (k :: path) xs = [d.root] := by rw [Tree.fill, haround, hpath]
    by_cases hne : xs = []
    · subst hne
      obtain ⟨n, hslot⟩ := hbuilt.exists_hasSlot_nil hfill
      exact ⟨path, k, [], n, n, ⟨hslot, hlist, fun hne => absurd rfl hne, fun _ => rfl⟩, haround⟩
    · exact ⟨path, k, xs, _, _, hbuilt.hasList hfill hlist hne, haround⟩

/-- What stands before a list ends with a sign, but for comments, or there are only comments. -/
theorem HasList.closed_front (hbuilt : d.Built ls ts) (h : d.HasList r path k xs start stop) :
    Closed (Tree.front (k :: path)) := by
  have hslot := h.toHasSlot
  have htree : ∀ x ∈ Tree.bareOfList k.before.reverse, x.IsSyntax := by
    have haround : ∀ x ∈ Tree.fill (path.map Crumb.bare) [k.bare.around (Tree.bareOfList xs)],
        x.IsSyntax := hslot.isSyntax_fill_bare hbuilt
    cases Tree.isSyntax_of_fill haround _ (List.mem_singleton_self _) with
    | node _ _ inner =>
      intro x hx
      refine inner x (List.mem_append_left _ ?_)
      rwa [Crumb.bare, List.reverse_reverse]
  have hfront : significant (Tree.front (k :: path)) =
      significant (Tree.front path) ++ Tree.leavesOfList (Tree.bareOfList k.before.reverse) := by
    rw [Tree.front, Tree.leavesOfList_bareOfList, significant, List.filter_append]
    rfl
  intro l hl
  rw [hfront] at hl
  by_cases hr : r = .declarations
  · subst hr
    cases path with
    | nil =>
      have hnone := Production.expands_empty_iff.mp h.list.first
      rw [Tree.labels_eq, List.map_eq_nil_iff] at hnone
      rw [hnone] at hl
      cases hl
    | cons k' path =>
      exact absurd rfl (Crumb.ne_declarations hbuilt.isTrimmed h.fill_eq h.list.category_eq)
  · obtain ⟨v, x, hlabels, hx⟩ := Repetition.exists_last_of_first h.list.first hr
    rw [Tree.labels_eq] at hlabels
    obtain ⟨us, vs, hsplit, -, hvs⟩ := List.map_eq_append_iff.mp hlabels
    obtain ⟨t, rfl, ht⟩ := Tree.eq_singleton_of_labels hvs
    have hkind : t.kind = x.2 := congrArg Prod.snd ht
    obtain ⟨leaves, m, p, b, hleaves, hp, hm⟩ :=
      (htree t (by simp [hsplit])).exists_sign (hkind ▸ hx)
    rw [hsplit, Tree.leavesOfList_append, Tree.leavesOfList_singleton, hleaves, ← List.append_assoc,
      ← List.append_assoc, List.getLast?_append] at hl
    obtain rfl : m = l := by simpa using hl
    exact ⟨p, b, hp, hm⟩

/-- A source with something else in a place among elements is read as the tree with this there, but for
the comments at its end, if this is a tree of the grammar. -/
theorem HasSlot.parse_among_of_isSyntax (hbuilt : d.Built ls ts)
    (h : d.HasSlot (k :: path) xs e.start e.stop) (hk : k.IsAmong r)
    (htree : ∀ x ∈ Tree.fill ((k :: path).map Crumb.bare) (Tree.bareOfList ys), x.IsSyntax)
    (hbefore : Lexes [] (markLength d.source)
      (d.source.slice (markLength d.source) e.start ++ (e.inserted ++ d.source.drop e.stop))
      (Tree.front (k :: path)) (e.inserted ++ d.source.drop e.stop))
    (hlexes : Lexes (tokensOf (Tree.front (k :: path))) e.start (e.inserted ++ d.source.drop e.stop)
      (Tree.leavesOfList ys) (d.source.drop e.stop))
    (htrimmed : ∀ t ∈ zs, t.IsTrimmed)
    (hsame : ∀ us, Tree.fill ((k :: path).map (Crumb.moved e.startAfter e.stopAfter)) ys =
      [.node none .sourceFile us] →
        Tree.bareOfList zs = Tree.bareOfList us ∧ Tree.leavesOfList zs = Tree.leavesOfList us) :
    parse (d.source.splice e.start e.stop e.inserted) =
      .ok ⟨d.source.splice e.start e.stop e.inserted, .node none .sourceFile zs⟩ := by
  have hold := h.isSyntax_fill_bare hbuilt
  refine h.parse_eq_ok_of_spliced hbuilt hbefore hlexes htree (fun us l vs hback hl w hreserved hw => ?_)
    htrimmed hsame
  refine h.viable_behind hbuilt htree (Lexes.inOrder hlexes).nodup (fun hpath => ?_)
    (fun between r' m after hafter hm _ => ?_) hback hl hreserved hw
  · -- A brace or a list of parameters stands before the list.
    obtain ⟨k', path, rfl⟩ := List.exists_cons_of_ne_nil hpath
    have hr := Crumb.ne_declarations hbuilt.isTrimmed h.fill_eq hk.category_eq
    have hlabels := hk.labels_before_ne_nil hr
    rw [Tree.labels_eq] at hlabels
    obtain ⟨x, hx⟩ := List.exists_mem_of_ne_nil _ (List.map_eq_nil_iff.not.mp hlabels)
    have hx' : x ∈ k.bare.before.reverse := by rwa [Crumb.bare, List.reverse_reverse]
    have hplace : ∀ y ∈ Tree.fill ((k' :: path).map Crumb.bare) [k.bare.around (Tree.bareOfList xs)],
      y.IsSyntax := hold
    have hfull := (Tree.isSyntax_of_fill hplace _ (List.mem_singleton_self _)).isFull_of_mem
      (List.mem_append_left _ hx')
    obtain ⟨l, hl⟩ := List.exists_mem_of_ne_nil _ hfull.leaves_ne_nil
    refine List.append_ne_nil_of_left_ne_nil (List.ne_nil_of_mem (a := l) ?_) _
    rw [Tree.leavesOfList_eq_flatMap]
    exact List.mem_flatMap_of_mem hx' hl
  · -- No identifier stands behind a list.
    have hlabel : (r', Kind.token .identifier) ∈ Tree.labels k.after := by
      have hafter' : Tree.bareOfList k.after = between ++ .leaf r' m :: after := hafter
      rw [Tree.labels_eq, hafter', List.map_append, List.map_cons]
      simp [Tree.label, hm]
    exact absurd rfl (Repetition.ne_identifier_of_follows hk.follows hlabel)

theorem HasSlot.parse_among (hbuilt : d.Built ls ts) (h : d.HasSlot (k :: path) xs e.start e.stop)
    (hk : k.IsAmong r) (hys : ∀ y ∈ Tree.bareOfList ys, y.IsSyntax)
    (hexpands : Production.Expands (.many r.item) (Tree.labels ys))
    (hbefore : Lexes [] (markLength d.source)
      (d.source.slice (markLength d.source) e.start ++ (e.inserted ++ d.source.drop e.stop))
      (Tree.front (k :: path)) (e.inserted ++ d.source.drop e.stop))
    (hlexes : Lexes (tokensOf (Tree.front (k :: path))) e.start (e.inserted ++ d.source.drop e.stop)
      (Tree.leavesOfList ys) (d.source.drop e.stop))
    (htrimmed : ∀ t ∈ zs, t.IsTrimmed)
    (hsame : ∀ us, Tree.fill ((k :: path).map (Crumb.moved e.startAfter e.stopAfter)) ys =
      [.node none .sourceFile us] →
        Tree.bareOfList zs = Tree.bareOfList us ∧ Tree.leavesOfList zs = Tree.leavesOfList us) :
    parse (d.source.splice e.start e.stop e.inserted) =
      .ok ⟨d.source.splice e.start e.stop e.inserted, .node none .sourceFile zs⟩ := by
  rw [Tree.labels_eq] at hexpands
  exact h.parse_among_of_isSyntax hbuilt hk (hk.isSyntax_fill (h.isSyntax_fill_bare hbuilt) hys hexpands)
    hbefore hlexes htrimmed hsame

theorem HasList.lexes_before (hbuilt : d.Built ls ts) (h : d.HasList r path k xs e.start e.stop)
    {elements : List (Element r)} (he : e.inserted = Element.textOf elements) :
    Lexes [] (markLength d.source)
      (d.source.slice (markLength d.source) e.start ++ (e.inserted ++ d.source.drop e.stop))
      (Tree.front (k :: path)) (e.inserted ++ d.source.drop e.stop) := by
  have hslot := h.toHasSlot
  rw [he]
  cases elements with
  | cons x elements =>
    refine hslot.lexes_before hbuilt (.inr (.inl ?_)) fun _ _ => ?_
    all_goals
      intro b hb
      cases hb
      rfl
  | nil =>
    rw [Element.textOf, List.nil_append]
    by_cases hxs : xs = []
    · rw [← h.empty hxs]
      exact hslot.lexes_before hbuilt (.inl rfl) fun _ => id
    · obtain ⟨b, hb, hne⟩ := hbuilt.head_ne_newline h.fill_eq hxs
      rw [← (h.whole hxs).1] at hb
      exact hslot.lexes_before hbuilt (.inr (.inr (h.closed_front hbuilt)))
        fun _ hnewline => absurd (hnewline b hb) hne

theorem HasList.lexes_elements (hbuilt : d.Built ls ts) (h : d.HasList r path k xs e.start e.stop)
    {elements : List (Element r)} (he : e.inserted = Element.textOf elements) :
    Lexes (tokensOf (Tree.front (k :: path))) e.start (e.inserted ++ d.source.drop e.stop)
      (Tree.leavesOfList (Element.placedFrom e.start elements)) (d.source.drop e.stop) := by
  have hslot := h.toHasSlot
  have hk := (h.list.moved e.startAfter e.stopAfter).isAmong
  have hbare : Tree.fill (((k :: path).map (Crumb.moved e.startAfter e.stopAfter)).map Crumb.bare)
      (Tree.bareOfList (xs.map (Tree.moved e.startAfter e.stopAfter))) =
        [.node none .sourceFile (ts.map (Tree.moved e.startAfter e.stopAfter))] := by
    rw [Tree.map_bare_map_moved, Tree.bareOfList_map_moved, ← Tree.map_moved_fill, hslot.fill_bare hbuilt,
      List.map_singleton, Tree.moved_node]
  have htree : ∀ x ∈ Tree.fill (((k :: path).map (Crumb.moved e.startAfter e.stopAfter)).map Crumb.bare)
      (Tree.bareOfList (xs.map (Tree.moved e.startAfter e.stopAfter))), x.IsSyntax := by
    rw [hbare, ← Tree.moved_node]
    intro x hx
    exact List.mem_singleton.mp hx ▸ hbuilt.isSyntax.moved
  obtain ⟨horder, hwithin⟩ := Element.inOrder_placedFrom elements e.start
  rw [← he] at hwithin
  have hnodup := ((hslot.inOrder_spliced hbuilt horder hwithin).nodup.filter
    fun l => l.token != .comment)
  have hnone : ∀ u ∈ ([] : List Tree), u.IsSyntax := nofun
  have htext := lexes_placedFrom hk hbare htree hnone (.none _) elements e.start (d.source.drop e.stop) ?_
  · rw [← List.map_cons, hslot.front_moved hbuilt, ← he] at htext
    simpa [Tree.leavesOfList] using htext
  · rw [← List.map_cons, Tree.front_map_bare, Tree.back_map_bare, Tree.leavesOfList_bareOfList]
    simpa [significant, Tree.leavesOfList] using hnodup

theorem HasList.parse_elements (hbuilt : d.Built ls ts) (h : d.HasList r path k xs e.start e.stop)
    {elements : List (Element r)} (he : e.inserted = Element.textOf elements) :
    ∃ d', parse (d.source.splice e.start e.stop e.inserted) = .ok d' ∧
      [d'.root] = Tree.fill (path.map (Crumb.moved e.startAfter e.stopAfter))
        ((k.moved e.startAfter e.stopAfter).settled (Element.placedFrom e.start elements)) := by
  have hmoved := congrArg (List.map (Tree.moved e.startAfter e.stopAfter)) h.fill_eq
  rw [Tree.map_moved_fill, List.map_singleton, List.map_cons] at hmoved
  have htree : (d.root.moved e.startAfter e.stopAfter).bare.IsSyntax := by
    rw [Tree.bare_moved, hbuilt.bare_root]
    exact hbuilt.isSyntax.moved
  have hroot : (d.root.moved e.startAfter e.stopAfter).kind = .category .sourceFile := by
    rw [Tree.kind_moved, hbuilt.root_eq, Tree.kind_node]
  obtain ⟨zs, hzs, hzsTrimmed⟩ := (h.list.moved e.startAfter e.stopAfter).isTrimmed_children
    (hbuilt.isTrimmed_moved _ _) hmoved htree hroot (Element.isTrimmed_placedFrom elements e.start)
    (Element.getLast_placedFrom elements e.start)
  rw [Tree.role_moved, hbuilt.root_eq, Tree.role_node] at hzs
  have hparse := h.toHasSlot.parse_among hbuilt h.list.isAmong (Element.isSyntax_placedFrom elements e.start)
    (Element.labels_placedFrom elements e.start) (h.lexes_before hbuilt he) (h.lexes_elements hbuilt he)
    hzsTrimmed fun us hus => Crumb.eq_of_fill_settled hzs hus
  exact ⟨_, hparse, hzs.symm⟩

theorem Built.hasSlot_root (hbuilt : d.Built ls ts) :
    d.HasSlot [Crumb.behind []] d.root.children (markLength d.source) d.source.length := by
  have hwithin : ∀ l ∈ Tree.leavesOfList d.root.children,
      markLength d.source ≤ l.start ∧ l.stop ≤ d.source.length := by
    rw [hbuilt.leavesOfList_children.1]
    exact hbuilt.lexes.within
  refine ⟨?_, nofun, hwithin, nofun, markLength_le _, Nat.le_refl _, Nat.le_refl _⟩
  rw [hbuilt.root_eq]
  simp [Tree.fill, Crumb.around, Crumb.behind, Tree.children]

theorem Built.hasSlot_behind (hbuilt : d.Built ls ts) :
    d.HasSlot [Crumb.behind d.root.children] [] d.source.length d.source.length := by
  have hfront : Tree.front [Crumb.behind d.root.children] = ls := by
    rw [Tree.front, Crumb.behind, List.reverse_reverse, hbuilt.leavesOfList_children.1]
    rfl
  refine ⟨?_, fun l hl => ?_, fun _ hl => absurd hl List.not_mem_nil,
    fun _ hl => absurd hl List.not_mem_nil, Nat.le_refl _, markLength_le _, Nat.le_refl _⟩
  · rw [hbuilt.root_eq]
    simp [Tree.fill, Crumb.around, Crumb.behind, Tree.children]
  · exact (hbuilt.lexes.within l (hfront ▸ hl)).2

theorem Built.expands_children (hbuilt : d.Built ls ts) :
    Production.Expands (.many Repetition.declarations.item) (Tree.labels d.root.children) := by
  have hlabels : Tree.labels d.root.children = ts.map Tree.label := by
    have hbare := hbuilt.bare_root
    rw [hbuilt.root_eq] at hbare ⊢
    rw [Tree.labels_eq, Tree.children, (Tree.node.inj hbare).2.2]
  rw [hlabels]
  cases hbuilt.isSyntax with
  | node expands => exact expands

theorem Built.isAmong_behind (hbuilt : d.Built ls ts) :
    (Crumb.behind d.root.children).IsAmong .declarations := by
  refine ⟨rfl, ?_, Repetition.follows_of_last .empty⟩
  rw [Crumb.behind, List.reverse_reverse]
  exact hbuilt.expands_children

theorem Built.isSyntax_children (hbuilt : d.Built ls ts) :
    ∀ t ∈ Tree.bareOfList d.root.children, t.IsSyntax :=
  Tree.isSyntax_of_fill (hbuilt.hasSlot_root.isSyntax_fill_bare hbuilt)

theorem Built.map_moved_children (hbuilt : d.Built ls ts) (hstart : e.start = d.source.length) :
    d.root.children.map (Tree.moved e.startAfter e.stopAfter) = d.root.children := by
  refine (List.map_congr_left fun t ht => Edit.moved_before fun l hl => ?_).trans (List.map_id _)
  have hmem : l ∈ ls := by
    rw [← hbuilt.leavesOfList_children.1, Tree.leavesOfList_eq_flatMap]
    exact List.mem_flatMap_of_mem ht hl
  rw [hstart]
  exact ⟨(Lexes.inOrder hbuilt.lexes).nonempty l hmem, (hbuilt.lexes.within l hmem).2⟩

section Joined

variable {d' : Document} {ls' : List Lexeme} {ts' : List Tree} (hbuilt : d.Built ls ts)
  (hbuilt' : d'.Built ls' ts') (hmark : markLength d'.source = 0)

include hbuilt hbuilt' hmark

theorem Built.lexes_joined :
    Lexes (tokensOf (Tree.front [Crumb.behind d.root.children])) (d.source.length + 1) d'.source
      (Tree.leavesOfList (d'.root.children.map
        (Tree.moved (· + (d.source.length + 1)) (· + (d.source.length + 1))))) [] := by
  have hslot := hbuilt.hasSlot_behind
  have hslot' := hbuilt'.hasSlot_root
  rw [hmark] at hslot'
  have hexpands := hbuilt'.expands_children
  rw [Tree.labels_eq] at hexpands
  have htree := hbuilt.isAmong_behind.isSyntax_fill (hslot.isSyntax_fill_bare hbuilt)
    hbuilt'.isSyntax_children hexpands
  have htext : Lexes _ _ (_ ++ []) _ [] := hslot'.lexes_elements hbuilt' hbuilt'.expands_children
    (d.source.length + 1) (hslot.fill_bare hbuilt) htree (hslot.nodup_around hbuilt) nofun fun _ => nofun
  have hcarry : carry 0 (d.source.length + 1) = (· + (d.source.length + 1)) := by
    funext n
    rw [carry]
    omega
  rw [← List.map_cons, Tree.map_token_front, List.append_nil, carried, ← Tree.leavesOfList_map_moved,
    hcarry] at htext
  simpa [Bytes.slice] using htext

theorem Built.parse_joined :
    ∃ d'', parse (d.source ++ 10 :: d'.source) = .ok d'' ∧
      d''.root = .node none .sourceFile (d.root.children ++ d'.root.children.map
        (Tree.moved (· + (d.source.length + 1)) (· + (d.source.length + 1)))) := by
  obtain ⟨e, he⟩ : ∃ e : Edit, e = ⟨d.source.length, d.source.length, 10 :: d'.source⟩ := ⟨_, rfl⟩
  have hstart : e.start = d.source.length := by rw [he]
  have hrest : d.source.drop e.stop = [] := by rw [he, List.drop_length]
  have hinserted : e.inserted ++ d.source.drop e.stop = 10 :: d'.source := by
    rw [hrest, he, List.append_nil]
  have hsource : d.source.splice e.start e.stop e.inserted = d.source ++ 10 :: d'.source := by
    rw [Bytes.splice, List.append_assoc, hinserted, hstart, List.take_length]
  have hslot : d.HasSlot [Crumb.behind d.root.children] [] e.start e.stop := by
    rw [he]
    exact hbuilt.hasSlot_behind
  rw [← hsource]
  have hys : ∀ y ∈ Tree.bareOfList (d'.root.children.map
      (Tree.moved (· + (d.source.length + 1)) (· + (d.source.length + 1)))), y.IsSyntax := by
    intro y hy
    rw [Tree.bareOfList_map_moved] at hy
    obtain ⟨u, hu, rfl⟩ := List.mem_map.mp hy
    exact (hbuilt'.isSyntax_children u hu).moved
  refine ⟨_, hslot.parse_among hbuilt hbuilt.isAmong_behind hys ?_ ?_ ?_ ?_ ?_, rfl⟩
  · rw [Tree.labels_map_moved]
    exact hbuilt'.expands_children
  · rw [hinserted]
    refine hslot.lexes_before hbuilt (.inr (.inl ?_)) fun _ _ => ?_
    all_goals
      intro b hb
      cases hb
      rfl
  · rw [hinserted, hrest, hstart]
    exact .space (by decide) (hbuilt.lexes_joined hbuilt' hmark)
  · intro t ht
    rcases List.mem_append.mp ht with ht | ht
    · exact hbuilt.isTrimmed t ht
    · obtain ⟨u, hu, rfl⟩ := List.mem_map.mp ht
      exact (hbuilt'.isTrimmed u hu).moved
  · intro us hus
    have hmoved : (Crumb.behind d.root.children).moved e.startAfter e.stopAfter =
        Crumb.behind d.root.children := by
      rw [Crumb.moved, Crumb.behind, List.map_reverse, hbuilt.map_moved_children hstart]
      rfl
    rw [List.map_singleton, hmoved] at hus
    obtain rfl : us = _ := by simpa [Tree.fill, Crumb.around, Crumb.behind] using hus.symm
    exact ⟨rfl, rfl⟩

end Joined

/-- The elements of a list are read as they are whatever is before and behind them. Every list of an
accepted source can be replaced by elements of accepted sources, with newlines around them, and the
declarations of one source can stand behind those of another one. -/
theorem parse_juxtaposed (source : Bytes) (d : Document) (h : parse source = .ok d) :
    (∀ (r : Repetition), ∀ t ∈ d.root.subtrees, t.kind = .category r.category →
      ∃ path k xs start stop, d.HasList r path k xs start stop ∧ k.around xs = t) ∧
    (∀ (r : Repetition) (path : List Crumb) (k : Crumb) (xs : List Tree) (e : Edit)
      (elements : List (Element r)), d.HasList r path k xs e.start e.stop →
      e.inserted = Element.textOf elements →
      ∃ d', parse (source.splice e.start e.stop e.inserted) = .ok d' ∧
        [d'.root] = Tree.fill (path.map (Crumb.moved e.startAfter e.stopAfter))
          ((k.moved e.startAfter e.stopAfter).settled (Element.placedFrom e.start elements))) ∧
    ∀ (source' : Bytes) (d' : Document), parse source' = .ok d' → ¬ Bytes.byteOrderMark <+: source' →
      ∃ d'', parse (source ++ 10 :: source') = .ok d'' ∧
        d''.root = .node none .sourceFile (d.root.children ++ d'.root.children.map
          (Tree.moved (· + (source.length + 1)) (· + (source.length + 1)))) := by
  obtain ⟨rfl, ls, ts, hbuilt⟩ := exists_built h
  refine ⟨fun r t ht hkind => hbuilt.exists_hasList ht hkind,
    fun r path k xs e elements hlist he => hlist.parse_elements hbuilt he, fun source' d' h' hmark => ?_⟩
  obtain ⟨rfl, ls', ts', hbuilt'⟩ := exists_built h'
  refine hbuilt.parse_joined hbuilt' (if_neg ?_)
  rwa [List.isPrefixOf_iff_prefix]

/-- What stands before the precondition of a source file with one procedure that has no more than this,
and the precondition. -/
def specified? : Tree → Option (List Tree × Tree)
  | .node none .sourceFile [.node none .procDeclaration [a, b, c, t, u, v, spec]] =>
    some ([a, b, c, t, u, v], spec)
  | _ => none

theorem eq_of_specified? {t spec : Tree} {us : List Tree} (h : specified? t = some (us, spec)) :
    t = .node none .sourceFile [.node none .procDeclaration (us ++ [spec])] := by
  unfold specified? at h
  split at h
  · cases h
    rfl
  · cases h

theorem exists_hasList_comment : ∃ d k spec,
    parse (Bytes.ofText "proc p() -> () /* c */ pre 1") = .ok d ∧
      d.HasList .specifications [Crumb.behind []] k [spec] 23 28 ∧
      k.HoldsElement .specifications [spec] ∧ spec.kind = .category .preCondition := by
  obtain ⟨d, hd⟩ := isOk_parse_iff.mp
    (show (parse (Bytes.ofText "proc p() -> () /* c */ pre 1")).isOk = true by decide +kernel)
  have hall : (parse (Bytes.ofText "proc p() -> () /* c */ pre 1")).toOption.any (fun d =>
      (specified? d.root).any fun x =>
        Tree.labels x.1 == [(some .direction, .token (.keyword .kwProc)),
          (some .name, .token .identifier), (some .inputs, .category .parameterList),
          (none, .token (.punctuation .arrow)), (some .outputs, .category .parameterList)] &&
            x.2.label == (none, .category .preCondition) && x.2.start == 23 && x.2.stop == 28) =
      true := by
    decide +kernel
  rw [hd] at hall
  obtain ⟨-, ls, ts, hbuilt⟩ := exists_built hd
  obtain ⟨_, hd', hany⟩ := (Option.any_eq_true _ _).mp hall
  obtain rfl := Option.some.inj hd'
  obtain ⟨⟨us, spec⟩, hspecified, hmatch⟩ := (Option.any_eq_true _ _).mp hany
  have hroot := eq_of_specified? hspecified
  simp only [Bool.and_eq_true, beq_iff_eq] at hmatch
  obtain ⟨⟨⟨hlabels, hspec⟩, hstart⟩, hstop⟩ := hmatch
  have hkind : spec.kind = .category .preCondition := congrArg Prod.snd hspec
  have hcomment : spec.isComment = false := by rw [Tree.isComment, hkind]; rfl
  have hitem : Production.Expands Repetition.specifications.item (Tree.labels [spec]) := by
    have hone : Tree.labels [spec] = [(none, .category .preCondition)] := by
      simp [Tree.labels, hcomment, hspec]
    rw [hone]
    exact .hidden (.this (.visible _))
  have hhead : ∀ x ∈ [spec].head?, x.isComment = false := by simpa using hcomment
  have hgetLast : ∀ x ∈ [spec].getLast?, x.isComment = false := by simpa using hcomment
  have hlist : Crumb.HoldsList .specifications ⟨none, .procDeclaration, us.reverse, []⟩ [spec] := by
    refine ⟨rfl, ?_, hitem.many_singleton, .field (.other .empty), hhead, hgetLast⟩
    rw [List.reverse_reverse, hlabels]
    exact .seq (.other .empty) (.seq (.field (.this (.token _))) (.seq (.field (.token _))
      (.seq (.field (.visible _)) (.seq (.token _) (.field (.visible _))))))
  have hfill : Tree.fill [⟨none, .procDeclaration, us.reverse, []⟩, Crumb.behind []] [spec] =
      [d.root] := by
    rw [hroot]
    simp [Tree.fill, Crumb.around, Crumb.behind]
  have hplace := hbuilt.hasList hfill hlist (List.cons_ne_nil _ _)
  have hstart' : Tree.startOfList [spec] = 23 := hstart
  have hstop' : Tree.stopOfList [spec] = 28 := hstop
  rw [hstart', hstop'] at hplace
  exact ⟨d, _, spec, hd, hplace, ⟨hlist.isAmong, hitem, hhead, hgetLast⟩, hkind⟩

/-- A precondition is put twice in its own place, and the procedure behind itself. -/
theorem parse_juxtaposed_specifications : ∃ (d d' d'' : Document) (k : Crumb)
    (x : Element .specifications) (f g : Nat → Nat),
    parse (Bytes.ofText "proc p() -> () /* c */ pre 1") = .ok d ∧
      d.HasList .specifications [Crumb.behind []] k x.trees 23 28 ∧
      parse (Bytes.ofText "proc p() -> () /* c */ \npre 1\n\npre 1\n") = .ok d' ∧
      [d'.root] = Tree.fill ([Crumb.behind []].map (Crumb.moved f g))
        ((k.moved f g).settled (Element.placedFrom 23 [x, x])) ∧
      parse (Bytes.ofText "proc p() -> () /* c */ pre 1\nproc p() -> () /* c */ pre 1") = .ok d'' ∧
      d''.root = .node none .sourceFile (d.root.children ++ d.root.children.map
        (Tree.moved (· + 29) (· + 29))) := by
  obtain ⟨d, k, spec, hd, hlist, helement, -⟩ := exists_hasList_comment
  obtain ⟨x, hx, htext⟩ : ∃ x : Element .specifications, x.trees = [spec] ∧
      x.text = Bytes.ofText "pre 1" := by
    obtain ⟨hstart, hstop⟩ := hlist.whole (List.cons_ne_nil _ _)
    refine ⟨⟨_, d, hd, _, k, [spec], hlist.fill_eq, helement⟩, rfl, ?_⟩
    show (Bytes.ofText "proc p() -> () /* c */ pre 1").slice (Tree.startOfList [spec])
      (Tree.stopOfList [spec]) = _
    rw [← hstart, ← hstop]
    decide
  obtain ⟨-, hlists, hjoined⟩ := parse_juxtaposed _ d hd
  obtain ⟨d', hd', hroot'⟩ := hlists .specifications [Crumb.behind []] k [spec]
    ⟨23, 28, Element.textOf [x, x]⟩ [x, x] hlist rfl
  obtain ⟨d'', hd'', hroot''⟩ := hjoined _ d hd (by decide)
  refine ⟨d, d', d'', k, x, _, _, hd, hx ▸ hlist, ?_, hroot', ?_, ?_⟩
  · have hsource : (Bytes.ofText "proc p() -> () /* c */ pre 1").splice 23 28
        (Element.textOf [x, x]) = Bytes.ofText "proc p() -> () /* c */ \npre 1\n\npre 1\n" := by
      rw [Element.textOf, Element.textOf, Element.textOf, htext]
      decide
    exact hsource ▸ hd'
  · have hsource : Bytes.ofText "proc p() -> () /* c */ pre 1" ++
        10 :: Bytes.ofText "proc p() -> () /* c */ pre 1" =
          Bytes.ofText "proc p() -> () /* c */ pre 1\nproc p() -> () /* c */ pre 1" := by
      decide
    exact hsource ▸ hd''
  · have hlength : (Bytes.ofText "proc p() -> () /* c */ pre 1").length + 1 = 29 := by decide
    rwa [hlength] at hroot''

/-- Without its precondition the procedure ends before the comment, which is then behind it. -/
theorem exists_comment_behind : ∃ (d : Document) (path : List Crumb) (k : Crumb) (xs : List Tree)
    (e : Edit), parse (Bytes.ofText "proc p() -> () /* c */ pre 1") = .ok d ∧
      d.HasList .specifications path k xs e.start e.stop ∧
      e.inserted = Element.textOf ([] : List (Element .specifications)) ∧
      ¬ ∃ d' root, parse ((Bytes.ofText "proc p() -> () /* c */ pre 1").splice e.start e.stop e.inserted) =
          .ok d' ∧
        Tree.fill (path.map (Crumb.moved e.startAfter e.stopAfter))
          [(k.moved e.startAfter e.stopAfter).around
            (Element.placedFrom e.start ([] : List (Element .specifications)))] = [root] ∧
        d'.root.children.map Tree.label = root.children.map Tree.label := by
  obtain ⟨d, k, spec, hd, hlist, -, -⟩ := exists_hasList_comment
  refine ⟨d, _, k, [spec], ⟨23, 28, []⟩, hd, hlist, rfl, ?_⟩
  rintro ⟨d', root, hd', hroot, hlabels⟩
  have htwo : (parse ((Bytes.ofText "proc p() -> () /* c */ pre 1").splice 23 28 [])).toOption.all
      (fun d' => d'.root.children.length == 2) = true := by decide +kernel
  rw [hd'] at htwo
  have hlength : d'.root.children.length = 2 := beq_iff_eq.mp htwo
  obtain rfl : _ = root := List.singleton_inj.mp hroot
  have hone := congrArg List.length hlabels
  rw [List.length_map, hlength] at hone
  simp [Crumb.around, Crumb.behind, Crumb.moved, Tree.children] at hone

end Document

end HeyVL
