import HeyVL.Proofs.Document.Lists
import HeyVL.Proofs.Document.Roles
import HeyVL.Proofs.Grammar.Semicolons
import HeyVL.Proofs.Tree.Deleting

namespace HeyVL

open Token Grammar Lexeme

namespace Bytes

variable {bytes : Bytes} {ls ms : List Lexeme} {l : Lexeme}

/-- The bytes with spaces in the place of the lexemes. -/
def cleared (bytes : Bytes) (ls : List Lexeme) : Bytes :=
  bytes.mapIdx fun i b => if ∃ l ∈ ls, l.start ≤ i ∧ i < l.stop then 32 else b

theorem cleared_nil (bytes : Bytes) : bytes.cleared [] = bytes := by
  refine List.ext_getElem? fun i => ?_
  simp [cleared]

theorem cleared_congr (h : ∀ l, l ∈ ls ↔ l ∈ ms) : bytes.cleared ls = bytes.cleared ms := by
  simp only [cleared, h]

theorem cleared_cleared (bytes : Bytes) (ls ms : List Lexeme) :
    (bytes.cleared ls).cleared ms = bytes.cleared (ls ++ ms) := by
  refine List.ext_getElem? fun i => ?_
  simp only [cleared, List.getElem?_mapIdx, Option.map_map, List.mem_append, or_and_right, exists_or]
  congr 1
  funext b
  by_cases hls : ∃ l ∈ ls, l.start ≤ i ∧ i < l.stop
  · simp [hls]
  · simp [hls]

theorem cleared_singleton (hle : l.start ≤ l.stop) (hstop : l.stop ≤ bytes.length) :
    bytes.cleared [l] = bytes.splice l.start l.stop (List.replicate (l.stop - l.start) 32) := by
  refine List.ext_getElem? fun i => ?_
  simp only [cleared, List.getElem?_mapIdx, List.mem_singleton, exists_eq_left]
  have hlength : (bytes.take l.start).length = l.start := by simp; omega
  rcases Nat.lt_or_ge i l.start with hbefore | hstart
  · rw [splice, List.append_assoc, List.getElem?_append_left (by omega), List.getElem?_take_of_lt hbefore]
    simp [Nat.not_le.mpr hbefore]
  rcases Nat.lt_or_ge i l.stop with hinside | hbehind
  · rw [splice, List.getElem?_append_left (by simp; omega), List.getElem?_append_right (by omega),
      List.getElem?_replicate, if_pos (by omega), List.getElem?_eq_getElem (by omega)]
    simp [hstart, hinside]
  · rw [splice, List.getElem?_append_right (by simp; omega), List.getElem?_drop]
    simp only [List.length_append, hlength, List.length_replicate, Nat.not_lt.mpr hbehind, and_false,
      if_false, Option.map_id']
    congr 1
    omega

end Bytes

namespace Edit

/-- A semicolon with spaces around it is put into a source. -/
def semicolonAt (n : Nat) : Edit := ⟨n, n, Bytes.ofText " ; "⟩

end Edit

namespace Lexeme

/-- The semicolon between the spaces that are put into a source. -/
def semicolonAt (n : Nat) : Lexeme := ⟨.punctuation .semicolon, n + 1, n + 2⟩

end Lexeme

theorem Lexes.semicolonAt {before : List Token} {n : Nat} {rest : Bytes}
    (h : Viable before (.punctuation .semicolon)) :
    Lexes before n (Bytes.ofText " ; " ++ rest) [Lexeme.semicolonAt n] rest :=
  .space (by decide) (.lexeme (taken_semicolon h) (.space (by decide) (.stop _ _ _)))

theorem Tree.isComment_of_statement {t : Tree} (h : t.kind ∈ Hidden.statement.kinds) :
    t.isComment = false := by
  have hne : t.kind ≠ .token .comment := by
    intro hcomment
    rw [hcomment] at h
    exact absurd h (by decide)
  simpa [Tree.isComment] using hne

theorem Crumb.IsAmong.ne_nil_of_statements {k : Crumb} (hk : k.IsAmong .statements) :
    k.before ≠ [] ∧ k.after ≠ [] := by
  constructor
  · intro hnil
    have hlabels := hk.labels_before_ne_nil Repetition.noConfusion
    rw [hnil] at hlabels
    exact hlabels rfl
  · intro hnil
    have hlabels := Repetition.ne_nil_of_follows_statements hk.follows
    rw [hnil] at hlabels
    exact hlabels rfl

/-- The place in a block behind a child of it. -/
def Crumb.inBlock (role : Option Field) (us : List Tree) (s : Tree) (vs : List Tree) : Crumb :=
  ⟨role, .block, s :: us.reverse, vs⟩

namespace Document

variable {d : Document} {ls : List Lexeme} {ts xs ys us vs : List Tree} {path : List Crumb} {k : Crumb}
  {e : Edit} {l : Lexeme} {s : Tree} {role : Option Field} {start stop : Nat}

theorem HasSlot.behind (h : d.HasSlot (k :: path) xs start stop) :
    d.HasSlot (k.between xs [] :: path) [] stop stop := by
  refine ⟨?_, fun l hl => ?_, fun _ hl => absurd hl List.not_mem_nil, fun l hl => ?_, Nat.le_refl _,
    h.mark_le.trans h.le, h.stop_le⟩
  · have hfill := h.fill_eq
    rw [Tree.fill] at hfill ⊢
    rw [Crumb.around_between]
    simpa using hfill
  · rw [Crumb.front_between] at hl
    rcases List.mem_append.mp hl with hl | hl
    · exact (h.front_le l hl).trans h.le
    · exact (h.inside l hl).2
  · rw [Crumb.back_between] at hl
    exact h.le_back l hl

theorem HasSlot.viable_of_leaf (hbuilt : d.Built ls ts) (h : d.HasSlot (k :: path) xs start stop)
    (htree : ∀ x ∈ Tree.fill ((k :: path).map Crumb.bare) [.leaf role l], x.IsSyntax) :
    Viable (tokensOf (Tree.front (k :: path))) l.token := by
  obtain ⟨ts', -, hsyntax, hleaves⟩ := Tree.exists_sourceFile (h.fill_bare hbuilt) htree
  have hderivable := Tree.derivable_of_isSyntax hsyntax
  rw [hleaves, ← List.map_cons, Tree.leavesOfList_singleton, Tree.leaves, List.map_append,
    Tree.map_token_front] at hderivable
  exact ⟨_, hderivable⟩

theorem HasSlot.map_moved_of_length (hbuilt : d.Built ls ts) (h : d.HasSlot path xs e.start e.stop)
    (hlength : e.start + e.inserted.length = e.stop) :
    path.map (Crumb.moved e.startAfter e.stopAfter) = path := by
  refine Tree.map_moved_of_fixed fun l hl => ?_
  have hpos := (Lexes.inOrder hbuilt.lexes).nonempty l (by
    rw [← h.leaves_eq hbuilt]
    rcases List.mem_append.mp hl with hl | hl <;> simp [hl])
  have hapart : l.stop ≤ e.start ∨ e.stop ≤ l.start :=
    (List.mem_append.mp hl).imp (h.front_le l) (h.le_back l)
  have hle := h.le
  rw [Edit.startAfter, Edit.stopAfter, hlength]
  constructor
  · split <;> omega
  · split <;> omega

theorem HasSlot.fill_nil_eq_without (h : d.HasSlot (k :: path) [.leaf role l] l.start l.stop)
    (hl : l.start < l.stop) : Tree.fill (k :: path) [] = [d.root.without [l]] := by
  refine Tree.fill_nil_eq_without h.fill_eq (Tree.withoutOfList_leaf (List.mem_singleton_self l)) ?_
  intro m hm hml
  obtain rfl := List.mem_singleton.mp hml
  rcases List.mem_append.mp hm with hm | hm
  · have := h.front_le m hm
    omega
  · have := h.le_back m hm
    omega

theorem HasSlot.semicolonAt_notMem (hbuilt : d.Built ls ts) (h : d.HasSlot path xs e.start e.stop)
    {n : Nat} (he : e = Edit.semicolonAt n) :
    ∀ l ∈ Tree.front (path.map (Crumb.moved e.startAfter e.stopAfter)) ++
      Tree.back (path.map (Crumb.moved e.startAfter e.stopAfter)), l ∉ [semicolonAt n] := by
  intro l hl hsemicolon
  obtain rfl := List.mem_singleton.mp hsemicolon
  rw [h.front_moved hbuilt, h.back_moved hbuilt] at hl
  rcases List.mem_append.mp hl with hl | hl
  · have hle : n + 2 ≤ e.start := h.front_le _ hl
    rw [he] at hle
    exact absurd hle (Nat.not_le.mpr (Nat.lt_add_of_pos_right Nat.two_pos))
  · obtain ⟨m, -, heq⟩ := List.mem_map.mp hl
    have hstart : e.start + e.inserted.length + (m.start - e.stop) = n + 1 := congrArg Lexeme.start heq
    have hlength : e.start + e.inserted.length = n + 3 := by
      rw [he]
      rfl
    omega

/-- A source with something else behind a space in a place among the statements of a block is read as the
tree with this there, if this is a tree of the grammar. -/
theorem HasSlot.parse_statements (hbuilt : d.Built ls ts) (h : d.HasSlot (k :: path) xs e.start e.stop)
    (hk : k.IsAmong .statements) (hspace : e.inserted.head? = some 32)
    (hline : (∃ l ∈ Tree.front (k :: path), l.token = .comment ∧ l.stop = e.start) →
      ∃ b ∈ (d.source.drop e.start).head?, b ≠ 10)
    (htree : ∀ x ∈ Tree.fill ((k :: path).map Crumb.bare) (Tree.bareOfList ys), x.IsSyntax)
    (hys : ∀ y ∈ ys, y.IsTrimmed)
    (hlexes : Lexes (tokensOf (Tree.front (k :: path))) e.start (e.inserted ++ d.source.drop e.stop)
      (Tree.leavesOfList ys) (d.source.drop e.stop)) :
    ∃ d', parse (d.source.splice e.start e.stop e.inserted) = .ok d' ∧
      Tree.fill ((k :: path).map (Crumb.moved e.startAfter e.stopAfter)) ys = [d'.root] := by
  obtain ⟨zs, hzs⟩ := h.exists_fill_moved hbuilt e ys
  have hbefore : Lexes [] (markLength d.source)
      (d.source.slice (markLength d.source) e.start ++ (e.inserted ++ d.source.drop e.stop))
      (Tree.front (k :: path)) (e.inserted ++ d.source.drop e.stop) := by
    refine h.lexes_before hbuilt (.inr (.inl ?_)) fun hlast hnewline => ?_
    · obtain ⟨v, hv⟩ := List.head?_eq_some_iff.mp hspace
      rw [hv]
      intro b hb
      cases hb
      decide
    · obtain ⟨b, hb, hne⟩ := hline hlast
      exact absurd (hnewline b hb) hne
  refine ⟨_, h.parse_among_of_isSyntax hbuilt hk htree hbefore hlexes ?_ fun us hus => ?_, hzs⟩
  · obtain ⟨hfront, hback⟩ := hk.ne_nil_of_statements
    have hmoved := congrArg (List.map (Tree.moved e.startAfter e.stopAfter)) h.fill_eq
    rw [Tree.map_moved_fill, List.map_singleton] at hmoved
    cases path with
    | nil =>
      -- The source file is no block.
      have hroot : k.around xs = d.root := List.singleton_inj.mp h.fill_eq
      rw [hbuilt.root_eq] at hroot
      obtain ⟨-, hcategory, -⟩ := Tree.node.inj hroot
      exact Category.noConfusion (hk.category_eq.symm.trans hcategory)
    | cons k' path =>
      exact Tree.isTrimmed_children_of_inside (hbuilt.isTrimmed_moved _ _) hmoved hzs hys
        (List.map_eq_nil_iff.not.mpr hfront) (List.map_eq_nil_iff.not.mpr hback)
  · obtain rfl : zs = us := by simpa using hzs.symm.trans hus
    exact ⟨rfl, rfl⟩

theorem Built.exists_slot_semicolon (hbuilt : d.Built ls ts) (hl : l ∈ d.root.leaves)
    (htoken : l.token = .punctuation .semicolon) :
    ∃ k path, Crumb.IsAmong .statements k ∧ d.HasSlot (k :: path) [.leaf none l] l.start l.stop ∧
      l.stop = l.start + 1 := by
  obtain ⟨r, hleaf⟩ := Tree.mem_leaves_iff.mp hl
  obtain ⟨role, c, us, hp, hchild⟩ := hbuilt.exists_parent_leaf hleaf
  obtain ⟨us, vs, rfl⟩ := List.append_of_mem hchild
  have hexpands := hbuilt.expands hp
  have hlabels : Tree.labels (us ++ .leaf r l :: vs) =
      Tree.labels us ++ (r, .token (.punctuation .semicolon)) :: Tree.labels vs := by
    have hcomment : (Tree.leaf r l).isComment = false := by simp [Tree.isComment, htoken]
    simp [Tree.labels, hcomment, Tree.label, htoken]
  rw [hlabels] at hexpands
  obtain ⟨rfl, hsemicolon⟩ := Repetition.eq_semicolon_of_mem_labels
    (hexpands.mem_labels _ (List.mem_append_right _ List.mem_cons_self)) rfl
  obtain rfl : r = none := congrArg Prod.fst hsemicolon
  obtain ⟨hprecedes, hfollows⟩ := Repetition.among_of_semicolon hexpands
  obtain ⟨path, hfill⟩ := Tree.exists_fill_of_mem_node hp
  have hslot := hbuilt.hasSlot_of_ne_nil hfill (List.cons_ne_nil _ _)
  refine ⟨_, path, ⟨rfl, ?_, hfollows⟩, hslot, ?_⟩
  · rwa [List.reverse_reverse]
  · have hlex := hbuilt.lexes
    have hpos := (Lexes.inOrder hlex).nonempty l (by rwa [← hbuilt.leaves_root])
    rw [← hslot.leaves_eq hbuilt, Tree.leavesOfList_singleton, Tree.leaves, List.singleton_append] at hlex
    have htext := hlex.exists_taken.1.stands.text
    rw [htoken] at htext
    have hsemicolon : Bytes.ofText Punctuation.semicolon.text = [59] := rfl
    have hone := ((matches_byte_iff rfl hsemicolon).mp htext).1
    omega

theorem Built.parse_cleared_singleton (hbuilt : d.Built ls ts) (hl : l ∈ d.root.leaves)
    (htoken : l.token = .punctuation .semicolon) :
    parse (d.source.cleared [l]) = .ok ⟨d.source.cleared [l], d.root.without [l]⟩ := by
  obtain ⟨k, path, hk, hslot, hstop⟩ := hbuilt.exists_slot_semicolon hl htoken
  obtain ⟨e, he⟩ : ∃ e : Edit, e = ⟨l.start, l.stop, [32]⟩ := ⟨_, rfl⟩
  have hsource : d.source.cleared [l] = d.source.splice e.start e.stop e.inserted := by
    rw [Bytes.cleared_singleton hslot.le hslot.stop_le, he, hstop, Nat.add_sub_cancel_left]
    rfl
  have hspliced : d.HasSlot (k :: path) [.leaf none l] e.start e.stop := by rwa [he]
  have hline : ∃ b ∈ (d.source.drop e.start).head?, b ≠ 10 := by
    rw [he]
    exact hbuilt.head_ne_newline hslot.fill_eq (List.cons_ne_nil _ _)
  have hlexes : Lexes (tokensOf (Tree.front (k :: path))) e.start (e.inserted ++ d.source.drop e.stop)
      (Tree.leavesOfList []) (d.source.drop e.stop) := by
    rw [he]
    exact .space (by decide) (.stop _ _ _)
  have hnone : ∀ y ∈ Tree.bareOfList [], y.IsSyntax := fun _ hy => absurd hy List.not_mem_nil
  obtain ⟨d', hparse, hroot⟩ := hspliced.parse_statements hbuilt hk (by rw [he]; rfl) (fun _ => hline)
    (hk.isSyntax_fill (hspliced.isSyntax_fill_bare hbuilt) hnone (.none _))
    (fun _ hy => absurd hy List.not_mem_nil) hlexes
  have hlength : e.start + e.inserted.length = e.stop := by
    rw [he, hstop]
    rfl
  have hpath := hspliced.map_moved_of_length hbuilt hlength
  have hwithout := hslot.fill_nil_eq_without (by omega)
  rw [hpath, hwithout] at hroot
  obtain ⟨hsource', -⟩ := exists_built hparse
  rw [hsource, hparse, ← hsource', List.singleton_inj.mp hroot]

theorem parse_cleared {source : Bytes} (h : parse source = .ok d) {chosen : List Lexeme}
    (hchosen : ∀ l ∈ chosen, l ∈ d.root.leaves ∧ l.token = .punctuation .semicolon) :
    parse (source.cleared chosen) = .ok ⟨source.cleared chosen, d.root.without chosen⟩ := by
  induction chosen generalizing source d with
  | nil =>
    obtain ⟨rfl, -⟩ := exists_built h
    rwa [Bytes.cleared_nil, Tree.without_nil]
  | cons l rest ih =>
    have hrest : ∀ m ∈ rest, m ∈ d.root.leaves ∧ m.token = .punctuation .semicolon :=
      fun m hm => hchosen m (List.mem_cons_of_mem _ hm)
    by_cases hmem : l ∈ rest
    · have hsame (m : Lexeme) : m ∈ l :: rest ↔ m ∈ rest := by
        rw [List.mem_cons, or_iff_right_of_imp]
        rintro rfl
        exact hmem
      rw [Bytes.cleared_congr hsame, Tree.without_congr fun m _ => hsame m]
      exact ih h hrest
    · obtain ⟨rfl, ls, ts, hbuilt⟩ := exists_built h
      obtain ⟨hl, htoken⟩ := hchosen l List.mem_cons_self
      have hroot : d.root.isLeafIn [l] = false := by
        rw [hbuilt.root_eq]
        rfl
      -- The others are still leaves when the first one is deleted.
      rw [← List.singleton_append, ← Bytes.cleared_cleared, ← Tree.without_without]
      refine ih (hbuilt.parse_cleared_singleton hl htoken) fun m hm => ⟨?_, (hrest m hm).2⟩
      rw [Tree.leaves_without hroot]
      refine List.mem_filter.mpr ⟨(hrest m hm).1, ?_⟩
      have hne : m ≠ l := by
        rintro rfl
        exact hmem hm
      simpa using hne

section Statement

variable (hbuilt : d.Built ls ts) (hblock : .node role .block (us ++ s :: vs) ∈ d.root.subtrees)
  (hs : s.kind ∈ Hidden.statement.kinds)
  (hvs : ∀ t ∈ (vs.filter fun t => !t.isComment).head?, t.kind ≠ .token (.punctuation .semicolon))

include hbuilt hblock hs

theorem Built.exists_slot_inBlock :
    ∃ path, d.HasSlot (Crumb.inBlock role us s vs :: path) [] (d.stopOf s) (d.stopOf s) ∧
      ∀ l ∈ Tree.front (Crumb.inBlock role us s vs :: path), l.token = .comment → l.stop < d.stopOf s := by
  obtain ⟨path, hfill⟩ := Tree.exists_fill_of_mem_node hblock
  obtain ⟨hfull, hslot⟩ := hbuilt.hasSlot hfill
  refine ⟨path, hslot.behind, fun l hl htoken => ?_⟩
  have hfront : Tree.front (Crumb.inBlock role us s vs :: path) =
      Tree.front (⟨role, .block, us.reverse, vs⟩ :: path) ++ Tree.leavesOfList [s] :=
    Crumb.front_between ⟨role, .block, us.reverse, vs⟩ [s] [] path
  have hmem : s ∈ d.root.subtrees :=
    Tree.mem_subtrees_trans hblock (Tree.mem_subtrees_of_mem_children (by simp) s.mem_subtrees_self)
  have hends := (Tree.isTrimmed_of_children hbuilt.isTrimmed hfill s (List.mem_singleton_self s)).endsBare
  rw [hfront] at hl
  rcases List.mem_append.mp hl with hl | hl
  · obtain ⟨m, hm⟩ := List.exists_mem_of_ne_nil _ hfull.leaves_ne_nil
    have hinside := hslot.inside m (by rwa [Tree.leavesOfList_singleton])
    have hpos := hbuilt.inOrder.nonempty m ((Tree.isInfix_leaves hmem).subset hm)
    have hle := hslot.front_le l hl
    omega
  · refine hslot.stop_lt_of_comment hbuilt ?_ l hl htoken
    rw [Tree.leavesOfList_singleton]
    exact hfull.getLast_ne_comment hends (Tree.isComment_of_statement hs)

include hvs

theorem Built.isAmong_inBlock : (Crumb.inBlock role us s vs).IsAmong .statements ∧
    Category.block.production.Expands (Tree.labels (s :: us.reverse).reverse ++
      (Repetition.semicolon :: Tree.labels vs)) := by
  have hexpands := hbuilt.expands hblock
  have hcomment := Tree.isComment_of_statement hs
  have hlabels (ws : List Tree) : Tree.labels (s :: ws) = s.label :: Tree.labels ws := by
    simp [Tree.labels, hcomment]
  rw [Tree.labels_append, hlabels] at hexpands
  have hlabel : s.label ∈ Repetition.statementLabels :=
    Repetition.mem_statementLabels_of_mem_labels
      (hexpands.mem_labels _ (List.mem_append_right _ List.mem_cons_self)) hs
  obtain ⟨hprecedes, hfollows, hnew⟩ := Repetition.among_of_statement hexpands hlabel fun y hy => by
    rw [Tree.labels, List.head?_map] at hy
    obtain ⟨t, ht, rfl⟩ := Option.mem_map.mp hy
    exact fun heq => hvs t ht (congrArg Prod.snd heq)
  have hbefore : Tree.labels (s :: us.reverse).reverse = Tree.labels us ++ [s.label] := by
    rw [List.reverse_cons, List.reverse_reverse, Tree.labels_append, hlabels]
    rfl
  refine ⟨⟨rfl, ?_, hfollows⟩, ?_⟩
  · rw [Crumb.inBlock, hbefore]
    exact hprecedes
  · rw [hbefore, List.append_assoc]
    exact hnew

theorem Built.parse_semicolonAt (he : e = Edit.semicolonAt (d.stopOf s)) :
    ∃ d', parse (d.source.splice e.start e.stop e.inserted) = .ok d' ∧
      d'.root.without [semicolonAt (d.stopOf s)] = d.root.moved e.startAfter e.stopAfter ∧
      .node role .block (us.map (Tree.moved e.startAfter e.stopAfter) ++
        s.moved e.startAfter e.stopAfter :: .leaf none (semicolonAt (d.stopOf s)) ::
          vs.map (Tree.moved e.startAfter e.stopAfter)) ∈ d'.root.subtrees := by
  obtain ⟨hk, hexpands⟩ := hbuilt.isAmong_inBlock hblock hs hvs
  obtain ⟨path, hslot, hcomments⟩ := hbuilt.exists_slot_inBlock hblock hs
  have hspliced : d.HasSlot (Crumb.inBlock role us s vs :: path) [] e.start e.stop := by rwa [he]
  have htree : ∀ x ∈ Tree.fill ((Crumb.inBlock role us s vs :: path).map Crumb.bare)
      (Tree.bareOfList [.leaf none (semicolonAt (d.stopOf s))]), x.IsSyntax := by
    refine hk.isSyntax_fill_of_expands (hspliced.isSyntax_fill_bare hbuilt) (fun y hy => ?_) hexpands
    rw [List.mem_singleton.mp hy]
    exact .leaf _ Token.noConfusion
  have hviable : Viable _ (.punctuation .semicolon) := hspliced.viable_of_leaf hbuilt htree
  have hline : ¬ ∃ l ∈ Tree.front (Crumb.inBlock role us s vs :: path), l.token = .comment ∧
      l.stop = e.start := by
    rintro ⟨l, hl, htoken, hstop⟩
    rw [he] at hstop
    exact (hcomments l hl htoken).ne hstop
  have hlexes : Lexes (tokensOf (Tree.front (Crumb.inBlock role us s vs :: path))) e.start
      (e.inserted ++ d.source.drop e.stop)
      (Tree.leavesOfList [.leaf none (semicolonAt (d.stopOf s))]) (d.source.drop e.stop) := by
    rw [he]
    exact .semicolonAt hviable
  have htrimmed : ∀ y ∈ [Tree.leaf none (semicolonAt (d.stopOf s))], y.IsTrimmed := by
    intro y hy
    rw [List.mem_singleton.mp hy]
    exact .leaf fun _ => rfl
  obtain ⟨d', hparse, hroot⟩ := hspliced.parse_statements hbuilt hk (by rw [he]; rfl)
    (fun hlast => absurd hlast hline) htree htrimmed hlexes
  refine ⟨d', hparse, ?_, ?_⟩
  -- The new tree without the semicolon has nothing in the place, and neither has the old one.
  · have hmoved := congrArg (List.map (Tree.moved e.startAfter e.stopAfter)) hspliced.fill_eq
    rw [Tree.map_moved_fill, List.map_nil, List.map_singleton] at hmoved
    have hwithout := Tree.fill_nil_eq_without hroot (Tree.withoutOfList_leaf (List.mem_singleton_self _))
      (hspliced.semicolonAt_notMem hbuilt he)
    exact List.singleton_inj.mp (hwithout.symm.trans hmoved)
  · have hmem := Tree.around_mem_subtrees hroot
    simpa [Crumb.around, Crumb.moved, Crumb.inBlock] using hmem

end Statement

/-- Semicolons carry no structure in the document. -/
structure HasOptionalSemicolons (d : Document) : Prop where
  /-- With spaces for some semicolons, the source is read as the tree without these leaves. -/
  cleared : ∀ chosen : List Lexeme,
    (∀ l ∈ chosen, l ∈ d.root.leaves ∧ l.token = .punctuation .semicolon) →
      parse (d.source.cleared chosen) = .ok ⟨d.source.cleared chosen, d.root.without chosen⟩
  /-- With a semicolon behind a statement of a block that has none, the source is read as a tree that has
  this leaf behind the statement, and is the old tree without it, but for the places of what is behind. -/
  inserted : ∀ (role : Option Field) (us : List Tree) (s : Tree) (vs : List Tree) (e : Edit),
    .node role .block (us ++ s :: vs) ∈ d.root.subtrees → s.kind ∈ Hidden.statement.kinds →
    (∀ t ∈ (vs.filter fun t => !t.isComment).head?, t.kind ≠ .token (.punctuation .semicolon)) →
    e = Edit.semicolonAt (d.stopOf s) →
      ∃ d', parse (d.source.splice e.start e.stop e.inserted) = .ok d' ∧
        d'.root.without [semicolonAt (d.stopOf s)] = d.root.moved e.startAfter e.stopAfter ∧
        .node role .block (us.map (Tree.moved e.startAfter e.stopAfter) ++
          s.moved e.startAfter e.stopAfter :: .leaf none (semicolonAt (d.stopOf s)) ::
            vs.map (Tree.moved e.startAfter e.stopAfter)) ∈ d'.root.subtrees

theorem hasOptionalSemicolons_of_parse (source : Bytes) (d : Document) (h : parse source = .ok d) :
    d.source = source ∧ d.HasOptionalSemicolons := by
  obtain ⟨rfl, ls, ts, hbuilt⟩ := exists_built h
  exact ⟨rfl, fun chosen hchosen => parse_cleared h hchosen,
    fun _ _ _ _ _ hblock hs hvs he => hbuilt.parse_semicolonAt hblock hs hvs he⟩

/-- A block with a semicolon between two statements, and one in a comment. -/
theorem hasOptionalSemicolons_of_havoc : ∃ d,
    (parse (Bytes.ofText "proc p() -> () \x7b a = b; /* ; */ havoc c \x7d") = .ok d ∧
      (d.root.leaves.filter fun l => l.token == .punctuation .semicolon,
        (d.root.subtrees.filter fun t => t.kind == .category .block).map fun t => t.children.map Tree.kind) =
        ([⟨.punctuation .semicolon, 22, 23⟩],
          [[.token (.punctuation .braceOpen), .category .assignmentStatement,
            .token (.punctuation .semicolon), .token .comment, .category .havocStatement,
            .token (.punctuation .braceClose)]])) ∧
    d.source = Bytes.ofText "proc p() -> () \x7b a = b; /* ; */ havoc c \x7d" ∧ d.HasOptionalSemicolons := by
  suffices hparse : ∃ d, _ ∧ _ from hparse.imp fun d hd => ⟨hd, hasOptionalSemicolons_of_parse _ d hd.1⟩
  exact exists_parse_of_map (by decide +kernel)

end Document

end HeyVL
