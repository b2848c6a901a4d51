import HeyVL.Document.Outline
import HeyVL.Proofs.Document.Derivation
import HeyVL.Proofs.Tree.Extents

namespace HeyVL

open Token Grammar Lexeme

namespace Bytes

theorem row_pointAt (bytes : Bytes) (offset : Nat) :
    (bytes.pointAt offset).row = (bytes.take offset).count 10 := by
  rw [pointAt]
  induction bytes.take offset using List.reverseRecOn with
  | nil => rfl
  | append_singleton bytes b ih =>
    rw [List.foldl_append, List.foldl_cons, List.foldl_nil, Point.advance]
    split
    · next hb => simp [ih, hb]
    · next hb => simp [ih, hb]

theorem column_pointAt (bytes : Bytes) (offset : Nat) :
    (bytes.pointAt offset).column =
      ((bytes.take offset).reverse.takeWhile (· != 10)).length := by
  rw [pointAt]
  induction bytes.take offset using List.reverseRecOn with
  | nil => rfl
  | append_singleton bytes b ih =>
    rw [List.foldl_append, List.foldl_cons, List.foldl_nil, Point.advance, List.reverse_append,
      List.reverse_singleton, List.singleton_append, List.takeWhile_cons]
    split
    · next hb => simp [hb]
    · next hb => simp [ih, hb]

end Bytes

theorem Token.language_of_not_named {t : Token} (h : t.named = false) :
    t.language = Bytes.literally t.name := by
  cases t
  case keyword | command | quantifier | binary | unary | punctuation => rfl
  all_goals cases h

namespace Lexeme

theorem significant_append_onlyComments_perm (ls : List Lexeme) :
    (significant ls ++ onlyComments ls).Perm ls := by
  have h := List.filter_append_perm (fun l : Lexeme => l.token != .comment) ls
  simpa [significant, onlyComments, bne] using h

end Lexeme

namespace Document

variable {source rest : Bytes} {d : Document} {t : Tree} {ls : List Lexeme} {ts : List Tree}

theorem LexesTo.within (h : LexesTo source ls rest) :
    ∀ l ∈ ls, markLength source ≤ l.start ∧ l.stop ≤ source.length := by
  intro l hl
  have hwithin := Lexes.within h l hl
  have hpos := (Lexes.inOrder h).nonempty l hl
  rw [List.length_drop] at hwithin
  omega

theorem LexesTo.slice_mem (h : LexesTo source ls rest) :
    ∀ l ∈ ls, source.slice l.start l.stop ∈ l.token.language := by
  intro l hl
  have hmatches := (Lexes.matches_of_mem h hl).2
  rwa [List.drop_drop, Nat.add_sub_cancel' (h.within l hl).1] at hmatches

/-- A byte that no lexeme covers is whitespace or belongs to the byte order mark. -/
theorem LexesTo.isSpace_of_uncovered (h : LexesTo source ls []) {i : Nat} {b : UInt8}
    (hi : source[i]? = some b) (hls : ∀ l ∈ ls, ¬ (l.start ≤ i ∧ i < l.stop)) :
    Bytes.isSpace b = true ∨ i < markLength source := by
  by_cases hmark : i < markLength source
  · exact .inr hmark
  · left
    have hoffset : markLength source + (i - markLength source) = i := by omega
    apply Lexes.isSpace_of_uncovered h (i := i - markLength source)
    · rwa [List.getElem?_drop, hoffset]
    · rwa [hoffset]

theorem Built.leavesOfList_children (h : d.Built ls ts) :
    Tree.leavesOfList d.root.children = ls ∧ ∀ t ∈ d.root.children, t.IsFull := by
  have hls := Lexes.inOrder h.lexes
  rw [h.root_eq]
  apply Tree.leavesOfList_placeAll (fun t => h.isSyntax.isFull_of_mem) hls
  · rw [h.leaves_eq]
    exact hls.sublist List.filter_sublist
  · rw [h.leaves_eq]
    exact significant_append_onlyComments_perm ls

theorem Built.leaves_root (h : d.Built ls ts) : d.root.leaves = ls := by
  have hchildren := h.leavesOfList_children.1
  rwa [h.root_eq] at hchildren ⊢

theorem Built.isFull (h : d.Built ls ts) (ht : t ∈ Tree.subtreesOfList d.root.children) :
    t.IsFull := by
  rw [Tree.subtreesOfList_eq_flatMap] at ht
  obtain ⟨u, hu, ht⟩ := List.mem_flatMap.mp ht
  exact (h.leavesOfList_children.2 u hu).of_mem_subtrees ht

theorem startOf_eq (h : t.IsFull) : d.startOf t = t.start := by
  cases h with
  | leaf => rfl
  | @node role c ts hc hts inner => cases c <;> first | rfl | contradiction

theorem stopOf_eq (h : t.IsFull) : d.stopOf t = t.stop := by
  cases h with
  | leaf => rfl
  | @node role c ts hc hts inner => cases c <;> first | rfl | contradiction

theorem exists_ends {role : Option Field} {c : Category} {us : List Tree}
    (h : (Tree.node role c us).IsFull) :
    ∃ first ∈ us.head?, ∃ last ∈ us.getLast?,
      d.startOf (.node role c us) = d.startOf first ∧
        d.stopOf (.node role c us) = d.stopOf last := by
  have hnode := h
  cases h with
  | node _ _ hus inner =>
    have hfirst := inner _ (List.head_mem hus)
    have hlast := inner _ (List.getLast_mem hus)
    refine ⟨us.head hus, List.head?_eq_some_head hus, us.getLast hus,
      List.getLast?_eq_some_getLast hus, ?_, ?_⟩
    · rw [startOf_eq hnode, startOf_eq hfirst, Tree.start]
      obtain ⟨u, rest, rfl⟩ := List.exists_cons_of_ne_nil hus
      rfl
    · rw [stopOf_eq hnode, stopOf_eq hlast, Tree.stop]
      exact Tree.stopOfList_eq us _ (List.getLast?_eq_some_getLast hus)

mutual

theorem exists_of_mem_rows {place : Nat → Point} {depth : Nat} {t : Tree} {r : Row}
    (h : r ∈ d.rows place depth t) : ∃ depth, ∃ u ∈ t.subtrees, r = d.rowOf place depth u := by
  cases t with
  | leaf role l => exact ⟨depth, _, by simp [Tree.subtrees], List.mem_singleton.mp h⟩
  | node role c ts =>
    rcases List.mem_cons.mp h with rfl | h
    · exact ⟨depth, _, by simp [Tree.subtrees], rfl⟩
    · obtain ⟨depth, u, hu, rfl⟩ := exists_of_mem_rowsOfList h
      exact ⟨depth, u, List.mem_cons_of_mem _ hu, rfl⟩

theorem exists_of_mem_rowsOfList {place : Nat → Point} {depth : Nat} {ts : List Tree} {r : Row}
    (h : r ∈ d.rowsOfList place depth ts) :
    ∃ depth, ∃ u ∈ Tree.subtreesOfList ts, r = d.rowOf place depth u := by
  cases ts with
  | nil => cases h
  | cons t rest =>
    rcases List.mem_append.mp h with h | h
    · obtain ⟨depth, u, hu, rfl⟩ := exists_of_mem_rows h
      exact ⟨depth, u, List.mem_append_left _ hu, rfl⟩
    · obtain ⟨depth, u, hu, rfl⟩ := exists_of_mem_rowsOfList h
      exact ⟨depth, u, List.mem_append_right _ hu, rfl⟩

end

/-- A place as it is counted: in newlines before it, and in bytes since the last of them. -/
def lineAndColumn (source : Bytes) (offset : Nat) : Point where
  row := (source.take offset).count 10
  column := ((source.take offset).reverse.takeWhile (· != 10)).length

theorem pointAt_eq_lineAndColumn (source : Bytes) (offset : Nat) :
    source.pointAt offset = lineAndColumn source offset := by
  rw [lineAndColumn, ← Bytes.row_pointAt, ← Bytes.column_pointAt]

/-- The leaves are the source without its whitespace, and every node is told where it is. -/
structure IsLossless (d : Document) : Prop where
  bounds : ∀ l ∈ d.root.leaves, l.start < l.stop ∧ l.stop ≤ d.source.length
  apart : d.root.leaves.Pairwise fun a b => a.stop ≤ b.start
  /-- Outside of all leaves there is only whitespace, behind the byte order mark if there is one. -/
  uncovered : ∀ i b, d.source[i]? = some b →
    (∀ l ∈ d.root.leaves, ¬ (l.start ≤ i ∧ i < l.stop)) →
      Bytes.isSpace b = true ∨
        Bytes.byteOrderMark <+: d.source ∧ i < Bytes.byteOrderMark.length
  text : ∀ l ∈ d.root.leaves, d.source.slice l.start l.stop ∈ l.token.language
  /-- A token that is not named is spelled like its name. -/
  spelling : ∀ l ∈ d.root.leaves, l.token.named = false →
    d.source.slice l.start l.stop = Bytes.ofText l.token.name
  /-- A node reaches from its first child to its last. -/
  extent : ∀ role c ts, .node role c ts ∈ Tree.subtreesOfList d.root.children →
    ∃ first ∈ ts.head?, ∃ last ∈ ts.getLast?,
      d.startOf (.node role c ts) = d.startOf first ∧ d.stopOf (.node role c ts) = d.stopOf last
  /-- The source file begins with its first child and takes in the rest of the source. -/
  rootStart : d.startOf d.root = (d.root.children.head?.map d.startOf).getD d.source.length
  rootStop : d.stopOf d.root = d.source.length
  reported : ∀ r ∈ d.outline, ∃ t ∈ d.root.subtrees, r.kind = t.kind ∧
    r.start = d.startOf t ∧ r.first = lineAndColumn d.source r.start ∧
    r.stop = d.stopOf t ∧ r.last = lineAndColumn d.source r.stop

theorem isLossless_of_parse (source : Bytes) (d : Document) (h : parse source = .ok d) :
    d.source = source ∧ d.IsLossless := by
  obtain ⟨hsource, ls, ts, hbuilt⟩ := exists_built h
  have hleaves := hbuilt.leaves_root
  have hls := Lexes.inOrder hbuilt.lexes
  refine ⟨hsource, ?_, ?_, ?_, ?_, ?_, ?_, ?_, ?_, ?_⟩
  · intro l hl
    rw [hleaves] at hl
    exact ⟨hls.nonempty l hl, (hbuilt.lexes.within l hl).2⟩
  · rw [hleaves]
    exact hls.apart
  · intro i b hi huncovered
    rw [hleaves] at huncovered
    refine (hbuilt.lexes.isSpace_of_uncovered hi huncovered).imp_right fun hmark => ?_
    rw [markLength] at hmark
    split at hmark
    · next hprefix => exact ⟨List.isPrefixOf_iff_prefix.mp hprefix, hmark⟩
    · cases hmark
  · rw [hleaves]
    exact hbuilt.lexes.slice_mem
  · intro l hl hnamed
    rw [hleaves] at hl
    have htext := hbuilt.lexes.slice_mem l hl
    rwa [language_of_not_named hnamed] at htext
  · intro role c us hu
    exact exists_ends (hbuilt.isFull hu)
  · have hchildren := hbuilt.leavesOfList_children.2
    rw [hbuilt.root_eq] at hchildren ⊢
    rw [Tree.children] at hchildren ⊢
    cases hplaced : Tree.placeAll (onlyComments ls) ts with
    | nil => rfl
    | cons u us =>
      rw [hplaced] at hchildren
      exact (startOf_eq (hchildren u (by simp))).symm
  · rw [hbuilt.root_eq]
    rfl
  · intro r hr
    rw [outline_eq_rows] at hr
    obtain ⟨depth, t, ht, rfl⟩ := exists_of_mem_rows hr
    exact ⟨t, ht, rfl, rfl, pointAt_eq_lineAndColumn _ _, rfl, pointAt_eq_lineAndColumn _ _⟩

theorem isLossless_of_marked_source :
    ∃ source d, source = Bytes.byteOrderMark ++
        Bytes.ofText "// →\ndomain D \x7b axiom a \"\n\" ⊓ x \x7d " ∧
      parse source = .ok d ∧ d.source = source ∧ d.IsLossless := by
  obtain ⟨d, hd⟩ := isOk_parse_iff.mp
    (show (parse (Bytes.byteOrderMark ++
      Bytes.ofText "// →\ndomain D \x7b axiom a \"\n\" ⊓ x \x7d ")).isOk = true by decide +kernel)
  exact ⟨_, d, rfl, hd, isLossless_of_parse _ d hd⟩

end Document

end HeyVL
