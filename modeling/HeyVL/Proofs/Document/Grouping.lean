import HeyVL.Proofs.Document.Acceptance
import HeyVL.Proofs.Document.Derivation
import HeyVL.Proofs.Event.Spelling
import HeyVL.Proofs.Tree.Subtrees

/-!
How the expressions of a document are grouped: every token sequence of the language has one
derivation tree in which the operators group their operands by the levels, and this is what the
parser builds.
-/

namespace HeyVL

open Token Grammar Lexeme

namespace Tree

variable {t u : Tree} {ts : List Tree} {ls : List Lexeme}

/-- A derivation tree of a whole text in which every operator groups its operands by the levels. -/
structure IsGroupedDerivation (t : Tree) (ls : List Lexeme) : Prop where
  label_eq : t.label = (none, .category .sourceFile)
  isDerivation : t.IsDerivation
  grouped : ∀ u ∈ t.subtrees, u.isGroupedAt = true
  leaves_eq : t.leaves = ls

theorem labels_eq_of_isSyntax (h : ∀ t ∈ ts, t.IsSyntax) : labels ts = ts.map label := by
  rw [labels, List.filter_eq_self.mpr fun t ht => by simp [(h t ht).bare_eq.1]]

theorem IsSyntax.isDerivation (h : t.IsSyntax) : t.IsDerivation := by
  induction h with
  | leaf role _ => exact .leaf role _
  | node expands _ inner ih => exact .node (by rwa [labels_eq_of_isSyntax inner]) ih

theorem IsSyntax.isGroupedAt (h : t.IsSyntax) : t.isGroupedAt = true := by
  cases h with
  | leaf role _ => rfl
  | node _ grouped _ => exact grouped

theorem IsDerivation.isSyntax (h : t.IsDerivation) (hgrouped : ∀ u ∈ t.subtrees, u.isGroupedAt = true)
    (hleaves : ∀ l ∈ t.leaves, l.token ≠ .comment) : t.IsSyntax := by
  induction h with
  | leaf role l => exact .leaf role (hleaves l (List.mem_singleton_self l))
  | @node role c children expands inner ih =>
    have hderived : ∀ t ∈ children, t.IsSyntax := by
      intro t ht
      refine ih t ht (fun u hu => hgrouped u (mem_subtrees_of_mem_children ht hu)) fun l hl => ?_
      apply hleaves l
      rw [leaves, leavesOfList_eq_flatMap]
      exact List.mem_flatMap.mpr ⟨t, ht, hl⟩
    rw [labels_eq_of_isSyntax hderived] at expands
    exact .node expands (hgrouped _ (mem_subtrees_self _)) hderived

theorem isGroupedDerivation_iff (hls : ∀ l ∈ ls, l.token ≠ .comment) :
    t.IsGroupedDerivation ls ↔
      ∃ ts, t = .node none .sourceFile ts ∧ t.IsSyntax ∧ leavesOfList ts = ls := by
  constructor
  · intro h
    obtain ⟨ts, rfl⟩ := eq_node_of_label h.label_eq
    have hleaves := h.leaves_eq
    refine ⟨ts, rfl, h.isDerivation.isSyntax h.grouped fun l hl => ?_, hleaves⟩
    rw [hleaves] at hl
    exact hls l hl
  · rintro ⟨ts, rfl, hderived, hleaves⟩
    exact ⟨rfl, hderived.isDerivation, fun u hu => (hderived.of_mem_subtrees hu).isGroupedAt, hleaves⟩

theorem existsUnique_isGroupedDerivation (h : Derivable (ls.map token)) :
    ∃! t : Tree, t.IsGroupedDerivation ls := by
  have hls : ∀ l ∈ ls, l.token ≠ .comment :=
    fun l hl => h.ne_comment l.token (List.mem_map_of_mem hl)
  obtain ⟨ts, hderived, hleaves⟩ := exists_isSyntax h
  refine ⟨.node none .sourceFile ts, ?_, fun u hu => ?_⟩
  · exact (isGroupedDerivation_iff hls).mpr ⟨ts, rfl, hderived, hleaves⟩
  · obtain ⟨us, rfl, huderived, husleaves⟩ := (isGroupedDerivation_iff hls).mp hu
    have hbuild := Expectation.build?_source_iff.mpr ⟨hderived, hleaves⟩
    rw [Expectation.build?_source_iff.mpr ⟨huderived, husleaves⟩] at hbuild
    obtain ⟨rfl, -⟩ := List.cons.inj (Option.some.inj hbuild)
    rfl

end Tree

namespace Document

variable {d : Document} {ls : List Lexeme} {ts : List Tree} {t : Tree}

theorem token_of_mem_significant {l : Lexeme} (hl : l ∈ significant ls) :
    l.token ≠ .comment := by
  simpa using (List.mem_filter.mp hl).2

theorem Built.isGroupedDerivation (h : d.Built ls ts) :
    d.root.bare.IsGroupedDerivation (significant ls) := by
  rw [Tree.isGroupedDerivation_iff fun _ => token_of_mem_significant, h.bare_root]
  exact ⟨ts, rfl, h.isSyntax, h.leaves_eq⟩

theorem Built.isGroupedAt (h : d.Built ls ts) (ht : t ∈ d.root.subtrees) :
    t.isGroupedAt = true := by
  cases t with
  | leaf role l => rfl
  | node role c children =>
    have hderived := h.isSyntax_bare ht rfl
    rw [h.root_eq] at ht
    rcases List.mem_cons.mp ht with ht | ht
    · obtain ⟨rfl, rfl, rfl⟩ := Tree.node.inj ht
      rfl
    · have hends : Tree.endBare ts = true := by
        have hroot := h.isSyntax.endsBare
        rw [Tree.endsBare, Bool.and_eq_true] at hroot
        exact hroot.2
      rw [← Tree.isGroupedAt_bare
        (Tree.endsBare_of_mem_subtreesOfList (Tree.endBare_placeAll hends) ht)]
      exact hderived.isGroupedAt

/-- Every operator of a document groups its operands by the levels. A token sequence of the
language has one derivation tree in which all operators do so, and this is the tree that the
parser builds of it. -/
theorem unique_grouping :
    (∀ source d, parse source = .ok d → ∀ t ∈ d.root.subtrees, t.isGroupedAt = true) ∧
    (∀ ls : List Lexeme, Derivable (ls.map token) → ∃! t : Tree, t.IsGroupedDerivation ls) ∧
    (∀ source d, parse source = .ok d → ∃ ls, LexesTo source ls [] ∧
      d.root.bare.IsGroupedDerivation (significant ls)) ∧
    ∀ ts, Derivable ts → ∃ source d, parse source = .ok d ∧
      d.root.bare.leaves.map token = ts := by
  refine ⟨fun source d h t ht => ?_, fun ls => Tree.existsUnique_isGroupedDerivation,
    fun source d h => ?_, fun ts h => ?_⟩
  · obtain ⟨-, ls, ts, hbuilt⟩ := exists_built h
    exact hbuilt.isGroupedAt ht
  · obtain ⟨rfl, ls, ts, hbuilt⟩ := exists_built h
    exact ⟨ls, hbuilt.lexes, hbuilt.isGroupedDerivation⟩
  · have hbegin : Derivable ([] ++ ts) := h
    obtain ⟨ls, hls, rfl⟩ := Lexes.of_spell hbegin 0
    have hlexes : LexesTo (spell (tokensOf ls)) ls [] :=
      lexesTo_iff.mpr ⟨[], _, .inl rfl, rfl, hls⟩
    obtain ⟨d, hd⟩ := exists_parse_of_derivable hlexes h
    obtain ⟨hsource, ms, ts, hbuilt⟩ := exists_built hd
    have hms := hbuilt.lexes
    rw [hsource] at hms
    obtain rfl := hms.unique hlexes
    refine ⟨_, d, hd, ?_⟩
    rw [hbuilt.isGroupedDerivation.leaves_eq]
    rfl

/-- The lexemes of a domain with an axiom that is a sum of a name and a product. -/
def sumAxiom : List Lexeme :=
  [⟨.keyword .kwDomain, 0, 6⟩, ⟨.identifier, 7, 8⟩, ⟨.punctuation .braceOpen, 9, 10⟩,
    ⟨.keyword .kwAxiom, 11, 16⟩, ⟨.identifier, 17, 18⟩, ⟨.identifier, 19, 20⟩, ⟨.binary .add, 21, 22⟩,
    ⟨.identifier, 23, 24⟩, ⟨.binary .mul, 25, 26⟩, ⟨.identifier, 27, 28⟩,
    ⟨.punctuation .braceClose, 29, 30⟩]

theorem unique_grouping_axiom :
    ∃ d, parse (Bytes.ofText "domain D \x7b axiom a x + y * z \x7d") = .ok d ∧
      (∀ t ∈ d.root.subtrees, t.isGroupedAt = true) ∧
      (∃ ls, LexesTo (Bytes.ofText "domain D \x7b axiom a x + y * z \x7d") ls [] ∧
        significant ls = sumAxiom) ∧
      d.root.bare.IsGroupedDerivation sumAxiom ∧
      (∃! t : Tree, t.IsGroupedDerivation sumAxiom) ∧
      ∃ source d, parse source = .ok d ∧ d.root.bare.leaves.map token = sumAxiom.map token := by
  obtain ⟨d, hd⟩ := isOk_parse_iff.mp
    (show (parse (Bytes.ofText "domain D \x7b axiom a x + y * z \x7d")).isOk = true by
      decide +kernel)
  have hleaves : (parse (Bytes.ofText "domain D \x7b axiom a x + y * z \x7d")).toOption.all
      (fun d => d.root.bare.leaves == sumAxiom) = true := by
    decide +kernel
  have hderivable : Derivable (sumAxiom.map token) :=
    Expectation.accepts_source_iff.mp (by decide +kernel)
  obtain ⟨ls, hlexes, hgrouped⟩ := unique_grouping.2.2.1 _ d hd
  have hls : significant ls = sumAxiom := by
    rw [hd] at hleaves
    rw [← hgrouped.leaves_eq]
    exact beq_iff_eq.mp hleaves
  exact ⟨d, hd, unique_grouping.1 _ d hd, ⟨ls, hlexes, hls⟩, hls ▸ hgrouped,
    unique_grouping.2.1 _ hderivable, unique_grouping.2.2.2 _ hderivable⟩

end Document

end HeyVL
