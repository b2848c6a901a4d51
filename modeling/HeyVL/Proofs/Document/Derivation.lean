import HeyVL.Proofs.Document.Parsing
import HeyVL.Proofs.Tree.Placing

namespace HeyVL

open Token Grammar Lexeme

namespace Document

variable {source : Bytes} {d : Document} {t : Tree}

/-- The document was built from the lexemes: its tree is a syntax tree of the tokens, in which the
comments are placed. -/
structure Built (d : Document) (ls : List Lexeme) (ts : List Tree) : Prop where
  lexes : LexesTo d.source ls []
  isSyntax : (Tree.node none .sourceFile ts).IsSyntax
  leaves_eq : Tree.leavesOfList ts = significant ls
  root_eq : d.root = .node none .sourceFile (Tree.placeAll (onlyComments ls) ts)

theorem exists_built (h : parse source = .ok d) : d.source = source ∧ ∃ ls ts, d.Built ls ts := by
  obtain ⟨ls, ts, hlexes, hts, hleaves, rfl⟩ := exists_of_parse_eq_ok h
  exact ⟨rfl, ls, ts, hlexes, hts, hleaves, rfl⟩

variable {ls : List Lexeme} {ts : List Tree}

theorem token_of_mem_onlyComments {l : Lexeme} (hl : l ∈ onlyComments ls) :
    l.token = .comment := by
  simpa using (List.mem_filter.mp hl).2

theorem Built.bare_root (h : d.Built ls ts) : d.root.bare = .node none .sourceFile ts := by
  have hbare : (Tree.node none .sourceFile ts).bare = .node none .sourceFile ts :=
    h.isSyntax.bare_eq.2
  rw [Tree.bare] at hbare
  rw [h.root_eq, Tree.bare, Tree.bareOfList_placeAll fun _ => token_of_mem_onlyComments, hbare]

theorem Built.isSyntax_bare (h : d.Built ls ts) (ht : t ∈ d.root.subtrees)
    (hcomment : t.isComment = false) : t.bare.IsSyntax := by
  refine Tree.isSyntax_of_mem_subtrees ?_ ht hcomment
  rw [h.bare_root]
  exact h.isSyntax

theorem Built.role_of_isComment (h : d.Built ls ts) (ht : t ∈ d.root.subtrees)
    (hcomment : t.isComment = true) : t.role = none := by
  cases t with
  | node role c children => cases hcomment
  | leaf role l =>
    rw [h.root_eq] at ht
    rcases List.mem_cons.mp ht with ht | ht
    · cases ht
    · refine (Tree.mem_subtreesOfList_placeAll ht).resolve_right fun hmem => ?_
      have hderived := h.isSyntax.of_mem_subtrees (List.mem_cons_of_mem _ hmem)
      rw [hderived.bare_eq.1] at hcomment
      cases hcomment

/-- Every node of a document has children as its production lists them, each in its role, and the
comments between these have none. -/
theorem expands_of_parse (source : Bytes) (d : Document) (h : parse source = .ok d) :
    d.root.label = (none, .category .sourceFile) ∧
      ∀ t ∈ d.root.subtrees,
        (∀ c, t.kind = .category c → c.production.Expands (Tree.labels t.children)) ∧
          (t.isComment = true → t.role = none) := by
  obtain ⟨-, ls, ts, hbuilt⟩ := exists_built h
  refine ⟨by rw [hbuilt.root_eq]; rfl, fun t ht => ⟨fun c hc => ?_, hbuilt.role_of_isComment ht⟩⟩
  cases t with
  | leaf role l => cases hc
  | node role c' children =>
    obtain rfl := Kind.category.inj hc
    have hderived := hbuilt.isSyntax_bare ht rfl
    rw [Tree.bare] at hderived
    cases hderived with
    | node expands _ _ =>
      rw [Tree.labels_eq]
      exact expands

theorem expands_of_parse_commented :
    ∃ d, parse (Bytes.ofText "proc p(a: T, b: []T) -> () pre /* c */ a") = .ok d ∧
      d.root.label = (none, .category .sourceFile) ∧
        ∀ t ∈ d.root.subtrees,
          (∀ c, t.kind = .category c → c.production.Expands (Tree.labels t.children)) ∧
            (t.isComment = true → t.role = none) := by
  obtain ⟨d, hd⟩ := isOk_parse_iff.mp
    (show (parse (Bytes.ofText "proc p(a: T, b: []T) -> () pre /* c */ a")).isOk = true by
      decide +kernel)
  exact ⟨d, hd, expands_of_parse _ d hd⟩

end Document

end HeyVL
