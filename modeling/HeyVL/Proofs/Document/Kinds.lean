import HeyVL.Proofs.Document.Extents
import HeyVL.Proofs.Language.Symbols
import HeyVL.Proofs.Tree.Subtrees

namespace HeyVL

namespace Document

variable {d : Document} {ls : List Lexeme} {ts : List Tree} {r : Row} {t : Token}

/-- The outline of a document tells kinds and roles that the language has. -/
structure IsTabulated (d : Document) : Prop where
  /-- The name and namedness of a node are those of one symbol that makes nodes, and its number is
  found by them. -/
  kind : ∀ r ∈ d.outline, ∀ id,
    (∃ s, Symbol.ofId? id = some s ∧ s.visible = true ∧ s.name = r.kind.name ∧
      s.named = r.kind.named) ↔ id = Symbol.idOf r.kind.name r.kind.named
  /-- The role of a node is found in the field table by its name, and the table has its name at the
  number of the role and nowhere else. -/
  role : ∀ r ∈ d.outline, ∀ f, r.role = some f →
    Field.ofText? f.text = some f ∧ ∀ id, (Field.ofId? id).map Field.text = some f.text ↔ id = f.id
  hidden : ∀ r ∈ d.outline, ∀ id s, Symbol.ofId? id = some s → s.visible = false →
    s.name ≠ r.kind.name
  sound : ∀ r ∈ d.outline, r.kind.name ≠ Symbol.error.name
  /-- No token is missing: each of them has its text in the source. -/
  present : ∀ r ∈ d.outline, ∀ t, r.kind = .token t →
    r.start < r.stop ∧ r.stop ≤ d.source.length ∧ d.source.slice r.start r.stop ∈ t.language

theorem Built.exists_lexeme (h : d.Built ls ts) (hr : r ∈ d.outline) (ht : r.kind = .token t) :
    ∃ l ∈ ls, l.token = t ∧ r.start = l.start ∧ r.stop = l.stop := by
  rw [outline_eq_rows] at hr
  obtain ⟨depth, u, hu, rfl⟩ := exists_of_mem_rows hr
  cases u with
  | node => cases ht
  | leaf role l =>
    refine ⟨l, ?_, Kind.token.inj ht, rfl, rfl⟩
    rw [← h.leaves_root]
    exact Tree.mem_leaves_iff.mpr ⟨role, hu⟩

theorem isTabulated_of_parse (source : Bytes) (d : Document) (h : parse source = .ok d) :
    d.IsTabulated := by
  obtain ⟨-, ls, ts, hbuilt⟩ := exists_built h
  refine ⟨fun r _ id => Kind.entry_iff, fun r _ f _ => ⟨f.ofText?_text, fun id => Field.entry_iff⟩,
    fun r _ id s hs hhidden => Kind.name_ne_of_hidden hs hhidden, fun r _ => Kind.name_ne_error, ?_⟩
  intro r hr t ht
  obtain ⟨l, hl, rfl, hstart, hstop⟩ := hbuilt.exists_lexeme hr ht
  rw [hstart, hstop]
  exact ⟨(Lexes.inOrder hbuilt.lexes).nonempty l hl, (hbuilt.lexes.within l hl).2,
    hbuilt.lexes.slice_mem l hl⟩

/-- The word `true` is a token in the literal and a name elsewhere, and a comment has no role. -/
theorem isTabulated_of_literal :
    ∃ d, parse (Bytes.ofText "proc true() -> () pre true /* c */ && inf x: T. ∞") = .ok d ∧
      d.IsTabulated := by
  obtain ⟨d, hd⟩ := isOk_parse_iff.mp
    (show (parse (Bytes.ofText "proc true() -> () pre true /* c */ && inf x: T. ∞")).isOk = true by
      decide +kernel)
  exact ⟨d, hd, isTabulated_of_parse _ d hd⟩

end Document

end HeyVL
