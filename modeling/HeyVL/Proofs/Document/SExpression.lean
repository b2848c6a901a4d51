import HeyVL.Proofs.Document.Derivation
import HeyVL.Proofs.Document.Outline
import HeyVL.Proofs.Tree.SExpression
import Mathlib.Data.List.Chain

namespace HeyVL

open SExpression

namespace Row

def named (r : Row) : Bool := r.kind.named

/-- What a row tells of a named node without its place. -/
def entry (r : Row) : NameEntry := ⟨r.depth, r.role.map Field.text, r.kind.name⟩

end Row

namespace Document

variable {source : Bytes} {d d' : Document} {t : Tree}

/-- The named nodes in the order of the outline. -/
def namedEntries (d : Document) : List NameEntry :=
  (d.outline.filter Row.named).map Row.entry

theorem isChain_rows (d : Document) (place : Nat → Point) (depth : Nat) (t : Tree) :
    (d.rows place depth t).IsChain fun r next => r.named = false → next.depth ≤ r.depth := by
  induction t using Tree.inductionOnChildren generalizing depth with
  | leaf => exact .singleton _
  | node role c ts ih =>
    rw [rows, List.isChain_cons]
    refine ⟨fun _ _ hnamed => (by cases hnamed), ?_⟩
    induction ts with
    | nil => exact .nil
    | cons t ts ihts =>
      rw [rowsOfList]
      refine (ih t List.mem_cons_self _).append
        (ihts fun u hu => ih u (List.mem_cons_of_mem _ hu)) fun r hr next hnext _ => ?_
      rw [depth_head?_rowsOfList hnext]
      exact le_depth_of_mem_rows (List.mem_of_getLast? hr)

theorem filter_rows_of_not_named (ht : t.named = false) (place : Nat → Point) (depth : Nat) :
    (d.rows place depth t).filter Row.named = [] := by
  have hrow : ¬ (d.rowOf place depth t).named = true := Bool.not_eq_true _ ▸ ht
  cases t with
  | leaf role l => rw [rows, List.filter_cons_of_neg hrow, List.filter_nil]
  | node => cases ht

theorem entries_names (ht : t.named = true) (depth : Nat) :
    t.names.entries depth = ((d.rows place depth t).filter Row.named).map Row.entry := by
  have hrow : (d.rowOf place depth t).named = true := ht
  induction t using Tree.inductionOnChildren generalizing depth with
  | leaf role l =>
    rw [rows, List.filter_cons_of_pos hrow]
    rfl
  | node role c ts ih =>
    rw [rows, List.filter_cons_of_pos hrow, List.map_cons, Tree.names, NameTree.entries]
    refine congrArg _ ?_
    clear hrow
    induction ts with
    | nil => rfl
    | cons t ts ihts =>
      have hrest := ihts (fun u hu => ih u (List.mem_cons_of_mem _ hu)) rfl
      rw [rowsOfList, List.filter_append, List.map_append, ← hrest, Tree.namesOfList]
      cases hnamed : t.named with
      | true =>
        rw [if_pos rfl, NameTree.entriesOfList, ih t List.mem_cons_self hnamed _ hnamed]
      | false =>
        rw [if_neg Bool.false_ne_true, filter_rows_of_not_named hnamed]
        rfl

theorem entries_names_root (h : d.root.named = true) : d.root.names.entries 0 = d.namedEntries := by
  rw [namedEntries, outline_eq_rows, entries_names h]

/-- The named nodes of the outline are a tree, and the S-expression of the document tells it. -/
structure IsSpelledOut (d : Document) : Prop where
  /-- Nothing stands below a node that is not named. -/
  childless : d.outline.IsChain fun r next => r.named = false → next.depth ≤ r.depth
  /-- What is read is the one tree whose nodes are the named ones. -/
  decoded : ∃ t, decode d.root.sexp = some t ∧ ∀ u : NameTree, u.entries 0 = d.namedEntries ↔ u = t

theorem isSpelledOut (h : d.root.named = true) (hrole : d.root.role = none) : d.IsSpelledOut := by
  refine ⟨?_, d.root.names, Tree.decode_sexp h hrole, fun u => ?_⟩
  · rw [outline_eq_rows]
    exact d.isChain_rows _ _ _
  · rw [← entries_names_root h]
    exact ⟨NameTree.entries_injective, fun hu => by rw [hu]⟩

theorem sexp_eq_iff (h : d.root.named = true) (hrole : d.root.role = none)
    (h' : d'.root.named = true) (hrole' : d'.root.role = none) :
    d.root.sexp = d'.root.sexp ↔ d.namedEntries = d'.namedEntries := by
  rw [← entries_names_root h, ← entries_names_root h']
  constructor
  · intro hsexp
    have hdecode := Tree.decode_sexp h hrole
    rw [hsexp, Tree.decode_sexp h' hrole'] at hdecode
    rw [Option.some.inj hdecode]
  · intro hentries
    rw [Tree.sexp_eq_text, Tree.sexp_eq_text, NameTree.entries_injective hentries]

theorem label_root (h : parse source = .ok d) : d.root.label = (none, .category .sourceFile) := by
  obtain ⟨-, ls, ts, hbuilt⟩ := exists_built h
  rw [hbuilt.root_eq]
  rfl

/-- The S-expression of a document tells its named nodes, with their kinds, roles and order, and
nothing else. -/
theorem isSpelledOut_of_parse (source : Bytes) (d : Document) (h : parse source = .ok d) :
    d.IsSpelledOut ∧ ∀ source' d', parse source' = .ok d' →
      (d.root.sexp = d'.root.sexp ↔ d.namedEntries = d'.namedEntries) := by
  have hroot {source : Bytes} {d : Document} (h : parse source = .ok d) :
      d.root.named = true ∧ d.root.role = none := by
    obtain ⟨hrole, hkind⟩ := Prod.mk.inj (label_root h)
    exact ⟨by rw [Tree.named, hkind]; rfl, hrole⟩
  obtain ⟨hnamed, hrole⟩ := hroot h
  refine ⟨isSpelledOut hnamed hrole, fun source' d' h' => ?_⟩
  exact sexp_eq_iff hnamed hrole (hroot h').1 (hroot h').2

/-- The direction of a procedure and the operator between two operands are not named. -/
theorem isSpelledOut_of_procedures :
    ∃ d d', (parse (Bytes.ofText "proc p() -> () pre a /* c */ + b") = .ok d ∧
      parse (Bytes.ofText "coproc q() -> () pre x /* */ ⊓ y") = .ok d') ∧ d.IsSpelledOut ∧
        (d.root.sexp = d'.root.sexp ↔ d.namedEntries = d'.namedEntries) := by
  obtain ⟨d, hd⟩ := isOk_parse_iff.mp
    (show (parse (Bytes.ofText "proc p() -> () pre a /* c */ + b")).isOk = true by decide +kernel)
  obtain ⟨d', hd'⟩ := isOk_parse_iff.mp
    (show (parse (Bytes.ofText "coproc q() -> () pre x /* */ ⊓ y")).isOk = true by decide +kernel)
  have hspelled := isSpelledOut_of_parse _ d hd
  exact ⟨d, d', ⟨hd, hd'⟩, hspelled.1, hspelled.2 _ d' hd'⟩

end Document

end HeyVL
