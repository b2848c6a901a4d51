import HeyVL.Proofs.Document.Roles
import HeyVL.Proofs.Grammar.Brackets
import HeyVL.Proofs.Tree.Slots

namespace HeyVL

namespace Lexeme

variable {l r r' : Lexeme} {ls ms ms' vs vs' : List Lexeme} {b b' : Bracket}

def brackets (ls : List Lexeme) : List Token := (ls.map token).filter Token.isBracket

theorem brackets_append (ls ms : List Lexeme) : brackets (ls ++ ms) = brackets ls ++ brackets ms := by
  simp [brackets]

theorem brackets_cons_of_pos (h : l.token.isBracket = true) :
    brackets (l :: ls) = l.token :: brackets ls := by
  rw [brackets, List.map_cons, List.filter_cons_of_pos h, brackets]

theorem brackets_singleton_of_neg (h : l.token.isBracket = false) : brackets [l] = [] := by
  simp [brackets, h]

/-- The lexemes between an opening bracket and the closing one that belongs to it. -/
def IsPair (ls : List Lexeme) (l : Lexeme) (ms : List Lexeme) (r : Lexeme) : Prop :=
  ∃ us vs, ls = us ++ l :: (ms ++ r :: vs) ∧
    ∃ b : Bracket, l.token = b.opening ∧ r.token = b.closing ∧ WellNested (brackets ms)

theorem eq_of_closing (h : ms ++ r :: vs = ms' ++ r' :: vs') (hms : WellNested (brackets ms))
    (hms' : WellNested (brackets ms')) (hr : r.token = b.closing) (hr' : r'.token = b'.closing) :
    ms = ms' ∧ r = r' := by
  -- A bracket that closes too early would be one more than were opened.
  have hearlier {ms ms' xs vs vs' : List Lexeme} {r r' : Lexeme} {b : Bracket} (hms : WellNested (brackets ms))
      (hms' : WellNested (brackets ms')) (hr : r.token = b.closing) (hsplit : ms' = ms ++ xs)
      (hrest : r :: vs = xs ++ r' :: vs') : ms = ms' ∧ r = r' := by
    cases xs with
    | nil => exact ⟨by rw [hsplit, List.append_nil], (List.cons.inj hrest).1⟩
    | cons x xs =>
      obtain rfl := (List.cons.inj hrest).1
      rw [hsplit, brackets_append, brackets_cons_of_pos (by rw [hr, b.isBracket_closing])] at hms'
      exact absurd hms' (hms.not_append_closing (by rw [hr, b.isClosing_closing])
        (by rw [hr, b.isOpening_closing]))
  rcases List.append_eq_append_iff.mp h with ⟨xs, hsplit, hrest⟩ | ⟨xs, hsplit, hrest⟩
  · exact hearlier hms hms' hr hsplit hrest
  · exact (hearlier hms' hms hr' hsplit hrest).imp Eq.symm Eq.symm

end Lexeme

open Lexeme

namespace Tree

variable {t u : Tree} {ts : List Tree} {l r : Lexeme} {inside : List Tree} {role : Option Field}
  {c : Category}

def isBracket (t : Tree) : Bool := t.kind.isBracket

theorem isBracket_leaf : (leaf role l).isBracket = l.token.isBracket := rfl

/-- Two children are an opening bracket and its closing one, and no other child is a bracket. -/
def Encloses (t : Tree) (l : Lexeme) (inside : List Tree) (r : Lexeme) : Prop :=
  ∃ before after, t.children = before ++ leaf none l :: (inside ++ leaf none r :: after) ∧
    (∃ b : Bracket, l.token = b.opening ∧ r.token = b.closing) ∧
      ∀ u ∈ before ++ inside ++ after, u.isBracket = false

/-- Either no child is a bracket, or two of them are and belong together. -/
def HasOwnBrackets (t : Tree) : Prop :=
  (∀ u ∈ t.children, u.isBracket = false) ∨ ∃ l inside r, t.Encloses l inside r

theorem exists_of_labels_append {u v : List Label} (h : labels ts = u ++ v) :
    ∃ us vs, ts = us ++ vs ∧ labels us = u ∧ labels vs = v := by
  obtain ⟨us, vs, hsplit, hus, hvs⟩ := List.map_eq_append_iff.mp h
  obtain ⟨a, b, rfl, rfl, rfl⟩ := List.filter_eq_append_iff.mp hsplit
  exact ⟨a, b, rfl, hus, hvs⟩

theorem exists_of_labels_cons {x : Label} {v : List Label} (h : labels ts = x :: v) :
    ∃ us t vs, ts = us ++ t :: vs ∧ labels us = [] ∧ t.label = x ∧ labels vs = v := by
  obtain ⟨t, vs, hsplit, ht, hvs⟩ := List.map_eq_cons_iff.mp h
  obtain ⟨a, b, rfl, ha, -, rfl⟩ := List.filter_eq_cons_iff.mp hsplit
  exact ⟨a, t, b, rfl, by rw [labels, List.filter_eq_nil_iff.mpr ha, List.map_nil], ht, hvs⟩

theorem isBracket_eq_false_of_labels (h : ∀ x ∈ labels ts, x.2.isBracket = false) (ht : t ∈ ts) :
    t.isBracket = false := by
  cases hcomment : t.isComment with
  | true =>
    rw [isComment, beq_iff_eq] at hcomment
    rw [isBracket, hcomment]
    rfl
  | false => exact h t.label (List.mem_map_of_mem (List.mem_filter.mpr ⟨ht, by simp [hcomment]⟩))

theorem hasOwnBrackets_of_expands (h : c.production.Expands (labels ts)) :
    (node role c ts).HasOwnBrackets := by
  rcases c.brackets_of_expands h with hnone | ⟨b, u, v, hlabels, hu, hv⟩
  · exact .inl fun t ht => isBracket_eq_false_of_labels hnone ht
  obtain ⟨us, rest, rfl, rfl, hrest⟩ := exists_of_labels_append hlabels
  obtain ⟨us', x, rest, rfl, hus', hx, hrest⟩ := exists_of_labels_cons hrest
  obtain ⟨vs, rest, rfl, rfl, hclosing⟩ := exists_of_labels_append hrest
  obtain ⟨vs', y, ws, rfl, hvs', hy, hws⟩ := exists_of_labels_cons hclosing
  obtain ⟨l, hl, rfl⟩ := eq_leaf_of_label hx
  obtain ⟨r, hr, rfl⟩ := eq_leaf_of_label hy
  refine .inr ⟨l, vs ++ vs', r, us ++ us', ws, by simp [children], ⟨b, hl, hr⟩, fun t ht => ?_⟩
  refine isBracket_eq_false_of_labels (fun x hx => ?_) ht
  simp only [labels_append, hus', hvs', hws, List.append_nil] at hx
  exact (List.mem_append.mp hx).elim (hu x) (hv x)

theorem wellNested_leavesOfList (h : ∀ t ∈ ts, WellNested (brackets t.leaves)) :
    WellNested (brackets (leavesOfList ts)) := by
  induction ts with
  | nil => exact .nil
  | cons t ts ih =>
    rw [leavesOfList_cons, brackets_append]
    exact (h t List.mem_cons_self).append (ih fun u hu => h u (List.mem_cons_of_mem _ hu))

theorem Encloses.leaves_eq (h : t.Encloses l inside r) :
    ∃ us vs, t.leaves = us ++ l :: (leavesOfList inside ++ r :: vs) := by
  obtain ⟨before, after, hchildren, -, -⟩ := h
  cases t with
  | leaf => simp [children] at hchildren
  | node role c ts =>
    obtain rfl : ts = _ := hchildren
    exact ⟨leavesOfList before, leavesOfList after, by simp [leaves, leavesOfList_append, leavesOfList_cons]⟩

theorem Encloses.mem_children (h : t.Encloses l inside r) (hu : u ∈ inside) : u ∈ t.children := by
  obtain ⟨before, after, hchildren, -, -⟩ := h
  simp [hchildren, hu]

theorem wellNested_leaves (h : ∀ u ∈ t.subtrees, u.HasOwnBrackets) (ht : t.isBracket = false) :
    WellNested (brackets t.leaves) := by
  induction t using inductionOnChildren with
  | leaf role l =>
    rw [leaves, brackets_singleton_of_neg ht]
    exact .nil
  | node role c ts ih =>
    have hlist {us : List Tree} (hus : us ⊆ ts) (hnone : ∀ u ∈ us, u.isBracket = false) :
        WellNested (brackets (leavesOfList us)) := by
      refine wellNested_leavesOfList fun u hu => ih u (hus hu) ?_ (hnone u hu)
      exact fun v hv => h v (mem_subtrees_of_mem_children (hus hu) hv)
    rcases h _ (mem_subtrees_self _) with hnone | ⟨l, inside, r, before, after, hts, ⟨b, hl, hr⟩, hnone⟩
    · exact hlist (List.Subset.refl _) hnone
    · obtain rfl : ts = _ := hts
      have hbefore : WellNested (brackets (leavesOfList before)) :=
        hlist (fun u hu => by simp [hu]) fun u hu => hnone u (by simp [hu])
      have hinside : WellNested (brackets (leavesOfList inside)) :=
        hlist (fun u hu => by simp [hu]) fun u hu => hnone u (by simp [hu])
      have hafter : WellNested (brackets (leavesOfList after)) :=
        hlist (fun u hu => by simp [hu]) fun u hu => hnone u (by simp [hu])
      rw [leaves, leavesOfList_append, leavesOfList_cons, leavesOfList_append, leavesOfList_cons, leaves,
        leaves, List.singleton_append, List.singleton_append, brackets_append,
        brackets_cons_of_pos (by rw [hl, b.isBracket_opening]), brackets_append,
        brackets_cons_of_pos (by rw [hr, b.isBracket_closing]), hl, hr]
      exact hbefore.append (.pair b hinside hafter)

theorem Encloses.eq_or_eq {role : Option Field} {m : Lexeme} (h : t.Encloses l inside r)
    (hm : leaf role m ∈ t.children) (hbracket : m.token.isBracket = true) : m = l ∨ m = r := by
  obtain ⟨before, after, hchildren, -, hnone⟩ := h
  have hother : leaf role m ∉ before ++ inside ++ after := fun hmem => by
    have := hnone _ hmem
    rw [isBracket_leaf, hbracket] at this
    cases this
  rw [hchildren] at hm
  simp only [List.mem_append, List.mem_cons, not_or, leaf.injEq] at hm hother
  tauto

end Tree

namespace Document

variable {d : Document} {ls : List Lexeme} {ts : List Tree} {t : Tree} {l r : Lexeme} {ms : List Lexeme}
  {inside : List Tree}

/-- The brackets of a document are balanced, and each pair of them belongs to one node. -/
structure IsBalanced (d : Document) : Prop where
  nested : WellNested (brackets d.root.leaves)
  /-- Every bracket is in a pair. -/
  paired : ∀ m ∈ d.root.leaves, m.token.isBracket = true →
    ∃ l ms r, IsPair d.root.leaves l ms r ∧ (m = l ∨ m = r)
  own : ∀ t ∈ d.root.subtrees, t.HasOwnBrackets
  /-- The pairs of brackets are those that a node has among its children. -/
  owned : ∀ l ms r, IsPair d.root.leaves l ms r ↔
    ∃ t ∈ d.root.subtrees, ∃ inside, t.Encloses l inside r ∧ Tree.leavesOfList inside = ms
  /-- Between the brackets of a node there are its children and whitespace. -/
  filled : ∀ t ∈ d.root.subtrees, ∀ l inside r, t.Encloses l inside r →
    ∀ i b, d.source[i]? = some b → l.stop ≤ i → i < r.start →
      Bytes.isSpace b = true ∨ ∃ u ∈ inside, d.startOf u ≤ i ∧ i < d.stopOf u

theorem Built.hasOwnBrackets (h : d.Built ls ts) (ht : t ∈ d.root.subtrees) : t.HasOwnBrackets := by
  cases t with
  | leaf => exact .inl fun _ hu => absurd hu List.not_mem_nil
  | node role c us => exact Tree.hasOwnBrackets_of_expands (h.expands ht)

theorem Built.isFull_of_mem_children (h : d.Built ls ts) (ht : t ∈ d.root.subtrees) {u : Tree}
    (hu : u ∈ t.children) : u.IsFull := by
  cases t with
  | leaf => cases hu
  | node role c us => exact h.isFull_of_mem ht hu

theorem Built.isPair (h : d.Built ls ts) (ht : t ∈ d.root.subtrees) (hpair : t.Encloses l inside r) :
    IsPair d.root.leaves l (Tree.leavesOfList inside) r := by
  obtain ⟨us, vs, hleaves⟩ := hpair.leaves_eq
  obtain ⟨before, after, hchildren, ⟨b, hl, hr⟩, hnone⟩ := hpair
  obtain ⟨xs, ys, hroot⟩ := Tree.isInfix_leaves ht
  refine ⟨xs ++ us, vs ++ ys, by rw [← hroot, hleaves]; simp, b, hl, hr, ?_⟩
  refine Tree.wellNested_leavesOfList fun u hu => Tree.wellNested_leaves (fun v hv => ?_) (hnone u (by simp [hu]))
  have hchild : u ∈ t.children := by simp [hchildren, hu]
  exact h.hasOwnBrackets (Tree.mem_subtrees_trans (Tree.mem_subtrees_trans ht (Tree.mem_subtrees_of_mem hchild)) hv)

theorem Built.exists_encloses (h : d.Built ls ts) {m : Lexeme} (hm : m ∈ d.root.leaves)
    (hbracket : m.token.isBracket = true) :
    ∃ t ∈ d.root.subtrees, ∃ l inside r, t.Encloses l inside r ∧ (m = l ∨ m = r) := by
  obtain ⟨role, hleaf⟩ := Tree.mem_leaves_iff.mp hm
  obtain ⟨role', c, us, hp, hchild⟩ := h.exists_parent_leaf hleaf
  rcases h.hasOwnBrackets hp with hnone | ⟨l, inside, r, hpair⟩
  · have hnot := hnone _ hchild
    rw [Tree.isBracket_leaf, hbracket] at hnot
    cases hnot
  · exact ⟨_, hp, l, inside, r, hpair, hpair.eq_or_eq hchild hbracket⟩

theorem Built.exists_encloses_of_isPair (h : d.Built ls ts) (hpair : IsPair d.root.leaves l ms r) :
    ∃ t ∈ d.root.subtrees, ∃ inside, t.Encloses l inside r ∧ Tree.leavesOfList inside = ms := by
  obtain ⟨us, vs, hleaves, b, hl, hr, hms⟩ := hpair
  obtain ⟨t, ht, l', inside, r', hown, hlr⟩ := h.exists_encloses (m := l) (by simp [hleaves])
    (by rw [hl, b.isBracket_opening])
  obtain ⟨us', vs', hleaves', b', hl', hr', hinside⟩ := h.isPair ht hown
  -- An opening bracket is not the closing one of its pair.
  obtain rfl : l = l' := by
    refine hlr.resolve_right fun hlr => ?_
    have hclosing := b'.isClosing_closing
    rw [← hr', ← hlr, hl, b.isClosing_opening] at hclosing
    cases hclosing
  have hnodup : d.root.leaves.Nodup := h.inOrder.nodup
  rw [hleaves] at hnodup hleaves'
  obtain ⟨-, hbehind, hapart⟩ := List.nodup_append.mp hnodup
  have hus : l ∉ us := fun hmem => hapart l hmem l List.mem_cons_self rfl
  have hrest := ((List.append_cons_inj_of_notMem hus (List.nodup_cons.mp hbehind).1).mp hleaves').2.2
  obtain ⟨rfl, rfl⟩ := eq_of_closing hrest hms hinside hr hr'
  exact ⟨t, ht, inside, hown, rfl⟩

theorem Built.isSpace_or_mem_inside (h : d.Built ls ts) (ht : t ∈ d.root.subtrees)
    (hpair : t.Encloses l inside r) {i : Nat} {b : UInt8} (hi : d.source[i]? = some b) (hl : l.stop ≤ i)
    (hr : i < r.start) :
    Bytes.isSpace b = true ∨ ∃ u ∈ inside, d.startOf u ≤ i ∧ i < d.stopOf u := by
  obtain ⟨us, vs, hleaves, -⟩ := h.isPair ht hpair
  have horder := h.inOrder
  rw [hleaves, inOrder_append_iff, inOrder_cons_iff, inOrder_append_iff, inOrder_cons_iff] at horder
  obtain ⟨hus, ⟨hlpos, ⟨hinside, ⟨hrpos, hvs, hbehind⟩, -⟩, -⟩, hbefore⟩ := horder
  by_cases hcovered : ∃ m ∈ d.root.leaves, m.start ≤ i ∧ i < m.stop
  · obtain ⟨m, hm, hmi⟩ := hcovered
    -- The leaf over the byte is neither before the pair nor behind it.
    have hm : m ∈ Tree.leavesOfList inside := by
      rw [hleaves] at hm
      simp only [List.mem_append, List.mem_cons] at hm
      rcases hm with hm | rfl | hm | rfl | hm
      · have := hbefore m hm l List.mem_cons_self
        omega
      · omega
      · exact hm
      · omega
      · have := hbehind m hm
        omega
    rw [Tree.leavesOfList_eq_flatMap] at hm
    obtain ⟨u, hu, hm⟩ := List.mem_flatMap.mp hm
    have hchild := hpair.mem_children hu
    have hfull := h.isFull_of_mem_children ht hchild
    have huroot := Tree.mem_subtrees_trans ht (Tree.mem_subtrees_of_mem hchild)
    have huorder := h.inOrder.sublist (Tree.isInfix_leaves huroot).sublist
    have hstart := hfull.start_le huorder m hm
    have hstop := hfull.le_stop huorder m hm
    refine .inr ⟨u, hu, ?_⟩
    rw [startOf_eq hfull, stopOf_eq hfull]
    omega
  · left
    have hwithin := h.lexes.within l (by rw [← h.leaves_root, hleaves]; simp)
    refine (h.lexes.isSpace_of_uncovered hi fun m hm hmi => hcovered ⟨m, ?_, hmi⟩).resolve_right (by omega)
    rwa [h.leaves_root]

theorem isBalanced_of_parse (source : Bytes) (d : Document) (h : parse source = .ok d) :
    d.IsBalanced := by
  obtain ⟨-, ls, ts, hbuilt⟩ := exists_built h
  refine ⟨?_, fun m hm hbracket => ?_, fun t ht => hbuilt.hasOwnBrackets ht, fun l ms r => ⟨?_, ?_⟩,
    fun t ht l inside r hpair i b hi hl hr => hbuilt.isSpace_or_mem_inside ht hpair hi hl hr⟩
  · refine Tree.wellNested_leaves (fun t ht => hbuilt.hasOwnBrackets ht) ?_
    rw [hbuilt.root_eq]
    rfl
  · obtain ⟨t, ht, l, inside, r, hpair, hm⟩ := hbuilt.exists_encloses hm hbracket
    exact ⟨l, _, r, hbuilt.isPair ht hpair, hm⟩
  · exact hbuilt.exists_encloses_of_isPair
  · rintro ⟨t, ht, inside, hpair, rfl⟩
    exact hbuilt.isPair ht hpair

/-- The type of the lists is no bracket, and there are none in strings and comments. -/
theorem isBalanced_of_iverson : ∃ d,
    (parse (Bytes.ofText "proc p(a: []Int) -> () \x7b b = [f((a), \"(\")] /* ] */ \x7d") = .ok d ∧
      brackets d.root.leaves =
        [Bracket.round.opening, Bracket.round.closing, Bracket.round.opening, Bracket.round.closing,
          Bracket.curly.opening, Bracket.square.opening, Bracket.round.opening, Bracket.round.opening,
          Bracket.round.closing, Bracket.round.closing, Bracket.square.closing,
          Bracket.curly.closing]) ∧ d.IsBalanced := by
  suffices hparse : ∃ d, _ ∧ _ from hparse.imp fun d hd => ⟨hd, isBalanced_of_parse _ d hd.1⟩
  exact exists_parse_of_map (by decide +kernel)

end Document

end HeyVL
