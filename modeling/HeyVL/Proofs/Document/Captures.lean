import HeyVL.Proofs.Document.Comments
import HeyVL.Proofs.Highlight.Captures

namespace HeyVL

open Token Lexeme

namespace Lexeme

variable {l m : Lexeme} {ls : List Lexeme} {f g : Nat → Nat}

theorem InOrder.cases_moved (h : InOrder ls) (hmoved : InOrder (ls.map (moved f g))) (hl : l ∈ ls)
    (hm : m ∈ ls) : l = m ∨ (l.stop ≤ m.start ∧ g l.stop ≤ f m.start) ∨
      (m.stop ≤ l.start ∧ g m.stop ≤ f l.start) := by
  by_cases hne : l = m
  · exact .inl hne
  · right
    have hpair : ls.Pairwise fun a b => (a.stop ≤ b.start ∧ g a.stop ≤ f b.start) ∨
        (b.stop ≤ a.start ∧ g b.stop ≤ f a.start) :=
      (h.apart.and (List.pairwise_map.mp hmoved.apart)).imp Or.inl
    have : Std.Symm fun a b : Lexeme => (a.stop ≤ b.start ∧ g a.stop ≤ f b.start) ∨
        (b.stop ≤ a.start ∧ g b.stop ≤ f a.start) := ⟨fun _ _ => Or.symm⟩
    exact hpair.forall hl hm hne

theorem InOrder.compare_moved (h : InOrder ls) (hmoved : InOrder (ls.map (moved f g))) (hl : l ∈ ls)
    (hm : m ∈ ls) : (f l.start < f m.start ↔ l.start < m.start) ∧
      (f l.start = f m.start ↔ l.start = m.start) ∧ (g l.stop < g m.stop ↔ l.stop < m.stop) ∧
      (g l.stop = g m.stop ↔ l.stop = m.stop) := by
  have hlpos := h.nonempty l hl
  have hmpos := h.nonempty m hm
  have hlmoved : f l.start < g l.stop := hmoved.nonempty _ (List.mem_map_of_mem hl)
  have hmmoved : f m.start < g m.stop := hmoved.nonempty _ (List.mem_map_of_mem hm)
  rcases h.cases_moved hmoved hl hm with rfl | hbefore | hbehind
  · simp
  · omega
  · omega

end Lexeme

namespace Document

open Highlight

variable {d d' : Document} {f g : Nat → Nat} {t u : Tree} {r : Highlight.Rule} {number : Nat}

/-- All captures in the order of the nodes and the rules. -/
def found (d : Document) : List Capture :=
  d.root.subtrees.flatMap fun t =>
    Highlight.rules.zipIdx.flatMap fun (rule, number) => d.capturesAt number rule t

theorem captures_eq (d : Document) : d.captures = d.found.mergeSort Capture.le := rfl

theorem capturesAt_map (number : Nat) {φ : Tree → Tree}
    (hmatches : r.pattern.matchesAt (φ t) = (r.pattern.matchesAt t).map (List.map φ))
    (hplace : ∀ us ∈ r.pattern.matchesAt t, ∀ u ∈ us,
      d'.startOf (φ u) = f (d.startOf u) ∧ d'.stopOf (φ u) = g (d.stopOf u)) :
    d'.capturesAt number r (φ t) = (d.capturesAt number r t).map (Capture.moved f g) := by
  rw [capturesAt, capturesAt, hmatches, ← List.map_flatten, List.map_map, List.map_map]
  apply List.map_congr_left
  intro u hu
  obtain ⟨us, hus, hu⟩ := List.mem_flatten.mp hu
  obtain ⟨hstart, hstop⟩ := hplace us hus u hu
  rw [Function.comp_apply, Function.comp_apply, hstart, hstop]
  rfl

/-- All nodes but the root are full, and the root is the source file. -/
structure IsTidy (d : Document) : Prop where
  kind_eq : d.root.kind = .category .sourceFile
  isFull : ∀ t ∈ Tree.subtreesOfList d.root.children, t.IsFull
  inOrder : InOrder d.root.leaves

theorem IsTidy.isFull_of_kind (h : d.IsTidy) (ht : t ∈ d.root.subtrees)
    (hkind : t.kind ≠ .category .sourceFile) : t.IsFull := by
  have hroot := h.kind_eq
  cases hd : d.root with
  | leaf role l =>
    rw [hd] at hroot
    cases hroot
  | node role c ts =>
    have hfull := h.isFull
    rw [hd] at ht hroot hfull
    rcases List.mem_cons.mp ht with rfl | ht
    · exact absurd hroot hkind
    · exact hfull t ht

theorem IsTidy.isFull_of_mem_matchesAt (h : d.IsTidy) (hr : r ∈ Highlight.rules)
    (ht : t ∈ d.root.subtrees) {us : List Tree} (hus : us ∈ r.pattern.matchesAt t) (hu : u ∈ us) :
    u ∈ d.root.subtrees ∧ u.IsFull := by
  have hmem : u ∈ d.root.subtrees := by
    rcases (Pattern.mem_matchesAt hus hu).1 with rfl | hchild
    · exact ht
    · exact Tree.mem_subtrees_trans ht (Tree.mem_subtrees_of_mem hchild)
  exact ⟨hmem, h.isFull_of_kind hmem (kind_ne_sourceFile_of_mem hr hus hu)⟩

theorem mem_found_iff {c : Capture} :
    c ∈ d.found ↔ ∃ t ∈ d.root.subtrees, ∃ r n, (r, n) ∈ Highlight.rules.zipIdx ∧
      c ∈ d.capturesAt n r t := by
  simp [found]

theorem mem_rules_of_mem_zipIdx (h : (r, number) ∈ Highlight.rules.zipIdx) :
    r ∈ Highlight.rules := List.fst_mem_of_mem_zipIdx h

theorem IsTidy.exists_leaves (h : d.IsTidy) {c : Capture} (hc : c ∈ d.found) :
    (∃ l ∈ d.root.leaves, c.start = l.start) ∧ ∃ l ∈ d.root.leaves, c.stop = l.stop := by
  obtain ⟨t, ht, r, n, hr, hc⟩ := mem_found_iff.mp hc
  obtain ⟨u, hu, rfl⟩ := List.mem_map.mp hc
  obtain ⟨us, hus, hu⟩ := List.mem_flatten.mp hu
  obtain ⟨hmem, hfull⟩ := h.isFull_of_mem_matchesAt (mem_rules_of_mem_zipIdx hr) ht hus hu
  have hleaves := (Tree.isInfix_leaves hmem).subset
  constructor
  · obtain ⟨x, xs, hx⟩ := List.exists_cons_of_ne_nil hfull.leaves_ne_nil
    refine ⟨x, hleaves (by simp [hx]), ?_⟩
    rw [← hfull.start_eq x (by simp [hx])]
    exact startOf_eq hfull
  · obtain ⟨xs, x, hx⟩ := (List.eq_nil_or_concat' u.leaves).resolve_left hfull.leaves_ne_nil
    refine ⟨x, hleaves (by simp [hx]), ?_⟩
    rw [← hfull.stop_eq x (by simp [hx])]
    exact stopOf_eq hfull

theorem capturesAt_moved (h : d.IsTidy) (d' : Document) (ht : t ∈ d.root.subtrees)
    (hr : (r, number) ∈ Highlight.rules.zipIdx) :
    d'.capturesAt number r (t.moved f g) = (d.capturesAt number r t).map (Capture.moved f g) := by
  apply capturesAt_map
  · exact r.pattern.matchesAt_moved f g t
  · intro us hus u hu
    have hfull := (h.isFull_of_mem_matchesAt (mem_rules_of_mem_zipIdx hr) ht hus hu).2
    rw [startOf_eq hfull, stopOf_eq hfull, startOf_eq hfull.moved, stopOf_eq hfull.moved]
    exact ⟨hfull.start_moved, hfull.stop_moved⟩

theorem found_moved (h : d.IsTidy) (hroot : d'.root = d.root.moved f g) :
    d'.found = d.found.map (Capture.moved f g) := by
  rw [found, found, hroot, Tree.subtrees_moved, List.flatMap_map, List.map_flatMap]
  apply List.flatMap_congr
  intro t ht
  rw [List.map_flatMap]
  exact List.flatMap_congr fun _ hr => capturesAt_moved h d' ht hr

theorem captures_moved (h : d.IsTidy) (hroot : d'.root = d.root.moved f g)
    (hmoved : InOrder (d.root.leaves.map (Lexeme.moved f g))) :
    d'.captures = d.captures.map (Capture.moved f g) := by
  rw [captures_eq, captures_eq, found_moved h hroot]
  symm
  apply List.map_mergeSort
  intro a ha b hb
  obtain ⟨⟨l, hl, hal⟩, l', hl', hal'⟩ := h.exists_leaves ha
  obtain ⟨⟨m, hm, hbm⟩, m', hm', hbm'⟩ := h.exists_leaves hb
  have hstart := h.inOrder.compare_moved hmoved hl hm
  have hstop := h.inOrder.compare_moved hmoved hl' hm'
  rw [Bool.eq_iff_iff, Capture.le_iff, Capture.le_iff]
  show _ ↔ f a.start < f b.start ∨ f a.start = f b.start ∧
    (g a.stop < g b.stop ∨ g a.stop = g b.stop ∧ a.rule ≤ b.rule)
  rw [hal, hbm, hal', hbm', hstart.1, hstart.2.1, hstop.2.2.1, hstop.2.2.2]

theorem name_of_mem_found {c : Capture} (h : c ∈ d.found) :
    (Highlight.rules.map Rule.capture)[c.rule]? = some c.name := by
  obtain ⟨t, -, r, n, hr, hc⟩ := mem_found_iff.mp h
  obtain ⟨u, -, rfl⟩ := List.mem_map.mp hc
  have hrule := List.mem_zipIdx_iff_getElem?.mp hr
  rw [List.getElem?_map, hrule]
  rfl

/-- Sorting leaves no choice, as the rule of a capture tells its name. -/
theorem eq_of_perm_of_found {cs cs' : List Capture} (hperm : cs.Perm cs')
    (hfound : ∀ c ∈ cs, c ∈ d.found) (hcs : cs.Pairwise fun a b => a.le b = true)
    (hcs' : cs'.Pairwise fun a b => a.le b = true) : cs = cs' := by
  apply List.Perm.eq_of_pairwise _ hcs hcs' hperm
  intro a b ha hb hab hba
  rw [Capture.le_iff] at hab hba
  have haname := name_of_mem_found (hfound a ha)
  have hbname := name_of_mem_found (hfound b (hperm.symm.subset hb))
  obtain ⟨start, stop, rule, name⟩ := a
  obtain ⟨start', stop', rule', name'⟩ := b
  dsimp only at hab hba haname hbname
  obtain rfl : start = start' := by omega
  obtain rfl : stop = stop' := by omega
  obtain rfl : rule = rule' := by omega
  rw [haname] at hbname
  rw [Option.some.inj hbname]

theorem Built.isTidy {ls : List Lexeme} {ts : List Tree} (h : d.Built ls ts) : d.IsTidy where
  kind_eq := by
    rw [h.root_eq]
    rfl
  isFull := fun _ => h.isFull
  inOrder := h.inOrder

theorem Built.blanked {ls : List Lexeme} {ts : List Tree} (h : d.Built ls ts) :
    (⟨d.blanked, d.root.bare⟩ : Document).Built (significant ls) ts where
  lexes := h.lexesTo_blanked
  isSyntax := h.isSyntax
  leaves_eq := by
    rw [h.leaves_eq, significant_eq_self fun l hl => (mem_significant_iff.mp hl).2]
  root_eq := by
    rw [h.bare_root, onlyComments_eq_nil fun l hl => (mem_significant_iff.mp hl).2]
    rfl

theorem flatMap_filter_eq {α β : Type} {p : α → Bool} {F G : α → List β} {xs : List α}
    (hkept : ∀ x ∈ xs, p x = true → F x = G x) (hdropped : ∀ x ∈ xs, p x = false → G x = []) :
    (xs.filter p).flatMap F = xs.flatMap G := by
  induction xs with
  | nil => rfl
  | cons x xs ih =>
    have hrest := ih (fun y hy => hkept y (by simp [hy])) fun y hy => hdropped y (by simp [hy])
    rw [List.flatMap_cons, ← hrest]
    cases hx : p x with
    | true => rw [List.filter_cons_of_pos hx, List.flatMap_cons, hkept x (by simp) hx]
    | false => rw [List.filter_cons_of_neg (by simp [hx]), hdropped x (by simp) hx, List.nil_append]

theorem isComment_of_mem_capturesAt (hr : r ∈ Highlight.rules) {c : Capture}
    (hc : c ∈ d.capturesAt number r t) : t.isComment = (c.name == "comment") := by
  obtain ⟨u, hu, rfl⟩ := List.mem_map.mp hc
  obtain ⟨us, hus, -⟩ := List.mem_flatten.mp hu
  exact isComment_of_mem_matchesAt hr hus

theorem Built.capturesAt_bare {ls : List Lexeme} {ts : List Tree} (h : d.Built ls ts)
    (hr : r ∈ Highlight.rules) (ht : t ∈ d.root.subtrees) :
    (⟨d.blanked, d.root.bare⟩ : Document).capturesAt number r t.bare = d.capturesAt number r t := by
  have hplace : ∀ us ∈ r.pattern.matchesAt t, ∀ u ∈ us,
      (⟨d.blanked, d.root.bare⟩ : Document).startOf u.bare = id (d.startOf u) ∧
        (⟨d.blanked, d.root.bare⟩ : Document).stopOf u.bare = id (d.stopOf u) := by
    intro us hus u hu
    obtain ⟨hmem, hfull⟩ := h.isTidy.isFull_of_mem_matchesAt hr ht hus hu
    have hkind := kind_ne_sourceFile_of_mem hr hus hu
    have hbare : u.bare.kind ≠ .category .sourceFile := by rwa [Tree.kind_bare]
    have hinner : u ∈ Tree.subtreesOfList d.root.children := by
      refine (h.mem_subtreesOfList hmem).resolve_left ?_
      rintro rfl
      exact hkind h.isTidy.kind_eq
    rw [startOf_eq_start hbare, stopOf_eq_stop hbare, startOf_eq hfull, stopOf_eq hfull]
    exact ⟨hfull.start_bare fun v hv => h.headIsBare (mem_subtreesOfList_of_mem_subtrees hinner hv),
      hfull.stop_bare (h.endsBare hinner)⟩
  have hmap := capturesAt_map number
    (r.pattern.matchesAt_bare (ne_comment_of_mem_parts hr) t) hplace
  rw [hmap]
  exact List.map_id _

theorem Built.found_blanked {ls : List Lexeme} {ts : List Tree} (h : d.Built ls ts) :
    (⟨d.blanked, d.root.bare⟩ : Document).found = d.found.filter (·.name != "comment") := by
  have hroot : d.root.isComment = false := by
    rw [h.root_eq]
    rfl
  rw [found, found, Tree.subtrees_bare hroot, List.flatMap_map, List.filter_flatMap]
  apply flatMap_filter_eq
  · intro t ht htoken
    rw [List.filter_flatMap]
    apply List.flatMap_congr
    rintro ⟨r, n⟩ hr
    have hmem := mem_rules_of_mem_zipIdx hr
    dsimp only
    rw [h.capturesAt_bare hmem ht]
    symm
    apply List.filter_eq_self.mpr
    intro c hc
    have hname := isComment_of_mem_capturesAt hmem hc
    rw [bne, ← hname]
    exact htoken
  · intro t ht htoken
    rw [List.filter_flatMap, List.flatMap_eq_nil_iff]
    rintro ⟨r, n⟩ hr
    apply List.filter_eq_nil_iff.mpr
    intro c hc
    have hname := isComment_of_mem_capturesAt (mem_rules_of_mem_zipIdx hr) hc
    rw [bne, ← hname, htoken]
    decide

theorem Built.captures_blanked {ls : List Lexeme} {ts : List Tree} (h : d.Built ls ts) :
    d.captures.filter (·.name != "comment") =
      (⟨d.blanked, d.root.bare⟩ : Document).captures := by
  have hsorted (cs : List Capture) :
      (cs.mergeSort Capture.le).Pairwise fun a b => a.le b = true :=
    @List.pairwise_mergeSort _ Capture.le (fun _ _ _ => Capture.le_trans) Capture.le_total cs
  rw [captures_eq, captures_eq, h.found_blanked]
  have hperm := ((List.mergeSort_perm d.found Capture.le).filter (·.name != "comment")).trans
    (List.mergeSort_perm (d.found.filter (·.name != "comment")) Capture.le).symm
  apply eq_of_perm_of_found hperm
  · intro c hc
    exact (List.mergeSort_perm d.found Capture.le).subset (List.mem_filter.mp hc).1
  · exact (hsorted d.found).filter _
  · exact hsorted _

end Document

end HeyVL
