import HeyVL.Proofs.Highlight.Roles
import HeyVL.Proofs.Document.Captures

namespace HeyVL

open Token Lexeme

namespace Lexeme

variable {l m : Lexeme} {ls : List Lexeme}

theorem InOrder.eq_of_start (h : InOrder ls) (hl : l ∈ ls) (hm : m ∈ ls) (hstart : l.start = m.start) :
    l = m := by
  by_contra hne
  have hlpos := h.nonempty l hl
  have hmpos := h.nonempty m hm
  rcases h.apart_of_mem hl hm hne with hapart | hapart <;> omega

/-- The capture of the lexeme by a rule, which is told by its number and its name. -/
def captureBy (l : Lexeme) (rule : Nat × String) : Capture := ⟨l.start, l.stop, rule.1, rule.2⟩

end Lexeme

/-- Whether the capture covers just the lexeme. -/
def Capture.covers (c : Capture) (l : Lexeme) : Bool := c.start == l.start && c.stop == l.stop

theorem Capture.covers_iff {c : Capture} {l : Lexeme} :
    c.covers l = true ↔ c.start = l.start ∧ c.stop = l.stop := by
  rw [covers, Bool.and_eq_true, beq_iff_eq, beq_iff_eq]

theorem Lexeme.covers_captureBy (l : Lexeme) (rule : Nat × String) : (l.captureBy rule).covers l = true :=
  Capture.covers_iff.mpr ⟨rfl, rfl⟩

namespace Document

open Highlight Production

variable {d : Document} {ls : List Lexeme} {ts us : List Tree} {t u p : Tree} {l : Lexeme}
  {role r : Option Field} {c : Category} {rule : Rule} {n : Nat}

def foundAt (d : Document) (t : Tree) : List Capture :=
  rules.zipIdx.flatMap fun (rule, number) => d.capturesAt number rule t

theorem found_eq (d : Document) : d.found = d.root.subtrees.flatMap d.foundAt := rfl

theorem foundAt_leaf (d : Document) (role : Option Field) (l : Lexeme) :
    d.foundAt (.leaf role l) = (ofToken l.token).toList.map l.captureBy := by
  rw [← filterMap_tokens, List.map_filterMap, List.filterMap_eq_flatMap_toList, foundAt]
  apply List.flatMap_congr
  rintro ⟨rule, n⟩ -
  dsimp only
  rw [capturesAt]
  cases hpattern : rule.pattern with
  | anyOf tokens =>
    rw [Pattern.matchesAt, Pattern.tokens]
    by_cases hmem : l.token ∈ tokens
    · rw [if_pos hmem, if_pos hmem]
      rfl
    · rw [if_neg hmem, if_neg hmem]
      rfl
  | node c => simp [Pattern.matchesAt, Pattern.tokens, Tree.kind]
  | inside c ps => simp [Pattern.matchesAt, Pattern.tokens, Tree.kind]

theorem Built.expands (h : d.Built ls ts) (ht : .node role c us ∈ d.root.subtrees) :
    c.production.Expands (Tree.labels us) := by
  have hderived := h.isSyntax_bare ht rfl
  rw [Tree.bare] at hderived
  cases hderived with
  | node expands _ _ =>
    rw [Tree.labels_eq]
    exact expands

theorem Built.isFull_of_mem (h : d.Built ls ts) (hp : .node role c us ∈ d.root.subtrees) (hu : u ∈ us) :
    u.IsFull := by
  apply h.isFull
  rcases h.mem_subtreesOfList hp with hroot | hinner
  · rw [← hroot]
    exact Tree.mem_subtreesOfList_iff.mpr ⟨u, hu, u.mem_subtrees_self⟩
  · exact mem_subtreesOfList_of_mem_subtrees hinner
      (Tree.mem_subtrees_of_mem_children hu u.mem_subtrees_self)

theorem Built.mem_leaves_of_covers (h : d.Built ls ts) (hu : u ∈ d.root.subtrees) (hfull : u.IsFull)
    (hl : l ∈ d.root.leaves) (hstart : u.start = l.start) : l ∈ u.leaves := by
  obtain ⟨m, ms, hm⟩ := List.exists_cons_of_ne_nil hfull.leaves_ne_nil
  have hmem : m ∈ u.leaves := by simp [hm]
  have hsame : m.start = l.start := by rw [← hstart, hfull.start_eq m (by simp [hm])]
  rwa [← h.inOrder.eq_of_start ((Tree.isInfix_leaves hu).subset hmem) hl hsame]

theorem Built.nodup_leaves_children (h : d.Built ls ts) (hp : .node role c us ∈ d.root.subtrees) :
    (Tree.leavesOfList us).Nodup :=
  h.inOrder.nodup.sublist (Tree.isInfix_leaves hp).sublist

theorem Built.children_typeIdentifier (h : d.Built ls ts)
    (hp : .node role .typeIdentifier us ∈ d.root.subtrees) :
    ∃ l : Lexeme, l.token = .identifier ∧ us = [.leaf none l] := by
  have hinner := (h.mem_subtreesOfList hp).resolve_left fun hroot => by
    rw [h.root_eq] at hroot
    cases hroot
  have hhead := h.headIsBare hinner
  have hlast := Tree.endsBare_getLast (h.endsBare hinner)
  obtain ⟨t, ht, hlabel⟩ := Tree.eq_singleton_of_labels (expands_token_iff.mp (h.expands hp))
  obtain ⟨l, hl, rfl⟩ := Tree.eq_leaf_of_label hlabel
  refine ⟨l, hl, ?_⟩
  rw [Tree.headIsBare, Tree.children] at hhead
  rw [Tree.children] at hlast
  cases us with
  | nil => cases ht
  | cons t us =>
    have ht' : t.isComment = false := by simpa using hhead
    rw [List.filter_cons_of_pos (by simp [ht'])] at ht
    obtain ⟨rfl, hus⟩ := List.cons.inj ht
    -- All other children are comments, and the last child is none.
    rcases List.eq_nil_or_concat' us with rfl | ⟨us, u, rfl⟩
    · rfl
    · rw [← List.cons_append, List.getLast?_concat] at hlast
      have hu : u.isComment = false := by simpa using hlast
      have := List.filter_eq_nil_iff.mp hus u (by simp)
      simp [hu] at this

theorem Built.exists_leaf (h : d.Built ls ts) (hr : rule ∈ rules) (ht : t ∈ d.root.subtrees)
    (hus : us ∈ rule.pattern.matchesAt t) (hu : u ∈ us) :
    ∃ role l, d.startOf u = l.start ∧ d.stopOf u = l.stop ∧
      (t = .leaf role l ∨ .leaf role l ∈ t.children) := by
  obtain ⟨hmem, hcategory⟩ := Pattern.mem_matchesAt hus hu
  cases u with
  | leaf role l => exact ⟨role, l, rfl, rfl, hmem.imp Eq.symm id⟩
  | node role c us' =>
    have hpattern := hcategory c rfl
    obtain rfl := eq_typeIdentifier_of_node hr hpattern
    rw [hpattern, Pattern.matchesAt] at hus
    split at hus
    · obtain rfl := List.mem_singleton.mp hus
      obtain rfl := List.mem_singleton.mp hu
      obtain ⟨l, hl, rfl⟩ := h.children_typeIdentifier ht
      exact ⟨none, l, rfl, rfl, .inr (List.mem_singleton_self _)⟩
    · cases hus

theorem filter_eq_of_unique {α : Type} {p : α → Bool} {b : Bool} {x : α} {xs ys : List α}
    (hx : p x = b) (hother : ∀ y, y ∈ xs ∨ y ∈ ys → p y = false) :
    (xs ++ x :: ys).filter p = if b then [x] else [] := by
  have hnone {zs : List α} (hzs : ∀ y ∈ zs, p y = false) : zs.filter p = [] :=
    List.filter_eq_nil_iff.mpr fun y hy => by simp [hzs y hy]
  rw [List.filter_append, List.filter_cons, hnone fun y hy => hother y (.inl hy),
    hnone fun y hy => hother y (.inr hy), hx]
  rfl

theorem Built.leaf_notMem (h : d.Built ls ts) {vs : List Tree}
    (hp : .node role c (us ++ .leaf r l :: vs) ∈ d.root.subtrees) :
    .leaf r l ∉ us ∧ .leaf r l ∉ vs := by
  have hnodup := h.nodup_leaves_children hp
  have hmem {xs : List Tree} (hxs : .leaf r l ∈ xs) : l ∈ Tree.leavesOfList xs := by
    rw [Tree.leavesOfList_eq_flatMap]
    exact List.mem_flatMap.mpr ⟨_, hxs, List.mem_singleton_self l⟩
  rw [Tree.leavesOfList_append, Tree.leavesOfList_cons, List.nodup_append] at hnodup
  obtain ⟨-, hbehind, hdisjoint⟩ := hnodup
  constructor
  · intro hus
    exact hdisjoint l (hmem hus) l (by simp [Tree.leaves]) rfl
  · intro hvs
    exact (List.nodup_cons.mp hbehind).1 (hmem hvs)

/-- The captures at a node that cover a leaf among its children tell the role of the leaf. -/
theorem Built.filter_foundAt_node (h : d.Built ls ts) (hp : .node role c us ∈ d.root.subtrees)
    (hl : .leaf r l ∈ us) :
    (d.foundAt (.node role c us)).filter (·.covers l) =
      (ofRole c r l.token).toList.map l.captureBy := by
  by_cases hc : c = .typeIdentifier
  · subst hc
    obtain ⟨m, hm, rfl⟩ := h.children_typeIdentifier hp
    obtain ⟨rfl, rfl⟩ := Tree.leaf.inj (List.mem_singleton.mp hl)
    have hfound : d.foundAt (.node role .typeIdentifier [.leaf none l]) =
      [l.captureBy (17, "type")] := rfl
    rw [hfound, hm]
    simp [l.covers_captureBy, ofRole]
  -- The only child that covers the leaf is the leaf itself.
  have hself : ∀ u ∈ us, d.startOf u = l.start → u = .leaf r l := by
    intro u hu hstart
    have hfull := h.isFull_of_mem hp hu
    rw [startOf_eq hfull] at hstart
    have hmem := Tree.mem_subtrees_trans hp (Tree.mem_subtrees_of_mem hu)
    have hroot : l ∈ d.root.leaves := Tree.mem_leaves_of_mem_children hl hp
    exact Tree.eq_of_common_leaf (h.nodup_leaves_children hp) hu hl
      (h.mem_leaves_of_covers hmem hfull hroot hstart) (List.mem_singleton_self l)
  rw [← filterMap_rulesFor hc, List.map_filterMap, List.filterMap_eq_flatMap_toList, foundAt,
    List.filter_flatMap, rulesFor]
  symm
  apply flatMap_filter_eq
  · rintro ⟨rule, n⟩ hmem hcategory
    have hr := mem_rules_of_mem_zipIdx hmem
    obtain ⟨ps, hpattern⟩ := exists_inside hr (eq_of_beq hcategory) hc
    have hmatches := flatten_matchesAt (t := .node role c us) hr hpattern rfl (h.expands hp)
    have hfilter : (us.filter fun u => rule.pattern.fits u.label).filter
        (fun u => (⟨d.startOf u, d.stopOf u, n, rule.capture⟩ : Capture).covers l) =
          if rule.pattern.fits (r, .token l.token) then [.leaf r l] else [] := by
      obtain ⟨xs, ys, rfl⟩ := List.append_of_mem hl
      obtain ⟨hxs, hys⟩ := h.leaf_notMem hp
      rw [List.filter_filter]
      apply filter_eq_of_unique (b := rule.pattern.fits (r, .token l.token))
      · have hcovers : (⟨l.start, l.stop, n, rule.capture⟩ : Capture).covers l = true :=
          l.covers_captureBy (n, rule.capture)
        exact congrArg (· && rule.pattern.fits (r, .token l.token)) hcovers
      · intro u hu
        by_contra hkeep
        have hcovers : (⟨d.startOf u, d.stopOf u, n, rule.capture⟩ : Capture).covers l = true := by
          simp_all
        obtain rfl := hself u (by simp only [List.mem_append, List.mem_cons]; tauto) (Capture.covers_iff.mp hcovers).1
        exact hu.elim hxs hys
    dsimp only
    rw [capturesAt, hmatches, Tree.children, List.filter_map]
    show _ = (((us.filter fun u => rule.pattern.fits u.label).filter _).map _)
    rw [Function.comp_def, hfilter]
    split <;> rfl
  · rintro ⟨rule, n⟩ - hcategory
    have hne : rule.pattern.category? ≠ some c := by simpa using hcategory
    dsimp only
    rw [capturesAt, matchesAt_eq_nil hne]
    rfl

theorem perm_flatMap_of_two {α β : Type} {F : α → List β} {x y : α} {xs : List α}
    (hnodup : xs.Nodup) (hx : x ∈ xs) (hy : y ∈ xs) (hne : x ≠ y)
    (hother : ∀ z ∈ xs, z ≠ x → z ≠ y → F z = []) : (xs.flatMap F).Perm (F x ++ F y) := by
  obtain ⟨us, vs, rfl⟩ := List.append_of_mem hx
  have hx' : (us ++ x :: vs).Perm (x :: (us ++ vs)) := List.perm_middle
  have hy' : y ∈ us ++ vs := by
    have := hx'.subset hy
    simpa [hne.symm] using this
  obtain ⟨us', vs', huv⟩ := List.append_of_mem hy'
  have hperm : (us ++ x :: vs).Perm (x :: y :: (us' ++ vs')) := by
    rw [huv] at hx'
    exact hx'.trans (List.perm_middle.cons x)
  have hrest : (us' ++ vs').flatMap F = [] := by
    rw [List.flatMap_eq_nil_iff]
    intro z hz
    have hdistinct := hperm.nodup_iff.mp hnodup
    simp only [List.nodup_cons, List.mem_cons, not_or] at hdistinct
    refine hother z (hperm.symm.subset (by simp [hz])) ?_ ?_
    · rintro rfl
      exact hdistinct.1.2 hz
    · rintro rfl
      exact hdistinct.2.1 hz
  have hflat := hperm.flatMap_right F
  rwa [List.flatMap_cons, List.flatMap_cons, hrest, List.append_nil] at hflat

/-- The captures that cover just the lexeme. -/
def capturesOf (d : Document) (l : Lexeme) : List Capture := d.captures.filter (·.covers l)

theorem sorted_captures (d : Document) : d.captures.Pairwise fun a b => a.le b = true :=
  @List.pairwise_mergeSort _ Capture.le (fun _ _ _ => Capture.le_trans) Capture.le_total d.found

theorem mem_captures_iff {c : Capture} : c ∈ d.captures ↔ c ∈ d.found :=
  (List.mergeSort_perm d.found Capture.le).mem_iff

theorem Built.exists_parent_leaf (h : d.Built ls ts) (hl : .leaf r l ∈ d.root.subtrees) :
    ∃ role c us, .node role c us ∈ d.root.subtrees ∧ .leaf r l ∈ us := by
  rcases Tree.exists_parent hl with hroot | ⟨p, hp, hchild⟩
  · rw [h.root_eq] at hroot
    cases hroot
  · cases p with
    | leaf => cases hchild
    | node role c us => exact ⟨role, c, us, hp, hchild⟩

theorem Built.eq_of_leaf (h : d.Built ls ts) {r' : Option Field} (hl : .leaf r l ∈ d.root.subtrees)
    (hl' : .leaf r' l ∈ d.root.subtrees) : r = r' := by
  obtain ⟨role, c, us, hp, hchild⟩ := h.exists_parent_leaf hl
  obtain ⟨role', c', us', hp', hchild'⟩ := h.exists_parent_leaf hl'
  obtain ⟨rfl, rfl, rfl⟩ :=
    Tree.node.inj (Tree.eq_of_common_child h.inOrder.nodup hp hp' hchild hchild')
  have hsame := Tree.eq_of_common_leaf (h.nodup_leaves_children hp) hchild hchild'
    (List.mem_singleton_self l) (List.mem_singleton_self l)
  exact (Tree.leaf.inj hsame).1

theorem Built.filter_foundAt_other (h : d.Built ls ts) (hp : p ∈ d.root.subtrees)
    (hl : .leaf r l ∈ p.children) (ht : t ∈ d.root.subtrees) (hparent : t ≠ p)
    (hleaf : t ≠ .leaf r l) : (d.foundAt t).filter (·.covers l) = [] := by
  rw [List.filter_eq_nil_iff]
  intro c hc hcovers
  obtain ⟨⟨rule, n⟩, hr, hc⟩ := List.mem_flatMap.mp hc
  obtain ⟨u, hu, rfl⟩ := List.mem_map.mp hc
  obtain ⟨us, hus, hu⟩ := List.mem_flatten.mp hu
  obtain ⟨r', m, hstart, hstop, hm⟩ := h.exists_leaf (mem_rules_of_mem_zipIdx hr) ht hus hu
  have hlroot : l ∈ d.root.leaves := Tree.mem_leaves_of_mem_children hl hp
  have hmroot : m ∈ d.root.leaves := by
    rcases hm with rfl | hm
    · exact Tree.mem_leaves_iff.mpr ⟨r', ht⟩
    · exact Tree.mem_leaves_of_mem_children hm ht
  have hsame : m.start = l.start := hstart.symm.trans (Capture.covers_iff.mp hcovers).1
  obtain rfl := h.inOrder.eq_of_start hmroot hlroot hsame
  rcases hm with rfl | hm
  · obtain rfl := h.eq_of_leaf ht (Tree.mem_subtrees_trans hp (Tree.mem_subtrees_of_mem hl))
    exact hleaf rfl
  · exact hparent (Tree.eq_of_common_child h.inOrder.nodup ht hp hm hl)

theorem pairwise_rules (c : Category) (r : Option Field) (l : Lexeme) :
    (((ofRole c r l.token).toList ++ (ofToken l.token).toList).map l.captureBy).Pairwise
      fun a b => a.start = b.start ∧ a.stop = b.stop ∧ a.rule < b.rule := by
  rw [List.pairwise_map]
  cases hrole : ofRole c r l.token with
  | none => cases ofToken l.token <;> simp
  | some a =>
    cases htoken : ofToken l.token with
    | none => simp
    | some b => simpa [captureBy] using lt_of_ofRole hrole htoken

/-- The captures of a leaf tell its role and its token. -/
theorem Built.capturesOf_eq (h : d.Built ls ts) (hp : .node role c us ∈ d.root.subtrees)
    (hl : .leaf r l ∈ us) :
    d.capturesOf l =
      ((ofRole c r l.token).toList ++ (ofToken l.token).toList).map l.captureBy := by
  have hleaf : Tree.leaf r l ∈ d.root.subtrees :=
    Tree.mem_subtrees_trans hp (Tree.mem_subtrees_of_mem hl)
  have hcovered : (d.foundAt (.leaf r l)).filter (·.covers l) =
      (ofToken l.token).toList.map l.captureBy := by
    rw [foundAt_leaf, List.filter_eq_self]
    intro c hc
    obtain ⟨rule, -, rfl⟩ := List.mem_map.mp hc
    exact l.covers_captureBy rule
  have hperm : (d.capturesOf l).Perm
      (((ofRole c r l.token).toList ++ (ofToken l.token).toList).map l.captureBy) := by
    have hsorted := (List.mergeSort_perm d.found Capture.le).filter (·.covers l)
    refine hsorted.trans ?_
    rw [found_eq, List.filter_flatMap, List.map_append, ← h.filter_foundAt_node hp hl, ← hcovered]
    refine perm_flatMap_of_two (Tree.nodup_subtrees ?_ h.inOrder.nodup) hp hleaf (by simp) ?_
    · intro u hu
      exact h.isFull (Tree.mem_subtreesOfList_iff.mpr ⟨u, hu, u.mem_subtrees_self⟩)
    · exact fun t ht => h.filter_foundAt_other hp hl ht
  apply eq_of_perm_of_found hperm
  · intro c hc
    exact mem_captures_iff.mp (List.mem_filter.mp hc).1
  · exact d.sorted_captures.filter _
  · exact (pairwise_rules c r l).imp fun ⟨hstart, hstop, hrule⟩ =>
      Capture.le_iff.mpr (.inr ⟨hstart, .inr ⟨hstop, hrule.le⟩⟩)

theorem Built.exists_covered (h : d.Built ls ts) {a : Capture} (ha : a ∈ d.captures) :
    ∃ role c us r l, .node role c us ∈ d.root.subtrees ∧ .leaf r l ∈ us ∧ a.covers l = true := by
  obtain ⟨t, ht, rule, n, hr, ha⟩ := mem_found_iff.mp (mem_captures_iff.mp ha)
  obtain ⟨u, hu, rfl⟩ := List.mem_map.mp ha
  obtain ⟨us, hus, hu⟩ := List.mem_flatten.mp hu
  obtain ⟨r, l, hstart, hstop, hl⟩ := h.exists_leaf (mem_rules_of_mem_zipIdx hr) ht hus hu
  have hleaf : .leaf r l ∈ d.root.subtrees := by
    rcases hl with rfl | hl
    · exact ht
    · exact Tree.mem_subtrees_trans ht (Tree.mem_subtrees_of_mem hl)
  obtain ⟨role, c, vs, hp, hchild⟩ := h.exists_parent_leaf hleaf
  exact ⟨role, c, vs, r, l, hp, hchild, Capture.covers_iff.mpr ⟨hstart, hstop⟩⟩

theorem Built.nodup_captures (h : d.Built ls ts) : d.captures.Nodup := by
  rw [List.nodup_iff_count_le_one]
  intro a
  by_cases ha : a ∈ d.captures
  · obtain ⟨role, c, us, r, l, hp, hl, hcovers⟩ := h.exists_covered ha
    have hnodup : (d.capturesOf l).Nodup := by
      rw [h.capturesOf_eq hp hl]
      refine (pairwise_rules c r l).imp fun hlt heq => ?_
      rw [heq] at hlt
      exact lt_irrefl _ hlt.2.2
    have hcount : (d.capturesOf l).count a = d.captures.count a := List.count_filter hcovers
    rw [← hcount]
    exact List.nodup_iff_count_le_one.mp hnodup a
  · rw [List.count_eq_zero_of_not_mem ha]
    exact Nat.zero_le 1

/-- The tokens that no rule lists and that are no part of one. -/
def unlisted : List Token :=
  [.binary .meetAscii, .binary .joinAscii, .punctuation .trigger, .punctuation .computable]

/-- The captures tell of every leaf what it is, once, and of nothing else. -/
structure IsClassified (d : Document) : Prop where
  listed : ∀ t ∈ d.root.subtrees, ∀ r l, .leaf r l ∈ t.children → l.token ≠ .identifier →
    l.token ≠ .punctuation .atSign → l.token ∉ unlisted →
      ∃ rule, ofToken l.token = some rule ∧ d.capturesOf l = [l.captureBy rule]
  unlisted : ∀ t ∈ d.root.subtrees, ∀ r l, .leaf r l ∈ t.children → l.token ∈ unlisted →
    d.capturesOf l = []
  /-- A sign before an annotation is captured with the annotation. -/
  sign : ∀ t ∈ d.root.subtrees, ∀ r l, .leaf r l ∈ t.children → l.token = .punctuation .atSign →
    t.kind = .category .annotationCalculus ∧ d.capturesOf l = [l.captureBy (15, "attribute")] ∨
      t.kind = .category .annotatedStatement ∧ d.capturesOf l = [l.captureBy (16, "attribute")]
  /-- An identifier is a variable and what it is by its role. -/
  identifier : ∀ role c us r l, .node role c us ∈ d.root.subtrees → .leaf r l ∈ us →
    l.token = .identifier → d.capturesOf l =
      (ofRole c r .identifier).toList.map l.captureBy ++ [l.captureBy (27, "variable")]
  typeIdentifier : ∀ t ∈ d.root.subtrees, t.kind = .category .typeIdentifier →
    ⟨d.startOf t, d.stopOf t, 17, "type"⟩ ∈ d.captures
  covered : ∀ a ∈ d.captures, ∃ l ∈ d.root.leaves, a.covers l = true
  apart : ∀ a ∈ d.captures, ∀ b ∈ d.captures,
    a.start = b.start ∧ a.stop = b.stop ∨ a.stop ≤ b.start ∨ b.stop ≤ a.start
  sorted : d.captures.Pairwise fun a b => a.start < b.start ∨ a.start = b.start ∧
    (a.stop < b.stop ∨ a.stop = b.stop ∧ a.rule < b.rule)

theorem Built.isClassified (h : d.Built ls ts) : d.IsClassified where
  listed t ht r l hl hidentifier hsign hlisted := by
    cases t with
    | leaf => cases hl
    | node role c us =>
      cases hrule : ofToken l.token with
      | none => exact ((ofToken_eq_none_iff.mp hrule).elim hsign hlisted).elim
      | some rule =>
        refine ⟨rule, rfl, ?_⟩
        rw [h.capturesOf_eq ht hl, ofRole_eq_none hidentifier hsign, hrule]
        rfl
  unlisted t ht r l hl hlisted := by
    cases t with
    | leaf => cases hl
    | node role c us =>
      have hrule := ofToken_eq_none_iff.mpr (.inr hlisted)
      have hidentifier : l.token ≠ .identifier := fun heq => by simp [heq, Document.unlisted] at hlisted
      have hsign : l.token ≠ .punctuation .atSign := fun heq => by
        simp [heq, Document.unlisted] at hlisted
      rw [h.capturesOf_eq ht hl, ofRole_eq_none hidentifier hsign, hrule]
      rfl
  sign t ht r l hl hsign := by
    cases t with
    | leaf => cases hl
    | node role c us =>
      have htable : Category.all.all (fun c => c.production.labels.all fun x =>
          x.2 != .token (.punctuation .atSign) || c == .annotationCalculus ||
            c == .annotatedStatement) = true := by
        decide
      have hlabel : (r, .token (.punctuation .atSign)) ∈ Tree.labels us := by
        refine List.mem_map.mpr ⟨_, List.mem_filter.mpr ⟨hl, ?_⟩, ?_⟩
        · simp [Tree.isComment, hsign]
        · simp [Tree.label, hsign]
      have hc := List.all_eq_true.mp (List.all_eq_true.mp htable c c.mem_all) _
        ((h.expands ht).mem_labels _ hlabel)
      simp only [bne_self_eq_false, Bool.false_or, Bool.or_eq_true, beq_iff_eq] at hc
      rcases hc with rfl | rfl
      · exact .inl ⟨rfl, by rw [h.capturesOf_eq ht hl, hsign]; simp [ofRole, ofToken]⟩
      · exact .inr ⟨rfl, by rw [h.capturesOf_eq ht hl, hsign]; simp [ofRole, ofToken]⟩
  identifier role c us r l ht hl htoken := by
    rw [h.capturesOf_eq ht hl, htoken, List.map_append]
    rfl
  typeIdentifier t ht hkind := by
    cases t with
    | leaf => cases hkind
    | node role c us =>
      obtain rfl := Kind.category.inj hkind
      obtain ⟨l, hl, rfl⟩ := h.children_typeIdentifier ht
      have hmem : l.captureBy (17, "type") ∈ d.capturesOf l := by
        rw [h.capturesOf_eq ht (List.mem_singleton_self _), hl]
        simp [ofRole]
      exact (List.mem_filter.mp hmem).1
  covered a ha := by
    obtain ⟨role, c, us, r, l, hp, hl, hcovers⟩ := h.exists_covered ha
    exact ⟨l, Tree.mem_leaves_of_mem_children hl hp, hcovers⟩
  apart a ha b hb := by
    obtain ⟨_, _, _, _, l, hp, hl, hal⟩ := h.exists_covered ha
    obtain ⟨_, _, _, _, m, hq, hm, hbm⟩ := h.exists_covered hb
    obtain ⟨hastart, hastop⟩ := Capture.covers_iff.mp hal
    obtain ⟨hbstart, hbstop⟩ := Capture.covers_iff.mp hbm
    rw [hastart, hastop, hbstart, hbstop]
    by_cases heq : l = m
    · exact .inl ⟨congrArg _ heq, congrArg _ heq⟩
    · exact .inr (h.inOrder.apart_of_mem (Tree.mem_leaves_of_mem_children hl hp)
        (Tree.mem_leaves_of_mem_children hm hq) heq)
  sorted := by
    refine (d.sorted_captures.and h.nodup_captures).imp_of_mem fun {a b} ha hb hab => ?_
    obtain ⟨hle, hne⟩ := hab
    rcases Capture.le_iff.mp hle with hlt | ⟨hstart, hlt | ⟨hstop, hrule⟩⟩
    · exact .inl hlt
    · exact .inr ⟨hstart, .inl hlt⟩
    · refine .inr ⟨hstart, .inr ⟨hstop, lt_of_le_of_ne hrule fun heq => hne ?_⟩⟩
      -- The number of a rule tells its name.
      have haname := name_of_mem_found (mem_captures_iff.mp ha)
      rw [heq, name_of_mem_found (mem_captures_iff.mp hb)] at haname
      obtain ⟨start, stop, rule, name⟩ := a
      obtain ⟨start', stop', rule', name'⟩ := b
      simp_all

theorem isClassified_of_parse (source : Bytes) (d : Document) (h : parse source = .ok d) :
    d.IsClassified := by
  obtain ⟨-, ls, ts, hbuilt⟩ := exists_built h
  exact hbuilt.isClassified

theorem isClassified_of_annotation :
    ∃ d, parse (Bytes.ofText "@ /* c */ ert proc f(x: T) -> () { @ /* c */ inv(f(x)) x = true }") = .ok d ∧
      d.IsClassified := by
  obtain ⟨d, hd⟩ := isOk_parse_iff.mp
    (show (parse (Bytes.ofText "@ /* c */ ert proc f(x: T) -> () { @ /* c */ inv(f(x)) x = true }")).isOk =
      true by decide +kernel)
  exact ⟨d, hd, isClassified_of_parse _ d hd⟩

end Document

end HeyVL
