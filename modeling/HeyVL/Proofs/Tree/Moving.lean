import HeyVL.Proofs.Tree.Surrounding
import Mathlib.Order.Monotone.Basic

namespace HeyVL

namespace Lexeme

/-- The lexeme at another place: `f` moves starts and `g` moves ends. -/
def moved (f g : Nat → Nat) (l : Lexeme) : Lexeme := ⟨l.token, f l.start, g l.stop⟩

def AreAt (s : Set Nat) (ls : List Lexeme) : Prop := ∀ l ∈ ls, l.start ∈ s ∧ l.stop ∈ s

variable {f : Nat → Nat} {s : Set Nat} {ls : List Lexeme}

theorem InOrder.map_moved (h : InOrder ls) (hf : StrictMonoOn f s) (hls : AreAt s ls) :
    InOrder (ls.map (Lexeme.moved f f)) where
  nonempty := by
    intro m hm
    obtain ⟨l, hl, rfl⟩ := List.mem_map.mp hm
    exact hf (hls l hl).1 (hls l hl).2 (h.nonempty l hl)
  apart := by
    rw [List.pairwise_map]
    exact h.apart.imp_of_mem fun ha hb hab => hf.monotoneOn (hls _ ha).2 (hls _ hb).1 hab

theorem tokensOf_map_moved (f g : Nat → Nat) (ls : List Lexeme) :
    tokensOf (ls.map (Lexeme.moved f g)) = tokensOf ls := by
  rw [tokensOf, tokensOf, significant, significant, List.filter_map, List.map_map]
  rfl

end Lexeme

open Lexeme

namespace Tree

mutual

/-- The tree with all leaves moved. -/
def moved (f g : Nat → Nat) : Tree → Tree
  | leaf role l => leaf role (l.moved f g)
  | node role c ts => node role c (movedOfList f g ts)

def movedOfList (f g : Nat → Nat) : List Tree → List Tree
  | [] => []
  | t :: rest => t.moved f g :: movedOfList f g rest

end

variable {f g : Nat → Nat} {t u : Tree} {ts : List Tree}

theorem movedOfList_eq (f g : Nat → Nat) (ts : List Tree) :
    movedOfList f g ts = ts.map (moved f g) := by
  induction ts with
  | nil => rfl
  | cons t ts ih => rw [movedOfList, ih, List.map_cons]

theorem moved_node (f g : Nat → Nat) (role : Option Field) (c : Category) (ts : List Tree) :
    (Tree.node role c ts).moved f g = .node role c (ts.map (moved f g)) := by
  rw [moved, movedOfList_eq]

@[simp] theorem role_moved (f g : Nat → Nat) (t : Tree) : (t.moved f g).role = t.role := by
  cases t <;> rfl

@[simp] theorem kind_moved (f g : Nat → Nat) (t : Tree) : (t.moved f g).kind = t.kind := by
  cases t <;> rfl

@[simp] theorem label_moved (f g : Nat → Nat) (t : Tree) : (t.moved f g).label = t.label := by
  rw [label, role_moved, kind_moved, label]

@[simp] theorem isComment_moved (f g : Nat → Nat) (t : Tree) :
    (t.moved f g).isComment = t.isComment := by
  rw [isComment, kind_moved, isComment]

theorem map_label_map_moved (f g : Nat → Nat) (ts : List Tree) :
    (ts.map (moved f g)).map label = ts.map label := by
  rw [List.map_map]
  exact List.map_congr_left fun t _ => label_moved f g t

theorem children_moved (f g : Nat → Nat) (t : Tree) :
    (t.moved f g).children = t.children.map (moved f g) := by
  cases t with
  | leaf => rfl
  | node role c ts => rw [moved_node, children, children]

theorem leaves_moved (f g : Nat → Nat) (t : Tree) :
    (t.moved f g).leaves = t.leaves.map (Lexeme.moved f g) := by
  induction t using inductionOnChildren with
  | leaf => rfl
  | node role c ts ih =>
    rw [moved_node, leaves, leaves, leavesOfList_eq_flatMap, leavesOfList_eq_flatMap,
      List.flatMap_map, List.map_flatMap]
    exact List.flatMap_congr ih

theorem subtrees_moved (f g : Nat → Nat) (t : Tree) :
    (t.moved f g).subtrees = t.subtrees.map (moved f g) := by
  induction t using inductionOnChildren with
  | leaf => rfl
  | node role c ts ih =>
    rw [moved_node, subtrees, subtrees, subtreesOfList_eq_flatMap, subtreesOfList_eq_flatMap,
      List.flatMap_map, List.map_cons, moved_node, List.map_flatMap]
    exact congrArg _ (List.flatMap_congr ih)

theorem IsFull.start_moved (h : t.IsFull) : (t.moved f g).start = f t.start := by
  induction h with
  | leaf => rfl
  | @node role c ts hc hts inner ih =>
    obtain ⟨u, rest, rfl⟩ := List.exists_cons_of_ne_nil hts
    exact ih u (by simp)

theorem IsFull.stop_moved (h : t.IsFull) : (t.moved f g).stop = g t.stop := by
  induction h with
  | leaf => rfl
  | @node role c ts hc hts inner ih =>
    obtain ⟨front, u, rfl⟩ := (List.eq_nil_or_concat' ts).resolve_left hts
    rw [moved_node, stop, stop, stopOfList_eq _ (u.moved f g) (by simp),
      stopOfList_eq _ u (by simp)]
    exact ih u (by simp)

theorem level?_moved (f g : Nat → Nat) (t : Tree) : (t.moved f g).level? = t.level? := by
  cases t with
  | leaf => rfl
  | node role c ts =>
    rw [moved_node]
    by_cases hc : c = .binaryExpression
    · subst hc
      rw [level?, level?, List.findSome?_map]
      apply congrArg fun p => List.findSome? p ts
      funext u
      cases u with
      | leaf role l =>
        obtain ⟨token, start, stop⟩ := l
        cases token <;> rfl
      | node => rfl
    · rw [level?_eq_none hc, level?_eq_none hc]

theorem operands_moved (f g : Nat → Nat) (ts : List Tree) :
    operands (ts.map (moved f g)) = (operands ts).map (moved f g) := by
  rw [operands, operands, List.filter_map]
  apply congrArg (List.map _)
  apply congrArg fun p => List.filter p ts
  funext u
  cases u with
  | leaf role l =>
    obtain ⟨token, start, stop⟩ := l
    cases token <;> rfl
  | node => rfl

mutual

theorem isRightOpen_moved (f g : Nat → Nat) (t : Tree) :
    (t.moved f g).isRightOpen = t.isRightOpen := by
  cases t with
  | leaf => rfl
  | node role c ts =>
    have hlast := lastIsRightOpen_moved f g ts
    cases c
    case unaryExpression | binaryExpression => exact hlast
    all_goals rfl

theorem lastIsRightOpen_moved (f g : Nat → Nat) (ts : List Tree) :
    lastIsRightOpen (movedOfList f g ts) = lastIsRightOpen ts := by
  cases ts with
  | nil => rfl
  | cons t rest =>
    cases rest with
    | nil => exact isRightOpen_moved f g t
    | cons u rest => exact lastIsRightOpen_moved f g (u :: rest)

end

theorem hasLevel_moved (f g : Nat → Nat) (t : Tree) (p : Nat → Bool) :
    (t.moved f g).hasLevel p = t.hasLevel p := by
  rw [hasLevel, level?_moved, hasLevel]

theorem isGroupedAt_moved (f g : Nat → Nat) (t : Tree) :
    (t.moved f g).isGroupedAt = t.isGroupedAt := by
  cases t with
  | leaf => rfl
  | node role c ts =>
    have hlevel := level?_moved f g (.node role c ts)
    rw [moved_node] at hlevel ⊢
    cases c
    case unaryExpression =>
      rw [isGroupedAt, isGroupedAt, operands_moved]
      rcases operands ts with _ | ⟨x, _ | ⟨y, rest⟩⟩
      · rfl
      · simp [hasLevel_moved]
      · rfl
    case binaryExpression =>
      rw [isGroupedAt, isGroupedAt, operands_moved, hlevel]
      cases (Tree.node role .binaryExpression ts).level? with
      | none => rfl
      | some p =>
        rcases operands ts with _ | ⟨x, _ | ⟨y, _ | ⟨z, rest⟩⟩⟩
        · rfl
        · rfl
        · simp [hasLevel_moved, isRightOpen_moved]
        · rfl
    all_goals rfl

theorem IsSyntax.moved (h : t.IsSyntax) : (t.moved f g).IsSyntax := by
  induction h with
  | leaf role h => exact .leaf role h
  | @node role c ts expands grouped inner ih =>
    rw [← isGroupedAt_moved f g] at grouped
    rw [moved_node] at grouped ⊢
    refine .node ?_ grouped ?_
    · rwa [map_label_map_moved]
    · intro u hu
      obtain ⟨v, hv, rfl⟩ := List.mem_map.mp hu
      exact ih v hv

theorem isSyntax_of_moved (h : (t.moved f g).IsSyntax) : t.IsSyntax := by
  induction t using inductionOnChildren with
  | leaf role l =>
    cases h with
    | leaf _ hl => exact .leaf role hl
  | node role c ts ih =>
    have hgrouped := isGroupedAt_moved f g (.node role c ts)
    rw [moved_node] at h hgrouped
    cases h with
    | node expands grouped inner =>
      rw [map_label_map_moved] at expands
      exact .node expands (hgrouped ▸ grouped) fun t ht => ih t ht (inner _ (List.mem_map_of_mem ht))

theorem moved_moved (f g f' g' : Nat → Nat) (t : Tree) :
    (t.moved f g).moved f' g' = t.moved (f' ∘ f) (g' ∘ g) := by
  induction t using inductionOnChildren with
  | leaf => rfl
  | node role c ts ih =>
    rw [moved_node, moved_node, moved_node, List.map_map]
    exact congrArg _ (List.map_congr_left ih)

theorem moved_congr {f g f' g' : Nat → Nat}
    (h : ∀ l ∈ t.leaves, f l.start = f' l.start ∧ g l.stop = g' l.stop) :
    t.moved f g = t.moved f' g' := by
  induction t using inductionOnChildren with
  | leaf role l =>
    obtain ⟨hstart, hstop⟩ := h l (List.mem_singleton_self l)
    rw [moved, moved, Lexeme.moved, Lexeme.moved, hstart, hstop]
  | node role c ts ih =>
    rw [moved_node, moved_node]
    refine congrArg _ (List.map_congr_left fun u hu => ih u hu fun l hl => h l ?_)
    rw [leaves, leavesOfList_eq_flatMap]
    exact List.mem_flatMap.mpr ⟨u, hu, hl⟩

@[simp] theorem moved_id (t : Tree) : t.moved id id = t := by
  induction t using inductionOnChildren with
  | leaf => rfl
  | node role c ts ih =>
    rw [moved_node]
    exact congrArg _ ((List.map_congr_left ih).trans (List.map_id ts))

theorem bare_moved (f g : Nat → Nat) (t : Tree) : (t.moved f g).bare = t.bare.moved f g := by
  induction t using inductionOnChildren with
  | leaf => rfl
  | node role c ts ih =>
    have hcomment : (fun t : Tree => !t.isComment) ∘ moved f g = fun t => !t.isComment := by
      funext t
      simp
    rw [moved_node, bare, bare, moved_node, bareOfList_eq, bareOfList_eq, List.filter_map, hcomment,
      List.map_map, List.map_map]
    exact congrArg _ (List.map_congr_left fun t ht => ih t (List.mem_of_mem_filter ht))

theorem bareOfList_map_moved (f g : Nat → Nat) (ts : List Tree) :
    bareOfList (ts.map (moved f g)) = (bareOfList ts).map (moved f g) := by
  have h := bare_moved f g (.node none .sourceFile ts)
  rw [moved_node, bare, bare, moved_node] at h
  exact (Tree.node.inj h).2.2

theorem labels_map_moved (f g : Nat → Nat) (ts : List Tree) : labels (ts.map (moved f g)) = labels ts := by
  rw [labels_eq, bareOfList_map_moved, map_label_map_moved, ← labels_eq]

theorem IsFull.moved (h : t.IsFull) : (t.moved f g).IsFull := by
  induction h with
  | leaf role l => exact .leaf role _
  | @node role c ts hc hts inner ih =>
    rw [moved_node]
    refine .node role hc (by simpa using hts) ?_
    intro u hu
    obtain ⟨v, hv, rfl⟩ := List.mem_map.mp hu
    exact ih v hv

section Placing

variable {s : Set Nat} {comment : Lexeme} {cs : List Lexeme}

theorem IsFull.start_mem (h : t.IsFull) (ht : AreAt s t.leaves) : t.start ∈ s := by
  obtain ⟨l, ls, hl⟩ := List.exists_cons_of_ne_nil h.leaves_ne_nil
  rw [h.start_eq l (by simp [hl])]
  exact (ht l (by simp [hl])).1

theorem IsFull.stop_mem (h : t.IsFull) (ht : AreAt s t.leaves) : t.stop ∈ s := by
  obtain ⟨ls, l, hl⟩ := (List.eq_nil_or_concat' t.leaves).resolve_left h.leaves_ne_nil
  rw [h.stop_eq l (by simp [hl])]
  exact (ht l (by simp [hl])).2

mutual

theorem moved_placeIn {t : Tree} (hf : StrictMonoOn f s) (h : t.IsFull) (ht : AreAt s t.leaves)
    (hc : comment.start ∈ s) :
    (t.placeIn comment).moved f f = (t.moved f f).placeIn (comment.moved f f) := by
  cases t with
  | leaf role l => rfl
  | node role c us =>
    cases h with
    | node _ _ _ inner =>
      rw [placeIn, moved_node, moved_node, placeIn, map_moved_placeAmong hf inner ht hc]

theorem map_moved_placeAmong {us : List Tree} (hf : StrictMonoOn f s) (h : ∀ t ∈ us, t.IsFull)
    (hus : AreAt s (leavesOfList us)) (hc : comment.start ∈ s) :
    (placeAmong comment us).map (moved f f) =
      placeAmong (comment.moved f f) (us.map (moved f f)) := by
  cases us with
  | nil => rfl
  | cons t rest =>
    have ht := h t (by simp)
    have hleaves : AreAt s t.leaves := fun l hl => hus l (List.mem_append_left _ hl)
    have hrest : AreAt s (leavesOfList rest) := fun l hl => hus l (List.mem_append_right _ hl)
    have hstop : (t.moved f f).stop ≤ (comment.moved f f).start ↔ t.stop ≤ comment.start := by
      rw [ht.stop_moved]
      exact hf.le_iff_le (ht.stop_mem hleaves) hc
    have hstart : (t.moved f f).start < (comment.moved f f).start ↔ t.start < comment.start := by
      rw [ht.start_moved]
      exact hf.lt_iff_lt (ht.start_mem hleaves) hc
    rw [placeAmong, List.map_cons, placeAmong]
    simp only [hstop, hstart]
    split
    · rw [List.map_cons,
        map_moved_placeAmong hf (fun u hu => h u (List.mem_cons_of_mem _ hu)) hrest hc]
    · split
      · rw [List.map_cons, moved_placeIn hf ht hleaves hc]
      · rfl

end

theorem mem_leavesOfList_placeAmong {l : Lexeme} (h : l ∈ leavesOfList (placeAmong comment ts)) :
    l = comment ∨ l ∈ leavesOfList ts := by
  have hmem {us : List Tree} {l : Lexeme} :
      l ∈ leavesOfList us ↔ ∃ r, leaf r l ∈ subtreesOfList us := by
    rw [leavesOfList_eq_flatMap, subtreesOfList_eq_flatMap]
    simp only [List.mem_flatMap, mem_leaves_iff]
    exact ⟨fun ⟨t, ht, r, hr⟩ => ⟨r, t, ht, hr⟩, fun ⟨r, t, ht, hr⟩ => ⟨t, ht, r, hr⟩⟩
  obtain ⟨r, hr⟩ := hmem.mp h
  rcases mem_subtreesOfList_placeAmong hr with hr | hr
  · exact .inl (leaf.inj hr).2
  · exact .inr (hmem.mpr ⟨r, hr⟩)

theorem map_moved_placeAll (hf : StrictMonoOn f s) (h : ∀ t ∈ ts, t.IsFull)
    (hts : AreAt s (leavesOfList ts)) (hcs : AreAt s cs) :
    (placeAll cs ts).map (moved f f) =
      placeAll (cs.map (Lexeme.moved f f)) (ts.map (moved f f)) := by
  induction cs generalizing ts with
  | nil => rfl
  | cons c cs ih =>
    have hc := hcs c (by simp)
    have hplaced : AreAt s (leavesOfList (placeAmong c ts)) := by
      intro l hl
      rcases mem_leavesOfList_placeAmong hl with rfl | hl
      · exact hc
      · exact hts l hl
    have hrest := ih (isFull_of_mem_placeAmong h c) hplaced fun l hl => hcs l (by simp [hl])
    rw [map_moved_placeAmong hf h hts hc.1] at hrest
    exact hrest

end Placing

end Tree

end HeyVL
