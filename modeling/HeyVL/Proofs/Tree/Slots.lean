import HeyVL.Proofs.Tree.Moving
import HeyVL.Tree.Cursor

namespace HeyVL

open Lexeme

namespace Crumb

/-- The node with the given children in the place. -/
def around (k : Crumb) (ts : List Tree) : Tree :=
  .node k.role k.category (k.before.reverse ++ (ts ++ k.after))

/-- The node without the comments before and behind the place. -/
def bare (k : Crumb) : Crumb :=
  { k with before := (Tree.bareOfList k.before.reverse).reverse, after := Tree.bareOfList k.after }

def moved (f g : Nat → Nat) (k : Crumb) : Crumb :=
  { k with before := k.before.map (Tree.moved f g), after := k.after.map (Tree.moved f g) }

end Crumb

namespace Tree

/-- The trees in the place that the nodes of the path are around, the innermost first. -/
def fill : List Crumb → List Tree → List Tree
  | [], ts => ts
  | k :: path, ts => fill path [k.around ts]

def front : List Crumb → List Lexeme
  | [] => []
  | k :: path => front path ++ leavesOfList k.before.reverse

def back : List Crumb → List Lexeme
  | [] => []
  | k :: path => leavesOfList k.after ++ back path

variable {k : Crumb} {path inner : List Crumb} {t u : Tree} {ts us : List Tree} {l : Lexeme}

theorem mem_children_around_iff :
    t ∈ (k.around ts).children ↔ t ∈ k.before.reverse ∨ t ∈ ts ∨ t ∈ k.after := by
  rw [Crumb.around, children, List.mem_append, List.mem_append]

theorem leaves_around (k : Crumb) (ts : List Tree) :
    (k.around ts).leaves =
      leavesOfList k.before.reverse ++ (leavesOfList ts ++ leavesOfList k.after) := by
  rw [Crumb.around, leaves, leavesOfList_append, leavesOfList_append]

theorem leavesOfList_fill (path : List Crumb) (ts : List Tree) :
    leavesOfList (fill path ts) = front path ++ (leavesOfList ts ++ back path) := by
  induction path generalizing ts with
  | nil => simp [fill, front, back]
  | cons k path ih =>
    rw [fill, ih, leavesOfList_singleton, leaves_around, front, back]
    simp only [List.append_assoc]

theorem fill_append (inner path : List Crumb) (ts : List Tree) :
    fill (inner ++ path) ts = fill path (fill inner ts) := by
  induction inner generalizing ts with
  | nil => rfl
  | cons k inner ih => exact ih [k.around ts]

theorem exists_fill_cons (k : Crumb) (path : List Crumb) :
    ∃ role c, ∀ ts, ∃ us, fill (k :: path) ts = [node role c us] := by
  induction path generalizing k with
  | nil => exact ⟨k.role, k.category, fun ts => ⟨_, rfl⟩⟩
  | cons k' path ih =>
    obtain ⟨role, c, hfill⟩ := ih k'
    exact ⟨role, c, fun ts => hfill [k.around ts]⟩

theorem exists_fill_of_fill {role : Option Field} {c : Category}
    (h : fill (k :: path) ts = [.node role c us]) (ts' : List Tree) :
    ∃ us', fill (k :: path) ts' = [.node role c us'] := by
  obtain ⟨role', c', hfill⟩ := exists_fill_cons k path
  obtain ⟨vs, hvs⟩ := hfill ts
  obtain ⟨rfl, rfl, -⟩ : _ ∧ _ ∧ _ := by simpa [hvs] using h
  exact hfill ts'

theorem bare_around (k : Crumb) (ts : List Tree) :
    (k.around ts).bare = k.bare.around (bareOfList ts) := by
  simp [Crumb.around, Crumb.bare, bare, bareOfList_eq]

theorem bareOfList_singleton (ht : t.isComment = false) : bareOfList [t] = [t.bare] := by
  rw [bareOfList, ht]
  rfl

theorem bareOfList_fill (path : List Crumb) (ts : List Tree) :
    bareOfList (fill path ts) = fill (path.map Crumb.bare) (bareOfList ts) := by
  induction path generalizing ts with
  | nil => rfl
  | cons k path ih =>
    rw [fill, ih, List.map_cons, fill, bareOfList_singleton rfl, bare_around]

theorem moved_around (f g : Nat → Nat) (k : Crumb) (ts : List Tree) :
    (k.around ts).moved f g = (k.moved f g).around (ts.map (moved f g)) := by
  rw [Crumb.around, moved_node, Crumb.around, Crumb.moved]
  simp

theorem map_moved_fill (f g : Nat → Nat) (path : List Crumb) (ts : List Tree) :
    (fill path ts).map (moved f g) = fill (path.map (Crumb.moved f g)) (ts.map (moved f g)) := by
  induction path generalizing ts with
  | nil => rfl
  | cons k path ih => rw [fill, ih, List.map_singleton, moved_around, List.map_cons, fill]

theorem map_moved_id (path : List Crumb) : path.map (Crumb.moved id id) = path := by
  have hid (ts : List Tree) : ts.map (moved id id) = ts :=
    (List.map_congr_left fun t _ => moved_id t).trans (List.map_id ts)
  refine (List.map_congr_left fun k _ => ?_).trans (List.map_id path)
  rw [Crumb.moved, hid, hid]
  rfl

theorem map_bare_map_moved (f g : Nat → Nat) (path : List Crumb) :
    (path.map (Crumb.moved f g)).map Crumb.bare = (path.map Crumb.bare).map (Crumb.moved f g) := by
  rw [List.map_map, List.map_map]
  refine List.map_congr_left fun k _ => ?_
  simp only [Function.comp_apply, Crumb.moved, Crumb.bare, ← List.map_reverse, bareOfList_map_moved]

theorem leavesOfList_map_moved (f g : Nat → Nat) (ts : List Tree) :
    leavesOfList (ts.map (moved f g)) = (leavesOfList ts).map (Lexeme.moved f g) := by
  rw [leavesOfList_eq_flatMap, leavesOfList_eq_flatMap, List.flatMap_map, List.map_flatMap]
  exact List.flatMap_congr fun t _ => leaves_moved f g t

theorem front_map_moved (f g : Nat → Nat) (path : List Crumb) :
    front (path.map (Crumb.moved f g)) = (front path).map (Lexeme.moved f g) := by
  induction path with
  | nil => rfl
  | cons k path ih =>
    rw [List.map_cons, front, ih, front, List.map_append, ← leavesOfList_map_moved,
      List.map_reverse, Crumb.moved]

theorem back_map_moved (f g : Nat → Nat) (path : List Crumb) :
    back (path.map (Crumb.moved f g)) = (back path).map (Lexeme.moved f g) := by
  induction path with
  | nil => rfl
  | cons k path ih =>
    rw [List.map_cons, back, ih, back, List.map_append, ← leavesOfList_map_moved, Crumb.moved]

theorem bareOfList_append (ts us : List Tree) :
    bareOfList (ts ++ us) = bareOfList ts ++ bareOfList us := by
  simp [bareOfList_eq]

theorem labels_append (ts us : List Tree) : labels (ts ++ us) = labels ts ++ labels us := by
  simp [labels]

theorem leaves_bare (ht : t.isComment = false) : t.bare.leaves = significant t.leaves := by
  induction t using inductionOnChildren with
  | leaf role l =>
    have hl : l.token ≠ .comment := by simpa [isComment] using ht
    simp [bare, leaves, significant, hl]
  | node role c ts ih =>
    rw [bare, leaves, leaves]
    clear ht
    induction ts with
    | nil => rfl
    | cons u ts ihts =>
      have hrest := ihts fun v hv => ih v (by simp [hv])
      rw [bareOfList, leavesOfList_cons, significant, List.filter_append]
      cases hu : u.isComment with
      | true =>
        cases u with
        | leaf role l =>
          have hl : l.token = .comment := by simpa [isComment] using hu
          simpa [leaves, hl, significant] using hrest
        | node => cases hu
      | false =>
        rw [if_neg Bool.false_ne_true, leavesOfList_cons, ih u (by simp) hu, hrest]
        rfl

theorem leavesOfList_bareOfList (ts : List Tree) :
    leavesOfList (bareOfList ts) = significant (leavesOfList ts) :=
  leaves_bare (t := .node none .sourceFile ts) rfl

theorem front_map_bare (path : List Crumb) :
    front (path.map Crumb.bare) = significant (front path) := by
  induction path with
  | nil => rfl
  | cons k path ih =>
    rw [List.map_cons, front, ih, front, Crumb.bare, List.reverse_reverse, leavesOfList_bareOfList,
      significant, significant, significant, List.filter_append]

theorem map_token_front (path : List Crumb) :
    (front (path.map Crumb.bare)).map Lexeme.token = tokensOf (front path) := by
  rw [front_map_bare]
  rfl

theorem back_map_bare (path : List Crumb) :
    back (path.map Crumb.bare) = significant (back path) := by
  induction path with
  | nil => rfl
  | cons k path ih =>
    rw [List.map_cons, back, ih, back, Crumb.bare, leavesOfList_bareOfList, significant, significant,
      significant, List.filter_append]

theorem mem_subtreesOfList_append_iff :
    u ∈ subtreesOfList (ts ++ us) ↔ u ∈ subtreesOfList ts ∨ u ∈ subtreesOfList us := by
  rw [subtreesOfList_eq_flatMap, subtreesOfList_eq_flatMap, subtreesOfList_eq_flatMap,
    List.flatMap_append, List.mem_append]

theorem mem_subtreesOfList_fill (h : u ∈ subtreesOfList ts) (path : List Crumb) :
    u ∈ subtreesOfList (fill path ts) := by
  induction path generalizing ts with
  | nil => exact h
  | cons k path ih =>
    obtain ⟨t, ht, hu⟩ := mem_subtreesOfList_iff.mp h
    refine ih (mem_subtreesOfList_iff.mpr ⟨_, List.mem_singleton_self _, ?_⟩)
    exact mem_subtrees_of_mem_children (by simp [ht]) hu

theorem around_mem_subtrees (h : fill (k :: path) ts = [t]) : k.around ts ∈ t.subtrees := by
  have hself : k.around ts ∈ subtreesOfList [k.around ts] :=
    mem_subtreesOfList_iff.mpr ⟨_, List.mem_singleton_self _, mem_subtrees_self _⟩
  have hmem := mem_subtreesOfList_fill hself path
  have hfill : fill path [k.around ts] = [t] := h
  rwa [hfill, subtreesOfList_eq_flatMap, List.flatMap_singleton] at hmem

/-- The node stands beside the path: it is in a sibling of one of the nodes of the path. -/
def Beside (path : List Crumb) (u : Tree) : Prop :=
  ∃ k ∈ path, u ∈ subtreesOfList k.before.reverse ∨ u ∈ subtreesOfList k.after

theorem mem_subtreesOfList_fill_iff :
    u ∈ subtreesOfList (fill path ts) ↔ u ∈ subtreesOfList ts ∨ Beside path u ∨
      ∃ inner k outer, path = inner ++ k :: outer ∧ u = k.around (fill inner ts) := by
  induction path generalizing ts with
  | nil => simp [fill, Beside]
  | cons k path ih =>
    have haround : u ∈ subtreesOfList [k.around ts] ↔ u = k.around ts ∨ u ∈ subtreesOfList ts ∨
        u ∈ subtreesOfList k.before.reverse ∨ u ∈ subtreesOfList k.after := by
      rw [subtreesOfList_eq_flatMap, List.flatMap_singleton, Crumb.around, subtrees, List.mem_cons,
        mem_subtreesOfList_append_iff, mem_subtreesOfList_append_iff]
      tauto
    have hbeside : Beside (k :: path) u ↔
        (u ∈ subtreesOfList k.before.reverse ∨ u ∈ subtreesOfList k.after) ∨ Beside path u := by
      simp [Beside]
    rw [fill, ih, haround, hbeside]
    constructor
    · rintro ((rfl | hu | hu) | hu | ⟨inner, k', outer, rfl, rfl⟩)
      · exact .inr (.inr ⟨[], k, path, rfl, rfl⟩)
      · exact .inl hu
      · exact .inr (.inl (.inl hu))
      · exact .inr (.inl (.inr hu))
      · exact .inr (.inr ⟨k :: inner, k', outer, rfl, rfl⟩)
    · rintro (hu | (hu | hu) | ⟨inner, k', outer, hpath, rfl⟩)
      · exact .inl (.inr (.inl hu))
      · exact .inl (.inr (.inr hu))
      · exact .inr (.inl hu)
      · rcases List.cons_eq_append_iff.mp hpath with ⟨rfl, hcons⟩ | ⟨inner, rfl, rfl⟩
        · obtain ⟨rfl, rfl⟩ := List.cons.inj hcons
          exact .inl (.inl rfl)
        · exact .inr (.inr ⟨inner, k', outer, rfl, rfl⟩)

theorem exists_fill_of_mem_subtrees (h : u ∈ t.subtrees) : ∃ path, fill path [u] = [t] := by
  induction t using inductionOnChildren with
  | leaf role l =>
    obtain rfl := List.mem_singleton.mp h
    exact ⟨[], rfl⟩
  | node role c ts ih =>
    rcases mem_subtrees_node_iff.mp h with rfl | ⟨v, hv, hu⟩
    · exact ⟨[], rfl⟩
    · obtain ⟨path, hpath⟩ := ih v hv hu
      obtain ⟨before, after, rfl⟩ := List.append_of_mem hv
      refine ⟨path ++ [⟨role, c, before.reverse, after⟩], ?_⟩
      rw [fill_append, hpath, fill, fill, Crumb.around, List.reverse_reverse, List.singleton_append]

end Tree

end HeyVL
