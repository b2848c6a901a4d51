import HeyVL.Proofs.Tree.Slots

namespace HeyVL

namespace Tree

def isLeafIn (ls : List Lexeme) : Tree → Bool
  | leaf _ l => l ∈ ls
  | node _ _ _ => false

mutual

/-- The tree without the given leaves. -/
def without (ls : List Lexeme) : Tree → Tree
  | leaf role l => leaf role l
  | node role c ts => node role c (withoutOfList ls ts)

def withoutOfList (ls : List Lexeme) : List Tree → List Tree
  | [] => []
  | t :: rest =>
    if t.isLeafIn ls then withoutOfList ls rest else t.without ls :: withoutOfList ls rest

end

variable {t : Tree} {ts us : List Tree} {ls ms : List Lexeme} {l : Lexeme} {role : Option Field}
  {path : List Crumb}

theorem withoutOfList_eq (ls : List Lexeme) (ts : List Tree) :
    withoutOfList ls ts = (ts.filter fun t => !t.isLeafIn ls).map (without ls) := by
  induction ts with
  | nil => rfl
  | cons t ts ih =>
    rw [withoutOfList, List.filter_cons, ih]
    cases t.isLeafIn ls <;> rfl

theorem withoutOfList_append (ls : List Lexeme) (ts us : List Tree) :
    withoutOfList ls (ts ++ us) = withoutOfList ls ts ++ withoutOfList ls us := by
  simp [withoutOfList_eq]

theorem withoutOfList_reverse (ls : List Lexeme) (ts : List Tree) :
    withoutOfList ls ts.reverse = (withoutOfList ls ts).reverse := by
  simp [withoutOfList_eq, List.filter_reverse]

theorem withoutOfList_leaf (h : l ∈ ls) : withoutOfList ls [leaf role l] = [] := by
  rw [withoutOfList, isLeafIn, if_pos (by simpa using h), withoutOfList]

theorem withoutOfList_node (ls : List Lexeme) (role : Option Field) (c : Category) (ts : List Tree) :
    withoutOfList ls [node role c ts] = [(node role c ts).without ls] := rfl

theorem withoutOfList_congr_of_forall (ih : ∀ t ∈ ts, t.without ls = t.without ms)
    (h : ∀ l ∈ leavesOfList ts, l ∈ ls ↔ l ∈ ms) : withoutOfList ls ts = withoutOfList ms ts := by
  have hsame : ∀ t ∈ ts, t.isLeafIn ls = t.isLeafIn ms := by
    intro t ht
    cases t with
    | node => rfl
    | leaf role l =>
      have hl : l ∈ leavesOfList ts := by
        rw [leavesOfList_eq_flatMap]
        exact List.mem_flatMap.mpr ⟨_, ht, List.mem_singleton_self l⟩
      simp only [isLeafIn, h l hl]
  rw [withoutOfList_eq, withoutOfList_eq, List.filter_congr fun t ht => by rw [hsame t ht]]
  exact List.map_congr_left fun t ht => ih t (List.mem_of_mem_filter ht)

theorem without_congr (h : ∀ l ∈ t.leaves, l ∈ ls ↔ l ∈ ms) : t.without ls = t.without ms := by
  induction t using inductionOnChildren with
  | leaf role l => rfl
  | node role c ts ih =>
    rw [without, without, withoutOfList_congr_of_forall (fun t ht => ih t ht fun l hl => h l ?_) h]
    rw [leaves, leavesOfList_eq_flatMap]
    exact List.mem_flatMap.mpr ⟨t, ht, hl⟩

theorem withoutOfList_congr (h : ∀ l ∈ leavesOfList ts, l ∈ ls ↔ l ∈ ms) :
    withoutOfList ls ts = withoutOfList ms ts := by
  refine withoutOfList_congr_of_forall (fun t ht => without_congr fun l hl => h l ?_) h
  rw [leavesOfList_eq_flatMap]
  exact List.mem_flatMap.mpr ⟨t, ht, hl⟩

theorem leavesOfList_without_of_forall
    (ih : ∀ t ∈ ts, t.isLeafIn ls = false → (t.without ls).leaves = t.leaves.filter (· ∉ ls)) :
    leavesOfList (withoutOfList ls ts) = (leavesOfList ts).filter (· ∉ ls) := by
  induction ts with
  | nil => rfl
  | cons t ts ihts =>
    have hrest := ihts fun u hu => ih u (List.mem_cons_of_mem _ hu)
    rw [withoutOfList, leavesOfList_cons, List.filter_append, ← hrest]
    split
    · next hleaf =>
      cases t with
      | node => cases hleaf
      | leaf role l =>
        have hl : l ∈ ls := by simpa [isLeafIn] using hleaf
        simp [leaves, hl]
    · next hleaf => rw [leavesOfList_cons, ih t List.mem_cons_self (by simpa using hleaf)]

theorem leaves_without (h : t.isLeafIn ls = false) :
    (t.without ls).leaves = t.leaves.filter (· ∉ ls) := by
  induction t using inductionOnChildren with
  | leaf role l =>
    have hl : l ∉ ls := by simpa [isLeafIn] using h
    simp [without, leaves, hl]
  | node role c ts ih => exact leavesOfList_without_of_forall ih

theorem without_without (t : Tree) (ls ms : List Lexeme) :
    (t.without ls).without ms = t.without (ls ++ ms) := by
  induction t using inductionOnChildren with
  | leaf role l => rfl
  | node role c ts ih =>
    have hkept (t : Tree) :
        (!(t.without ls).isLeafIn ms && !t.isLeafIn ls) = !t.isLeafIn (ls ++ ms) := by
      cases t with
      | node => rfl
      | leaf role l => simp [without, isLeafIn, Bool.and_comm]
    rw [without, without, without, withoutOfList_eq, withoutOfList_eq, withoutOfList_eq, List.filter_map,
      List.map_map, List.filter_filter]
    simp only [Function.comp_apply, hkept]
    exact congrArg _ (List.map_congr_left fun t ht => ih t (List.mem_of_mem_filter ht))

theorem without_nil (t : Tree) : t.without [] = t := by
  induction t using inductionOnChildren with
  | leaf role l => rfl
  | node role c ts ih =>
    have hkept : ts.filter (fun t => !t.isLeafIn []) = ts :=
      List.filter_eq_self.mpr fun t _ => by cases t <;> rfl
    rw [without, withoutOfList_eq, hkept, List.map_congr_left ih, List.map_id']

theorem withoutOfList_nil (ts : List Tree) : withoutOfList [] ts = ts := by
  have hkept : ts.filter (fun t => !t.isLeafIn []) = ts :=
    List.filter_eq_self.mpr fun t _ => by cases t <;> rfl
  rw [withoutOfList_eq, hkept, List.map_congr_left fun t _ => t.without_nil, List.map_id']

end Tree

open HeyVL.Tree

def Crumb.without (ls : List Lexeme) (k : Crumb) : Crumb :=
  { k with before := withoutOfList ls k.before, after := withoutOfList ls k.after }

namespace Tree

variable {ts : List Tree} {ls ms : List Lexeme} {path : List Crumb}

theorem without_around (ls : List Lexeme) (k : Crumb) (ts : List Tree) :
    (k.around ts).without ls = (k.without ls).around (withoutOfList ls ts) := by
  rw [Crumb.around, without, withoutOfList_append, withoutOfList_append, withoutOfList_reverse]
  rfl

theorem withoutOfList_fill (ls : List Lexeme) (path : List Crumb) (ts : List Tree) :
    withoutOfList ls (fill path ts) = fill (path.map (Crumb.without ls)) (withoutOfList ls ts) := by
  induction path generalizing ts with
  | nil => rfl
  | cons k path ih =>
    rw [fill, ih, List.map_cons, fill, ← without_around]
    rfl

theorem map_without_congr (h : ∀ l ∈ front path ++ back path, l ∈ ls ↔ l ∈ ms) :
    path.map (Crumb.without ls) = path.map (Crumb.without ms) := by
  induction path with
  | nil => rfl
  | cons k path ih =>
    rw [List.map_cons, List.map_cons, ih fun l hl => h l ?_]
    · have hbefore : withoutOfList ls k.before.reverse = withoutOfList ms k.before.reverse :=
        withoutOfList_congr fun l hl => h l (by simp [front, hl])
      rw [withoutOfList_reverse, withoutOfList_reverse, List.reverse_inj] at hbefore
      have hafter : withoutOfList ls k.after = withoutOfList ms k.after :=
        withoutOfList_congr fun l hl => h l (by simp [back, hl])
      rw [Crumb.without, Crumb.without, hbefore, hafter]
    · rw [List.mem_append] at hl
      rw [front, back, List.mem_append, List.mem_append, List.mem_append]
      exact hl.imp .inl .inr

theorem map_without_nil (path : List Crumb) : path.map (Crumb.without []) = path := by
  refine (List.map_congr_left fun k _ => ?_).trans (List.map_id path)
  rw [Crumb.without, withoutOfList_nil, withoutOfList_nil]
  rfl

/-- Where the leaves are in a place and nothing else is, the tree without them has nothing there. -/
theorem fill_nil_eq_without {k : Crumb} {root : Tree} (hfill : fill (k :: path) ts = [root])
    (hts : withoutOfList ls ts = []) (h : ∀ l ∈ front (k :: path) ++ back (k :: path), l ∉ ls) :
    fill (k :: path) [] = [root.without ls] := by
  obtain ⟨role, c, hnode⟩ := exists_fill_cons k path
  obtain ⟨us, hus⟩ := hnode ts
  obtain rfl := List.singleton_inj.mp (hfill.symm.trans hus)
  have hpath : (k :: path).map (Crumb.without ls) = k :: path := by
    have hnone : (k :: path).map (Crumb.without ls) = (k :: path).map (Crumb.without []) :=
      map_without_congr fun l hl => by simp [h l hl]
    rw [hnone, map_without_nil]
  rw [← withoutOfList_node, ← hfill, withoutOfList_fill, hts, hpath]

theorem map_moved_of_fixed {f g : Nat → Nat}
    (h : ∀ l ∈ front path ++ back path, f l.start = l.start ∧ g l.stop = l.stop) :
    path.map (Crumb.moved f g) = path := by
  have hfixed {us : List Tree} (hus : ∀ l ∈ leavesOfList us, f l.start = l.start ∧ g l.stop = l.stop) :
      us.map (moved f g) = us := by
    refine (List.map_congr_left fun t ht => ?_).trans (List.map_id us)
    refine (moved_congr fun l hl => hus l ?_).trans (moved_id t)
    rw [leavesOfList_eq_flatMap]
    exact List.mem_flatMap.mpr ⟨t, ht, hl⟩
  induction path with
  | nil => rfl
  | cons k path ih =>
    rw [List.map_cons, ih fun l hl => h l ?_]
    · have hbefore : k.before.reverse.map (moved f g) = k.before.reverse :=
        hfixed fun l hl => h l (by simp [front, hl])
      rw [List.map_reverse, List.reverse_inj] at hbefore
      have hafter : k.after.map (moved f g) = k.after := hfixed fun l hl => h l (by simp [back, hl])
      rw [Crumb.moved, hbefore, hafter]
    · rw [List.mem_append] at hl
      rw [front, back, List.mem_append, List.mem_append, List.mem_append]
      exact hl.imp .inl .inr

end Tree

end HeyVL
