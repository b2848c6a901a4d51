import HeyVL.Document.Outline
import HeyVL.Proofs.Tree.Subtrees

namespace HeyVL

namespace Document

variable {d : Document} {place : Nat → Point} {depth : Nat} {t : Tree} {ts : List Tree} {r : Row}

theorem rows_eq (d : Document) (place : Nat → Point) (depth : Nat) (t : Tree) :
    d.rows place depth t =
      d.rowOf place depth t :: d.rowsOfList place (depth + 1) t.children := by
  cases t <;> rfl

theorem rowsOfList_eq_flatMap (d : Document) (place : Nat → Point) (depth : Nat) (ts : List Tree) :
    d.rowsOfList place depth ts = ts.flatMap (d.rows place depth) := by
  induction ts with
  | nil => rfl
  | cons t ts ih => rw [rowsOfList, ih, List.flatMap_cons]

theorem rowsOfList_append (d : Document) (place : Nat → Point) (depth : Nat) (ts us : List Tree) :
    d.rowsOfList place depth (ts ++ us) =
      d.rowsOfList place depth ts ++ d.rowsOfList place depth us := by
  rw [rowsOfList_eq_flatMap, rowsOfList_eq_flatMap, rowsOfList_eq_flatMap, List.flatMap_append]

theorem length_rows (d : Document) (place : Nat → Point) (depth : Nat) (t : Tree) :
    (d.rows place depth t).length = t.subtrees.length := by
  induction t using Tree.inductionOnChildren generalizing depth with
  | leaf => rfl
  | node role c ts ih =>
    rw [rows, Tree.subtrees, List.length_cons, List.length_cons, rowsOfList_eq_flatMap,
      Tree.subtreesOfList_eq_flatMap, List.length_flatMap, List.length_flatMap]
    have hlengths := List.map_congr_left fun t ht => ih t ht (depth + 1)
    rw [hlengths]

theorem length_rowsOfList (d : Document) (place : Nat → Point) (depth : Nat) (ts : List Tree) :
    (d.rowsOfList place depth ts).length = (Tree.subtreesOfList ts).length := by
  rw [rowsOfList_eq_flatMap, Tree.subtreesOfList_eq_flatMap, List.length_flatMap,
    List.length_flatMap]
  have hlengths := List.map_congr_left fun t (_ : t ∈ ts) => d.length_rows place depth t
  rw [hlengths]

theorem le_depth_of_mem_rows (h : r ∈ d.rows place depth t) : depth ≤ r.depth := by
  induction t using Tree.inductionOnChildren generalizing depth with
  | leaf role l =>
    obtain rfl := List.mem_singleton.mp h
    exact le_rfl
  | node role c ts ih =>
    rcases List.mem_cons.mp h with rfl | h
    · exact le_rfl
    · rw [rowsOfList_eq_flatMap] at h
      obtain ⟨t, ht, h⟩ := List.mem_flatMap.mp h
      exact (Nat.le_succ depth).trans (ih t ht h)

theorem le_depth_of_mem_rowsOfList (h : r ∈ d.rowsOfList place depth ts) : depth ≤ r.depth := by
  rw [rowsOfList_eq_flatMap] at h
  obtain ⟨t, -, h⟩ := List.mem_flatMap.mp h
  exact le_depth_of_mem_rows h

theorem depth_head?_rowsOfList (h : r ∈ (d.rowsOfList place depth ts).head?) : r.depth = depth := by
  cases ts with
  | nil => cases h
  | cons t ts =>
    rw [rowsOfList, rows_eq, List.cons_append, List.head?_cons, Option.mem_some_iff] at h
    rw [← h]
    rfl

end Document

end HeyVL
