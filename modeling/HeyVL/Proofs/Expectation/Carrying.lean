import HeyVL.Proofs.Expectation.Surroundings
import Mathlib.Algebra.Order.BigOperators.Group.List
import Mathlib.Algebra.Order.Group.Nat

namespace HeyVL

open Grammar

namespace Lexeme

def delayed (n : Nat) : Lexeme → Lexeme := moved (· + n) (· + n)

theorem delayed_injective (n : Nat) : Function.Injective (delayed n) := by
  rintro ⟨t, start, stop⟩ ⟨t', start', stop'⟩ h
  obtain ⟨rfl, hstart, hstop⟩ : t = t' ∧ start + n = start' + n ∧ stop + n = stop' + n := by
    simpa [delayed, moved] using h
  rw [Nat.add_right_cancel hstart, Nat.add_right_cancel hstop]

theorem map_token_delayed (n : Nat) (ls : List Lexeme) :
    (ls.map (delayed n)).map token = ls.map token := by
  rw [List.map_map]
  rfl

theorem exists_disjoint (ls ms : List Lexeme) : ∃ n, ∀ l ∈ ls, ∀ m ∈ ms, l ≠ m.delayed n := by
  refine ⟨(ls.map start).sum + 1, fun l hl m _ heq => ?_⟩
  have hle : l.start ≤ (ls.map start).sum := List.le_sum_of_mem (List.mem_map_of_mem hl)
  have hstart : l.start = m.start + ((ls.map start).sum + 1) := congrArg start heq
  omega

theorem exists_nodup_inside {us vs ms : List Lexeme} (h : (us ++ vs).Nodup) (hms : ms.Nodup) :
    ∃ n, (us ++ (ms.map (delayed n) ++ vs)).Nodup := by
  obtain ⟨n, hn⟩ := exists_disjoint (us ++ vs) ms
  refine ⟨n, (List.perm_append_comm_assoc _ _ _).nodup_iff.mpr ?_⟩
  refine (hms.map (delayed_injective n)).append h fun l hl hl' => ?_
  obtain ⟨m, hm, rfl⟩ := List.mem_map.mp hl
  exact hn _ hl' m hm rfl

theorem exists_nodup_around {us vs ms : List Lexeme} (h : (us ++ vs).Nodup) (hms : ms.Nodup) :
    ∃ n, (us.map (delayed n) ++ (ms ++ vs.map (delayed n))).Nodup := by
  obtain ⟨n, hn⟩ := exists_disjoint ms (us ++ vs)
  refine ⟨n, (List.perm_append_comm_assoc _ _ _).nodup_iff.mpr ?_⟩
  rw [← List.map_append]
  refine hms.append (h.map (delayed_injective n)) fun l hl hl' => ?_
  obtain ⟨m, hm, rfl⟩ := List.mem_map.mp hl'
  exact hn _ hl m hm rfl

end Lexeme

open Lexeme

namespace Tree

variable {path : List Crumb} {k : Crumb} {xs ys ts ts' : List Tree} {l l' : Lexeme}
  {us vs us' vs' : List Lexeme} {w : Token}

section Positions

variable (htree : (node none .sourceFile ts).IsSyntax) (hleaves : leavesOfList ts = us ++ l :: vs)
  (hnodup : (us ++ l :: vs).Nodup) (hl : l.token = .identifier)
  (htree' : (node none .sourceFile ts').IsSyntax) (hleaves' : leavesOfList ts' = us' ++ l' :: vs')
  (hnodup' : (us' ++ l' :: vs').Nodup) (hl' : l'.token = .identifier)
  (hreserved : w.isReserved = true) (hw : Viable (us.map token) w)

include htree hleaves hnodup hl htree' hleaves' hnodup' hl' hreserved hw

/-- Where an identifier is in the same position, the same words are viable. -/
theorem viable_of_positions
    (hexpression : (node none .sourceFile ts).InExpression l →
      (node none .sourceFile ts').InExpression l')
    (hstatement : (node none .sourceFile ts).StartsStatement l →
      (node none .sourceFile ts').StartsStatement l') : Viable (us'.map token) w := by
  obtain ⟨todo, b, hreads⟩ := Expectation.exists_readsUpTo htree hleaves hnodup
  rcases hreads.position_of_viable hl hreserved hw with ⟨hword, hplace⟩ | ⟨hword, hplace⟩
  · exact viable_of_literal
      ((hexpression hplace).viable htree' hleaves' hnodup' hl') hword
  · exact viable_of_negate ((hstatement hplace).viable htree' hleaves' hnodup') hword

theorem viable_of_inExpression (h : (node none .sourceFile ts).InExpression l)
    (h' : (node none .sourceFile ts').InExpression l') : Viable (us'.map token) w := by
  obtain ⟨todo, b, hreads⟩ := Expectation.exists_readsUpTo htree hleaves hnodup
  rcases hreads.position_of_viable hl hreserved hw with ⟨hword, -⟩ | ⟨hword, -⟩
  · exact viable_of_literal (h'.viable htree' hleaves' hnodup' hl') hword
  · have hidentifier : Viable (us.map token) .identifier := by
      have hderivable := derivable_of_isSyntax htree
      rw [hleaves, List.map_append, List.map_cons, hl] at hderivable
      exact ⟨_, hderivable⟩
    exact absurd hw (not_viable_statementWord hidentifier (t := .boolean) rfl
      (h.viable htree hleaves hnodup hl) hword)

end Positions

theorem exists_sourceFile (hfill : fill (k :: path) ys = [node none .sourceFile ts])
    (h : ∀ x ∈ fill (k :: path) xs, x.IsSyntax) :
    ∃ ts', fill (k :: path) xs = [node none .sourceFile ts'] ∧ (node none .sourceFile ts').IsSyntax ∧
      leavesOfList ts' = front (k :: path) ++ (leavesOfList xs ++ back (k :: path)) := by
  obtain ⟨ts', hfill'⟩ := exists_fill_of_fill hfill xs
  refine ⟨ts', hfill', h _ (by simp [hfill']), ?_⟩
  rw [← leavesOfList_fill, hfill', leavesOfList_singleton]
  rfl

end Tree

end HeyVL
