import HeyVL.Proofs.Grammar.Exchange
import HeyVL.Proofs.Grammar.Repetition

namespace HeyVL

open Production

namespace Repetition

variable {u v w : List Label} {x : Label}

/-- A semicolon as a block sees it. -/
def semicolon : Label := (none, .token (.punctuation .semicolon))

/-- The braces of a block as it sees them. -/
def braceOpen : Label := (none, .token (.punctuation .braceOpen))

def braceClose : Label := (none, .token (.punctuation .braceClose))

def statementLabels : List Label := Hidden.statement.kinds.map fun k => (none, k)

/-- Statements, each with or without a semicolon. -/
def HasStatements (w : List Label) : Prop := Expands (many statements.item) w

theorem expands_statement_item_iff :
    Expands statements.item w ↔
      ∃ k ∈ Hidden.statement.kinds, w = [(none, k)] ∨ w = [(none, k), semicolon] := by
  rw [item, expands_seq_iff]
  constructor
  · rintro ⟨u, v, hu, hv, rfl⟩
    obtain ⟨k, hk, rfl⟩ := expands_hidden_iff_kinds.mp hu
    refine ⟨k, hk, ?_⟩
    rcases expands_choice_iff.mp hv with hv | hv
    · rw [expands_token_iff.mp hv]
      exact .inr rfl
    · rw [expands_empty_iff.mp hv]
      exact .inl rfl
  · rintro ⟨k, hk, rfl | rfl⟩
    · exact ⟨_, [], expands_hidden_iff_kinds.mpr ⟨k, hk, rfl⟩, .other .empty, rfl⟩
    · exact ⟨_, _, expands_hidden_iff_kinds.mpr ⟨k, hk, rfl⟩, .this (.token _), rfl⟩

theorem expands_statement_item (hx : x ∈ statementLabels) : Expands statements.item [x] ∧
    Expands statements.item [x, semicolon] := by
  obtain ⟨k, hk, rfl⟩ := List.mem_map.mp hx
  exact ⟨expands_statement_item_iff.mpr ⟨k, hk, .inl rfl⟩, expands_statement_item_iff.mpr ⟨k, hk, .inr rfl⟩⟩

theorem ne_of_mem_statementLabels (hx : x ∈ statementLabels) (t : Token) : x ≠ (none, .token t) := by
  rintro rfl
  obtain ⟨k, hk, heq⟩ := List.mem_map.mp hx
  obtain ⟨c, -, rfl⟩ := List.mem_map.mp hk
  cases heq

/-- A statement with its semicolon can be cut between them only. -/
theorem cut_of_statement_item (h : Expands statements.item (u ++ v)) :
    u = [] ∨ v = [] ∨ ∃ x ∈ statementLabels, u = [x] ∧ v = [semicolon] := by
  obtain ⟨k, hk, hw⟩ := expands_statement_item_iff.mp h
  have hlabel : (none, k) ∈ statementLabels := List.mem_map_of_mem hk
  cases u with
  | nil => exact .inl rfl
  | cons x u =>
    right
    rcases hw with hw | hw
    · exact .inl (List.append_eq_nil_iff.mp (List.cons.inj hw).2).2
    · obtain ⟨rfl, hrest⟩ := List.cons.inj hw
      rcases List.append_eq_singleton_iff.mp hrest with ⟨rfl, rfl⟩ | ⟨rfl, rfl⟩
      · exact .inr ⟨_, hlabel, rfl, rfl⟩
      · exact .inl rfl

theorem HasStatements.append (hu : HasStatements u) (hv : HasStatements v) : HasStatements (u ++ v) :=
  Expands.many_append hu hv

theorem HasStatements.split (h : HasStatements (u ++ v)) (hv : ∀ x ∈ v.head?, x ≠ semicolon) :
    HasStatements u ∧ HasStatements v := by
  obtain ⟨parts, hparts, heq⟩ := expands_many_iff.mp h
  clear h
  induction parts generalizing u with
  | nil =>
    obtain ⟨rfl, rfl⟩ := List.append_eq_nil_iff.mp heq.symm
    exact ⟨.none _, .none _⟩
  | cons p parts ih =>
    have hp := hparts p List.mem_cons_self
    have hlater : ∀ q ∈ parts, Expands statements.item q := fun q hq => hparts q (List.mem_cons_of_mem _ hq)
    have hrest : HasStatements parts.flatten := expands_many_iff.mpr ⟨parts, hlater, rfl⟩
    rw [List.flatten_cons] at heq
    -- The place is behind the first statement, in front of its semicolon, or at one of its ends.
    rcases List.append_eq_append_iff.mp heq with ⟨z, rfl, hz⟩ | ⟨z, rfl, rfl⟩
    · obtain ⟨hz', hv'⟩ := ih hlater hz
      exact ⟨.again hp hz', hv'⟩
    · rcases cut_of_statement_item hp with rfl | rfl | ⟨x, hx, rfl, rfl⟩
      · exact ⟨.none _, .again hp hrest⟩
      · rw [List.append_nil] at hp
        exact ⟨hp.many_singleton, hrest⟩
      · exact absurd rfl (hv _ rfl)

theorem HasStatements.delete (h : HasStatements (u ++ semicolon :: v)) :
    HasStatements u ∧ HasStatements v := by
  obtain ⟨parts, hparts, heq⟩ := expands_many_iff.mp h
  clear h
  induction parts generalizing u with
  | nil => exact absurd heq.symm (List.append_ne_nil_of_right_ne_nil _ (List.cons_ne_nil _ _))
  | cons p parts ih =>
    have hp := hparts p List.mem_cons_self
    have hlater : ∀ q ∈ parts, Expands statements.item q := fun q hq => hparts q (List.mem_cons_of_mem _ hq)
    rw [List.flatten_cons] at heq
    rcases List.append_eq_append_iff.mp heq with ⟨z, rfl, hz⟩ | ⟨z, rfl, hz⟩
    · obtain ⟨hz', hv⟩ := ih hlater hz
      exact ⟨.again hp hz', hv⟩
    · rcases cut_of_statement_item hp with rfl | rfl | ⟨x, hx, rfl, rfl⟩
      · -- No statement begins with a semicolon.
        obtain ⟨k, hk, rfl | rfl⟩ := expands_statement_item_iff.mp hp
        all_goals exact absurd (List.cons.inj hz).1.symm (ne_of_mem_statementLabels (List.mem_map_of_mem hk) _)
      · rw [List.append_nil] at hp
        exact ⟨hp.many_singleton, (ih hlater (u := []) hz.symm).2⟩
      · obtain ⟨-, rfl⟩ := List.cons.inj hz
        exact ⟨(expands_statement_item hx).1.many_singleton, expands_many_iff.mpr ⟨parts, hlater, rfl⟩⟩

theorem HasStatements.insert (h : HasStatements (u ++ [x])) (hx : x ∈ statementLabels) :
    HasStatements (u ++ [x, semicolon]) := by
  obtain ⟨hu, -⟩ := h.split fun y hy => by
    obtain rfl := Option.some.inj hy
    exact ne_of_mem_statementLabels hx _
  exact hu.append (expands_statement_item hx).2.many_singleton

theorem expands_block_iff : Category.block.production.Expands w ↔
    ∃ v, w = braceOpen :: (v ++ [braceClose]) ∧ HasStatements v := by
  have hproduction : Category.block.production =
      inOrder ([mark .braceOpen] ++ ([many statements.item] ++ [mark .braceClose])) := rfl
  rw [hproduction, expands_inOrder_append_iff]
  simp only [expands_inOrder_append_iff]
  constructor
  · rintro ⟨a, _, ha, ⟨v, c, hv, hc, rfl⟩, rfl⟩
    rw [expands_token_iff.mp ha, expands_token_iff.mp hc]
    exact ⟨v, rfl, hv⟩
  · rintro ⟨v, rfl, hv⟩
    exact ⟨[braceOpen], _, .token _, ⟨v, [braceClose], hv, .token _, rfl⟩, rfl⟩

theorem precedes_statements (hv : HasStatements v) : statements.Precedes (braceOpen :: v) :=
  expands_inOrder_append_iff.mpr ⟨[braceOpen], v, .token _, hv, rfl⟩

theorem follows_statements (hv : HasStatements v) : statements.Follows (v ++ [braceClose]) :=
  expands_inOrder_cons_iff.mpr ⟨v, [braceClose], hv, .token _, rfl⟩

theorem ne_nil_of_follows_statements (h : statements.Follows w) : w ≠ [] := by
  obtain ⟨v, c, -, hc, rfl⟩ := expands_inOrder_cons_iff.mp h
  rw [expands_token_iff.mp hc]
  exact List.append_ne_nil_of_right_ne_nil _ (List.cons_ne_nil _ _)

theorem eq_semicolon_of_mem_labels {c : Category} (h : x ∈ c.production.labels)
    (hx : x.2 = .token (.punctuation .semicolon)) : c = .block ∧ x = semicolon := by
  have hall : Category.all.all (fun c => c.production.labels.all fun x =>
      x.2 != .token (.punctuation .semicolon) || (c == .block && x == semicolon)) = true := by decide
  have hlabel := List.all_eq_true.mp (List.all_eq_true.mp hall c c.mem_all) x h
  simpa [hx] using hlabel

theorem mem_statementLabels_of_mem_labels (h : x ∈ Category.block.production.labels)
    (hx : x.2 ∈ Hidden.statement.kinds) : x ∈ statementLabels := by
  have hall : Category.block.production.labels.all (fun x => x.1 == none) = true := by decide
  have hrole : x.1 = none := by simpa using List.all_eq_true.mp hall x h
  exact List.mem_map.mpr ⟨x.2, hx, Prod.ext hrole.symm rfl⟩

theorem exists_of_block (h : Category.block.production.Expands (u ++ v)) (hu : u ≠ []) (hv : v ≠ []) :
    ∃ u' v', u = braceOpen :: u' ∧ v = v' ++ [braceClose] ∧ HasStatements (u' ++ v') := by
  obtain ⟨w, hw, hstatements⟩ := expands_block_iff.mp h
  obtain ⟨x, u', rfl⟩ := List.exists_cons_of_ne_nil hu
  obtain ⟨v', y, rfl⟩ := (List.eq_nil_or_concat' v).resolve_left hv
  obtain ⟨rfl, hrest⟩ := List.cons.inj hw
  have hlast : (u' ++ v') ++ [y] = w ++ [braceClose] := (List.append_assoc _ _ _).trans hrest
  obtain ⟨rfl, hy⟩ := List.append_inj' hlast rfl
  rw [List.singleton_inj.mp hy]
  exact ⟨u', v', rfl, rfl, hstatements⟩

theorem among_of_semicolon (h : Category.block.production.Expands (u ++ semicolon :: w)) :
    statements.Precedes u ∧ statements.Follows w := by
  have hu : u ≠ [] := by
    rintro rfl
    obtain ⟨v, hv, -⟩ := expands_block_iff.mp h
    cases (List.cons.inj hv).1
  obtain ⟨u', v', rfl, hv, hstatements⟩ := exists_of_block h hu (List.cons_ne_nil _ _)
  cases v' with
  | nil => cases (List.cons.inj hv).1
  | cons x v' =>
    obtain ⟨rfl, rfl⟩ := List.cons.inj hv
    obtain ⟨hbefore, hbehind⟩ := hstatements.delete
    exact ⟨precedes_statements hbefore, follows_statements hbehind⟩

theorem among_of_statement (h : Category.block.production.Expands (u ++ x :: w)) (hx : x ∈ statementLabels)
    (hw : ∀ y ∈ w.head?, y ≠ semicolon) : statements.Precedes (u ++ [x]) ∧ statements.Follows w ∧
      Category.block.production.Expands (u ++ x :: semicolon :: w) := by
  have hu : u ≠ [] := by
    rintro rfl
    obtain ⟨v, hv, -⟩ := expands_block_iff.mp h
    exact ne_of_mem_statementLabels hx _ (List.cons.inj hv).1
  obtain ⟨u', v', rfl, hv, hstatements⟩ := exists_of_block h hu (List.cons_ne_nil _ _)
  cases v' with
  | nil => exact absurd (List.cons.inj hv).1 (ne_of_mem_statementLabels hx _)
  | cons y v' =>
    obtain ⟨rfl, rfl⟩ := List.cons.inj hv
    have hsplit : HasStatements ((u' ++ [x]) ++ v') := by simpa using hstatements
    obtain ⟨hbefore, hbehind⟩ := hsplit.split fun y hy => hw y (by
      cases v' with
      | nil => cases hy
      | cons z v' => exact hy)
    refine ⟨precedes_statements hbefore, follows_statements hbehind, ?_⟩
    have hnew : Category.block.production.Expands _ :=
      (precedes_statements (hbefore.insert hx)).expands (follows_statements hbehind)
    simpa using hnew

end Repetition

end HeyVL
