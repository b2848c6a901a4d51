import HeyVL.Proofs.Grammar.ChildLists

namespace HeyVL

namespace Production

variable {p : Production} {ps qs : List Production} {u v w : List Label}

theorem expands_inOrder_append_iff :
    Expands (inOrder (ps ++ qs)) w ↔
      ∃ u v, Expands (inOrder ps) u ∧ Expands (inOrder qs) v ∧ u ++ v = w := by
  induction ps generalizing w with
  | nil => simp [inOrder, expands_empty_iff]
  | cons p ps ih =>
    simp only [List.cons_append, expands_inOrder_cons_iff, ih]
    constructor
    · rintro ⟨u, _, hp, ⟨v, x, hv, hx, rfl⟩, rfl⟩
      exact ⟨u ++ v, x, ⟨u, v, hp, hv, rfl⟩, hx, by simp⟩
    · rintro ⟨_, x, ⟨u, v, hp, hv, rfl⟩, hx, rfl⟩
      exact ⟨u, v ++ x, hp, ⟨v, x, hv, hx, rfl⟩, by simp⟩

theorem Expands.many_append (hu : Expands (.many p) u) (hv : Expands (.many p) v) :
    Expands (.many p) (u ++ v) := by
  obtain ⟨us, hus, rfl⟩ := expands_many_iff.mp hu
  obtain ⟨vs, hvs, rfl⟩ := expands_many_iff.mp hv
  refine expands_many_iff.mpr ⟨us ++ vs, fun w hw => ?_, List.flatten_append⟩
  exact (List.mem_append.mp hw).elim (hus w) (hvs w)

theorem Expands.many_singleton (hu : Expands p u) : Expands (.many p) u := by
  rw [← List.append_nil u]
  exact .again hu (.none p)

end Production

open Production

/-- The lists of the grammar. -/
inductive Repetition
  /-- The declarations of a source file. -/
  | declarations
  /-- The functions and axioms of a domain. -/
  | items
  /-- The preconditions and postconditions of a procedure. -/
  | specifications
  /-- The statements of a block, each with the semicolon that may follow it. -/
  | statements
deriving DecidableEq, Repr

namespace Repetition

def category : Repetition → Category
  | declarations => .sourceFile
  | items => .domainDeclaration
  | specifications => .procDeclaration
  | statements => .block

def first : Repetition → List Production
  | declarations => []
  | items => [kw .kwDomain, declaredName, mark .braceOpen]
  | specifications =>
    [maybe (field .calculus (node .annotationCalculus)),
      field .direction (choice (kw .kwProc) (kw .kwCoproc)), declaredName,
      field .inputs (node .parameterList), mark .arrow, field .outputs (node .parameterList)]
  | statements => [mark .braceOpen]

def item : Repetition → Production
  | declarations => symbol (.hidden .declaration)
  | items => symbol (.hidden .domainSpec)
  | specifications => symbol (.hidden .procedureSpec)
  | statements => seq statement (maybe (mark .semicolon))

def last : Repetition → List Production
  | declarations => []
  | items | statements => [mark .braceClose]
  | specifications => [field .body (maybe (node .block))]

theorem production_eq (r : Repetition) :
    r.category.production = inOrder (r.first ++ many r.item :: r.last) := by
  cases r <;> rfl

variable {r : Repetition} {u v w : List Label}

/-- Before a place in the list, there is what stands before the list and some elements. -/
def Precedes (r : Repetition) (u : List Label) : Prop := Expands (inOrder (r.first ++ [many r.item])) u

/-- Behind a place in the list, there are some elements and what stands behind the list. -/
def Follows (r : Repetition) (w : List Label) : Prop := Expands (inOrder (many r.item :: r.last)) w

theorem precedes_of_first (h : Expands (inOrder r.first) u) : r.Precedes u := by
  rw [← List.append_nil u]
  exact expands_inOrder_append_iff.mpr ⟨u, [], h, .none _, rfl⟩

theorem follows_of_last (h : Expands (inOrder r.last) w) : r.Follows w :=
  expands_inOrder_cons_iff.mpr ⟨[], w, .none _, h, rfl⟩

theorem Follows.append (hv : Expands (many r.item) v) (hw : r.Follows w) : r.Follows (v ++ w) := by
  obtain ⟨x, y, hx, hy, rfl⟩ := expands_inOrder_cons_iff.mp hw
  rw [← List.append_assoc]
  exact expands_inOrder_cons_iff.mpr ⟨v ++ x, y, hv.many_append hx, hy, rfl⟩

/-- Any elements may be in any place of the list. -/
theorem Precedes.expands (hu : r.Precedes u) (hw : r.Follows w) :
    r.category.production.Expands (u ++ w) := by
  obtain ⟨x, y, hx, hy, rfl⟩ := expands_inOrder_append_iff.mp hu
  have hrest := hw.append hy
  rw [production_eq, List.append_assoc]
  exact expands_inOrder_append_iff.mpr ⟨x, y ++ w, hx, hrest, rfl⟩

theorem not_name_of_item (h : Expands (many r.item) v) {x : Label} (hx : x ∈ v) :
    x.2 ≠ .token .identifier ∧ x.2 ≠ .category .callExpression := by
  have hall : (many r.item).labels.all (fun x =>
      x.2 != .token .identifier && x.2 != .category .callExpression) = true := by
    cases r <;> decide
  simpa using List.all_eq_true.mp hall x (h.mem_labels x hx)

theorem ne_identifier_of_follows (h : r.Follows w) {x : Label} (hx : x ∈ w) :
    x.2 ≠ .token .identifier := by
  have hall : (inOrder (many r.item :: r.last)).labels.all
      (fun x => x.2 != .token .identifier) = true := by
    cases r <;> decide
  simpa using List.all_eq_true.mp hall x (Expands.mem_labels h x hx)

theorem exists_last_of_first (h : Expands (inOrder r.first) u) (hr : r ≠ .declarations) :
    ∃ v x, u = v ++ [x] ∧
      (x.2 = .token (.punctuation .braceOpen) ∨ x.2 = .category .parameterList) := by
  obtain ⟨ps, x, hfirst, hx⟩ : ∃ ps x, r.first = ps ++ [x] ∧ (x = mark .braceOpen ∨
      x = field .outputs (node .parameterList)) := by
    cases r with
    | declarations => exact absurd rfl hr
    | items => exact ⟨[_, _], _, rfl, .inl rfl⟩
    | specifications => exact ⟨[_, _, _, _, _], _, rfl, .inr rfl⟩
    | statements => exact ⟨[], _, rfl, .inl rfl⟩
  rw [hfirst] at h
  obtain ⟨v, y, -, hy, rfl⟩ := expands_inOrder_append_iff.mp h
  rcases hx with rfl | rfl
  · obtain rfl := expands_token_iff.mp hy
    exact ⟨v, _, rfl, .inl rfl⟩
  · obtain ⟨z, hz, rfl⟩ := expands_field_iff.mp hy
    obtain rfl := expands_visible_iff.mp hz
    exact ⟨v, _, rfl, .inr rfl⟩

theorem exists_last_of_parameterList (h : Category.parameterList.production.Expands u) :
    ∃ v, u = v ++ [(none, .token (.punctuation .parenClose))] := by
  have hsplit : Expands (inOrder ([mark .parenOpen, separated (node .parameter)] ++ [mark .parenClose])) u :=
    h
  obtain ⟨v, w, -, hw, rfl⟩ := expands_inOrder_append_iff.mp hsplit
  obtain rfl := expands_token_iff.mp hw
  exact ⟨v, rfl⟩

theorem eq_sourceFile_of_mem_labels {c : Category} {x : Label} (h : x ∈ c.production.labels)
    (hx : x.2 = .category .procDeclaration) : c = .sourceFile := by
  have hall : Category.all.all (fun c => c == .sourceFile || c.production.labels.all fun x =>
      x.2 != .category .procDeclaration) = true := by decide
  have hc := List.all_eq_true.mp hall c c.mem_all
  rw [Bool.or_eq_true, beq_iff_eq] at hc
  refine hc.resolve_right fun hnone => ?_
  have := List.all_eq_true.mp hnone x h
  simp [hx] at this

end Repetition

end HeyVL
