import HeyVL.Proofs.Expectation.Phrase
import HeyVL.Tree.Grouping
import HeyVL.Highlight.Capture

namespace HeyVL

open Production (inRole)

def Kind.expressions : List Kind := Category.expressions.map .category ++ [.token .identifier]

theorem Kind.mem_expressions_iff {c : Category} :
    Kind.category c ∈ Kind.expressions ↔ c ∈ Category.expressions := by
  simp [Kind.expressions]

/-- The production that makes one child of the kind. -/
def Kind.production : Kind → Production
  | token t => .token t
  | category c => .node c

namespace Tree

/-- A derivation tree without comments in which all operators are grouped by their levels. -/
inductive IsSyntax : Tree → Prop
  | leaf (role : Option Field) {lexeme : Lexeme} (h : lexeme.token ≠ .comment) :
      IsSyntax (leaf role lexeme)
  | node {role : Option Field} {c : Category} {children : List Tree}
      (expands : c.production.Expands (children.map label))
      (grouped : (node role c children).isGroupedAt = true)
      (inner : ∀ t ∈ children, IsSyntax t) : IsSyntax (node role c children)

@[simp] theorem role_leaf (role : Option Field) (l : Lexeme) : (leaf role l).role = role := rfl

@[simp] theorem role_node (role : Option Field) (c : Category) (ts : List Tree) :
    (node role c ts).role = role := rfl

@[simp] theorem kind_leaf (role : Option Field) (l : Lexeme) :
    (leaf role l).kind = .token l.token := rfl

@[simp] theorem kind_node (role : Option Field) (c : Category) (ts : List Tree) :
    (node role c ts).kind = .category c := rfl

theorem leavesOfList_eq_flatMap (ts : List Tree) : leavesOfList ts = ts.flatMap leaves := by
  induction ts with
  | nil => rfl
  | cons t ts ih => rw [leavesOfList, ih, List.flatMap_cons]

theorem leavesOfList_append (ts us : List Tree) :
    leavesOfList (ts ++ us) = leavesOfList ts ++ leavesOfList us := by
  simp [leavesOfList_eq_flatMap]

@[simp] theorem leavesOfList_singleton (t : Tree) : leavesOfList [t] = t.leaves := by
  simp [leavesOfList_eq_flatMap]

@[simp] theorem leaves_withRole (role : Option Field) (t : Tree) :
    (t.withRole role).leaves = t.leaves := by
  cases t <;> rfl

@[simp] theorem withRole_role (t : Tree) : t.withRole t.role = t := by
  cases t <;> rfl

theorem eq_leaf_of_label {t : Tree} {role : Option Field} {token : Token}
    (h : t.label = (role, .token token)) :
    ∃ l : Lexeme, l.token = token ∧ t = .leaf role l := by
  cases t with
  | leaf r l =>
    obtain ⟨rfl, hl⟩ := Prod.mk.inj h
    exact ⟨l, Kind.token.inj hl, rfl⟩
  | node r c children => cases (Prod.mk.inj h).2

theorem eq_node_of_label {t : Tree} {role : Option Field} {c : Category}
    (h : t.label = (role, .category c)) : ∃ children, t = .node role c children := by
  cases t with
  | leaf r l => cases (Prod.mk.inj h).2
  | node r c' children =>
    obtain ⟨rfl, hc⟩ := Prod.mk.inj h
    obtain rfl := Kind.category.inj hc
    exact ⟨children, rfl⟩

theorem eq_identifier_of_mem_expressions {role : Option Field} {l : Lexeme}
    (h : (leaf role l).kind ∈ Kind.expressions) : l.token = .identifier := by
  have hmem : Kind.token l.token ∈ Category.expressions.map Kind.category ++
      [.token .identifier] := h
  rcases List.mem_append.mp hmem with hmem | hmem
  · obtain ⟨c, -, hc⟩ := List.mem_map.mp hmem
    cases hc
  · exact Kind.token.inj (List.mem_singleton.mp hmem)

theorem eq_singleton_of_labels {ts : List Tree} {x : Label} (h : ts.map label = [x]) :
    ∃ t, ts = [t] ∧ t.label = x := by
  obtain ⟨t, rest, rfl, hx, hrest⟩ := List.map_eq_cons_iff.mp h
  obtain rfl := List.map_eq_nil_iff.mp hrest
  exact ⟨t, rfl, hx⟩

end Tree

namespace Production

variable {p q : Production} {ps : List Production} {ts : List Tree}

theorem expands_inRole_iff {role : Option Field} {w : List Label} :
    Expands (inRole role p) w ↔
      match role with
      | none => Expands p w
      | some f => ∃ u, Expands p u ∧ u.map (fun label => (some f, label.2)) = w := by
  cases role with
  | none => rfl
  | some f => exact expands_field_iff

theorem expands_inRole_token_iff {role : Option Field} {t : Token} {w : List Label} :
    Expands (inRole role (.token t)) w ↔ w = [(role, .token t)] := by
  rw [expands_inRole_iff]
  cases role <;> simp [expands_token_iff, eq_comm]

theorem expands_inRole_node_iff {role : Option Field} {c : Category} {w : List Label} :
    Expands (inRole role (.node c)) w ↔ w = [(role, .category c)] := by
  rw [expands_inRole_iff]
  cases role <;> simp [node, expands_visible_iff, eq_comm]

theorem expands_kind_iff {k : Kind} {w : List Label} :
    Expands k.production w ↔ w = [(none, k)] := by
  cases k with
  | token t => exact expands_token_iff
  | category c => exact expands_visible_iff

theorem expands_node_iff {c : Category} {w : List Label} :
    Expands (node c) w ↔ ∃ x ∈ [Kind.category c], w = [(none, x)] := by
  simp [node, expands_visible_iff]

theorem expands_hidden_kinds_iff {h : Hidden} {k : Kind} {ks : List Kind} {w : List Label}
    (hp : h.production = oneOf k.production (ks.map Kind.production)) :
    Expands (.symbol (.hidden h)) w ↔ ∃ x ∈ k :: ks, w = [(none, x)] := by
  rw [expands_hidden_iff, hp]
  exact expands_oneOf_map_iff (f := Kind.production) fun _ _ => expands_kind_iff

theorem expands_expression_iff {w : List Label} :
    Expands expression w ↔ ∃ k ∈ Kind.expressions, w = [(none, k)] :=
  expands_hidden_kinds_iff rfl

theorem expands_inRole_of_kinds {p : Production} {kinds : List Kind}
    (role : Option Field) (h : ∀ w, Expands p w ↔ ∃ k ∈ kinds, w = [(none, k)])
    {w : List Label} : Expands (inRole role p) w ↔ ∃ k ∈ kinds, w = [(role, k)] := by
  rw [expands_inRole_iff]
  cases role with
  | none => exact h w
  | some f =>
    simp only [h]
    constructor
    · rintro ⟨_, ⟨k, hk, rfl⟩, rfl⟩
      exact ⟨k, hk, rfl⟩
    · rintro ⟨k, hk, rfl⟩
      exact ⟨_, ⟨k, hk, rfl⟩, rfl⟩

theorem split_of_expands_seq (h : Expands (.seq p q) (ts.map Tree.label)) :
    ∃ us vs, ts = us ++ vs ∧ Expands p (us.map Tree.label) ∧ Expands q (vs.map Tree.label) := by
  obtain ⟨u, v, hu, hv, huv⟩ := expands_seq_iff.mp h
  obtain ⟨us, vs, rfl, rfl, rfl⟩ := List.map_eq_append_iff.mp huv.symm
  exact ⟨us, vs, rfl, hu, hv⟩

theorem split_of_expands_inOrder (h : Expands (inOrder (p :: ps)) (ts.map Tree.label)) :
    ∃ us vs, ts = us ++ vs ∧ Expands p (us.map Tree.label) ∧
      Expands (inOrder ps) (vs.map Tree.label) := by
  obtain ⟨u, v, hu, hv, huv⟩ := expands_inOrder_cons_iff.mp h
  obtain ⟨us, vs, rfl, rfl, rfl⟩ := List.map_eq_append_iff.mp huv.symm
  exact ⟨us, vs, rfl, hu, hv⟩

theorem split_of_expands_many (h : Expands (.many p) (ts.map Tree.label)) :
    ∃ parts : List (List Tree), (∀ us ∈ parts, Expands p (us.map Tree.label)) ∧
      ts = parts.flatten := by
  obtain ⟨parts, hparts, hts⟩ := expands_many_iff.mp h
  clear h
  induction parts generalizing ts with
  | nil => exact ⟨[], by simp, by simpa using hts.symm⟩
  | cons u parts ih =>
    rw [List.flatten_cons] at hts
    obtain ⟨us, vs, rfl, rfl, hvs⟩ := List.map_eq_append_iff.mp hts.symm
    obtain ⟨uss, huss, rfl⟩ := ih (fun x hx => hparts x (by simp [hx])) hvs.symm
    exact ⟨us :: uss, by simpa using ⟨hparts _ (by simp), huss⟩, rfl⟩

theorem split_of_expands_many_cons (h : Expands (.many p) (ts.map Tree.label)) :
    ts = [] ∨ ∃ us vs, ts = us ++ vs ∧ Expands p (us.map Tree.label) ∧
      Expands (.many p) (vs.map Tree.label) := by
  obtain ⟨parts, hparts, rfl⟩ := split_of_expands_many h
  cases parts with
  | nil => exact .inl rfl
  | cons us parts =>
    refine .inr ⟨us, parts.flatten, rfl, hparts us (by simp), expands_many_iff.mpr
      ⟨parts.map fun vs => vs.map Tree.label, fun w hw => ?_, by simp [List.map_flatten]⟩⟩
    obtain ⟨vs, hvs, rfl⟩ := List.mem_map.mp hw
    exact hparts vs (by simp [hvs])

theorem eq_leaf_of_expands (role : Option Field) {t : Token}
    (h : Expands (inRole role (.token t)) (ts.map Tree.label)) :
    ∃ l : Lexeme, l.token = t ∧ ts = [.leaf role l] := by
  obtain ⟨x, rfl, hx⟩ := Tree.eq_singleton_of_labels (expands_inRole_token_iff.mp h)
  obtain ⟨l, hl, rfl⟩ := Tree.eq_leaf_of_label hx
  exact ⟨l, hl, rfl⟩

theorem eq_node_of_expands (role : Option Field) {c : Category}
    (h : Expands (inRole role (.node c)) (ts.map Tree.label)) :
    ∃ children, ts = [.node role c children] := by
  obtain ⟨x, rfl, hx⟩ := Tree.eq_singleton_of_labels (expands_inRole_node_iff.mp h)
  obtain ⟨children, rfl⟩ := Tree.eq_node_of_label hx
  exact ⟨children, rfl⟩

end Production

namespace Layout

open Production

variable {c : Category} {l : Layout} {ts : List Tree}

theorem eq_leaf_of_expands_head (h : Expands l.head (ts.map Tree.label)) :
    ∃ x : Lexeme, x.token ∈ l.tokens ∧ ts = [.leaf l.role x] := by
  have hw : ∀ w, Expands l.head w → ∃ t ∈ l.tokens, w = [(l.role, .token t)] := by
    intro w hw
    have htoken {u : List Label} : Expands (oneOf (.token l.token) (l.others.map .token)) u ↔
        ∃ t ∈ l.tokens, u = [(none, .token t)] :=
      expands_oneOf_map_iff (f := .token) fun _ _ => expands_token_iff
    rw [head, expands_inRole_iff] at hw
    split at hw
    · next hrole =>
      rw [hrole]
      exact htoken.mp hw
    · next f hrole =>
      obtain ⟨u, hu, rfl⟩ := hw
      obtain ⟨t, ht, rfl⟩ := htoken.mp hu
      exact ⟨t, ht, by rw [hrole]; rfl⟩
  obtain ⟨t, ht, hts⟩ := hw _ h
  obtain ⟨x, rfl, hx⟩ := Tree.eq_singleton_of_labels hts
  obtain ⟨y, rfl, rfl⟩ := Tree.eq_leaf_of_label hx
  exact ⟨y, ht, rfl⟩

end Layout

end HeyVL
