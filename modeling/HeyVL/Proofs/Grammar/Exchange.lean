import HeyVL.Proofs.Tree.Syntax
import Mathlib.Data.List.Forall2

namespace HeyVL

/-- The kinds of the children that a hidden nonterminal makes, one each time. -/
def Hidden.kinds : Hidden → List Kind
  | declaration => [.category .procDeclaration, .category .domainDeclaration]
  | domainSpec => [.category .functionDeclaration, .category .axiomDeclaration]
  | procedureSpec => [.category .preCondition, .category .postCondition]
  | statement => Category.statements.map .category
  | type => [.category .typeIdentifier, .category .listType]
  | expression => Kind.expressions

theorem Hidden.eq_of_mem_kinds {h h' : Hidden} {k : Kind} (hk : k ∈ h.kinds) (hk' : k ∈ h'.kinds) :
    h = h' := by
  have hall : ∀ k ∈ h.kinds, k ∈ h'.kinds → h = h' := by
    cases h <;> cases h' <;> decide
  exact hall k hk hk'

/-- The first label is the second one, or it is of one of the kinds and the second one is another child
of the nonterminal in the same role. -/
def Label.ExchangesTo (ks : List Kind) (h : Hidden) (a b : Label) : Prop :=
  a.1 = b.1 ∧ (a.2 = b.2 ∨ a.2 ∈ ks ∧ b.2 ∈ h.kinds)

namespace Production

variable {p q : Production} {h : Hidden} {ks : List Kind} {k k' : Kind} {v w x y z : List Label}
  {a : Label} {r r' : Option Field}

theorem expands_hidden_iff_kinds :
    Expands (.symbol (.hidden h)) w ↔ ∃ k ∈ h.kinds, w = [(none, k)] := by
  cases h <;> exact expands_hidden_kinds_iff rfl

/-- Whether a production makes children of the kind other than by a hidden nonterminal. -/
def mentions (k : Kind) : Production → Bool
  | empty | symbol (.hidden _) => false
  | token t => k == .token t
  | symbol (.visible c) => k == .category c
  | seq p q | choice p q => p.mentions k || q.mentions k
  | many p | field _ p | prec _ _ p => p.mentions k

theorem forall₂_append_left_iff {α β : Type} {R : α → β → Prop} {us vs : List α} {ws : List β} :
    List.Forall₂ R (us ++ vs) ws ↔
      ∃ xs ys, ws = xs ++ ys ∧ List.Forall₂ R us xs ∧ List.Forall₂ R vs ys := by
  constructor
  · intro h
    induction us generalizing ws with
    | nil => exact ⟨[], ws, rfl, .nil, h⟩
    | cons u us ih =>
      obtain ⟨w, zs, hw, hzs, rfl⟩ := List.forall₂_cons_left_iff.mp h
      obtain ⟨xs, ys, rfl, hxs, hys⟩ := ih hzs
      exact ⟨w :: xs, ys, rfl, .cons hw hxs, hys⟩
  · rintro ⟨xs, ys, rfl, hxs, hys⟩
    exact List.rel_append hxs hys

theorem exists_of_forall₂_field {f : Field}
    (hvw : List.Forall₂ (Label.ExchangesTo ks h) (v.map fun label => (some f, label.2)) w) :
    ∃ u, List.Forall₂ (Label.ExchangesTo ks h) v u ∧
      u.map (fun label => (some f, label.2)) = w := by
  induction v generalizing w with
  | nil =>
    cases hvw
    exact ⟨[], .nil, rfl⟩
  | cons a v ih =>
    obtain ⟨b, bs, hb, hbs, rfl⟩ := List.forall₂_cons_left_iff.mp hvw
    obtain ⟨u, hu, rfl⟩ := ih hbs
    refine ⟨(a.1, b.2) :: u, .cons ⟨rfl, hb.2⟩ hu, ?_⟩
    have hrole : some f = b.1 := hb.1
    rw [List.map_cons, hrole]

/-- Children that come from a hidden nonterminal only can be exchanged, any number of them at once. -/
theorem Expands.exchange (hv : Expands p v) (hks : ∀ k ∈ ks, k ∈ h.kinds)
    (hp : ∀ k ∈ ks, p.mentions k = false) (hvw : List.Forall₂ (Label.ExchangesTo ks h) v w) :
    Expands p w := by
  -- A child that the production mentions itself is none of those that are exchanged.
  have hkept {a b : Label} (hab : a.ExchangesTo ks h b) (ha : a.2 ∉ ks) : b = a :=
    Prod.ext hab.1.symm (hab.2.resolve_right fun hmem => ha hmem.1).symm
  induction hv generalizing w with
  | empty =>
    cases hvw
    exact .empty
  | token t =>
    obtain ⟨b, ws, hb, hws, rfl⟩ := List.forall₂_cons_left_iff.mp hvw
    cases hws
    rw [hkept hb fun hmem => by simpa [mentions] using hp _ hmem]
    exact .token t
  | visible c =>
    obtain ⟨b, ws, hb, hws, rfl⟩ := List.forall₂_cons_left_iff.mp hvw
    cases hws
    rw [hkept hb fun hmem => by simpa [mentions] using hp _ hmem]
    exact .visible c
  | @hidden h' v hv =>
    obtain ⟨k, hk, rfl⟩ := expands_hidden_iff_kinds.mp (.hidden hv)
    obtain ⟨b, ws, hb, hws, rfl⟩ := List.forall₂_cons_left_iff.mp hvw
    cases hws
    have hkind : b.2 ∈ h'.kinds := by
      rcases hb.2 with heq | ⟨hmem, hnew⟩
      · exact heq ▸ hk
      · exact Hidden.eq_of_mem_kinds (hks k hmem) hk ▸ hnew
    exact expands_hidden_iff_kinds.mpr ⟨b.2, hkind, by rw [← Prod.eta b, ← hb.1]⟩
  | seq _ _ ihp ihq =>
    simp only [mentions, Bool.or_eq_false_iff] at hp
    obtain ⟨xs, ys, rfl, hxs, hys⟩ := forall₂_append_left_iff.mp hvw
    exact .seq (ihp (fun k hk => (hp k hk).1) hxs) (ihq (fun k hk => (hp k hk).2) hys)
  | this _ ih =>
    simp only [mentions, Bool.or_eq_false_iff] at hp
    exact .this (ih (fun k hk => (hp k hk).1) hvw)
  | other _ ih =>
    simp only [mentions, Bool.or_eq_false_iff] at hp
    exact .other (ih (fun k hk => (hp k hk).2) hvw)
  | none p =>
    cases hvw
    exact .none p
  | again _ _ ihp ihq =>
    obtain ⟨xs, ys, rfl, hxs, hys⟩ := forall₂_append_left_iff.mp hvw
    exact .again (ihp hp hxs) (ihq hp hys)
  | field _ ih =>
    obtain ⟨u, hu, rfl⟩ := exists_of_forall₂_field hvw
    exact .field (ih hp hu)
  | prec _ ih => exact .prec (ih hp hvw)

theorem Label.exchangesTo_refl (a : Label) : a.ExchangesTo ks h a := ⟨rfl, .inl rfl⟩

theorem Expands.exchange_at (hv : Expands p (x ++ (r, k) :: y)) (hk : k ∈ h.kinds)
    (hp : p.mentions k = false) (hk' : k' ∈ h.kinds) : Expands p (x ++ (r, k') :: y) := by
  have hkinds : ∀ x ∈ [k], x ∈ h.kinds := by simpa using hk
  have hmentions : ∀ x ∈ [k], p.mentions x = false := by simpa using hp
  refine hv.exchange hkinds hmentions ?_
  have hsame (v : List Label) : List.Forall₂ (Label.ExchangesTo [k] h) v v :=
    List.forall₂_same.mpr fun a _ => Label.exchangesTo_refl a
  exact List.rel_append (hsame x) (.cons ⟨rfl, .inr ⟨List.mem_singleton_self k, hk'⟩⟩ (hsame y))

/-- Whether a production makes expressions among the children of its own node. -/
def takesExpression : Production → Bool
  | symbol (.hidden .expression) => true
  | seq p q | choice p q => p.takesExpression || q.takesExpression
  | many p | field _ p | prec _ _ p => p.takesExpression
  | _ => false

/-- Whether the plain words of a production all come before its expressions. -/
def wordsFirst : Production → Bool
  | seq p q => p.wordsFirst && q.wordsFirst && !(p.takesExpression && q.mentions (.token .identifier))
  | choice p q => p.wordsFirst && q.wordsFirst
  | many p => p.wordsFirst && !(p.takesExpression && p.mentions (.token .identifier))
  | field _ p | prec _ _ p => p.wordsFirst
  | _ => true

theorem wordsFirst_category (c : Category) : c.production.wordsFirst = true := by
  cases c <;> rfl

theorem mentions_literal (c : Category) : c.production.mentions (.category .literal) = false := by
  cases c <;> rfl

theorem literal_mem_kinds : Kind.category .literal ∈ Hidden.expression.kinds := by decide

theorem Expands.takesExpression (hv : Expands p v)
    (hp : p.mentions (.category .literal) = false) (hmem : (r, .category .literal) ∈ v) :
    p.takesExpression = true := by
  induction hv generalizing r with
  | empty | none => cases hmem
  | token t => simp at hmem
  | visible c => simp_all [mentions]
  | @hidden h v hv =>
    obtain ⟨k, hk, rfl⟩ := expands_hidden_iff_kinds.mp (.hidden hv)
    obtain ⟨rfl, rfl⟩ := Prod.mk.inj (List.mem_singleton.mp hmem)
    obtain rfl := Hidden.eq_of_mem_kinds hk literal_mem_kinds
    rfl
  | seq _ _ ihp ihq =>
    simp only [mentions, Bool.or_eq_false_iff] at hp
    rcases List.mem_append.mp hmem with hmem | hmem
    · simp [Production.takesExpression, ihp hp.1 hmem]
    · simp [Production.takesExpression, ihq hp.2 hmem]
  | this _ ih =>
    simp only [mentions, Bool.or_eq_false_iff] at hp
    simp [Production.takesExpression, ih hp.1 hmem]
  | other _ ih =>
    simp only [mentions, Bool.or_eq_false_iff] at hp
    simp [Production.takesExpression, ih hp.2 hmem]
  | again _ _ ihp ihq =>
    rcases List.mem_append.mp hmem with hmem | hmem
    · exact ihp hp hmem
    · exact ihq hp hmem
  | field _ ih =>
    obtain ⟨b, hb, heq⟩ := List.mem_map.mp hmem
    exact ih hp (r := b.1) (by rw [← (Prod.mk.inj heq).2]; exact hb)
  | prec _ ih => exact ih hp hmem

theorem append_eq_append_cons {α : Type} {us vs xs ys : List α} {a : α}
    (h : us ++ vs = xs ++ a :: ys) :
    (∃ zs, us = xs ++ a :: zs ∧ ys = zs ++ vs) ∨ ∃ zs, xs = us ++ zs ∧ vs = zs ++ a :: ys := by
  rcases List.append_eq_append_iff.mp h with ⟨zs, rfl, hvs⟩ | ⟨zs, rfl, hzs⟩
  · exact .inr ⟨zs, rfl, hvs⟩
  · rcases List.cons_eq_append_iff.mp hzs with ⟨rfl, rfl⟩ | ⟨zs, rfl, rfl⟩
    · exact .inr ⟨[], by simp, rfl⟩
    · exact .inl ⟨zs, rfl, rfl⟩

/-- An identifier that is a child behind an expression is an expression, too: another one may be in its
place. -/
theorem Expands.behind_expression (hv : Expands p v) (hwords : p.wordsFirst = true)
    (hp : p.mentions (.category .literal) = false) (hk : k ∈ Kind.expressions)
    (heq : v = x ++ (r, .category .literal) :: (y ++ (r', .token .identifier) :: z)) :
    Expands p (x ++ (r, .category .literal) :: (y ++ (r', k) :: z)) := by
  -- Both children are made by the same one of two parts, or the second part makes an identifier only
  -- where it makes an expression.
  have hparts {p q : Production} {us vs x y z : List Label} {r r' : Option Field}
      (hus : Expands p us) (hvs : Expands q vs)
      (ihp : ∀ {x y z : List Label} {r r' : Option Field},
        us = x ++ (r, .category .literal) :: (y ++ (r', .token .identifier) :: z) →
          Expands p (x ++ (r, .category .literal) :: (y ++ (r', k) :: z)))
      (ihq : ∀ {x y z : List Label} {r r' : Option Field},
        vs = x ++ (r, .category .literal) :: (y ++ (r', .token .identifier) :: z) →
          Expands q (x ++ (r, .category .literal) :: (y ++ (r', k) :: z)))
      (hp : p.mentions (.category .literal) = false)
      (hfree : (!(p.takesExpression && q.mentions (.token .identifier))) = true)
      (heq : us ++ vs = x ++ (r, .category .literal) :: (y ++ (r', .token .identifier) :: z)) :
      ∃ us vs, Expands p us ∧ Expands q vs ∧
        us ++ vs = x ++ (r, .category .literal) :: (y ++ (r', k) :: z) := by
    rcases append_eq_append_cons heq with ⟨u, rfl, hrest⟩ | ⟨u, rfl, rfl⟩
    · rcases append_eq_append_cons hrest.symm with ⟨u', rfl, rfl⟩ | ⟨u', rfl, rfl⟩
      · exact ⟨_, vs, ihp rfl, hvs, by simp⟩
      · have hexpression := hus.takesExpression hp (r := r) (by simp)
        have hmentions : q.mentions (.token .identifier) = false := by
          simpa [hexpression] using hfree
        exact ⟨_, _, hus, hvs.exchange_at (h := .expression) (by decide) hmentions hk, by simp⟩
    · exact ⟨us, _, hus, ihq rfl, by simp⟩
  induction hv generalizing x y z r r' with
  | empty | none => simp at heq
  | token | visible =>
    have := congrArg List.length heq
    simp at this
    omega
  | @hidden h v hv =>
    obtain ⟨k, hk, rfl⟩ := expands_hidden_iff_kinds.mp (.hidden hv)
    have := congrArg List.length heq
    simp at this
    omega
  | seq hus hvs ihp ihq =>
    simp only [mentions, Bool.or_eq_false_iff] at hp
    simp only [wordsFirst, Bool.and_eq_true] at hwords
    obtain ⟨us, vs, hus, hvs, heq⟩ := hparts hus hvs (fun h => ihp hwords.1.1 hp.1 h)
      (fun h => ihq hwords.1.2 hp.2 h) hp.1 hwords.2 heq
    rw [← heq]
    exact .seq hus hvs
  | this _ ih =>
    simp only [mentions, Bool.or_eq_false_iff] at hp
    simp only [wordsFirst, Bool.and_eq_true] at hwords
    exact .this (ih hwords.1 hp.1 heq)
  | other _ ih =>
    simp only [mentions, Bool.or_eq_false_iff] at hp
    simp only [wordsFirst, Bool.and_eq_true] at hwords
    exact .other (ih hwords.2 hp.2 heq)
  | again hus hvs ihp ihq =>
    have hfree := hwords
    rw [wordsFirst, Bool.and_eq_true] at hfree
    obtain ⟨us, vs, hus, hvs, heq⟩ := hparts hus hvs (fun h => ihp hfree.1 hp h)
      (fun h => ihq hwords hp h) hp hfree.2 heq
    rw [← heq]
    exact .again hus hvs
  | @field p f w _ ih =>
    obtain ⟨x, u, rfl, rfl, hu⟩ := List.map_eq_append_iff.mp heq
    obtain ⟨a, u', rfl, ha, hu'⟩ := List.map_eq_cons_iff.mp hu
    obtain ⟨y, w', rfl, rfl, hw'⟩ := List.map_eq_append_iff.mp hu'
    obtain ⟨b, z, rfl, hb, rfl⟩ := List.map_eq_cons_iff.mp hw'
    obtain ⟨a₁, a₂⟩ := a
    obtain ⟨b₁, b₂⟩ := b
    obtain ⟨rfl, rfl⟩ := Prod.mk.inj ha
    obtain ⟨rfl, rfl⟩ := Prod.mk.inj hb
    have := Expands.field (f := f) (ih hwords hp rfl)
    simpa using this
  | prec _ ih => exact .prec (ih hwords hp heq)

end Production

end HeyVL
