import HeyVL.Proofs.Grammar.Words
import HeyVL.Proofs.Tree.Regrouping
import Mathlib.Data.List.Forall2

/-!
Every token sequence of the grammar is that of the leaves of a syntax tree. The induction is on the
derivation, and the operators of each expression are regrouped where it is complete. Regrouping can
change the kind of an expression, so the productions around it must allow any expression there.
-/

namespace HeyVL

open Production

/-- A label that the other one can become when operators are regrouped: an operator expression can
become any expression in its role. -/
def Label.RegroupsTo (a b : Label) : Prop :=
  a.1 = b.1 ∧ (a.2 = b.2 ∨
    (a.2 = .category .binaryExpression ∨ a.2 = .category .unaryExpression) ∧
      b.2 ∈ Kind.expressions)

theorem Label.RegroupsTo.mem_expressions {a b : Label} (h : a.RegroupsTo b)
    (ha : a.2 ∈ Kind.expressions) : b.2 ∈ Kind.expressions := by
  rcases h.2 with h | h
  · exact h ▸ ha
  · exact h.2

theorem Label.RegroupsTo.eq {a b : Label} (h : a.RegroupsTo b)
    (hbinary : a.2 ≠ .category .binaryExpression) (hunary : a.2 ≠ .category .unaryExpression) :
    a = b := by
  rcases h with ⟨hrole, hkind | ⟨hkind | hkind, -⟩⟩
  · exact Prod.ext hrole hkind
  · exact absurd hkind hbinary
  · exact absurd hkind hunary

namespace Production

/-- Whether a production mentions the operator expressions among other expressions only. -/
def isPlain : Production → Bool
  | symbol (.visible c) => c != .binaryExpression && c != .unaryExpression
  | seq p q | choice p q => p.isPlain && q.isPlain
  | many p | field _ p | prec _ _ p => p.isPlain
  | _ => true

theorem isPlain_category (c : Category) : c.production.isPlain = true := by
  cases c <;> rfl

theorem isPlain_hidden {h : Hidden} (hne : h ≠ .expression) : h.production.isPlain = true := by
  cases h
  case expression => exact absurd rfl hne
  all_goals rfl

theorem forall₂_append_left {α β : Type} {r : α → β → Prop} {us vs : List α} {ws : List β}
    (h : List.Forall₂ r (us ++ vs) ws) :
    ∃ xs ys, ws = xs ++ ys ∧ List.Forall₂ r us xs ∧ List.Forall₂ r vs ys := by
  induction us generalizing ws with
  | nil => exact ⟨[], ws, rfl, .nil, h⟩
  | cons u us ih =>
    obtain ⟨w, zs, hw, hzs, rfl⟩ := List.forall₂_cons_left_iff.mp h
    obtain ⟨xs, ys, rfl, hxs, hys⟩ := ih hzs
    exact ⟨w :: xs, ys, rfl, .cons hw hxs, hys⟩

theorem exists_map_of_regroupsTo {f : Field} {v w : List Label}
    (h : List.Forall₂ Label.RegroupsTo (v.map fun label => (some f, label.2)) w) :
    ∃ x, List.Forall₂ Label.RegroupsTo v x ∧ x.map (fun label => (some f, label.2)) = w := by
  induction v generalizing w with
  | nil =>
    cases h
    exact ⟨[], .nil, rfl⟩
  | cons a v ih =>
    obtain ⟨b, bs, hb, hbs, rfl⟩ := List.forall₂_cons_left_iff.mp h
    obtain ⟨x, hx, rfl⟩ := ih hbs
    refine ⟨(a.1, b.2) :: x, .cons ⟨rfl, hb.2⟩ hx, ?_⟩
    have hrole : some f = b.1 := hb.1
    rw [List.map_cons, hrole]

/-- A plain production makes a list of children also when these are regrouped. -/
theorem Expands.regroup {p : Production} {v w : List Label} (h : Expands p v)
    (hp : p.isPlain = true) (hvw : List.Forall₂ Label.RegroupsTo v w) : Expands p w := by
  induction h generalizing w with
  | empty =>
    cases hvw
    exact .empty
  | token t =>
    obtain ⟨b, ws, hb, hws, rfl⟩ := List.forall₂_cons_left_iff.mp hvw
    cases hws
    rw [← hb.eq (by simp) (by simp)]
    exact .token t
  | visible c =>
    obtain ⟨b, ws, hb, hws, rfl⟩ := List.forall₂_cons_left_iff.mp hvw
    cases hws
    simp only [isPlain, Bool.and_eq_true, bne_iff_ne] at hp
    rw [← hb.eq (by simpa using hp.1) (by simpa using hp.2)]
    exact .visible c
  | @hidden h v hv ih =>
    by_cases hne : h = .expression
    · subst hne
      -- Where one kind of expression may stand, all may.
      obtain ⟨k, hk, rfl⟩ := expands_expression_iff.mp (.hidden hv)
      obtain ⟨b, ws, hb, hws, rfl⟩ := List.forall₂_cons_left_iff.mp hvw
      cases hws
      exact expands_expression_iff.mpr
        ⟨b.2, hb.mem_expressions hk, by rw [← Prod.eta b, ← hb.1]⟩
    · exact .hidden (ih (isPlain_hidden hne) hvw)
  | seq _ _ ihp ihq =>
    simp only [isPlain, Bool.and_eq_true] at hp
    obtain ⟨xs, ys, rfl, hxs, hys⟩ := forall₂_append_left hvw
    exact .seq (ihp hp.1 hxs) (ihq hp.2 hys)
  | this _ ih =>
    simp only [isPlain, Bool.and_eq_true] at hp
    exact .this (ih hp.1 hvw)
  | other _ ih =>
    simp only [isPlain, Bool.and_eq_true] at hp
    exact .other (ih hp.2 hvw)
  | none p =>
    cases hvw
    exact .none p
  | again _ _ ihp ihq =>
    obtain ⟨xs, ys, rfl, hxs, hys⟩ := forall₂_append_left hvw
    exact .again (ihp hp hxs) (ihq hp hys)
  | @field p f v _ ih =>
    obtain ⟨x, hx, rfl⟩ := exists_map_of_regroupsTo hvw
    exact .field (ih hp hx)
  | prec _ ih => exact .prec (ih hp hvw)

end Production

namespace Tree

/-- The lexemes are the leaves of syntax trees that a production makes up to regrouping. -/
structure Covers (p : Production) (ls : List Lexeme) (v : List Label) (ts : List Tree) : Prop where
  expands : Expands p v
  regroups : List.Forall₂ Label.RegroupsTo v (ts.map label)
  leaves_eq : leavesOfList ts = ls
  isSyntax : ∀ t ∈ ts, t.IsSyntax

variable {p q r : Production} {ls ms : List Lexeme} {u v : List Label} {ts us : List Tree}

theorem Covers.append (hp : Covers p ls u ts) (hq : Covers q ms v us)
    (hr : Expands p u → Expands q v → Expands r (u ++ v)) :
    Covers r (ls ++ ms) (u ++ v) (ts ++ us) where
  expands := hr hp.expands hq.expands
  regroups := by
    rw [List.map_append]
    exact List.rel_append hp.regroups hq.regroups
  leaves_eq := by rw [leavesOfList_append, hp.leaves_eq, hq.leaves_eq]
  isSyntax t ht := (List.mem_append.mp ht).elim (hp.isSyntax t) (hq.isSyntax t)

theorem Covers.field (h : Covers p ls v ts) (f : Field) :
    Covers (.field f p) ls (v.map fun label => (some f, label.2))
      (ts.map fun t => t.withRole (some f)) where
  expands := .field h.expands
  regroups := by
    simp only [List.map_map, List.forall₂_map_left_iff, List.forall₂_map_right_iff]
    refine (List.forall₂_map_right_iff.mp h.regroups).imp fun a t ht => ?_
    exact ⟨by simp [label], by simpa [label] using ht.2⟩
  leaves_eq := by
    rw [← h.leaves_eq]
    simp [leavesOfList_eq_flatMap, List.flatMap_map]
  isSyntax := by
    intro t ht
    obtain ⟨u, hu, rfl⟩ := List.mem_map.mp ht
    exact (h.isSyntax u hu).withRole _

theorem exists_regrouped {c : Category} {ts : List Tree}
    (h : Expands c.production (ts.map label)) (hderived : ∀ t ∈ ts, t.IsSyntax) :
    ∃ t : Tree, t.IsSyntax ∧ t.leaves = leavesOfList ts ∧
      Label.RegroupsTo (none, .category c) t.label := by
  by_cases hbinary : c = .binaryExpression
  · subst hbinary
    obtain ⟨left, x, right, o, hleft, hright, hleftRole, hrightRole, hx, rfl⟩ :=
      eq_of_expands_binary h
    obtain ⟨t, ht⟩ := (hderived right (by simp)).exists_isJoin hright hrightRole hx
      ⟨hderived left (by simp), hleft⟩
    refine ⟨t, ht.isExpression.isSyntax, ?_, (ht.role_eq.trans hleftRole).symm,
      .inr ⟨.inl rfl, ht.isExpression.kind_mem⟩⟩
    simp [ht.leaves_eq, leaves, leavesOfList]
  by_cases hunary : c = .unaryExpression
  · subst hunary
    obtain ⟨x, operand, o, hoperand, hrole, hx, rfl⟩ := eq_of_expands_unary h
    obtain ⟨t, ht, htrole, hleaves⟩ :=
      (hderived operand (by simp)).exists_prefixed hoperand hrole hx
    refine ⟨t, ht.isSyntax, ?_, htrole.symm, .inr ⟨.inr rfl, ht.kind_mem⟩⟩
    simp [hleaves, leaves, leavesOfList]
  · refine ⟨.node none c ts, .node h ?_ hderived, rfl, rfl, .inl rfl⟩
    cases c <;> first | rfl | contradiction

theorem exists_covers {p : Production} {ls : List Lexeme}
    (h : Generates p (ls.map Lexeme.token)) (hls : ∀ l ∈ ls, l.token ≠ .comment) :
    ∃ v ts, Covers p ls v ts := by
  generalize hw : ls.map Lexeme.token = w at h
  -- Nodes are regrouped as soon as they are complete, so their children are syntax trees already.
  induction h generalizing ls with
  | empty =>
    obtain rfl := List.map_eq_nil_iff.mp hw
    exact ⟨[], [], .empty, .nil, rfl, by simp⟩
  | token t =>
    obtain ⟨l, rfl, rfl⟩ := List.map_eq_singleton_iff.mp hw
    refine ⟨_, [leaf none l], .token _, .cons ⟨rfl, .inl rfl⟩ .nil, by simp [leaves], ?_⟩
    simpa using IsSyntax.leaf none (hls l (by simp))
  | @symbol n _ _ ih =>
    obtain ⟨v, ts, hv⟩ := ih hls hw
    cases n with
    | hidden h => exact ⟨v, ts, .hidden hv.expands, hv.regroups, hv.leaves_eq, hv.isSyntax⟩
    | visible c =>
      obtain ⟨t, ht, hleaves, hlabel⟩ := exists_regrouped
        (hv.expands.regroup (isPlain_category c) hv.regroups) hv.isSyntax
      refine ⟨_, [t], .visible c, .cons hlabel .nil, ?_, by simpa using ht⟩
      simp [hleaves, hv.leaves_eq]
  | seq _ _ ihp ihq =>
    obtain ⟨ls, ms, rfl, hlw, hmw⟩ := List.map_eq_append_iff.mp hw
    obtain ⟨u, ts, hu⟩ := ihp (fun l hl => hls l (by simp [hl])) hlw
    obtain ⟨v, us, hv⟩ := ihq (fun l hl => hls l (by simp [hl])) hmw
    exact ⟨u ++ v, ts ++ us, hu.append hv .seq⟩
  | this _ ih =>
    obtain ⟨v, ts, hv⟩ := ih hls hw
    exact ⟨v, ts, .this hv.expands, hv.regroups, hv.leaves_eq, hv.isSyntax⟩
  | other _ ih =>
    obtain ⟨v, ts, hv⟩ := ih hls hw
    exact ⟨v, ts, .other hv.expands, hv.regroups, hv.leaves_eq, hv.isSyntax⟩
  | none p =>
    obtain rfl := List.map_eq_nil_iff.mp hw
    exact ⟨[], [], .none p, .nil, rfl, by simp⟩
  | again _ _ ihp ihq =>
    obtain ⟨ls, ms, rfl, hlw, hmw⟩ := List.map_eq_append_iff.mp hw
    obtain ⟨u, ts, hu⟩ := ihp (fun l hl => hls l (by simp [hl])) hlw
    obtain ⟨v, us, hv⟩ := ihq (fun l hl => hls l (by simp [hl])) hmw
    exact ⟨u ++ v, ts ++ us, hu.append hv .again⟩
  | @field p f w _ ih =>
    obtain ⟨v, ts, hv⟩ := ih hls hw
    exact ⟨_, _, hv.field f⟩
  | prec _ ih =>
    obtain ⟨v, ts, hv⟩ := ih hls hw
    exact ⟨v, ts, .prec hv.expands, hv.regroups, hv.leaves_eq, hv.isSyntax⟩

/-- A token sequence of the language is that of the leaves of a syntax tree. -/
theorem exists_isSyntax {ls : List Lexeme} (h : Grammar.Derivable (ls.map Lexeme.token)) :
    ∃ ts, (node none .sourceFile ts).IsSyntax ∧ leavesOfList ts = ls := by
  have hls : ∀ l ∈ ls, l.token ≠ .comment := fun l hl =>
    h.ne_comment l.token (List.mem_map_of_mem hl)
  obtain ⟨v, ts, hv⟩ := exists_covers h hls
  obtain rfl := expands_visible_iff.mp hv.expands
  obtain ⟨b, w, hb, hw, hts⟩ := List.forall₂_cons_left_iff.mp hv.regroups
  cases hw
  obtain ⟨t, rfl, rfl⟩ := eq_singleton_of_labels hts
  have hlabel := hb.eq (by simp) (by simp)
  obtain ⟨children, rfl⟩ := eq_node_of_label hlabel.symm
  refine ⟨children, hv.isSyntax _ (by simp), ?_⟩
  simpa [leaves] using hv.leaves_eq

end Tree

end HeyVL
