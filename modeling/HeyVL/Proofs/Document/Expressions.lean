import HeyVL.Proofs.Document.Splicing
import HeyVL.Proofs.Expectation.Expressions

namespace HeyVL

open Token Grammar Lexeme

namespace Document

variable {d : Document} {ls : List Lexeme} {ts : List Tree} {path : List Crumb} {k : Crumb} {t u : Tree}

/-- An expression in its place in a document. -/
structure Holds (d : Document) (path : List Crumb) (k : Crumb) (t : Tree) : Prop where
  fill_eq : Tree.fill (k :: path) [t] = [d.root]
  expression : k.HoldsExpression t

namespace Holds

variable (hbuilt : d.Built ls ts) (h : d.Holds path k t)

include hbuilt h

theorem fill_bare :
    Tree.fill (k.bare :: path.map Crumb.bare) [t.bare] = [.node none .sourceFile ts] := by
  have hfill := (hbuilt.hasSlot h.fill_eq).2.fill_bare hbuilt
  rwa [Tree.bareOfList_singleton (Tree.isComment_of_mem_expressions h.expression.kind_mem)] at hfill

theorem isTrimmed : t.IsTrimmed :=
  Tree.isTrimmed_of_children hbuilt.isTrimmed h.fill_eq t (List.mem_singleton_self _)

theorem isSyntax_around :
    ∀ x ∈ Tree.fill (path.map Crumb.bare) [k.bare.around [t.bare]], x.IsSyntax := by
  intro x hx
  have hmem : x ∈ Tree.fill (k.bare :: path.map Crumb.bare) [t.bare] := hx
  rw [h.fill_bare hbuilt, List.mem_singleton] at hmem
  exact hmem ▸ hbuilt.isSyntax

theorem isSyntax_bare : t.bare.IsSyntax :=
  (Tree.isSyntax_of_fill (h.isSyntax_around hbuilt) _ (List.mem_singleton_self _)).of_mem_subtrees
    (Tree.mem_subtrees_of_mem (Tree.mem_children_around_iff.mpr (by simp)))

/-- What stays a syntax tree where an expression is replaced does so in the whole tree. -/
theorem isSyntax_of_around
    (haround : (k.bare.around [u]).IsSyntax ∧
      Tree.Loosens (k.bare.around [t.bare]) (k.bare.around [u])) :
    ∀ x ∈ Tree.fill (k.bare :: path.map Crumb.bare) [u], x.IsSyntax :=
  Tree.isSyntax_fill (t := k.bare.around [t.bare]) (u := k.bare.around [u])
    (h.isSyntax_around hbuilt) haround.1 rfl haround.2 (Tree.isNoSign_node _ _ _)

theorem lexes_text {path' : List Crumb} {k' : Crumb} {t' : Tree} {ts' : List Tree}
    {r : Option Field} {v : Bytes} (offset : Nat)
    (hroot : Tree.fill (k' :: path') [t'] = [.node none .sourceFile ts']) (htakes : k'.TakesExpression r)
    (htree : ∀ x ∈ Tree.fill (k' :: path') [t.bare.withRole r], x.IsSyntax)
    (hnodup : (Tree.front (k' :: path') ++ Tree.back (k' :: path')).Nodup)
    (hv : ∀ b ∈ v.head?, Bytes.isBreak b = true) :
    Lexes ((Tree.front (k' :: path')).map token) offset
      (d.source.slice (d.startOf t) (d.stopOf t) ++ v)
      (carried (d.startOf t) offset t.leaves) v := by
  obtain ⟨hfull, hslot⟩ := hbuilt.hasSlot h.fill_eq
  have hcomment := Tree.isComment_of_mem_expressions h.expression.kind_mem
  have hleaves : Tree.leavesOfList [t.bare.withRole r] = significant (Tree.leavesOfList [t]) := by
    rw [Tree.leavesOfList_singleton, Tree.leavesOfList_singleton, Tree.leaves_withRole,
      Tree.leaves_bare hcomment]
  rw [← Tree.leavesOfList_singleton t]
  refine hslot.lexes_in hbuilt offset hroot htree hleaves hnodup hv ?_
    fun l hl _ n root hfill hdisjoint => ?_
  · rintro ⟨l, hl, htoken, hend⟩
    have hlast : ∀ l ∈ (Tree.leavesOfList [t]).getLast?, l.token ≠ .comment := by
      rw [Tree.leavesOfList_singleton]
      exact hfull.getLast_ne_comment (h.isTrimmed hbuilt).endsBare hcomment
    exact absurd hend (hslot.stop_lt_of_comment hbuilt hlast l hl htoken).ne
  · rw [Tree.leavesOfList_singleton, Tree.leaves_withRole] at hl
    have htakes' : (k'.moved (· + n) (· + n)).TakesExpression r := by
      rwa [Crumb.TakesExpression, Crumb.moved, ← List.map_reverse, Tree.map_label_map_moved,
        Tree.map_label_map_moved]
    have hbare := h.fill_bare hbuilt
    rw [← hbuilt.bare_root] at hbare
    refine Tree.positions_of_expression hbare ?_ hfill htakes' hdisjoint hl
    rw [Tree.role_bare]
    exact h.expression.bare

/-- An expression can be replaced by another one if this makes the node around it a syntax tree that can
be an operand wherever the old node can. -/
theorem parse_replaced {e : Edit} (hstart : e.start = d.startOf t) (hstop : e.stop = d.stopOf t)
    (hu : u.kind ∈ Kind.expressions) (htrimmed : u.IsTrimmed)
    (haround : (k.bare.around [u.bare]).IsSyntax ∧
      Tree.Loosens (k.bare.around [t.bare]) (k.bare.around [u.bare]))
    (hbreak : ∀ b ∈ (e.inserted ++ d.source.drop e.stop).head?, Bytes.isBreak b = true)
    (hlexes : Lexes (tokensOf (Tree.front (k :: path))) e.start
      (e.inserted ++ d.source.drop e.stop) u.leaves (d.source.drop e.stop)) :
    ∃ d', parse (d.source.splice e.start e.stop e.inserted) = .ok d' ∧
      [d'.root] = Tree.fill ((k :: path).map (Crumb.moved e.startAfter e.stopAfter)) [u] := by
  obtain ⟨-, hslot⟩ := hbuilt.hasSlot h.fill_eq
  rw [← hstart, ← hstop] at hslot
  have hcomment := Tree.isComment_of_mem_expressions h.expression.kind_mem
  have hcomment' := Tree.isComment_of_mem_expressions hu
  have hbare : Tree.bareOfList [u] = [u.bare] := Tree.bareOfList_singleton hcomment'
  have htree : ∀ x ∈ Tree.fill ((k :: path).map Crumb.bare) (Tree.bareOfList [u]), x.IsSyntax := by
    rw [hbare]
    exact h.isSyntax_of_around hbuilt haround
  refine hslot.parse_splice hbuilt (hslot.lexes_before hbuilt (.inr (.inl hbreak)) ?_) ?_ htree (fun root hroot => ?_)
    fun us l vs hback hl w hreserved hw => ?_
  · obtain ⟨b, hb, hne⟩ := hbuilt.head_ne_newline h.fill_eq (List.cons_ne_nil _ _)
    rw [hstart, startOf_eq (hbuilt.hasSlot h.fill_eq).1]
    exact fun _ hnewline => absurd (hnewline b hb) hne
  · rwa [Tree.leavesOfList_singleton]
  · have hmoved := congrArg (List.map (Tree.moved e.startAfter e.stopAfter)) h.fill_eq
    rw [Tree.map_moved_fill, List.map_singleton, List.map_singleton] at hmoved
    refine Tree.isTrimmed_children (hbuilt.isTrimmed_moved _ _) hmoved hroot htrimmed ?_
    rw [hcomment', Tree.isComment_moved, hcomment]
  · refine hslot.viable_behind hbuilt htree ?_ (fun _ => ?_) (fun between r m after hafter hm _ => ?_)
      hback hl hreserved hw
    · rw [Tree.leavesOfList_singleton]
      exact (Lexes.inOrder hlexes).nodup
    · have hfull : u.bare.IsFull :=
        haround.1.isFull_of_mem (List.mem_append_right _ (List.mem_append_left _ (List.mem_singleton_self _)))
      rw [hbare, Tree.leavesOfList_singleton]
      exact List.append_ne_nil_of_right_ne_nil _ hfull.leaves_ne_nil
    · have htakes : k.bare.TakesExpression t.bare.role := by
        rw [Tree.role_bare]
        exact h.expression.bare
      rw [Tree.bareOfList_singleton hcomment]
      refine htakes.behind ?_ hafter hm
      rw [Tree.kind_bare]
      exact h.expression.kind_mem

theorem loosens_parenthesized {us : List Tree}
    (hus : (Tree.node t.role .parenthesizedExpression us).IsSyntax) :
    (k.bare.around [.node t.role .parenthesizedExpression us]).IsSyntax ∧
      Tree.Loosens (k.bare.around [t.bare])
        (k.bare.around [.node t.role .parenthesizedExpression us]) := by
  have htree := Tree.isSyntax_of_fill (h.isSyntax_around hbuilt) _ (List.mem_singleton_self _)
  have htakes : k.bare.TakesExpression (Tree.node t.role .parenthesizedExpression us).role :=
    h.expression.bare
  have hkind : t.bare.kind ∈ Kind.expressions := by
    rw [Tree.kind_bare]
    exact h.expression.kind_mem
  refine htree.around hus ⟨by simp, .inl (Tree.level?_eq_none Category.noConfusion), nofun⟩
    (Tree.isNoSign_of_mem_expressions hkind) (htakes.expands ?_)
  exact Kind.mem_expressions_iff.mpr (by decide)

theorem isSyntax_parentheses : ∀ x ∈ Tree.fill
    (.parentheses t.role :: k.bare :: path.map Crumb.bare) [t.bare.withRole none], x.IsSyntax := by
  have hkind : t.bare.kind ∈ Kind.expressions := by
    rw [Tree.kind_bare]
    exact h.expression.kind_mem
  exact h.isSyntax_of_around hbuilt (h.loosens_parenthesized hbuilt
    (Tree.isSyntax_parentheses (h.isSyntax_bare hbuilt) hkind t.role))

theorem exists_fill_parentheses : ∃ ts', Tree.fill
    (.parentheses t.role :: k.bare :: path.map Crumb.bare) [t.bare.withRole none] =
      [.node none .sourceFile ts'] :=
  Tree.exists_fill_of_fill (h.fill_bare hbuilt)
    [(Crumb.parentheses t.role).around [t.bare.withRole none]]

theorem derivable_parentheses : Derivable (tokensOf (Tree.front (k :: path)) ++
    .punctuation .parenOpen :: (tokensOf t.leaves ++
      .punctuation .parenClose :: tokensOf (Tree.back (k :: path)))) := by
  have hcomment := Tree.isComment_of_mem_expressions h.expression.kind_mem
  obtain ⟨ts', hroot⟩ := h.exists_fill_parentheses hbuilt
  have htree : (Tree.node none .sourceFile ts').IsSyntax :=
    h.isSyntax_parentheses hbuilt _ (hroot ▸ List.mem_singleton_self _)
  have hderivable := Tree.derivable_of_isSyntax htree
  have hleaves := Tree.leavesOfList_fill (.parentheses t.role :: k.bare :: path.map Crumb.bare)
    [t.bare.withRole none]
  rw [hroot, Tree.leavesOfList_singleton, Tree.leaves, Tree.leavesOfList_singleton, Tree.leaves_withRole,
    Tree.leaves_bare hcomment, Tree.front, Tree.back, ← List.map_cons, Tree.front_map_bare,
    Tree.back_map_bare] at hleaves
  rw [hleaves] at hderivable
  simpa [Crumb.parentheses, Tree.leavesOfList, Tree.leaves, tokensOf] using hderivable

theorem nodup_parentheses : (Tree.front (.parentheses t.role :: k.bare :: path.map Crumb.bare) ++
    Tree.back (.parentheses t.role :: k.bare :: path.map Crumb.bare)).Nodup := by
  obtain ⟨-, hslot⟩ := hbuilt.hasSlot h.fill_eq
  have horder := Lexes.inOrder hbuilt.lexes
  rw [← hslot.leaves_eq hbuilt] at horder
  have hpos {l : Lexeme} (hl : l ∈ Tree.front (k.bare :: path.map Crumb.bare) ++
      Tree.back (k.bare :: path.map Crumb.bare)) : l.start < l.stop := by
    refine horder.nonempty l ?_
    rw [← List.map_cons, Tree.front_map_bare, Tree.back_map_bare] at hl
    rcases List.mem_append.mp hl with hl | hl
    · simp [(mem_significant_iff.mp hl).1]
    · simp [(mem_significant_iff.mp hl).1]
  have hsplit : Tree.front (.parentheses t.role :: k.bare :: path.map Crumb.bare) ++
      Tree.back (.parentheses t.role :: k.bare :: path.map Crumb.bare) =
        Tree.front (k.bare :: path.map Crumb.bare) ++ ⟨.punctuation .parenOpen, 0, 0⟩ ::
          ⟨.punctuation .parenClose, 0, 0⟩ :: Tree.back (k.bare :: path.map Crumb.bare) := by
    rw [Tree.front, Tree.back, List.append_assoc]
    rfl
  rw [hsplit, List.nodup_middle, List.nodup_cons, List.nodup_middle, List.nodup_cons]
  refine ⟨fun hmem => ?_, fun hmem => absurd (hpos hmem) (lt_irrefl 0), hslot.nodup_around hbuilt⟩
  rw [List.mem_append, List.mem_cons] at hmem
  rcases hmem with hmem | heq | hmem
  · exact absurd (hpos (List.mem_append_left _ hmem)) (lt_irrefl 0)
  · cases heq
  · exact absurd (hpos (List.mem_append_right _ hmem)) (lt_irrefl 0)

theorem lexes_parenthesized (rest : Bytes) :
    Lexes (tokensOf (Tree.front (k :: path))) (d.startOf t)
      (40 :: (d.source.slice (d.startOf t) (d.stopOf t) ++ 41 :: rest))
      (⟨.punctuation .parenOpen, d.startOf t, d.startOf t + 1⟩ ::
        (carried (d.startOf t) (d.startOf t + 1) t.leaves ++
          [⟨.punctuation .parenClose, d.stopOf t + 1, d.stopOf t + 2⟩])) rest := by
  obtain ⟨-, hslot⟩ := hbuilt.hasSlot h.fill_eq
  have hderivable := h.derivable_parentheses hbuilt
  obtain ⟨ts', hroot⟩ := h.exists_fill_parentheses hbuilt
  have hopen : Viable (tokensOf (Tree.front (k :: path))) (.punctuation .parenOpen) := ⟨_, hderivable⟩
  have hclose : Viable ((tokensOf (Tree.front (k :: path)) ++ [.punctuation .parenOpen]) ++
      tokensOf t.leaves) (.punctuation .parenClose) := by
    refine ⟨tokensOf (Tree.back (k :: path)), ?_⟩
    rwa [List.append_assoc, List.append_assoc]
  have hfront : (Tree.front (.parentheses t.role :: k.bare :: path.map Crumb.bare)).map token =
      tokensOf (Tree.front (k :: path)) ++ [.punctuation .parenOpen] := by
    rw [Tree.front, List.map_append, ← List.map_cons, Tree.map_token_front]
    rfl
  have htext : Lexes _ (d.startOf t + 1) (_ ++ 41 :: rest) _ (41 :: rest) :=
    h.lexes_text hbuilt (d.startOf t + 1) hroot (Crumb.parentheses_takesExpression _)
      (h.isSyntax_parentheses hbuilt) (h.nodup_parentheses hbuilt) fun b hb => by cases hb; rfl
  rw [hfront] at htext
  have hlength : d.startOf t + 1 + ((d.source.slice (d.startOf t) (d.stopOf t) ++ 41 :: rest).length -
      (41 :: rest : Bytes).length) = d.stopOf t + 1 := by
    rw [List.length_append, Nat.add_sub_cancel, Bytes.length_slice _ _ hslot.stop_le]
    have := hslot.le
    omega
  refine .lexeme (taken_sign (by decide) hopen) (htext.append ?_)
  rw [hlength, tokensOf_carried]
  exact .lexeme (taken_sign (by decide) hclose) (.stop _ _ _)

end Holds

/-- A reward statement with only a literal of one token behind its word. -/
def isRewardOfLiteral (reward literal : Lexeme) : Tree → Bool
  | .node none .rewardStatement [.leaf none l, .node none .literal [.leaf none m]] =>
    l == reward && m == literal
  | _ => false

theorem eq_of_isRewardOfLiteral {reward literal : Lexeme} {t : Tree}
    (h : isRewardOfLiteral reward literal t = true) :
    t = .node none .rewardStatement [.leaf none reward, .node none .literal [.leaf none literal]] := by
  unfold isRewardOfLiteral at h
  split at h
  · rw [Bool.and_eq_true, beq_iff_eq, beq_iff_eq] at h
    rw [h.1, h.2]
  · cases h

theorem exists_holds_string : ∃ d path,
    parse (Bytes.ofText "proc p() -> () \x7breward\"s\"\x7d") = .ok d ∧
      d.Holds path ⟨none, .rewardStatement, [.leaf none ⟨.command .reward, 16, 22⟩], []⟩
        (.node none .literal [.leaf none ⟨.string, 22, 25⟩]) := by
  obtain ⟨d, hd⟩ := isOk_parse_iff.mp
    (show (parse (Bytes.ofText "proc p() -> () \x7breward\"s\"\x7d")).isOk = true by decide +kernel)
  have hall : (parse (Bytes.ofText "proc p() -> () \x7breward\"s\"\x7d")).toOption.any (fun d =>
      d.root.subtrees.any (isRewardOfLiteral ⟨.command .reward, 16, 22⟩ ⟨.string, 22, 25⟩)) = true := by
    decide +kernel
  rw [hd] at hall
  obtain ⟨u, hu, hreward⟩ := List.any_eq_true.mp hall
  rw [eq_of_isRewardOfLiteral hreward, ← List.singleton_append] at hu
  obtain ⟨path, hfill⟩ := Tree.exists_fill_of_mem_node hu
  have hliteral : Production.Expands Production.expression [(none, .category .literal)] :=
    Production.expands_expression_iff.mpr ⟨_, by decide, rfl⟩
  exact ⟨d, path, hd, hfill, by decide, .seq (.token (.command .reward)) hliteral⟩

/-- An expression is read as itself in the place of every other one that is no operand. -/
theorem parse_exchanged (source source₁ : Bytes) (d d₁ : Document) (h : parse source = .ok d)
    (h₁ : parse source₁ = .ok d₁) (path path₁ : List Crumb) (k k₁ : Crumb) (t u : Tree)
    (ht : d.Holds path k t) (hbinary : k.category ≠ .binaryExpression)
    (hunary : k.category ≠ .unaryExpression) (hu : d₁.Holds path₁ k₁ u) (e : Edit)
    (he : e = ⟨d.startOf t, d.stopOf t, 10 :: (source₁.slice (d₁.startOf u) (d₁.stopOf u) ++ [10])⟩) :
    ∃ d', parse (source.splice e.start e.stop e.inserted) = .ok d' ∧
      [d'.root] = Tree.fill ((k :: path).map (Crumb.moved e.startAfter e.stopAfter))
        [(u.moved (carry (d₁.startOf u) (e.start + 1)) (carry (d₁.startOf u) (e.start + 1))).withRole
          t.role] := by
  obtain ⟨rfl, ls, ts, hbuilt⟩ := exists_built h
  obtain ⟨rfl, ls₁, ts₁, hbuilt₁⟩ := exists_built h₁
  have hkind := hu.expression.kind_mem
  have htree := Tree.isSyntax_of_fill (ht.isSyntax_around hbuilt) _ (List.mem_singleton_self _)
  have htree₁ := hu.isSyntax_bare hbuilt₁
  -- Every expression may be in the place, with its role.
  have haround {x : Tree} (hx : x.IsSyntax) (hxkind : x.kind = u.kind) (hrole : x.role = t.role) :
      (k.bare.around [x]).IsSyntax ∧ Tree.Loosens (k.bare.around [t.bare]) (k.bare.around [x]) := by
    have htakes : k.bare.TakesExpression x.role := hrole ▸ ht.expression.bare
    refine htree.around_of_not_operator (fun y hy => ?_) hbinary hunary
      (htakes.expands (hxkind ▸ hkind))
    exact List.mem_singleton.mp hy ▸ hx
  have htext : Lexes _ (e.start + 1) (_ ++ 10 :: d.source.drop e.stop) _ (10 :: d.source.drop e.stop) :=
    hu.lexes_text hbuilt₁ (e.start + 1) (ht.fill_bare hbuilt) ht.expression.bare
      (ht.isSyntax_of_around hbuilt
        (haround (htree₁.withRole t.role) (by simp) (Tree.role_withRole _ _)))
      ((hbuilt.hasSlot ht.fill_eq).2.nodup_around hbuilt) fun b hb => by cases hb; rfl
  rw [← List.map_cons, Tree.map_token_front] at htext
  have hlexes := htext.append (.space (by decide) (.stop _ _ _))
  rw [List.append_nil] at hlexes
  have hbare : ((u.moved (carry (d₁.startOf u) (e.start + 1))
      (carry (d₁.startOf u) (e.start + 1))).withRole t.role).bare.IsSyntax := by
    rw [Tree.bare_withRole, Tree.bare_moved]
    exact htree₁.moved.withRole _
  refine ht.parse_replaced hbuilt (by rw [he]) (by rw [he]) (by simpa using hkind) ?_
    (haround hbare (by simp) (by simp)) ?_ ?_
  · refine (hu.isTrimmed hbuilt₁).moved.withRole ?_ _
    rw [Tree.isComment_moved]
    exact Tree.isComment_of_mem_expressions hkind
  · rw [he]
    intro b hb
    cases hb
    rfl
  · rw [Tree.leaves_withRole, Tree.leaves_moved]
    have hinserted : e.inserted ++ d.source.drop e.stop =
        10 :: (d₁.source.slice (d₁.startOf u) (d₁.stopOf u) ++ 10 :: d.source.drop e.stop) := by
      rw [he]
      simp
    rw [hinserted]
    exact .space (by decide) hlexes

/-- The leaves of an axiom before its quantifier, and the children of the quantifier. -/
def quantifiedAxiom? : Tree → Option (Lexeme × Lexeme × List Tree)
  | .node none .axiomDeclaration [.leaf none l, .leaf (some .name) m,
      .node (some .statedAxiom) .quantifierExpression us] => some (l, m, us)
  | _ => none

theorem eq_of_quantifiedAxiom? {t : Tree} {l m : Lexeme} {us : List Tree}
    (h : quantifiedAxiom? t = some (l, m, us)) :
    t = .node none .axiomDeclaration ([.leaf none l, .leaf (some .name) m] ++
      .node (some .statedAxiom) .quantifierExpression us :: []) := by
  unfold quantifiedAxiom? at h
  split at h
  · cases h
    rfl
  · cases h

/-- A quantifier takes the place of a string. -/
theorem parse_exchanged_quantifier : ∃ (d d' : Document) (path : List Crumb) (k : Crumb) (t u : Tree),
    parse (Bytes.ofText "proc p() -> () \x7breward\"s\"\x7d") = .ok d ∧ d.Holds path k t ∧
      parse (Bytes.ofText "proc p() -> () \x7breward\nexists x: T. x\n\x7d") = .ok d' ∧
      u.kind = .category .quantifierExpression ∧
      ∃ f g n, [d'.root] = Tree.fill ((k :: path).map (Crumb.moved f g))
        [(u.moved (carry n 23) (carry n 23)).withRole none] := by
  obtain ⟨d, path, hd, hholds⟩ := exists_holds_string
  obtain ⟨d₁, hd₁⟩ := isOk_parse_iff.mp
    (show (parse (Bytes.ofText "domain D \x7baxiom a exists x: T. x\x7d")).isOk = true by decide +kernel)
  have hall : (parse (Bytes.ofText "domain D \x7baxiom a exists x: T. x\x7d")).toOption.any (fun d =>
      d.root.subtrees.any fun t => (quantifiedAxiom? t).any fun x =>
        x.1.token == .keyword .kwAxiom && x.2.1.token == .identifier &&
          Tree.startOfList x.2.2 == 18 && Tree.stopOfList x.2.2 == 32) = true := by
    decide +kernel
  rw [hd₁] at hall
  obtain ⟨v, hv, hany⟩ := List.any_eq_true.mp hall
  obtain ⟨⟨l, m, us⟩, hquantified, hmatch⟩ := (Option.any_eq_true _ _).mp hany
  simp only [Bool.and_eq_true, beq_iff_eq] at hmatch
  obtain ⟨⟨⟨hl, hm⟩, hstart⟩, hstop⟩ := hmatch
  rw [eq_of_quantifiedAxiom? hquantified] at hv
  obtain ⟨path₁, hfill⟩ := Tree.exists_fill_of_mem_node hv
  have hliteral : Production.Expands Production.expression [(none, .category .literal)] :=
    Production.expands_expression_iff.mpr ⟨_, by decide, rfl⟩
  have hexpands : Production.Expands Category.axiomDeclaration.production
      [(none, .token (.keyword .kwAxiom)), (some .name, .token .identifier),
        (some .statedAxiom, .category .literal)] :=
    .seq (.token _) (.seq (.field (.token .identifier)) (.field hliteral))
  have hkind : Kind.category .quantifierExpression ∈ Kind.expressions := by decide
  have hholds₁ : d₁.Holds path₁ _ _ := ⟨hfill, hkind, by
    simpa [Tree.labels, Tree.isComment, Tree.label, hl, hm] using hexpands⟩
  obtain ⟨d', hd', hroot⟩ := parse_exchanged _ _ d d₁ hd hd₁ path path₁ _ _ _ _ hholds
    Category.noConfusion Category.noConfusion hholds₁ _ rfl
  have hsource : (Bytes.ofText "proc p() -> () \x7breward\"s\"\x7d").splice 22 25
      (10 :: ((Bytes.ofText "domain D \x7baxiom a exists x: T. x\x7d").slice 18 32 ++ [10])) =
        Bytes.ofText "proc p() -> () \x7breward\nexists x: T. x\n\x7d" := by
    decide
  have hstartOf : d₁.startOf (.node (some .statedAxiom) .quantifierExpression us) = 18 := hstart
  have hstopOf : d₁.stopOf (.node (some .statedAxiom) .quantifierExpression us) = 32 := hstop
  rw [hstartOf, hstopOf] at hd'
  exact ⟨d, d', path, _, _, _, hd, hholds, hsource ▸ hd', rfl, _, _, _, hroot⟩

/-- An expression is read as itself in parentheses, and nothing around it is regrouped. -/
theorem parse_parenthesized (source : Bytes) (d : Document) (h : parse source = .ok d)
    (path : List Crumb) (k : Crumb) (t : Tree) (ht : d.Holds path k t) (e : Edit)
    (he : e = ⟨d.startOf t, d.stopOf t,
      Bytes.ofText "(" ++ (source.slice (d.startOf t) (d.stopOf t) ++ Bytes.ofText ")")⟩) :
    ∃ d', parse (source.splice e.start e.stop e.inserted) = .ok d' ∧
      [d'.root] = Tree.fill ((k :: path).map (Crumb.moved e.startAfter e.stopAfter))
        [.node t.role .parenthesizedExpression
          [.leaf none ⟨.punctuation .parenOpen, e.start, e.start + 1⟩,
            (t.moved (· + 1) (· + 1)).withRole none,
            .leaf none ⟨.punctuation .parenClose, e.stop + 1, e.stop + 2⟩]] := by
  obtain ⟨rfl, ls, ts, hbuilt⟩ := exists_built h
  have hstart : e.start = d.startOf t := by rw [he]
  have hstop : e.stop = d.stopOf t := by rw [he]
  have hinserted : e.inserted ++ d.source.drop e.stop =
      40 :: (d.source.slice (d.startOf t) (d.stopOf t) ++ 41 :: d.source.drop e.stop) := by
    have hopen : Bytes.ofText "(" = [40] := by decide
    have hclose : Bytes.ofText ")" = [41] := by decide
    rw [he, hopen, hclose]
    simp
  obtain ⟨-, hslot⟩ := hbuilt.hasSlot ht.fill_eq
  have horder := Lexes.inOrder hbuilt.lexes
  rw [← hslot.leaves_eq hbuilt] at horder
  have hmoved : t.moved (· + 1) (· + 1) =
      t.moved (carry (d.startOf t) (d.startOf t + 1)) (carry (d.startOf t) (d.startOf t + 1)) := by
    refine Tree.moved_congr fun l hl => ?_
    rw [← Tree.leavesOfList_singleton t] at hl
    have hle := (hslot.inside l hl).1
    have hpos := horder.nonempty l (List.mem_append_right _ (List.mem_append_left _ hl))
    constructor
    · rw [carry]
      omega
    · rw [carry]
      omega
  have hcomment : ((t.moved (· + 1) (· + 1)).withRole none).isComment = false := by
    rw [Tree.isComment, Tree.kind_withRole, Tree.kind_moved]
    exact Tree.isComment_of_mem_expressions ht.expression.kind_mem
  -- What is new has no comment at an end, is an operand wherever the expression was one, begins with a sign,
  -- and is cut into its leaves.
  refine ht.parse_replaced hbuilt hstart hstop (Kind.mem_expressions_iff.mpr (by decide)) ?_ ?_ ?_ ?_
  · have htrimmed := (ht.isTrimmed hbuilt).moved (f := (· + 1)) (g := (· + 1))
    refine .node _ Category.noConfusion (List.cons_ne_nil _ _) (by simp [Tree.isComment])
      (by simp [Tree.isComment]) fun x hx => ?_
    simp only [List.mem_cons, List.not_mem_nil, or_false] at hx
    rcases hx with rfl | rfl | rfl
    · exact .leaf Token.noConfusion
    · refine htrimmed.withRole ?_ none
      rwa [Tree.isComment, Tree.kind_withRole] at hcomment
    · exact .leaf Token.noConfusion
  · refine ht.loosens_parenthesized hbuilt ?_
    have htree : ((t.moved (· + 1) (· + 1)).bare).IsSyntax := by
      rw [Tree.bare_moved]
      exact (ht.isSyntax_bare hbuilt).moved
    have hnew := Tree.isSyntax_parenthesized (o := ⟨.punctuation .parenOpen, e.start, e.start + 1⟩)
      (c := ⟨.punctuation .parenClose, e.stop + 1, e.stop + 2⟩) rfl rfl htree
      (by simpa using ht.expression.kind_mem) t.role
    rw [← Tree.bare_withRole] at hnew
    have hchildren (o c : Punctuation) (m n : Nat) (v : Tree) (hv : v.isComment = false) :
        Tree.bareOfList [.leaf none ⟨.punctuation o, m, m + 1⟩, v, .leaf none ⟨.punctuation c, n, n + 1⟩] =
          [.leaf none ⟨.punctuation o, m, m + 1⟩, v.bare, .leaf none ⟨.punctuation c, n, n + 1⟩] := by
      rw [Tree.bareOfList, Tree.bareOfList, hv]
      rfl
    rw [← hchildren _ _ _ _ _ hcomment] at hnew
    exact hnew
  · rw [hinserted]
    intro b hb
    cases hb
    rfl
  · rw [hinserted, hmoved, hstart, hstop]
    have hleaves : (Tree.node t.role .parenthesizedExpression
        [.leaf none ⟨.punctuation .parenOpen, d.startOf t, d.startOf t + 1⟩,
          (t.moved (carry (d.startOf t) (d.startOf t + 1))
            (carry (d.startOf t) (d.startOf t + 1))).withRole none,
          .leaf none ⟨.punctuation .parenClose, d.stopOf t + 1, d.stopOf t + 2⟩]).leaves =
        ⟨.punctuation .parenOpen, d.startOf t, d.startOf t + 1⟩ ::
          (carried (d.startOf t) (d.startOf t + 1) t.leaves ++
            [⟨.punctuation .parenClose, d.stopOf t + 1, d.stopOf t + 2⟩]) := by
      rw [carried, ← Tree.leaves_moved]
      simp [Tree.leaves, Tree.leavesOfList]
    rw [hleaves]
    exact ht.lexes_parenthesized hbuilt _

/-- A parenthesis behind `reward` does not make the word a function. -/
theorem parse_parenthesized_string : ∃ d d' path k t,
    parse (Bytes.ofText "proc p() -> () \x7breward\"s\"\x7d") = .ok d ∧ d.Holds path k t ∧
      parse (Bytes.ofText "proc p() -> () \x7breward(\"s\")\x7d") = .ok d' ∧
      ∃ f g, [d'.root] = Tree.fill ((k :: path).map (Crumb.moved f g))
        [.node none .parenthesizedExpression
          [.leaf none ⟨.punctuation .parenOpen, 22, 23⟩, .node none .literal [.leaf none ⟨.string, 23, 26⟩],
            .leaf none ⟨.punctuation .parenClose, 26, 27⟩]] := by
  obtain ⟨d, path, hd, hholds⟩ := exists_holds_string
  obtain ⟨d', hd', hroot⟩ := parse_parenthesized _ d hd path _ _ hholds _ rfl
  have hsource : (Bytes.ofText "proc p() -> () \x7breward\"s\"\x7d").splice 22 25
      (Bytes.ofText "(" ++ ((Bytes.ofText "proc p() -> () \x7breward\"s\"\x7d").slice 22 25 ++
        Bytes.ofText ")")) = Bytes.ofText "proc p() -> () \x7breward(\"s\")\x7d" := by
    decide
  exact ⟨d, d', path, _, _, hd, hholds, hsource ▸ hd', _, _, hroot⟩

end Document

end HeyVL
