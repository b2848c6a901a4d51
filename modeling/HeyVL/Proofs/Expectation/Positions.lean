import HeyVL.Proofs.Expectation.Reserved
import HeyVL.Proofs.Expectation.Splitting

namespace HeyVL

open Production

namespace Tree

/-- The node is a call of the function that the leaf names. -/
def Calls (call : Tree) (l : Lexeme) : Prop :=
  ∃ role args, call = node role .callExpression (leaf (some .function) l :: args)

theorem Calls.mem_leaves {call : Tree} {l : Lexeme} (h : call.Calls l) : l ∈ call.leaves := by
  obtain ⟨role, args, rfl⟩ := h
  exact List.mem_cons_self

theorem Calls.withRole {call : Tree} {l : Lexeme} (h : call.Calls l) (role : Option Field) :
    (call.withRole role).Calls l := by
  obtain ⟨-, args, rfl⟩ := h
  exact ⟨role, args, rfl⟩

/-- The leaf is in expression position. -/
inductive InExpression (root : Tree) (l : Lexeme) : Prop
  /-- It is an expression itself: the node around it could have a literal in its place. -/
  | alone {role r : Option Field} {c : Category} {before after : List Tree}
      (mem : node role c (before ++ leaf r l :: after) ∈ root.subtrees)
      (expands : c.production.Expands
        (before.map label ++ (r, .category .literal) :: after.map label))
  /-- It is the function of a call that is not directly a statement. -/
  | call {parent call : Tree} (mem : parent ∈ root.subtrees) (child : call ∈ parent.children)
      (calls : call.Calls l) (ne : parent.kind ≠ .category .callStatement)

/-- The leaf starts a statement. -/
inductive StartsStatement (root : Tree) (l : Lexeme) : Prop
  /-- It is the first target of an assignment. -/
  | assignment {role r : Option Field} {rest : List Tree}
      (mem : node role .assignmentStatement (leaf r l :: rest) ∈ root.subtrees)
  /-- It is the function of a call that is a statement. -/
  | call {parent call : Tree} (mem : parent ∈ root.subtrees) (child : call ∈ parent.children)
      (calls : call.Calls l) (eq : parent.kind = .category .callStatement)

end Tree

open HeyVL.Tree

namespace Expectation

variable {rest : Expectation} {b : Builder} {l p : Lexeme} {x : Tree} {ts : List Tree}
  {us vs ys : List Lexeme} {role : Option Field} {t : Token}

theorem exists_call (hvs : ∀ l ∈ vs, l.token ≠ .comment)
    (h : build? (.series (.expression none) :: .mark .parenClose ::
      .leave role .callExpression :: rest)
        ([leaf (some .function) l, leaf none p] :: b) vs = some [ts]) :
    ∃ call : Tree, call.Calls l ∧ call.role = role ∧
      ∃ xs ys, vs = xs ++ ys ∧ build? rest (b.add call) ys = some [ts] := by
  have hregular : isRegular [.series (.expression none), .mark .parenClose] = true := by decide
  obtain ⟨args, xs, ys, rfl, hargs⟩ := exists_trees hregular rfl hvs h
  rw [build?_leave] at hargs
  exact ⟨_, ⟨role, _, rfl⟩, rfl, xs, ys, rfl, hargs⟩

/-- What is read of the leaves of a syntax tree up to one of them. -/
structure ReadsUpTo (ts : List Tree) (us : List Lexeme) (l : Lexeme) (vs : List Lexeme)
    (todo : Expectation) (b : Builder) : Prop where
  isSyntax : (Tree.node none .sourceFile ts).IsSyntax
  leaves_eq : leavesOfList ts = us ++ l :: vs
  nodup : (us ++ l :: vs).Nodup
  after : source.after? (us.map Lexeme.token) = some todo
  build_eq : ∀ ls, build? .source [[]] (us ++ ls) = build? todo b ls
  ne_nil : b ≠ []
  graft_eq : ∀ u, Builder.graft l u b = b

theorem exists_readsUpTo (hts : (Tree.node none .sourceFile ts).IsSyntax)
    (hleaves : leavesOfList ts = us ++ l :: vs) (hnodup : (us ++ l :: vs).Nodup) :
    ∃ todo b, ReadsUpTo ts us l vs todo b := by
  have hderivable : Grammar.Derivable (us.map Lexeme.token ++ (l :: vs).map Lexeme.token) := by
    rw [← List.map_append, ← accepts_source_iff, ← isSome_build? .source [[]],
      build?_source_iff.mpr ⟨hts, hleaves⟩]
    rfl
  obtain ⟨todo, htodo, -⟩ := exists_after?_of_derivable hderivable
  obtain ⟨b, hsplit, hne, hgraft⟩ := exists_builder htodo [[]]
  have hl : l ∉ us := fun h => (List.nodup_append.mp hnodup).2.2 l h l (by simp) rfl
  exact ⟨todo, b, hts, hleaves, hnodup, htodo, hsplit, hne (List.cons_ne_nil _ _),
    fun u => hgraft l u hl rfl⟩

namespace ReadsUpTo

variable {todo : Expectation} {m literal : Move} {before : List Action}

theorem notMem (h : ReadsUpTo ts us l vs todo b) : l ∉ vs :=
  (List.nodup_cons.mp (List.nodup_append.mp h.nodup).2.1).1

theorem ne_comment (h : ReadsUpTo ts us l vs todo b) : ∀ k ∈ vs, k.token ≠ .comment := by
  intro k hk
  have hmem : k ∈ (Tree.node none .sourceFile ts).leaves := by
    rw [leaves, h.leaves_eq]
    simp [hk]
  obtain ⟨role, hleaf⟩ := mem_leaves_iff.mp hmem
  cases h.isSyntax.of_mem_subtrees hleaf with
  | leaf _ hk => exact hk

theorem build?_eq (h : ReadsUpTo ts us l vs todo b) (hm : todo.advance l.token = some m) :
    build? m.after (place b m l) vs = some [ts] := by
  have hbuild := build?_source_iff.mpr ⟨h.isSyntax, h.leaves_eq⟩
  rwa [h.build_eq, build?, hm, Option.bind_some] at hbuild

theorem exists_slot (h : ReadsUpTo ts us l vs todo b) (hys : ys <:+ vs) (hx : l ∈ x.leaves)
    (hbuild : build? rest ((before.foldl Builder.act b).add x) ys = some [ts]) :
    ∃ (role : Option Field) (c : Category) (r : Option Field) (first last : List Tree),
      .node role c (first ++ x.withRole r :: last) ∈ (Tree.node none .sourceFile ts).subtrees ∧
      ∀ (u : Tree) (us : List Tree), u.role = x.role →
        build? rest ((before.foldl Builder.act b).add u) ys = some [us] →
        (Tree.node none .sourceFile us).IsSyntax →
          c.production.Expands (first.map label ++ (r, u.kind) :: last.map label) := by
  have hb (u : Tree) : Builder.graft l u (before.foldl Builder.act b) = before.foldl Builder.act b := by
    rw [Builder.foldl_act_graft, h.graft_eq]
  obtain ⟨ts₀, hgrafted⟩ := exists_grafted hb (fun hl => h.notMem (hys.subset hl)) rfl hbuild
  obtain rfl : ts = ts₀.map (graft l x) := by simpa [hbuild] using hgrafted x rfl
  have hnodup := h.nodup
  rw [← h.leaves_eq] at hnodup
  obtain ⟨role, c, r, v, w, hslot⟩ := Tree.exists_slot hnodup (by simp [h.leaves_eq]) hx
  obtain ⟨first, last, hmem, rfl, rfl⟩ := hslot x
  refine ⟨role, c, r, first, last, hmem, fun u us hu hus htree => ?_⟩
  obtain rfl : us = ts₀.map (graft l u) := by simpa [hus] using hgrafted u hu
  obtain ⟨first', last', hmem', hv, hw⟩ := hslot u
  cases htree.of_mem_subtrees hmem' with
  | node expands =>
    have hlabel : (u.withRole r).label = (r, u.kind) := by cases u <;> rfl
    rwa [List.map_append, List.map_cons, hv, hw, hlabel] at expands

/-- A literal may be in the place of an expression that begins with the identifier. -/
theorem exists_literal_slot (h : ReadsUpTo ts us l vs todo b) (hys : ys <:+ vs) (hx : l ∈ x.leaves)
    (hliteral : todo.advance .boolean =
      some ⟨before ++ [.enter], none, .leave x.role .literal :: rest⟩)
    (hbuild : build? rest ((before.foldl Builder.act b).add x) ys = some [ts]) :
    ∃ (role : Option Field) (c : Category) (r : Option Field) (first last : List Tree),
      .node role c (first ++ x.withRole r :: last) ∈ (Tree.node none .sourceFile ts).subtrees ∧
      c.production.Expands (first.map label ++ (r, .category .literal) :: last.map label) := by
  obtain ⟨role, c, r, first, last, hmem, hslot⟩ := h.exists_slot hys hx hbuild
  refine ⟨role, c, r, first, last, hmem, ?_⟩
  have hread : build? .source [[]] (us ++ ⟨.boolean, 0, 0⟩ :: ys) =
      build? rest ((before.foldl Builder.act b).add
        (.node x.role .literal [leaf none ⟨.boolean, 0, 0⟩])) ys := by
    rw [h.build_eq, build?, hliteral, Option.bind_some, place, List.foldl_append]
    exact build?_leave _ _ _
  have haccepts : source.accepts ((us ++ ⟨.boolean, 0, 0⟩ :: ys).map Lexeme.token) = true := by
    rw [← isSome_build? .source [[]], hread, isSome_build?, ← isSome_build? rest, hbuild]
    rfl
  obtain ⟨us', htree, hleaves⟩ := exists_isSyntax (accepts_source_iff.mp haccepts)
  refine hslot (.node x.role .literal [leaf none ⟨.boolean, 0, 0⟩]) us' rfl ?_ htree
  rw [← hread]
  exact build?_source_iff.mpr ⟨htree, hleaves⟩

theorem inExpression (h : ReadsUpTo ts us l vs todo b) (hm : todo.advance l.token = some m)
    (hliteral : todo.advance .boolean = some literal) (hname : m.IsName literal) :
    (Tree.node none .sourceFile ts).InExpression l := by
  have hbuild := h.build?_eq hm
  obtain ⟨before, role, rest, rfl, rfl⟩ := hname
  have hcomment := h.ne_comment
  cases hstart : vs.head?.bind fun p => (Item.callTail role).start p.token with
  | none =>
    -- The identifier is an expression itself.
    rw [Option.bind_eq_none_iff] at hstart
    rw [build?_skip rfl hstart] at hbuild
    obtain ⟨_, c, r, first, last, hmem, hexpands⟩ :=
      h.exists_literal_slot (x := leaf role l) List.suffix_rfl (List.mem_singleton_self l)
        hliteral hbuild
    exact .alone hmem hexpands
  | some m =>
    obtain ⟨p, hp, hm⟩ := Option.bind_eq_some_iff.mp hstart
    obtain ⟨vs, rfl⟩ := List.head?_eq_some_iff.mp hp
    rw [build?_shift hm] at hbuild
    rw [Item.start, Option.ite_none_right_eq_some] at hm
    obtain ⟨-, hm⟩ := hm
    cases hm
    have hplace : place (place b ⟨before, role, .callTail role :: rest⟩ l)
        ⟨[.adopt (some .function)], none, [.series (.expression none), .mark .parenClose,
          .leave role .callExpression]⟩ p =
        [leaf (some .function) l, leaf none p] :: before.foldl Builder.act b := by
      obtain ⟨children, outer, hb⟩ :=
        List.exists_cons_of_ne_nil (Builder.foldl_act_ne_nil h.ne_nil before)
      simp [place, hb, Builder.act, Builder.add, withRole]
    rw [hplace] at hbuild
    obtain ⟨call, hcalls, rfl, xs, ys, rfl, hcall⟩ :=
      exists_call (fun k hk => hcomment k (by simp [hk])) hbuild
    obtain ⟨_, c, r, first, last, hmem, hexpands⟩ :=
      h.exists_literal_slot ⟨p :: xs, rfl⟩ hcalls.mem_leaves hliteral hcall
    refine .call hmem (by simp [children]) (hcalls.withRole r) ?_
    -- The only child of a call statement is a call.
    intro hc
    obtain rfl := Kind.category.inj hc
    obtain ⟨k, hk, hlabels⟩ := expands_node_iff.mp hexpands
    have hlabel : (r, Kind.category .literal) ∈ [(none, k)] := by simp [← hlabels]
    obtain rfl := List.mem_singleton.mp hk
    simp at hlabel

theorem exists_mem_subtrees (h : ReadsUpTo ts us l vs todo b) (hys : ys <:+ vs) (hx : l ∈ x.leaves)
    (hbuild : build? rest ((before.foldl Builder.act b).add x) ys = some [ts]) :
    ∃ r, x.withRole r ∈ (Tree.node none .sourceFile ts).subtrees := by
  obtain ⟨_, _, r, first, last, hmem, -⟩ := h.exists_slot hys hx hbuild
  exact ⟨r, mem_subtrees_trans hmem (mem_subtrees_of_mem (by simp [children]))⟩

theorem startsStatement_of_assignment (h : ReadsUpTo ts us l (p :: vs) todo b) (items : Expectation)
    (hregular : isRegular items = true) (hplain : (phrase items).isPlain = true)
    (hbuild : build? (items ++ .leave role .assignmentStatement :: rest)
      ([leaf none l, leaf none p] :: before.foldl Builder.act b) vs = some [ts]) :
    (Tree.node none .sourceFile ts).StartsStatement l := by
  obtain ⟨targets, xs, ys, rfl, hrest⟩ :=
    exists_trees hregular hplain (fun k hk => h.ne_comment k (by simp [hk])) hbuild
  rw [build?_leave] at hrest
  obtain ⟨r, hmem⟩ := h.exists_mem_subtrees ⟨p :: xs, rfl⟩ (List.mem_cons_self) hrest
  exact .assignment hmem

theorem startsStatement (h : ReadsUpTo ts us l vs todo b) (hm : todo.advance l.token = some m)
    (hname : m.IsStatementName) : (Tree.node none .sourceFile ts).StartsStatement l := by
  have hbuild := h.build?_eq hm
  obtain ⟨before, role, rest, rfl⟩ := hname
  obtain ⟨children, outer, hb⟩ :=
    List.exists_cons_of_ne_nil (Builder.foldl_act_ne_nil h.ne_nil before)
  cases vs with
  | nil => cases hbuild
  | cons p vs =>
    cases hm' : (Item.nameTail role).start p.token with
    | none =>
      rw [build?, advance, hm'] at hbuild
      cases hbuild
    | some m' =>
      rw [build?_shift hm'] at hbuild
      rw [Item.start, Item.startNameTail.eq_def] at hm'
      split at hm' <;> cases hm'
      · have hplace (items : Expectation) : place (place b ⟨before, none, .nameTail role :: rest⟩ l)
            ⟨[.adopt none, .adopt (some .function)], none, items⟩ p =
            [leaf (some .function) l, leaf none p] :: [] :: before.foldl Builder.act b := by
          simp [place, hb, Builder.act, Builder.add, withRole]
        rw [hplace] at hbuild
        obtain ⟨call, hcalls, -, xs, ys, rfl, hcall⟩ :=
          exists_call (fun k hk => h.ne_comment k (by simp [hk])) hbuild
        have hstatement : build? rest ((before.foldl Builder.act b).add
            (.node role .callStatement [call])) ys = some [ts] :=
          (build?_leave role .callStatement [call]).symm.trans hcall
        obtain ⟨r, hmem⟩ := h.exists_mem_subtrees ⟨p :: xs, rfl⟩
          (by simpa [leaves, leavesOfList] using hcalls.mem_leaves) hstatement
        exact .call hmem (List.mem_singleton_self call) hcalls rfl
      all_goals
        have hplace (items : Expectation) : place (place b ⟨before, none, .nameTail role :: rest⟩ l)
            ⟨[.adopt none], none, items⟩ p =
            [leaf none l, leaf none p] :: before.foldl Builder.act b := by
          simp [place, hb, Builder.act, Builder.add, withRole]
        rw [hplace] at hbuild
      · exact h.startsStatement_of_assignment
          [.word, .more none .word, .mark .assign, .expression none] (by decide) rfl hbuild
      · exact h.startsStatement_of_assignment [.expression none] (by decide) rfl hbuild

/-- A reserved word that is viable in the place of an identifier is one of expressions, and the
identifier is in expression position, or one of statements, and the identifier starts a statement. -/
theorem position_of_viable (h : ReadsUpTo ts us l vs todo b) (hl : l.token = .identifier)
    (hreserved : t.isReserved = true) (ht : Grammar.Viable (us.map Lexeme.token) t) :
    (t.isExpressionWord = true ∧ (Tree.node none .sourceFile ts).InExpression l) ∨
      t.isStatementWord = true ∧ (Tree.node none .sourceFile ts).StartsStatement l := by
  have hbuild := build?_source_iff.mpr ⟨h.isSyntax, h.leaves_eq⟩
  rw [h.build_eq, build?] at hbuild
  obtain ⟨m, hm, -⟩ := Option.bind_eq_some_iff.mp hbuild
  have hidentifier := hm
  rw [hl] at hidentifier
  obtain ⟨hword, literal, hliteral, hname⟩ | ⟨hword, hname⟩ :=
    word_of_expects h.after hidentifier hreserved ((expects_iff_viable h.after).mpr ht)
  · exact .inl ⟨hword, h.inExpression hm hliteral hname⟩
  · exact .inr ⟨hword, h.startsStatement hm hname⟩

end ReadsUpTo

end Expectation

end HeyVL
