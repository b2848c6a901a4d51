import HeyVL.Proofs.Expectation.Operands

namespace HeyVL

open Production Expectation

/-- Whether an item that is complete could take whatever the nodes of the kinds could. -/
def Item.covers (item : Item) (kinds : List Kind) : Bool :=
  Token.all.all fun t => item.continues t || kinds.all fun
    | .category c => (Layout.of? c).all fun l => !Expectation.continues l.items t
    | .token _ => true

theorem Layout.isRegular_items {c : Category} {l : Layout} (hc : c ≠ .unaryExpression)
    (hl : Layout.of? c = some l) : Expectation.isRegular l.items = true := by
  cases c <;> cases hl
  case unaryExpression => exact absurd rfl hc
  all_goals decide

namespace Item

variable {item : Item} {role : Option Field} {kinds : List Kind}

theorem eq_expression_of_node? (h : item.node? = some (role, kinds)) {k : Kind}
    (hk : k ∈ kinds) (hexpression : k ∈ Kind.expressions) : item = .expression role := by
  cases item <;> cases h
  case expression => rfl
  all_goals
    refine absurd hexpression ((?_ : ∀ x ∈ _, x ∉ Kind.expressions) k hk)
    decide

theorem eq_statement_of_node? (h : item.node? = some (role, kinds)) {c : Category}
    (hc : .category c ∈ kinds) (hstatement : c ∈ Category.statements) (hblock : c ≠ .block) :
    item = .statement role := by
  cases item <;> cases h
  case statement => rfl
  all_goals
    refine absurd ((?_ : ∀ x ∈ Category.statements, Kind.category x ∈ _ → x = .block) c
      hstatement hc) hblock
    decide

theorem covers_kinds (h : item.node? = some (role, kinds)) : item.covers kinds = true := by
  cases item <;> cases h
  case parameters =>
    change (Item.parameters none).covers _ = true
    decide
  case type =>
    change (Item.type none).covers _ = true
    decide
  case block =>
    change (Item.block none).covers _ = true
    decide
  case statement =>
    change (Item.statement none).covers _ = true
    decide
  case expression =>
    change (Item.expression none).covers _ = true
    decide
  all_goals decide

theorem continues_of_layout (h : item.node? = some (role, kinds)) {c : Category} {l : Layout}
    (hc : .category c ∈ kinds) (hl : Layout.of? c = some l) {t : Token}
    (ht : item.continues t = false) : Expectation.continues l.items t = false := by
  have hcovers := Token.forall_of_all (covers_kinds h) t
  rw [ht, Bool.false_or, List.all_eq_true] at hcovers
  simpa [hl] using hcovers _ hc

theorem start_of_layout (h : item.node? = some (role, kinds)) {c : Category} {l : Layout}
    (hc : .category c ∈ kinds) (hexpression : Kind.category c ∉ Kind.expressions)
    (hl : Layout.of? c = some l) :
    ∀ t ∈ l.tokens, item.start t = some (.opening c role l.role l.items) := by
  intro t ht
  cases item <;> cases h
  case expression => exact absurd hc hexpression
  case statement =>
    cases c <;> cases hl <;> first
      | exact absurd hc (by decide)
      | rcases List.mem_cons.mp ht with rfl | ht
        · rfl
        · obtain rfl := List.mem_singleton.mp ht
          rfl
      | obtain rfl := List.mem_singleton.mp ht
        rfl
  all_goals
    simp only [List.mem_cons, List.not_mem_nil, or_false, Kind.category.injEq] at hc
    rcases hc with rfl | rfl <;> cases hl <;> obtain rfl := List.mem_singleton.mp ht <;> rfl

theorem start_ifTail {t : Token} {m : Move}
    (h : (Item.expression (some .condition)).start t = some m) :
    (Item.ifTail role).start t =
      some (m.followedBy (branches ++ [.leave role .ifStatement])) := by
  have hstart : startExpression (some .condition) t = some m := h
  change startIfTail role t = _
  unfold startIfTail
  split
  case h_5 => simp [hstart]
  all_goals cases hstart

end Item

namespace Tree

variable {role : Option Field} {ts : List Tree}

/-- The statement is read where a statement is expected. -/
def IsStatement (c : Category) (ts : List Tree) : Prop :=
  ∀ role, Expectation.Reads [.statement role] [node role c ts]

theorem isStatement_call {args : List Tree}
    (h : Expands Category.callExpression.production (args.map label))
    (htrees : ∀ t ∈ args, t.IsRead) :
    IsStatement .callStatement [node none .callExpression args] := by
  intro role rest children outer ls hls
  obtain ⟨l, p, args, hl, hp, hargs, rfl⟩ := eq_of_expands_call h
  have hread := reads_arguments (fun t ht => htrees t (by simp [ht])) hargs
  have hstart : (Item.statement role).start l.token = some ⟨[], none, [.nameTail role]⟩ := by
    rw [hl]
    rfl
  have htail : (Item.nameTail role).start p.token = some ⟨[.adopt none, .adopt (some .function)],
      none, [.series (.expression none), .mark .parenClose, .leave none .callExpression,
        .leave role .callStatement]⟩ := by
    rw [hp]
    rfl
  have hplace : place (place (children :: outer) ⟨[], none, []⟩ l)
      ⟨[.adopt none, .adopt (some .function)], none, []⟩ p =
        [leaf (some .function) l, leaf none p] :: [] :: children :: outer := by
    simp [place, Builder.act, Builder.add, withRole]
  have hleaves : leavesOfList [node role .callStatement
      [node none .callExpression (leaf (some .function) l :: leaf none p :: args)]] =
        l :: p :: leavesOfList args := by
    simp [leaves, leavesOfList]
  rw [hleaves]
  refine (build?_shift hstart).trans ((build?_shift htail).trans ?_)
  refine (congrArg (fun b => build? _ b _) hplace).trans ?_
  refine (hread.build?_leave none .callExpression _ [] (children :: outer)
    fun _ _ => rfl).trans ?_
  exact build?_leave _ _ _

theorem isStatement_of_nameTail {c : Category} {l p : Lexeme} {items : List Item}
    (hl : l.token = .identifier)
    (htail : ∀ role, (Item.nameTail role).start p.token =
      some ⟨[.adopt none], none, items ++ [.leave role c]⟩)
    (hread : Expectation.Reads items ts)
    (hcontinues : ∀ t, (Item.statement none).continues t = false → continues items t = false) :
    IsStatement c (leaf none l :: leaf none p :: ts) := by
  intro role rest children outer ls hls
  have hstart : (Item.statement role).start l.token = some ⟨[], none, [.nameTail role]⟩ := by
    rw [hl]
    rfl
  have hplace : place (place (children :: outer) ⟨[], none, [.nameTail role]⟩ l)
      ⟨[.adopt none], none, items ++ [.leave role c]⟩ p =
        [leaf none l, leaf none p] :: children :: outer := by
    simp [place, Builder.act, Builder.add, withRole]
  have hfollow : ∀ x ∈ ls.head?, continues items x.token = false := fun x hx =>
    hcontinues x.token (by simpa [continues, Item.continues] using hls x hx)
  have hleaves : leavesOfList [node role c (leaf none l :: leaf none p :: ts)] =
      l :: p :: leavesOfList ts := by
    simp [leaves, leavesOfList]
  rw [hleaves]
  refine (build?_shift hstart).trans ((build?_shift (htail role)).trans ?_)
  rw [hplace]
  exact hread.build?_leave role c [leaf none l, leaf none p] children outer hfollow

theorem isStatement_assignment
    (h : Expands Category.assignmentStatement.production (ts.map label))
    (htrees : ∀ t ∈ ts, t.IsRead) : IsStatement .assignmentStatement ts := by
  obtain ⟨names, rest, rfl, hnames, hrest⟩ := split_of_expands_inOrder h
  obtain ⟨first, more, rfl, hfirst, hmore⟩ := split_of_expands_seq hnames
  obtain ⟨l, hl, rfl⟩ := eq_leaf_of_expands none hfirst
  rcases split_of_expands_many_cons hmore with rfl | ⟨second, others, rfl, hsecond, hothers⟩
  · obtain ⟨sign, value, rfl, hsign, hvalue⟩ := split_of_expands_inOrder hrest
    obtain ⟨p, hp, rfl⟩ := eq_leaf_of_expands none hsign
    have hread := Expectation.reads [.expression none] (by decide)
      (fun t ht => htrees t (by simp [ht])) hvalue
    refine isStatement_of_nameTail hl (fun role => by rw [hp]; rfl) hread fun t ht => ?_
    simp only [Item.continues, Bool.or_eq_false_iff] at ht
    simp [continues, Item.continues, ht]
  · obtain ⟨comma, word, rfl, hcomma, hword⟩ := split_of_expands_seq hsecond
    obtain ⟨p, hp, rfl⟩ := eq_leaf_of_expands none hcomma
    have hexpands : Expands (phrase [Item.word, .more none Item.word, .mark .assign,
        .expression none]) ((word ++ (others ++ rest)).map label) := by
      rw [List.map_append, List.map_append]
      exact .seq hword (.seq hothers hrest)
    have hread := Expectation.reads [Item.word, .more none Item.word, .mark .assign,
      .expression none] (by decide) (fun t ht => htrees t (by
        simp only [List.mem_append] at ht ⊢
        rcases ht with ht | ht | ht <;> simp [ht])) hexpands
    have hstatement : IsStatement .assignmentStatement
        (leaf none l :: leaf none p :: (word ++ (others ++ rest))) := by
      refine isStatement_of_nameTail hl (fun role => by rw [hp]; rfl) hread fun t ht => ?_
      simp only [Item.continues, Bool.or_eq_false_iff] at ht
      simp [continues, Item.continues, Item.optional, Item.mark, ht]
    simpa using hstatement

theorem isStatement_of_ifTail {c : Category} {l : Lexeme} (hl : l.token = .keyword .kwIf)
    (h : ∀ (role : Option Field) (rest : Expectation) (children : List Tree) (outer : Builder)
      (ls : List Lexeme), build? (.ifTail role :: rest) ([leaf none l] :: children :: outer)
          (leavesOfList ts ++ ls) =
        build? rest ((children ++ [node role c (leaf none l :: ts)]) :: outer) ls) :
    IsStatement c (leaf none l :: ts) := by
  intro role rest children outer ls _
  have hstart : (Item.statement role).start l.token =
      some ⟨[.enter], none, [.ifTail role]⟩ := by
    rw [hl]
    rfl
  have hleaves : leavesOfList [node role c (leaf none l :: ts)] = l :: leavesOfList ts := by
    simp [leaves, leavesOfList]
  rw [hleaves]
  exact (build?_shift hstart).trans (h role rest children outer ls)

theorem reads_branches (htrees : ∀ t ∈ ts, t.IsRead)
    (h : Expands (phrase Item.branches) (ts.map label)) :
    Expectation.Reads Item.branches ts :=
  Expectation.reads _ (by decide) htrees h

theorem isStatement_choice {c : Category} {o₁ o₂ : BinaryOperator}
    (hproduction : c.production = inOrder (kw .kwIf :: choice (operator o₁) (operator o₂) ::
      Item.branches.map Item.phrase))
    (hstart : ∀ o ∈ [o₁, o₂], ∀ role, (Item.ifTail role).start (.binary o) =
      some ⟨[], none, Item.branches ++ [.leave role c]⟩)
    (h : Expands c.production (ts.map label)) (htrees : ∀ t ∈ ts, t.IsRead) :
    IsStatement c ts := by
  rw [hproduction] at h
  obtain ⟨word, behind, rfl, hword, hbehind⟩ := split_of_expands_inOrder h
  obtain ⟨sign, rest, rfl, hsign, hrest⟩ := split_of_expands_inOrder hbehind
  obtain ⟨l, hl, rfl⟩ := eq_leaf_of_expands none hword
  have hoperator : ∃ o ∈ [o₁, o₂], ∃ p : Lexeme, p.token = .binary o ∧ sign = [leaf none p] := by
    rcases expands_choice_iff.mp hsign with h | h
    · obtain ⟨p, hp, rfl⟩ := eq_leaf_of_expands none h
      exact ⟨o₁, by simp, p, hp, rfl⟩
    · obtain ⟨p, hp, rfl⟩ := eq_leaf_of_expands none h
      exact ⟨o₂, by simp, p, hp, rfl⟩
  obtain ⟨o, ho, p, hp, rfl⟩ := hoperator
  have hread := reads_branches (fun t ht => htrees t (by simp [ht])) hrest
  refine isStatement_of_ifTail hl fun role later children outer ls => ?_
  have htail := hstart o ho role
  rw [← hp] at htail
  refine (build?_shift htail).trans ?_
  exact hread.build?_leave role c [leaf none l, leaf none p] children outer fun _ _ => rfl

theorem isStatement_if (h : Expands Category.ifStatement.production (ts.map label))
    (htrees : ∀ t ∈ ts, t.IsRead) : IsStatement .ifStatement ts := by
  obtain ⟨word, rest, rfl, hword, hrest⟩ := split_of_expands_inOrder h
  obtain ⟨l, hl, rfl⟩ := eq_leaf_of_expands none hword
  have htrees' : ∀ t ∈ rest, t.IsRead := fun t ht => htrees t (by simp [ht])
  have hread := Expectation.reads (.expression (some .condition) :: Item.branches) (by decide)
    htrees' hrest
  obtain ⟨condition, blocks, rfl, hcondition, -⟩ := split_of_expands_inOrder hrest
  have hfirst := Tree.IsRead.reads (.expression (some .condition)) rfl
    (fun t ht => htrees' t (by simp [ht])) hcondition
  obtain ⟨x, xs, m, hx, hm⟩ := hfirst.exists_start rfl
  change IsStatement .ifStatement (leaf none l :: (condition ++ blocks))
  refine isStatement_of_ifTail hl fun role later children outer ls => ?_
  have hleave : build? ((.expression (some .condition) :: Item.branches) ++
      .leave role .ifStatement :: later) ([leaf none l] :: children :: outer)
        (leavesOfList (condition ++ blocks) ++ ls) = _ :=
    hread.build?_leave role .ifStatement [leaf none l] children outer fun _ _ => rfl
  rw [leavesOfList_append, hx] at hleave ⊢
  refine (build?_unfold hm (Item.start_ifTail hm)).trans (Eq.trans ?_ hleave)
  simp

end Tree

end HeyVL
