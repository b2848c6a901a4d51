import HeyVL.Proofs.Expectation.Statements

/-!
Every syntax tree is read where its kind is expected, and a whole source is built from the leaves
of its tree. The induction is on the tree: a node is read because its children are.
-/

namespace HeyVL

open Production Expectation

theorem Item.mem_expressions_of_token {item : Item} {role : Option Field} {kinds : List Kind}
    {t : Token} (h : item.node? = some (role, kinds)) (hk : .token t ∈ kinds) :
    Kind.token t ∈ Kind.expressions := by
  cases item <;> cases h
  case expression => exact hk
  all_goals simp [Category.statements] at hk

namespace Tree

variable {role : Option Field} {ts : List Tree}

theorem expands_procDeclaration {w : List Label}
    (h : Expands Category.procDeclaration.production w) :
    Expands (.seq (.maybe (.field .calculus (.node .annotationCalculus)))
      (phrase (.direction :: Item.procedureRest))) w := by
  obtain ⟨_, _, hcalculus, h₁, rfl⟩ := expands_seq_iff.mp h
  obtain ⟨_, _, hdirection, h₂, rfl⟩ := expands_seq_iff.mp h₁
  obtain ⟨_, _, hname, h₃, rfl⟩ := expands_seq_iff.mp h₂
  obtain ⟨_, _, hinputs, h₄, rfl⟩ := expands_seq_iff.mp h₃
  obtain ⟨_, _, harrow, h₅, rfl⟩ := expands_seq_iff.mp h₄
  obtain ⟨_, _, houtputs, h₆, rfl⟩ := expands_seq_iff.mp h₅
  obtain ⟨_, _, hspecs, hbody, rfl⟩ := expands_seq_iff.mp h₆
  exact .seq hcalculus (.seq hdirection (.seq hname (.seq hinputs (.seq harrow (.seq houtputs
    (.seq hspecs (expands_field_maybe hbody)))))))

theorem continues_procedure {t : Token} (ht : Item.declaration.continues t = false) :
    continues (.direction :: Item.procedureRest) t = false := by
  have hall : Token.all.all (fun t => Item.declaration.continues t ||
      !continues (.direction :: Item.procedureRest) t) = true := by decide
  simpa [ht] using Token.forall_of_all hall t

theorem eq_of_expands_annotation
    (h : Expands Category.annotationCalculus.production (ts.map label)) :
    ∃ sign word, sign.token = .punctuation .atSign ∧ word.token = .identifier ∧
      ts = [leaf none sign, leaf none word] := by
  obtain ⟨us, vs, rfl, hus, hvs⟩ := split_of_expands_seq h
  obtain ⟨sign, hsign, rfl⟩ := eq_leaf_of_expands none hus
  obtain ⟨word, hword, rfl⟩ := eq_leaf_of_expands none hvs
  exact ⟨sign, word, hsign, hword, rfl⟩

theorem reads_annotated {inner : List Tree}
    (hderived : (node (some .calculus) .annotationCalculus inner).IsSyntax)
    (hread : Expectation.Reads (.direction :: Item.procedureRest) ts) :
    Expectation.Reads [.declaration]
      [node none .procDeclaration (node (some .calculus) .annotationCalculus inner :: ts)] := by
  obtain ⟨sign, word, hsign, hword, rfl⟩ : ∃ sign word : Lexeme,
      sign.token = .punctuation .atSign ∧ word.token = .identifier ∧
        inner = [leaf none sign, leaf none word] := by
    cases hderived with
    | node expands => exact eq_of_expands_annotation expands
  intro later children outer ls hls
  have hstart : Item.declaration.start sign.token = some ⟨[.enter, .enter], none,
      Item.word :: .leave (some .calculus) .annotationCalculus ::
        (.direction :: Item.procedureRest ++ [.leave none .procDeclaration])⟩ := by
    rw [hsign]
    rfl
  have hstartWord : Item.word.start word.token = some ⟨[], none, []⟩ := by
    rw [hword]
    rfl
  have hleaves : leavesOfList [node none .procDeclaration
      (node (some .calculus) .annotationCalculus [leaf none sign, leaf none word] :: ts)] =
        sign :: word :: leavesOfList ts := by
    simp [leaves, leavesOfList]
  rw [hleaves]
  refine (build?_shift hstart).trans ((build?_shift hstartWord).trans ?_)
  refine (build?_leave (some .calculus) .annotationCalculus
    [leaf none sign, leaf none word]).trans ?_
  exact hread.build?_leave none .procDeclaration
    [node (some .calculus) .annotationCalculus [leaf none sign, leaf none word]] children outer
    fun l hl => continues_procedure (by simpa [continues] using hls l hl)

theorem reads_unannotated (htrees : ∀ t ∈ ts, t.IsRead)
    (h : Expands (phrase (.direction :: Item.procedureRest)) (ts.map label)) :
    Expectation.Reads [.declaration] [node none .procDeclaration ts] := by
  obtain ⟨direction, more, rfl, hdirection, hmore⟩ := split_of_expands_inOrder h
  obtain ⟨l, hl, rfl⟩ := Item.eq_leaf_of_expands_direction hdirection
  have hread := Expectation.reads Item.procedureRest (by decide)
    (fun t ht => htrees t (by simp [ht])) hmore
  intro later children outer ls hls
  have hstart : Item.declaration.start l.token =
      some (.opening .procDeclaration none (some .direction) Item.procedureRest) := by
    rcases hl with hl | hl <;> rw [hl] <;> rfl
  have hleaves : leavesOfList [node none .procDeclaration ([leaf (some .direction) l] ++ more)] =
      l :: leavesOfList more := by
    simp [leaves, leavesOfList]
  rw [hleaves]
  refine (build?_shift hstart).trans ?_
  refine hread.build?_leave none .procDeclaration [leaf (some .direction) l] children outer
    fun x hx => ?_
  have hfollow := continues_procedure (by simpa [continues] using hls x hx)
  rw [continues, Bool.or_eq_false_iff] at hfollow
  exact hfollow.1

theorem reads_procDeclaration
    (h : Expands Category.procDeclaration.production (ts.map label))
    (htrees : ∀ t ∈ ts, t.IsRead) (hinner : ∀ t ∈ ts, t.IsSyntax) :
    Expectation.Reads [.declaration] [node none .procDeclaration ts] := by
  obtain ⟨first, rest, rfl, hfirst, hrest⟩ := split_of_expands_seq (expands_procDeclaration h)
  have hrestTrees : ∀ t ∈ rest, t.IsRead := fun t ht => htrees t (by simp [ht])
  rcases expands_choice_iff.mp hfirst with hfirst | hfirst
  · obtain ⟨inner, rfl⟩ := eq_node_of_expands (some .calculus) hfirst
    exact reads_annotated (hinner _ (by simp)) (Expectation.reads _ (by decide) hrestTrees hrest)
  · obtain rfl := List.map_eq_nil_iff.mp (expands_empty_iff.mp hfirst)
    exact reads_unannotated hrestTrees hrest

/-- What is known of the reading of a tree: it is read in its place, so are its children, and
expressions are read as operands or operations too. -/
structure Readable (t : Tree) : Prop where
  isRead : t.IsRead
  inner : ∀ u ∈ t.children, u.IsRead
  isOperation : t.kind ∈ Kind.expressions → t.IsOperation
  isOperand : t.kind ∈ Kind.expressions → t.level? = none → t.IsOperand

theorem readable_leaf (role : Option Field) (l : Lexeme) : (leaf role l).Readable where
  isRead item kinds hitem hkind := by
    have hexpression : (leaf role l).kind ∈ Kind.expressions :=
      Item.mem_expressions_of_token hitem hkind
    obtain rfl := Item.eq_expression_of_node? hitem hkind hexpression
    exact (isOperand_identifier (eq_identifier_of_mem_expressions hexpression)).isOperation.reads
  inner := by simp [children]
  isOperation h := (isOperand_identifier (eq_identifier_of_mem_expressions h)).isOperation
  isOperand h _ := isOperand_identifier (eq_identifier_of_mem_expressions h)

theorem isOperation_and_isOperand {c : Category} (hc : c ∈ Category.expressions)
    (expands : c.production.Expands (ts.map label))
    (grouped : (node role c ts).isGroupedAt = true) (inner : ∀ t ∈ ts, t.Readable) :
    (node role c ts).IsOperation ∧
      ((node role c ts).level? = none → (node role c ts).IsOperand) := by
  have htrees : ∀ t ∈ ts, t.IsRead := fun t ht => (inner t ht).isRead
  have hof (h : (node role c ts).IsOperand) : (node role c ts).IsOperation ∧
      ((node role c ts).level? = none → (node role c ts).IsOperand) :=
    ⟨h.isOperation, fun _ => h⟩
  cases hl : Layout.of? c with
  | some l =>
    by_cases hunary : c = .unaryExpression
    · subst hunary
      obtain ⟨x, operand, o, hkind, hrole, hx, rfl⟩ := eq_of_expands_unary expands
      rw [isGroupedAt_unary hkind hx, Option.isNone_iff_eq_none] at grouped
      exact hof (isOperand_unary hx hrole grouped
        ((inner operand (by simp)).isOperand hkind grouped))
    · exact hof (isOperand_of_layout hc hl hunary expands htrees)
  | none =>
    cases c <;> simp only [Layout.of?, reduceCtorEq] at hl
    case binaryExpression =>
      obtain ⟨left, x, right, o, hleft, hright, hroleLeft, hroleRight, hx, rfl⟩ :=
        eq_of_expands_binary expands
      refine ⟨isOperation_binary hx ⟨hleft, hright⟩ ⟨hroleLeft, hroleRight⟩ grouped
        ((inner left (by simp)).isOperation hleft)
        ((inner right (by simp)).isOperation hright), fun hlevel => ?_⟩
      rw [level?_binary hleft hx] at hlevel
      cases hlevel
    case callExpression => exact hof (isOperand_call expands htrees)
    all_goals exact absurd hc (by decide)

theorem isRead_of_expands {c : Category} (hc : c ∉ Category.expressions)
    (expands : c.production.Expands (ts.map label)) (hderived : ∀ t ∈ ts, t.IsSyntax)
    (inner : ∀ t ∈ ts, t.Readable) : (node role c ts).IsRead := by
  intro item kinds hitem hkind
  have htrees : ∀ t ∈ ts, t.IsRead := fun t ht => (inner t ht).isRead
  have hstatement (hmem : c ∈ Category.statements) (hblock : c ≠ .block)
      (h : IsStatement c ts) : Expectation.Reads [item] [node role c ts] := by
    obtain rfl := Item.eq_statement_of_node? hitem hkind hmem hblock
    exact h role
  cases hl : Layout.of? c with
  | some l =>
    have hunary : c ≠ .unaryExpression := by
      rintro rfl
      exact hc (by decide)
    have hkinds : Kind.category c ∉ Kind.expressions := mt Kind.mem_expressions_iff.mp hc
    intro rest children outer ls hls
    have hleaves : leavesOfList [node role c ts] = leavesOfList ts := by simp [leaves]
    rw [hleaves]
    exact build?_node hl (Item.start_of_layout hitem hkind hkinds hl)
      (Layout.isRegular_items hunary hl) htrees expands children outer fun x hx =>
        Item.continues_of_layout hitem hkind hl (by simpa [continues] using hls x hx)
  | none =>
    -- Nodes without a layout begin with another node, or share their first token with others.
    cases c <;> simp only [Layout.of?, reduceCtorEq] at hl
    case binaryExpression | callExpression => exact absurd (by decide) hc
    case sourceFile | annotationCalculus =>
      cases item <;> cases hitem
      all_goals simp [kind, Category.statements, Kind.expressions, Category.expressions] at hkind
    case procDeclaration =>
      cases item <;> cases hitem
      case declaration => exact reads_procDeclaration expands htrees hderived
      all_goals simp [kind, Category.statements, Kind.expressions, Category.expressions] at hkind
    case assignmentStatement =>
      exact hstatement (by decide) (by decide) (isStatement_assignment expands htrees)
    case callStatement =>
      obtain ⟨t, rfl, ht⟩ := eq_singleton_of_labels (expands_visible_iff.mp expands)
      obtain ⟨args, rfl⟩ := eq_node_of_label ht
      cases hderived _ (List.mem_singleton_self _) with
      | node hargs =>
        exact hstatement (by decide) (by decide)
          (isStatement_call hargs (inner _ (List.mem_singleton_self _)).inner)
    case demonicIfStatement =>
      exact hstatement (by decide) (by decide)
        (isStatement_choice rfl (by simp [Item.start, Item.startIfTail]) expands htrees)
    case angelicIfStatement =>
      exact hstatement (by decide) (by decide)
        (isStatement_choice rfl (by simp [Item.start, Item.startIfTail]) expands htrees)
    case ifStatement => exact hstatement (by decide) (by decide) (isStatement_if expands htrees)

theorem IsSyntax.readable {t : Tree} (h : t.IsSyntax) : t.Readable := by
  induction h with
  | leaf role => exact readable_leaf role _
  | @node role c ts expands grouped inner ih =>
    by_cases hc : c ∈ Category.expressions
    · obtain ⟨hoperation, hoperand⟩ := isOperation_and_isOperand hc expands grouped ih
      refine ⟨fun item kinds hitem hkind => ?_, fun u hu => (ih u hu).isRead,
        fun _ => hoperation, fun _ => hoperand⟩
      obtain rfl := Item.eq_expression_of_node? hitem hkind (Kind.mem_expressions_iff.mpr hc)
      exact hoperation.reads
    · have hkind : (Tree.node role c ts).kind ∉ Kind.expressions := mt Kind.mem_expressions_iff.mp hc
      exact ⟨isRead_of_expands hc expands inner ih, fun u hu => (ih u hu).isRead,
        fun h => absurd h hkind, fun h => absurd h hkind⟩

/-- From the leaves of a syntax tree of a source file, the children of the tree are built. -/
theorem IsSyntax.build?_source {t : Tree} (h : t.IsSyntax) (hkind : t.kind = .category .sourceFile) :
    build? .source [[]] t.leaves = some [t.children] := by
  cases h with
  | leaf => cases hkind
  | @node _ c ts expands grouped inner =>
    obtain rfl : c = .sourceFile := Kind.category.inj hkind
    have hread := Expectation.reads .source (by decide)
      (fun t ht => (inner t ht).readable.isRead) expands
    exact hread.build?_eq

end Tree

end HeyVL
