import HeyVL.Proofs.Expectation.Phrase

/-!
Reading tokens is sound: what an expectation reads is generated by its phrases. A token that an
item begins with and a text of what is expected behind it make a text of the item.
-/

namespace HeyVL

open Production

namespace Layout

variable {c : Category} {l : Layout} {t : Token} {w : List Token}

theorem generates_head (ht : t ∈ l.tokens) : Generates l.head [t] := by
  have h : Generates (.oneOf (.token l.token) (l.others.map .token)) [t] := by
    rw [generates_oneOf_iff]
    exact ⟨.token t, by simpa [tokens] using ht, .token t⟩
  simpa [head] using h

theorem generates_production (hl : of? c = some l) (h : Generates l.production w) :
    Generates c.production w := by
  cases c <;> simp only [of?, Option.some.injEq, reduceCtorEq] at hl <;> subst hl
  case quantifierExpression =>
    -- the field of the variables is on each variable and comma here, and on their list there
    obtain ⟨q, _, hq, hbehind, rfl⟩ := generates_inOrder_cons_iff.mp h
    obtain ⟨v, _, hv, hmore, rfl⟩ := generates_inOrder_cons_iff.mp hbehind
    obtain ⟨m, rest, hm, hrest, rfl⟩ := generates_inOrder_cons_iff.mp hmore
    have hm' : Generates (.many (.seq (.mark .comma) (.node .quantifierVariable))) m := by
      obtain ⟨parts, hparts, rfl⟩ := generates_many_iff.mp hm
      refine generates_many_iff.mpr ⟨parts, fun u hu => ?_, rfl⟩
      obtain ⟨x, y, hx, hy, rfl⟩ := generates_seq_iff.mp (hparts u hu)
      exact .seq (generates_field_iff.mp hx) (generates_field_iff.mp hy)
    rw [← List.append_assoc v]
    exact .prec (.seq hq (.seq (.field (.seq (generates_field_iff.mp hv) hm')) hrest))
  case unaryExpression => exact .prec h
  case iversonExpression => exact .prec h
  all_goals exact h

theorem generates_node {role : Option Field} (hl : of? c = some l) (ht : t ∈ l.tokens)
    (h : Generates (Expectation.phrase (l.items ++ [.leave role c])) w) :
    Generates (.symbol (.visible c)) (t :: w) := by
  rw [Expectation.phrase, List.map_append, generates_inOrder_append_iff] at h
  obtain ⟨u, v, hu, hv, rfl⟩ := h
  obtain rfl : v = [] := generates_empty_iff.mp hv
  refine .symbol (generates_production hl ?_)
  rw [production, generates_inOrder_cons_iff]
  exact ⟨[t], u, generates_head ht, hu, by simp⟩

end Layout

namespace Expectation

theorem generates_phrase_cons_iff {item : Item} {todo : Expectation} {w : List Token} :
    Generates (phrase (item :: todo)) w ↔
      ∃ u v, Generates item.phrase u ∧ Generates (phrase todo) v ∧ u ++ v = w :=
  generates_inOrder_cons_iff

theorem generates_phrase_append_iff {xs ys : Expectation} {w : List Token} :
    Generates (phrase (xs ++ ys)) w ↔
      ∃ u v, Generates (phrase xs) u ∧ Generates (phrase ys) v ∧ u ++ v = w := by
  rw [phrase, List.map_append]
  exact generates_inOrder_append_iff

theorem generates_phrase_leave_iff {xs : Expectation} {role : Option Field} {c : Category}
    {w : List Token} :
    Generates (phrase (xs ++ [.leave role c])) w ↔ Generates (phrase xs) w := by
  rw [generates_phrase_append_iff]
  constructor
  · rintro ⟨u, v, hu, hv, rfl⟩
    obtain rfl : v = [] := generates_empty_iff.mp hv
    simpa using hu
  · intro h
    exact ⟨w, [], h, .empty, by simp⟩

end Expectation

open Expectation (generates_phrase_cons_iff generates_phrase_append_iff
  generates_phrase_leave_iff)

theorem generates_expression_node {c : Category} {w : List Token} (hc : c ∈ Category.expressions)
    (h : Generates (.node c) w) : Generates .expression w := by
  refine .symbol ?_
  rw [Nonterminal.production, Hidden.production, generates_oneOf_iff]
  have hmem : node c ∈ Category.expressions.map node ++ [word] :=
    List.mem_append_left _ (List.mem_map_of_mem hc)
  exact ⟨.node c, hmem, h⟩

theorem generates_statement_node {c : Category} {w : List Token} (hc : c ∈ Category.statements)
    (h : Generates (.node c) w) : Generates .statement w := by
  refine .symbol ?_
  rw [Nonterminal.production, Hidden.production, generates_oneOf_iff]
  have hmem : node c ∈ Category.statements.map node := List.mem_map_of_mem hc
  exact ⟨.node c, hmem, h⟩

theorem generates_expression_binary {o : BinaryOperator} {u v : List Token}
    (hu : Generates .expression u) (hv : Generates .expression v) :
    Generates .expression (u ++ .binary o :: v) := by
  obtain ⟨n, first, others, hlevel, ho⟩ := exists_binaryLevel o
  have hop : Generates (oneOf (operator first) (others.map operator)) [.binary o] := by
    rw [generates_oneOf_iff, ← List.map_cons]
    exact ⟨_, List.mem_map_of_mem ho, .token _⟩
  have hall : Generates (binaryLevel n first others) (u ++ .binary o :: v) :=
    .prec (.seq hu (.seq (u := [.binary o]) hop hv))
  refine generates_expression_node (c := .binaryExpression) (by decide) (.symbol ?_)
  exact generates_oneOf_iff.mpr ⟨_, hlevel, hall⟩

theorem generates_of_opens {cs : List Category} {role : Option Field} {t : Token} {m : Move}
    {w : List Token} (hm : m.Opens cs role t) (h : Generates (Expectation.phrase m.after) w) :
    ∃ c ∈ cs, Generates (.node c) (t :: w) := by
  obtain ⟨c, hc, l, hl, ht, rfl⟩ := hm
  exact ⟨c, hc, Layout.generates_node hl ht h⟩

theorem generates_expression_operators {u v : List Token} (hu : Generates .expression u)
    (hv : Generates (.many (.seq .anyOperator .expression)) v) :
    Generates .expression (u ++ v) := by
  obtain ⟨parts, hparts, rfl⟩ := generates_many_iff.mp hv
  clear hv
  induction parts generalizing u with
  | nil => simpa using hu
  | cons x parts ih =>
    obtain ⟨o, y, ho, hy, rfl⟩ := generates_seq_iff.mp (hparts x (by simp))
    obtain ⟨p, hp, hop⟩ := generates_oneOf_iff.mp ho
    rw [← List.map_cons] at hp
    obtain ⟨op, -, rfl⟩ := List.mem_map.mp hp
    obtain rfl := generates_token_iff.mp hop
    have hjoined := ih (generates_expression_binary (o := op) hu hy) fun z hz => hparts z (by simp [hz])
    simpa using hjoined

namespace Item

variable {role : Option Field} {t : Token} {m : Move} {w : List Token}

theorem generates_of_startOperand (hm : startOperand role t = some m)
    (h : Generates (Expectation.phrase m.after) w) : Generates .expression (t :: w) := by
  obtain ⟨rfl, rfl⟩ | hm := startOperand_cases hm
  · rcases generates_choice_iff.mp h with hcall | hnone
    · refine generates_expression_node (c := .callExpression) (by decide) (.symbol ?_)
      exact .seq (u := [.identifier]) (.field (.token _)) hcall
    · obtain rfl := generates_empty_iff.mp hnone
      refine .symbol ?_
      rw [Nonterminal.production, Hidden.production, generates_oneOf_iff]
      exact ⟨.word, by decide, .token _⟩
  · obtain ⟨c, hc, hnode⟩ := generates_of_opens hm h
    exact generates_expression_node hc hnode

theorem generates_of_startExpression (hm : startExpression role t = some m)
    (h : Generates (Expectation.phrase m.after) w) : Generates .expression (t :: w) := by
  obtain ⟨first, hfirst, rfl⟩ := Option.map_eq_some_iff.mp hm
  obtain ⟨u, v, hu, hv, rfl⟩ := generates_phrase_append_iff.mp h
  exact generates_expression_operators (generates_of_startOperand hfirst hu) hv

theorem generates_of_startDeclaration (hm : startDeclaration t = some m)
    (h : Generates (Expectation.phrase m.after) w) :
    Generates (.symbol (.hidden .declaration)) (t :: w) := by
  -- the body of a procedure is a field that may be left out, or an optional phrase with a field
  have rest {u : List Token}
      (hu : Generates (Expectation.phrase (procedureRest ++ [.leave none .procDeclaration])) u) :
      Generates (.inOrder [.declaredName, .field .inputs (.node .parameterList), .mark .arrow,
        .field .outputs (.node .parameterList), .many (.symbol (.hidden .procedureSpec)),
        .field .body (.maybe (.node .block))]) u := by
    rw [generates_phrase_leave_iff] at hu
    simp only [procedureRest, generates_phrase_cons_iff] at hu
    obtain ⟨n, _, hn, ⟨i, _, hi, ⟨a, _, ha, ⟨o, _, ho, ⟨s, _, hs, ⟨b, _, hb, he, rfl⟩, rfl⟩, rfl⟩,
      rfl⟩, rfl⟩, rfl⟩ := hu
    obtain rfl := generates_empty_iff.mp he
    refine .seq hn (.seq hi (.seq ha (.seq ho (.seq hs (.field ?_)))))
    rw [List.append_nil]
    rcases generates_choice_iff.mp hb with hb | hb
    · exact .this (generates_field_iff.mp hb)
    · exact .other hb
  refine .symbol ?_
  obtain hm | ⟨ht, rfl⟩ | ⟨rfl, rfl⟩ := startDeclaration_cases hm
  · obtain ⟨c, hc, hnode⟩ := generates_of_opens hm h
    obtain rfl := List.mem_singleton.mp hc
    exact .other hnode
  · have hdirection : Generates (.field .direction (.choice (.kw .kwProc) (.kw .kwCoproc))) [t] := by
      obtain rfl | rfl := ht
      · exact .field (.this (.token _))
      · exact .field (.other (.token _))
    exact .this (.symbol (.seq (.other .empty) (.seq (u := [t]) hdirection (rest h))))
  · simp only [List.cons_append, List.nil_append, generates_phrase_cons_iff] at h
    obtain ⟨n, _, hn, ⟨_, _, hl, ⟨d, u, hd, hu, rfl⟩, rfl⟩, rfl⟩ := h
    obtain rfl := generates_empty_iff.mp hl
    have hsign : Generates (.symbol (.visible .annotationCalculus)) (.punctuation .atSign :: n) :=
      .symbol (.seq (u := [.punctuation .atSign]) (.token _) hn)
    have hproc := Generates.seq (Generates.this (q := .empty) (.field (f := .calculus) hsign))
      (.seq hd (rest hu))
    exact .this (.symbol hproc)

theorem generates_of_startStatement (hm : startStatement role t = some m)
    (h : Generates (Expectation.phrase m.after) w) : Generates .statement (t :: w) := by
  obtain ⟨rfl, rfl⟩ | ⟨rfl, rfl⟩ | hm := startStatement_cases hm
  · rcases generates_choice_iff.mp h with hcall | hassign
    · refine generates_statement_node (c := .callStatement) (by decide) (.symbol (.symbol ?_))
      exact .seq (u := [.identifier]) (.field (.token _)) hcall
    · obtain ⟨u, v, hu, hv, rfl⟩ := generates_seq_iff.mp hassign
      refine generates_statement_node (c := .assignmentStatement) (by decide) (.symbol ?_)
      exact .seq (.seq (u := [.identifier]) (.token _) hu) hv
  · have hif : Generates (.kw .kwIf) [.keyword .kwIf] := .token _
    obtain ⟨u, v, hu, hv, rfl⟩ := generates_seq_iff.mp h
    obtain hu | hu := generates_choice_iff.mp hu
    · exact generates_statement_node (c := .demonicIfStatement) (by decide)
        (.symbol (.seq hif (.seq hu hv)))
    · obtain hu | hu := generates_choice_iff.mp hu
      · exact generates_statement_node (c := .angelicIfStatement) (by decide)
          (.symbol (.seq hif (.seq hu hv)))
      · exact generates_statement_node (c := .ifStatement) (by decide)
          (.symbol (.seq hif (.seq hu hv)))
  · obtain ⟨c, hc, hnode⟩ := generates_of_opens hm h
    exact generates_statement_node hc hnode

theorem generates_inParentheses {item : Item}
    (h : Generates (Expectation.phrase [.series item, mark .parenClose]) w) :
    Generates (.inParentheses item.phrase) (.punctuation .parenOpen :: w) :=
  .seq (u := [.punctuation .parenOpen]) (.token _) h

theorem generates_of_startNameTail (hm : startNameTail role t = some m)
    (h : Generates (Expectation.phrase m.after) w) :
    Generates (nameTail role).phrase (t :: w) := by
  unfold startNameTail at hm
  split at hm <;> cases hm
  · have hargs : Generates (Expectation.phrase ([.series (.expression none), mark .parenClose] ++
        [.leave none .callExpression] ++ [.leave role .callStatement])) w := h
    rw [generates_phrase_leave_iff, generates_phrase_leave_iff] at hargs
    exact .this (generates_inParentheses hargs)
  · simp only [generates_phrase_cons_iff] at h
    obtain ⟨n, _, hn, ⟨more, _, hmore, ⟨a, _, ha, ⟨e, _, he, ⟨_, _, hl, hnil, rfl⟩, rfl⟩, rfl⟩,
      rfl⟩, rfl⟩ := h
    obtain rfl := generates_empty_iff.mp hl
    obtain rfl := generates_empty_iff.mp hnil
    have hnames := Generates.again (Generates.seq (Generates.token (.punctuation .comma)) hn) hmore
    have hall := Generates.seq hnames (Generates.seq ha he)
    simp only [List.append_assoc, List.append_nil, List.cons_append, List.nil_append] at hall ⊢
    exact .other hall
  · have hvalue : Generates (Expectation.phrase ([.expression none] ++
        [.leave role .assignmentStatement])) w := h
    rw [generates_phrase_leave_iff] at hvalue
    exact .other (.seq (.none _) (.seq (u := [.punctuation .assign]) (.token _) hvalue))

theorem generates_of_startIfTail (hm : startIfTail role t = some m)
    (h : Generates (Expectation.phrase m.after) w) :
    Generates (ifTail role).phrase (t :: w) := by
  unfold startIfTail at hm
  split at hm
  case h_5 =>
    obtain ⟨first, hfirst, rfl⟩ := Option.map_eq_some_iff.mp hm
    have hall : Generates (Expectation.phrase ((first.after ++ branches) ++
        [.leave role .ifStatement])) w := by
      simpa [Move.followedBy] using h
    rw [generates_phrase_leave_iff] at hall
    obtain ⟨u, v, hu, hv, rfl⟩ := generates_phrase_append_iff.mp hall
    exact .seq (.other (.other (.field (generates_of_startExpression hfirst hu)))) hv
  all_goals
    cases hm
    rw [generates_phrase_leave_iff] at h
  case h_1 => exact .seq (u := [.binary .meet]) (.this (.this (.token _))) h
  case h_2 => exact .seq (u := [.binary .meetAscii]) (.this (.other (.token _))) h
  case h_3 => exact .seq (u := [.binary .join]) (.other (.this (.this (.token _)))) h
  case h_4 => exact .seq (u := [.binary .joinAscii]) (.other (.this (.other (.token _)))) h

theorem generates_of_startOperators {level : Nat} (hm : startOperators role level t = some m)
    (h : Generates (Expectation.phrase m.after) w) :
    Generates (operators role level).phrase (t :: w) := by
  unfold startOperators at hm
  split at hm
  case h_1 o =>
    split at hm <;> cases hm
    obtain ⟨u, _, hu, hbehind, rfl⟩ := generates_phrase_cons_iff.mp h
    obtain ⟨v, _, hv, hrest, rfl⟩ := generates_phrase_cons_iff.mp hbehind
    obtain ⟨_, z, hl, hz, rfl⟩ := generates_phrase_cons_iff.mp hrest
    obtain rfl := generates_empty_iff.mp hl
    have hop : Generates .anyOperator [.binary o] := by
      rw [anyOperator, generates_oneOf_iff]
      exact ⟨.operator o, by cases o <;> decide, .token _⟩
    have hright := generates_expression_operators hu hv
    have hall := Generates.again (Generates.seq hop hright) hz
    simp only [List.append_assoc, List.cons_append, List.nil_append] at hall ⊢
    exact hall
  case h_2 => cases hm

theorem generates_of_start {item : Item} (hm : item.start t = some m)
    (h : Generates (Expectation.phrase m.after) w) : Generates item.phrase (t :: w) := by
  -- Items around another item go by induction; the others are told by the tokens that begin them.
  induction item generalizing m w with
  | leaf role token =>
    unfold start at hm
    split at hm <;> cases hm
    obtain rfl := generates_empty_iff.mp h
    subst t
    exact generates_inRole_iff.mpr (.token _)
  | leave role c => cases hm
  | maybe item ih => exact .this (ih hm h)
  | many item ih =>
    obtain ⟨first, hfirst, rfl⟩ := Option.map_eq_some_iff.mp hm
    obtain ⟨u, v, hu, hv, rfl⟩ := generates_phrase_append_iff.mp h
    exact .again (ih hfirst hu) hv
  | more role item ih =>
    unfold start at hm
    split at hm <;> cases hm
    obtain ⟨u, v, hu, hv, rfl⟩ := generates_phrase_cons_iff.mp h
    subst t
    exact .again (.seq (u := [.punctuation .comma]) (generates_inRole_iff.mpr (.token _)) hu) hv
  | series item ih =>
    obtain ⟨first, hfirst, rfl⟩ := Option.map_eq_some_iff.mp hm
    obtain ⟨u, v, hu, hv, rfl⟩ := generates_phrase_append_iff.mp h
    exact .this (.seq (ih hfirst hu) hv)
  | declaration => exact generates_of_startDeclaration hm h
  | direction =>
    unfold start at hm
    split at hm <;> cases hm <;> obtain rfl := generates_empty_iff.mp h
    · exact .field (.this (.token _))
    · exact .field (.other (.token _))
  | specification =>
    obtain ⟨c, hc, hnode⟩ := generates_of_opens (opens_of_startSpecification hm) h
    simp only [List.mem_cons, List.not_mem_nil, or_false] at hc
    obtain rfl | rfl := hc
    · exact .symbol (.this hnode)
    · exact .symbol (.other hnode)
  | domainItem =>
    obtain ⟨c, hc, hnode⟩ := generates_of_opens (opens_of_startDomainItem hm) h
    simp only [List.mem_cons, List.not_mem_nil, or_false] at hc
    obtain rfl | rfl := hc
    · exact .symbol (.this hnode)
    · exact .symbol (.other hnode)
  | functionBody =>
    unfold start at hm
    split at hm <;> cases hm
    · exact .this (.seq (u := [.punctuation .assign]) (.token _) h)
    · obtain rfl := generates_empty_iff.mp h
      exact .other (.this (.token _))
  | parameters role =>
    unfold start at hm
    split at hm <;> cases hm
    subst t
    exact generates_inRole_iff.mpr (Layout.generates_node (c := .parameterList) rfl (by decide) h)
  | parameter =>
    unfold start at hm
    split at hm <;> cases hm
    subst t
    exact Layout.generates_node (c := .parameter) rfl (by decide) h
  | type role =>
    obtain ⟨c, hc, hnode⟩ := generates_of_opens (opens_of_startType hm) h
    simp only [List.mem_cons, List.not_mem_nil, or_false] at hc
    obtain rfl | rfl := hc
    · exact generates_inRole_iff.mpr (.symbol (.this hnode))
    · exact generates_inRole_iff.mpr (.symbol (.other hnode))
  | block role =>
    obtain ⟨c, hc, hnode⟩ := generates_of_opens (opens_of_startBlock hm) h
    obtain rfl := List.mem_singleton.mp hc
    exact generates_inRole_iff.mpr hnode
  | statement role => exact generates_inRole_iff.mpr (generates_of_startStatement hm h)
  | blockStatement =>
    obtain ⟨first, hfirst, rfl⟩ := Option.map_eq_some_iff.mp hm
    obtain ⟨u, v, hu, hv, rfl⟩ := generates_phrase_append_iff.mp h
    exact .seq (generates_of_startStatement hfirst hu) hv
  | nameTail role => exact generates_of_startNameTail hm h
  | ifTail role => exact generates_of_startIfTail hm h
  | initializer =>
    unfold start at hm
    split at hm <;> cases hm
    subst t
    exact .seq (u := [.punctuation .assign]) (.token _) h
  | annotationInputs =>
    unfold start at hm
    split at hm <;> cases hm
    subst t
    exact Layout.generates_node (c := .annotationInputs) rfl (by decide) h
  | expression role => exact generates_inRole_iff.mpr (generates_of_startExpression hm h)
  | operand role => exact generates_inRole_iff.mpr (generates_of_startOperand hm h)
  | callTail role =>
    unfold start at hm
    split at hm <;> cases hm
    subst t
    have hargs : Generates (Expectation.phrase ([.series (.expression none), mark .parenClose] ++
        [.leave role .callExpression])) w := h
    rw [generates_phrase_leave_iff] at hargs
    exact .this (generates_inParentheses hargs)
  | operators role level => exact generates_of_startOperators hm h
  | quantifierVariable =>
    unfold start at hm
    split at hm <;> cases hm
    subst t
    exact .field (Layout.generates_node (c := .quantifierVariable) rfl (by decide) h)
  | trigger =>
    unfold start at hm
    split at hm <;> cases hm
    subst t
    exact Layout.generates_node (c := .quantifierTrigger) rfl (by decide) h

theorem generates_nil_of_optional {item : Item} (h : item.optional = true) :
    Generates item.phrase [] := by
  cases item <;> simp only [optional, reduceCtorEq] at h
  case leave => exact .empty
  case maybe | series | callTail => exact .other .empty
  case many | more | operators => exact .none _
  case functionBody => exact .other (.other .empty)

end Item

namespace Expectation

/-- A token that may come next, and a text of what is expected behind it, are a text of all that
was expected. -/
theorem generates_of_advance {todo : Expectation} {t : Token} {m : Move} {w : List Token}
    (hm : todo.advance t = some m) (h : Generates (phrase m.after) w) :
    Generates todo.phrase (t :: w) := by
  induction todo generalizing m with
  | nil => cases hm
  | cons item rest ih =>
    rw [generates_phrase_cons_iff]
    unfold advance at hm
    split at hm
    · next first hfirst =>
      cases hm
      obtain ⟨u, v, hu, hv, rfl⟩ := generates_phrase_append_iff.mp h
      exact ⟨t :: u, v, Item.generates_of_start hfirst hu, hv, rfl⟩
    · split at hm
      · next hskip =>
        obtain ⟨later, hlater, rfl⟩ := Option.map_eq_some_iff.mp hm
        exact ⟨[], t :: w, Item.generates_nil_of_optional hskip, ih hlater h, rfl⟩
      · cases hm

theorem generates_nil_of_finish? {todo : Expectation} {actions : List Action}
    (h : todo.finish? = some actions) : Generates todo.phrase [] := by
  induction todo generalizing actions with
  | nil => exact .empty
  | cons item rest ih =>
    rw [generates_phrase_cons_iff]
    unfold finish? at h
    split at h
    · next hskip =>
      obtain ⟨later, hlater, rfl⟩ := Option.map_eq_some_iff.mp h
      exact ⟨[], [], Item.generates_nil_of_optional hskip, ih hlater, rfl⟩
    · cases h

end Expectation

end HeyVL
