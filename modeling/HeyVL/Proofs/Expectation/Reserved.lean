import HeyVL.Proofs.Expectation.Reachable

namespace HeyVL

namespace Token

def isExpressionWord : Token → Bool
  | quantifier _ | boolean | keyword .kwLet | keyword .kwIte => true
  | _ => false

def isStatementWord : Token → Bool
  | command _ | keyword .kwVar | keyword .kwIf | keyword .kwWhile | keyword .kwLabel => true
  | _ => false

/-- The signs that are an at sign with a word. -/
def isWordSign (t : Token) : Bool := t == punctuation .trigger || t == punctuation .computable

/-- Tokens with a text in common, or one that is the beginning of a text of the other one: what may
come next must begin the same phrase. -/
def isAkin (t u : Token) : Bool :=
  t == identifier && u.isReserved || u == identifier && t.isReserved ||
    t == punctuation .atSign && u.isWordSign || u == punctuation .atSign && t.isWordSign

theorem isAkin_comm (t u : Token) : t.isAkin u = u.isAkin t := by
  rw [isAkin, isAkin]
  ac_rfl

end Token

/-- Tokens that cannot follow the item, as they are akin to one that it could still take. -/
def Item.bars : Item → Token → Bool
  | .declaration, t | .many .specification, t => t == .identifier
  | .many .declaration, t => t == .identifier || t.isWordSign
  | .domainItem, t | .functionBody, t | .many .trigger, t => t == .punctuation .atSign
  | .many .domainItem, t => t == .identifier || t == .punctuation .atSign
  | .many .blockStatement, t | .series _, t =>
    t == .identifier || t.isReserved || t.isWordSign
  | _, _ => false

namespace Expectation

/-- The tokens that cannot follow all the items. -/
def bars : Expectation → Token → Bool
  | [], _ => false
  | item :: rest, t => bars rest t || rest.all Item.optional && item.bars t

/-- What is behind an item begins with none of the tokens that cannot follow it. -/
def isOrdered : Expectation → Bool
  | [] => true
  | item :: rest => isOrdered rest && Token.all.all fun t => !(item.bars t && expects rest t)

variable {xs ys todo rest : Expectation} {item : Item} {t u : Token} {m : Move}

theorem isOrdered_cons_iff :
    isOrdered (item :: rest) = true ↔
      isOrdered rest = true ∧ ∀ t, item.bars t = true → expects rest t = false := by
  rw [isOrdered, Bool.and_eq_true, List.all_eq_true]
  refine and_congr_right fun _ => ⟨fun h t ht => ?_, fun h t _ => ?_⟩
  · simpa [ht] using h t t.mem_all
  · cases ht : item.bars t with
    | false => rfl
    | true => simp [h t ht]

theorem expects_cons (item : Item) (rest : Expectation) (t : Token) :
    expects (item :: rest) t = ((item.start t).isSome || item.optional && expects rest t) := by
  rw [expects, advance]
  cases item.start t with
  | some m => rfl
  | none => cases item.optional <;> simp [expects]

theorem expects_append (xs ys : Expectation) (t : Token) :
    expects (xs ++ ys) t = (expects xs t || xs.all Item.optional && expects ys t) := by
  induction xs with
  | nil => rfl
  | cons x xs ih =>
    rw [List.cons_append, expects_cons, expects_cons, ih, List.all_cons]
    cases x.optional <;> simp [Bool.or_assoc]

theorem bars_append (xs ys : Expectation) (t : Token) :
    bars (xs ++ ys) t = (bars ys t || ys.all Item.optional && bars xs t) := by
  induction xs with
  | nil => simp [bars]
  | cons x xs ih =>
    rw [List.cons_append, bars, bars, ih, List.all_append]
    cases ys.all Item.optional <;> simp [Bool.or_assoc]

theorem isOrdered_singleton (item : Item) : isOrdered [item] = true :=
  isOrdered_cons_iff.mpr ⟨rfl, fun _ _ => rfl⟩

theorem isOrdered_append (hxs : isOrdered xs = true) (hys : isOrdered ys = true)
    (h : ∀ t, bars xs t = true → expects ys t = false) : isOrdered (xs ++ ys) = true := by
  induction xs with
  | nil => exact hys
  | cons x xs ih =>
    obtain ⟨hxs, hx⟩ := isOrdered_cons_iff.mp hxs
    refine isOrdered_cons_iff.mpr ⟨ih hxs fun t ht => h t (by simp [bars, ht]), fun t ht => ?_⟩
    show expects (xs ++ ys) t = false
    rw [expects_append, hx t ht, Bool.false_or, Bool.and_eq_false_imp]
    intro hoptional
    exact h t (by simp [bars, hoptional, ht])

end Expectation

open Expectation

/-- What a move leaves is ordered, and what cannot follow it satisfies `p`. -/
structure Move.IsOrdered (m : Move) (p : Token → Bool) : Prop where
  ordered : isOrdered m.after = true
  bars : ∀ t, bars m.after t = true → p t = true

theorem Move.IsOrdered.followedBy {m : Move} {p q : Token → Bool} {items : Expectation}
    (h : m.IsOrdered p) (hitems : isOrdered items = true)
    (hp : ∀ t, p t = true → expects items t = false ∧ (items.all Item.optional = true → q t = true))
    (hq : ∀ t, Expectation.bars items t = true → q t = true) :
    (m.followedBy items).IsOrdered q where
  ordered := isOrdered_append h.ordered hitems fun t ht => (hp t (h.bars t ht)).1
  bars := fun t ht => by
    rw [Move.followedBy, bars_append, Bool.or_eq_true, Bool.and_eq_true] at ht
    rcases ht with ht | ⟨hoptional, ht⟩
    · exact hq t ht
    · exact (hp t (h.bars t ht)).2 hoptional

theorem Layout.isOrdered_items {c : Category} {l : Layout} (hl : of? c = some l) :
    isOrdered l.items = true := by
  cases c <;> cases hl
  all_goals decide

theorem Layout.bars_items {c : Category} {l : Layout} (hc : c ≠ .functionDeclaration)
    (hl : of? c = some l) (t : Token) : bars l.items t = false := by
  cases c <;> cases hl
  case functionDeclaration => exact absurd rfl hc
  all_goals rfl

theorem Move.isOrdered_opening {c : Category} {l : Layout} (hl : Layout.of? c = some l)
    (role : Option Field) {p : Token → Bool} (hp : ∀ t, Expectation.bars l.items t = true → p t = true) :
    (Move.opening c role l.role l.items).IsOrdered p where
  ordered := isOrdered_append (Layout.isOrdered_items hl) rfl fun _ _ => rfl
  bars := fun t ht => by
    rw [Move.opening, bars_append] at ht
    exact hp t (by simpa [Expectation.bars, Item.bars, Item.optional] using ht)

theorem Move.Opens.isOrdered {cs : List Category} {role : Option Field} {t : Token} {m : Move}
    (h : m.Opens cs role t) (hcs : .functionDeclaration ∉ cs) (p : Token → Bool) :
    m.IsOrdered p := by
  obtain ⟨c, hc, l, hl, -, rfl⟩ := h
  have hne : c ≠ .functionDeclaration := fun heq => hcs (heq ▸ hc)
  refine Move.isOrdered_opening hl role fun t ht => ?_
  rw [Layout.bars_items hne hl] at ht
  cases ht

namespace Move

/-- The move of an identifier that is an expression or the function of a call, where `literal` is the
move of a literal in its place. -/
def IsName (m literal : Move) : Prop :=
  ∃ before role rest, m = ⟨before, role, .callTail role :: rest⟩ ∧
    literal = ⟨before ++ [.enter], none, .leave role .literal :: rest⟩

/-- The move of an identifier that begins a statement. -/
def IsStatementName (m : Move) : Prop :=
  ∃ before role rest, m = ⟨before, none, .nameTail role :: rest⟩

variable {m literal : Move}

theorem IsName.followedBy (h : IsName m literal) (items : List Item) :
    IsName (m.followedBy items) (literal.followedBy items) := by
  obtain ⟨before, role, rest, rfl, rfl⟩ := h
  exact ⟨before, role, rest ++ items, rfl, rfl⟩

theorem IsName.behind (h : IsName m literal) (actions : List Action) :
    IsName { m with before := actions ++ m.before }
      { literal with before := actions ++ literal.before } := by
  obtain ⟨before, role, rest, rfl, rfl⟩ := h
  exact ⟨actions ++ before, role, rest, rfl, by rw [List.append_assoc]⟩

theorem IsStatementName.followedBy (h : IsStatementName m) (items : List Item) :
    IsStatementName (m.followedBy items) := by
  obtain ⟨before, role, rest, rfl⟩ := h
  exact ⟨before, role, rest ++ items, rfl⟩

theorem IsStatementName.behind (h : IsStatementName m) (actions : List Action) :
    IsStatementName { m with before := actions ++ m.before } := by
  obtain ⟨before, role, rest, rfl⟩ := h
  exact ⟨actions ++ before, role, rest, rfl⟩

end Move

namespace Item

variable {item : Item} {t u : Token} {m : Move} {role : Option Field}

theorem isOrdered_of_startOperand (h : startOperand role t = some m) (p : Token → Bool) :
    m.IsOrdered p := by
  obtain ⟨-, rfl⟩ | hopens := startOperand_cases h
  · exact ⟨rfl, fun _ ht => by cases ht⟩
  · exact hopens.isOrdered (by decide) p

theorem isOrdered_of_startExpression (h : startExpression role t = some m) (p : Token → Bool) :
    m.IsOrdered p := by
  obtain ⟨m', hm', rfl⟩ := Option.map_eq_some_iff.mp h
  exact (isOrdered_of_startOperand hm' fun _ => false).followedBy rfl (fun _ ht => by cases ht)
    fun _ ht => by cases ht

theorem isOrdered_of_startStatement (h : startStatement role t = some m) (p : Token → Bool) :
    m.IsOrdered p := by
  obtain ⟨-, rfl⟩ | ⟨-, rfl⟩ | hopens := startStatement_cases h
  · exact ⟨rfl, fun _ ht => by cases ht⟩
  · exact ⟨rfl, fun _ ht => by cases ht⟩
  · exact hopens.isOrdered (by decide) p

theorem isOrdered_of_startIfTail (h : startIfTail role t = some m) (p : Token → Bool) :
    m.IsOrdered p := by
  unfold startIfTail at h
  split at h
  case h_5 =>
    obtain ⟨m', hm', rfl⟩ := Option.map_eq_some_iff.mp h
    exact (isOrdered_of_startExpression hm' fun _ => false).followedBy rfl (fun _ ht => by cases ht)
      fun _ ht => by cases ht
  all_goals
    cases h
    exact ⟨rfl, fun _ ht => by cases ht⟩

/-- What is expected behind a token is ordered, and nothing is barred from following it that could
follow the item. -/
theorem isOrdered_of_start (hitem : item.occurs = true) (h : item.start t = some m) :
    m.IsOrdered item.bars := by
  induction item generalizing m with
  | leaf role token =>
    rw [start, Option.ite_none_right_eq_some] at h
    obtain ⟨-, h⟩ := h
    cases h
    exact ⟨rfl, fun _ ht => by cases ht⟩
  | leave role c => cases h
  | maybe item ih =>
    have hm := ih (occurs_of_maybe hitem) h
    refine ⟨hm.ordered, fun u hu => ?_⟩
    have hbars := hm.bars u hu
    simp only [occurs, List.mem_cons, List.not_mem_nil, or_false, decide_eq_true_eq] at hitem
    obtain rfl | rfl | rfl | rfl := hitem <;> cases hbars
  | many item ih =>
    obtain ⟨m', hm', rfl⟩ := Option.map_eq_some_iff.mp h
    refine (ih (occurs_of_many hitem) hm').followedBy (isOrdered_singleton _) (fun u hu => ?_) fun u hu => by
      simpa [Expectation.bars] using hu
    simp only [occurs, List.mem_cons, List.not_mem_nil, or_false, decide_eq_true_eq] at hitem
    -- Two of the repeated items bar a token, and neither begins with it.
    obtain rfl | rfl | rfl | rfl | rfl := hitem
    case inl =>
      obtain rfl : u = .identifier := by simpa [Item.bars] using hu
      exact ⟨rfl, fun _ => rfl⟩
    case inr.inr.inl =>
      obtain rfl : u = .punctuation .atSign := by simpa [Item.bars] using hu
      exact ⟨rfl, fun _ => rfl⟩
    all_goals cases hu
  | more role item ih =>
    rw [start, Option.ite_none_right_eq_some] at h
    obtain ⟨-, h⟩ := h
    cases h
    simp only [occurs, List.mem_cons, List.not_mem_nil, or_false, decide_eq_true_eq] at hitem
    obtain rfl | rfl | rfl | rfl := hitem <;> exact ⟨rfl, fun _ ht => by cases ht⟩
  | series item ih =>
    obtain ⟨m', hm', rfl⟩ := Option.map_eq_some_iff.mp h
    refine (ih (occurs_of_series hitem).1 hm').followedBy rfl (fun u hu => ?_) fun u hu => by cases hu
    simp only [occurs, List.mem_cons, List.not_mem_nil, or_false, decide_eq_true_eq] at hitem
    obtain rfl | rfl := hitem <;> cases hu
  | declaration =>
    obtain hopens | ⟨-, rfl⟩ | ⟨-, rfl⟩ := startDeclaration_cases h
    · exact hopens.isOrdered (by decide) _
    · refine ⟨by decide, fun u hu => ?_⟩
      simpa [Move.opening, procedureRest, Expectation.bars, Item.bars, Item.optional] using hu
    · refine ⟨by decide, fun u hu => ?_⟩
      simpa [procedureRest, Expectation.bars, Item.bars, Item.optional] using hu
  | specification => exact (opens_of_startSpecification h).isOrdered (by decide) _
  | domainItem =>
    obtain ⟨c, hc, l, hl, -, rfl⟩ := opens_of_startDomainItem h
    refine Move.isOrdered_opening hl none fun u hu => ?_
    simp only [List.mem_cons, List.not_mem_nil, or_false] at hc
    obtain rfl | rfl := hc
    · cases hl
      simpa [Expectation.bars, Item.bars, Item.optional] using hu
    · cases hl
      cases hu
  | type role => exact (opens_of_startType h).isOrdered (by decide) _
  | block role => exact (opens_of_startBlock h).isOrdered (by decide) _
  | statement role => exact isOrdered_of_startStatement h _
  | blockStatement =>
    obtain ⟨m', hm', rfl⟩ := Option.map_eq_some_iff.mp h
    exact (isOrdered_of_startStatement hm' fun _ => false).followedBy rfl (fun _ ht => by cases ht)
      fun _ ht => by cases ht
  | ifTail role => exact isOrdered_of_startIfTail h _
  | expression role => exact isOrdered_of_startExpression h _
  | operand role => exact isOrdered_of_startOperand h _
  | operators role level =>
    rw [start, startOperators.eq_def] at h
    split at h
    · rw [Option.ite_none_right_eq_some] at h
      obtain ⟨-, h⟩ := h
      cases h
      exact ⟨rfl, fun _ ht => by cases ht⟩
    · cases h
  | nameTail role =>
    rw [start, startNameTail.eq_def] at h
    split at h <;> cases h <;> exact ⟨rfl, fun _ ht => by cases ht⟩
  | direction | functionBody | parameters | parameter | initializer | annotationInputs
  | callTail | quantifierVariable | trigger =>
    simp only [start] at h
    split at h <;> cases h <;> exact ⟨rfl, fun _ ht => by cases ht⟩

/-- The items that may be left out and are the same wherever they occur. -/
def optionalItems : List Item :=
  [.maybe (mark .semicolon), .maybe (.block (some .body)), .maybe .initializer,
    .maybe .annotationInputs, .many .declaration, .many .specification, .many .domainItem,
    .many .blockStatement, .many .trigger, .series .parameter, .series (.expression none),
    .functionBody]

theorem bars_table : optionalItems.all (fun item => Token.all.all fun t =>
    (item.start t).isNone || Token.all.all fun u =>
      !t.isAkin u || (item.start u).isSome || item.bars u) = true := by
  decide

/-- Where an item may be left out that begins with a token, nothing that is akin to it follows, unless
the item begins with that, too. -/
theorem bars_of_start (hitem : item.occurs = true) (hoptional : item.optional = true)
    (hakin : t.isAkin u = true) (ht : item.start t = some m) (hu : item.start u = none) :
    item.bars u = true := by
  have htable (hmem : item ∈ optionalItems) : item.bars u = true := by
    have h := Token.forall_of_all (List.all_eq_true.mp bars_table item hmem) t
    rw [ht, Option.isNone_some, Bool.false_or] at h
    simpa [hakin, hu] using Token.forall_of_all h u
  cases item with
  | functionBody => exact htable (by decide)
  | maybe item =>
    simp only [occurs, List.mem_cons, List.not_mem_nil, or_false, decide_eq_true_eq] at hitem
    obtain rfl | rfl | rfl | rfl := hitem <;> exact htable (by decide)
  | many item =>
    simp only [occurs, List.mem_cons, List.not_mem_nil, or_false, decide_eq_true_eq] at hitem
    obtain rfl | rfl | rfl | rfl | rfl := hitem <;> exact htable (by decide)
  | series item =>
    simp only [occurs, List.mem_cons, List.not_mem_nil, or_false, decide_eq_true_eq] at hitem
    obtain rfl | rfl := hitem <;> exact htable (by decide)
  | leave => cases ht
  | more role item =>
    rw [start, Option.ite_none_right_eq_some] at ht
    obtain ⟨rfl, -⟩ := ht
    simp [Token.isAkin, Token.isReserved, Token.isWordSign] at hakin
  | callTail role =>
    rw [start, Option.ite_none_right_eq_some] at ht
    obtain ⟨rfl, -⟩ := ht
    simp [Token.isAkin, Token.isReserved, Token.isWordSign] at hakin
  | operators role level =>
    rw [start, startOperators.eq_def] at ht
    split at ht
    · simp [Token.isAkin, Token.isReserved, Token.isWordSign] at hakin
    · cases ht
  | _ => cases hoptional

theorem isExpressionWord_of_startOperand (hreserved : t.isReserved = true)
    (h : (startOperand role t).isSome = true) : t.isExpressionWord = true := by
  cases t with
  | keyword k => cases k <;> first | rfl | cases h
  | command c => cases h
  | quantifier q => rfl
  | boolean => rfl
  | _ => cases hreserved

theorem isStatementWord_of_startStatement (hreserved : t.isReserved = true)
    (h : (startStatement role t).isSome = true) : t.isStatementWord = true := by
  cases t with
  | keyword k => cases k <;> first | rfl | cases h
  | command c => rfl
  | quantifier q => cases h
  | boolean => cases h
  | _ => cases hreserved

theorem word_of_startExpression (h : startExpression role .identifier = some m)
    (hreserved : t.isReserved = true) (ht : (startExpression role t).isSome = true) :
    t.isExpressionWord = true ∧
      ∃ literal, startExpression role .boolean = some literal ∧ Move.IsName m literal := by
  cases h
  rw [startExpression, Option.isSome_map] at ht
  exact ⟨isExpressionWord_of_startOperand hreserved ht, _, rfl, [], role, _, rfl, rfl⟩

theorem word_of_startStatement (h : startStatement role .identifier = some m)
    (hreserved : t.isReserved = true) (ht : (startStatement role t).isSome = true) :
    t.isStatementWord = true ∧ Move.IsStatementName m := by
  cases h
  exact ⟨isStatementWord_of_startStatement hreserved ht, [], role, [], rfl⟩

/-- The word begins what the identifier begins, and this is an expression or a statement. -/
def IsWordFor (t : Token) (item : Item) (m : Move) : Prop :=
  (t.isExpressionWord = true ∧
      ∃ literal, item.start .boolean = some literal ∧ Move.IsName m literal) ∨
    t.isStatementWord = true ∧ Move.IsStatementName m

theorem IsWordFor.followedBy {other : Item} {items : List Item} (h : IsWordFor t item m)
    (hother : other.start .boolean = (item.start .boolean).map fun m => m.followedBy items) :
    IsWordFor t other (m.followedBy items) := by
  obtain ⟨hword, literal, hliteral, hm⟩ | ⟨hword, hm⟩ := h
  · refine .inl ⟨hword, literal.followedBy items, ?_, hm.followedBy items⟩
    rw [hother, hliteral]
    rfl
  · exact .inr ⟨hword, hm.followedBy items⟩

theorem word_of_start (h : item.start .identifier = some m) (hreserved : t.isReserved = true)
    (ht : (item.start t).isSome = true) : IsWordFor t item m := by
  induction item generalizing m with
  | leaf role token =>
    rw [start, Option.ite_none_right_eq_some] at h
    obtain ⟨rfl, -⟩ := h
    rw [start] at ht
    split at ht
    · next heq =>
      rw [heq] at hreserved
      cases hreserved
    · cases ht
  | maybe item ih => exact ih h ht
  | many item ih =>
    obtain ⟨m', hm', rfl⟩ := Option.map_eq_some_iff.mp h
    rw [start, Option.isSome_map] at ht
    exact (ih hm' ht).followedBy rfl
  | series item ih =>
    obtain ⟨m', hm', rfl⟩ := Option.map_eq_some_iff.mp h
    rw [start, Option.isSome_map] at ht
    exact (ih hm' ht).followedBy rfl
  | statement role => exact .inr (word_of_startStatement h hreserved ht)
  | blockStatement =>
    obtain ⟨m', hm', rfl⟩ := Option.map_eq_some_iff.mp h
    rw [start, Option.isSome_map] at ht
    obtain ⟨hword, hm⟩ := word_of_startStatement hm' hreserved ht
    exact .inr ⟨hword, hm.followedBy _⟩
  | ifTail role =>
    obtain ⟨m', hm', rfl⟩ := Option.map_eq_some_iff.mp
      (show (startExpression (some .condition) .identifier).map
        (fun m => m.followedBy (branches ++ [.leave role .ifStatement])) = some m from h)
    -- A reserved word begins the condition: only signs begin the other conditionals.
    have hother : (Item.ifTail role).start t =
        (startExpression (some .condition) t).map fun m =>
          m.followedBy (branches ++ [.leave role .ifStatement]) := by
      cases t <;> first | rfl | cases hreserved
    rw [hother, Option.isSome_map] at ht
    have hword : IsWordFor t (.expression (some .condition)) m' :=
      .inl (word_of_startExpression hm' hreserved ht)
    exact hword.followedBy rfl
  | expression role => exact .inl (word_of_startExpression h hreserved ht)
  | operand role =>
    cases h
    exact .inl ⟨isExpressionWord_of_startOperand hreserved ht, _, rfl, [], role, [], rfl, rfl⟩
  | type role =>
    rw [start, startType.eq_def] at ht
    split at ht
    · cases hreserved
    · cases hreserved
    · cases ht
  | parameter | quantifierVariable =>
    rw [start] at ht
    split at ht
    · next heq =>
      rw [heq] at hreserved
      cases hreserved
    · cases ht
  | _ => cases h

theorem not_start_wordSign (h : item.start (.punctuation .atSign) = some m)
    (hu : u.isWordSign = true) : item.start u = none := by
  simp only [Token.isWordSign, Bool.or_eq_true, beq_iff_eq] at hu
  induction item generalizing m with
  | leaf role token =>
    rw [start, Option.ite_none_right_eq_some] at h
    obtain ⟨rfl, -⟩ := h
    rw [start, if_neg (by rintro rfl; simp at hu)]
  | maybe item ih => exact ih h
  | many item ih | series item ih =>
    obtain ⟨m', hm', -⟩ := Option.map_eq_some_iff.mp h
    rw [start, ih hm']
    rfl
  | declaration | statement | blockStatement => obtain rfl | rfl := hu <;> rfl
  | _ => cases h

end Item

namespace Expectation

variable {todo : Expectation} {t u : Token} {m : Move} {us : List Token}

theorem isOrdered_of_advance (hoccurs : todo.all Item.occurs = true) (htodo : todo.isOrdered = true)
    (h : todo.advance t = some m) : isOrdered m.after = true := by
  obtain ⟨skipped, item, rest, m', rfl, -, hstart, hafter⟩ := exists_start_of_advance h
  rw [List.all_append, List.all_cons, Bool.and_eq_true, Bool.and_eq_true] at hoccurs
  have hitem := Item.isOrdered_of_start hoccurs.2.1 hstart
  have hordered : isOrdered (item :: rest) = true := by
    clear hoccurs h hitem
    induction skipped with
    | nil => exact htodo
    | cons x skipped ih => exact ih (isOrdered_cons_iff.mp htodo).1
  obtain ⟨hrest, hbars⟩ := isOrdered_cons_iff.mp hordered
  rw [hafter]
  exact isOrdered_append hitem.ordered hrest fun u hu => hbars u (hitem.bars u hu)

theorem isOrdered_of_after? (h : source.after? us = some todo) : todo.isOrdered = true := by
  have hboth := of_after?
    (motive := fun todo => todo.all Item.occurs = true ∧ todo.isOrdered = true)
    ⟨rfl, isOrdered_singleton _⟩
    (fun todo t m htodo hm => ⟨occurs_of_advance htodo.1 hm,
      isOrdered_of_advance htodo.1 htodo.2 hm⟩) h
  exact hboth.2

/-- Tokens that are akin and may both come next begin the same item. -/
theorem exists_common_item (hoccurs : todo.all Item.occurs = true) (htodo : todo.isOrdered = true)
    (hakin : t.isAkin u = true) (ht : todo.expects t = true) (hu : todo.expects u = true) :
    ∃ (skipped : Expectation) (item : Item) (rest : Expectation) (m m' : Move)
        (actions : List Action),
      todo = skipped ++ item :: rest ∧ skipped.all Item.optional = true ∧
      item.start t = some m ∧ item.start u = some m' ∧
      todo.advance t = some { m.followedBy rest with before := actions ++ m.before } ∧
      todo.advance u = some { m'.followedBy rest with before := actions ++ m'.before } := by
  induction todo with
  | nil => cases ht
  | cons first rest ih =>
    rw [List.all_cons, Bool.and_eq_true] at hoccurs
    obtain ⟨hrest, hbars⟩ := isOrdered_cons_iff.mp htodo
    rw [expects_cons] at ht hu
    cases hst : first.start t with
    | some m =>
      cases hsu : first.start u with
      | some m' =>
        refine ⟨[], first, rest, m, m', [], rfl, rfl, hst, hsu, ?_, ?_⟩
        · rw [advance, hst]
          rfl
        · rw [advance, hsu]
          rfl
      | none =>
        simp only [hsu, Option.isSome_none, Bool.false_or, Bool.and_eq_true] at hu
        rw [hbars u (Item.bars_of_start hoccurs.1 hu.1 hakin hst hsu)] at hu
        cases hu.2
    | none =>
      simp only [hst, Option.isSome_none, Bool.false_or, Bool.and_eq_true] at ht
      cases hsu : first.start u with
      | some m' =>
        rw [Token.isAkin_comm] at hakin
        rw [hbars t (Item.bars_of_start hoccurs.1 ht.1 hakin hsu hst)] at ht
        cases ht.2
      | none =>
        simp only [hsu, Option.isSome_none, Bool.false_or, Bool.and_eq_true] at hu
        obtain ⟨skipped, item, later, m, m', actions, rfl, hskipped, hm, hm', hadvance, hadvance'⟩ :=
          ih hoccurs.2 hrest ht.2 hu.2
        refine ⟨first :: skipped, item, later, m, m', first.skipped ++ actions, rfl,
          by simp [ht.1, hskipped], hm, hm', ?_, ?_⟩
        · rw [advance, hst, hadvance]
          simp [ht.1]
        · rw [advance, hsu, hadvance']
          simp [ht.1]

theorem not_expects_both (h : source.after? us = some todo) (ht : todo.expects (.punctuation .atSign) = true)
    (hu : u.isWordSign = true) : todo.expects u = false := by
  refine Bool.eq_false_iff.mpr fun hexpects => ?_
  have hakin : (Token.punctuation .atSign).isAkin u = true := by simp [Token.isAkin, hu]
  obtain ⟨-, item, -, m, m', -, -, -, hm, hm', -⟩ :=
    exists_common_item (occurs_of_after? h) (isOrdered_of_after? h) hakin ht hexpects
  rw [Item.not_start_wordSign hm hu] at hm'
  cases hm'

/-- A reserved word that may come next where an identifier may is a word of an expression, and then a
literal may come next, or one of a statement. -/
theorem word_of_expects {m : Move} (h : source.after? us = some todo)
    (hm : todo.advance .identifier = some m) (hreserved : t.isReserved = true)
    (ht : todo.expects t = true) :
    (t.isExpressionWord = true ∧
        ∃ literal, todo.advance .boolean = some literal ∧ m.IsName literal) ∨
      t.isStatementWord = true ∧ m.IsStatementName := by
  have hoccurs := occurs_of_after? h
  have hordered := isOrdered_of_after? h
  have hidentifier : todo.expects .identifier = true := by
    rw [expects, hm]
    rfl
  obtain ⟨skipped, item, rest, m₁, m₂, actions, hsplit, hskipped, hm₁, hm₂, hadvance, -⟩ :=
    exists_common_item hoccurs hordered (by simp [Token.isAkin, hreserved]) hidentifier ht
  obtain ⟨hword, literal, hliteral, -⟩ | ⟨hword, hname⟩ :=
    Item.word_of_start hm₁ hreserved (by rw [hm₂]; rfl)
  · -- A literal may come next, so it begins the same item as the identifier.
    have hboolean : todo.expects .boolean = true := by
      rw [hsplit, expects_append, expects_cons, hskipped, hliteral]
      simp
    obtain ⟨-, other, later, m₃, m₄, actions', -, -, hm₃, hm₄, hadvance₃, hadvance₄⟩ :=
      exists_common_item hoccurs hordered (by decide) hidentifier hboolean
    obtain ⟨-, literal, hliteral, hname⟩ | ⟨hnot, -⟩ :=
      Item.word_of_start (t := .boolean) hm₃ rfl (by rw [hm₄]; rfl)
    · obtain rfl := Option.some.inj (hm₄.symm.trans hliteral)
      obtain rfl := Option.some.inj (hm.symm.trans hadvance₃)
      exact .inl ⟨hword, _, hadvance₄, (hname.followedBy later).behind actions'⟩
    · cases hnot
  · obtain rfl := Option.some.inj (hm.symm.trans hadvance)
    exact .inr ⟨hword, (hname.followedBy rest).behind actions⟩

end Expectation

theorem Grammar.not_viable_wordSign {us : List Token} {u : Token}
    (h : Viable us (.punctuation .atSign)) (hu : u.isWordSign = true) : ¬ Viable us u := by
  obtain ⟨vs, hvs⟩ := h
  obtain ⟨todo, htodo, -⟩ := Expectation.exists_after?_of_derivable hvs
  rw [← Expectation.expects_iff_viable htodo]
  have hat := (Expectation.expects_iff_viable htodo).mpr ⟨vs, hvs⟩
  simp [Expectation.not_expects_both htodo hat hu]

end HeyVL
