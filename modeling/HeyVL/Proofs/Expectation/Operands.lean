import HeyVL.Proofs.Expectation.Nodes
import HeyVL.Proofs.Tree.Operators

namespace HeyVL

open Production Expectation

/-- Whether an expression is complete where the token follows: no parenthesis makes it a call, and
an operator can take it as its left operand. -/
def Tree.stopsAt (t : Tree) : Token → Bool
  | .punctuation .parenOpen => false
  | .binary o => !t.isRightOpen && !t.hasLevel (· < o.level)
  | _ => true

/-- The expression is read where an operand is expected. -/
def Tree.IsOperand (t : Tree) : Prop :=
  ∀ (role : Option Field) (rest : Expectation) (children : List Tree) (outer : Builder)
    (ls : List Lexeme), (∀ l ∈ ls.head?, t.stopsAt l.token = true) →
      build? (.operand role :: rest) (children :: outer) (t.leaves ++ ls) =
        build? rest ((children ++ [t.withRole role]) :: outer) ls

/-- The expression is read where an operand with operators of a level is expected. -/
def Tree.IsOperation (t : Tree) : Prop :=
  ∀ (role : Option Field) (level : Nat) (rest : Expectation) (children : List Tree)
    (outer : Builder) (ls : List Lexeme), (∀ p ∈ t.level?, level ≤ p) →
      (∀ l ∈ ls.head?, t.stopsAt l.token = true) →
        build? (.operand role :: .operators role level :: rest) (children :: outer)
            (t.leaves ++ ls) =
          build? (.operators role level :: rest) ((children ++ [t.withRole role]) :: outer) ls

namespace Tree

variable {role : Option Field} {ts : List Tree}

theorem IsOperand.isOperation {t : Tree} (h : t.IsOperand) : t.IsOperation :=
  fun role _ _ children outer ls _ hls => h role _ children outer ls hls

theorem isOperand_identifier {l : Lexeme} (hl : l.token = .identifier) :
    (leaf role l).IsOperand := by
  intro role' rest children outer ls hls
  have hstart : (Item.operand role').start l.token = some ⟨[], role', [.callTail role']⟩ := by
    rw [hl]
    rfl
  refine (build?_shift hstart).trans (build?_skip rfl fun x hx => ?_)
  have hstop := hls x hx
  simp only [Item.start, ite_eq_right_iff, reduceCtorEq, imp_false]
  rintro hx
  rw [hx] at hstop
  cases hstop

theorem eq_of_expands_call (h : Expands Category.callExpression.production (ts.map label)) :
    ∃ l p args, l.token = .identifier ∧ p.token = .punctuation .parenOpen ∧
      Expands (phrase [.series (.expression none), .mark .parenClose]) (args.map label) ∧
      ts = leaf (some .function) l :: leaf none p :: args := by
  obtain ⟨us, vs, rfl, hus, hvs⟩ := split_of_expands_seq h
  obtain ⟨l, hl, rfl⟩ := eq_leaf_of_expands (some .function) hus
  obtain ⟨xs, args, rfl, hxs, hargs⟩ := split_of_expands_seq hvs
  obtain ⟨p, hp, rfl⟩ := eq_leaf_of_expands none hxs
  exact ⟨l, p, args, hl, hp, hargs, rfl⟩

theorem reads_arguments {args : List Tree} (htrees : ∀ t ∈ args, t.IsRead)
    (h : Expands (phrase [.series (.expression none), .mark .parenClose]) (args.map label)) :
    Expectation.Reads [.series (.expression none), .mark .parenClose] args :=
  Expectation.reads _ (by decide) htrees h

theorem isOperand_call
    (h : Expands Category.callExpression.production (ts.map label))
    (htrees : ∀ t ∈ ts, t.IsRead) : (node role .callExpression ts).IsOperand := by
  intro role' rest children outer ls hls
  obtain ⟨l, p, args, hl, hp, hargs, rfl⟩ := eq_of_expands_call h
  have hread := reads_arguments (fun t ht => htrees t (by simp [ht])) hargs
  have hstart : (Item.operand role').start l.token = some ⟨[], role', [.callTail role']⟩ := by
    rw [hl]
    rfl
  have htail : (Item.callTail role').start p.token = some ⟨[.adopt (some .function)], none,
      [.series (.expression none), .mark .parenClose, .leave role' .callExpression]⟩ := by
    rw [hp]
    rfl
  have hplace : place (place (children :: outer) ⟨[], role', [.callTail role']⟩ l)
      ⟨[.adopt (some .function)], none, []⟩ p =
        [leaf (some .function) l, leaf none p] :: children :: outer := by
    simp [place, Builder.act, Builder.add, withRole]
  refine (build?_shift hstart).trans ((build?_shift htail).trans ?_)
  exact (congrArg (fun b => build? _ b _) hplace).trans
    (hread.build?_leave role' .callExpression _ children outer fun _ _ => rfl)

theorem startOperand_of_layout {c : Category} {l : Layout} (hc : c ∈ Category.expressions)
    (hl : Layout.of? c = some l) (role : Option Field) :
    ∀ t ∈ l.tokens, (Item.operand role).start t = some (.opening c role l.role l.items) := by
  intro t ht
  cases c <;> simp only [Layout.of?, Option.some.injEq, reduceCtorEq] at hl <;> subst hl
  case quantifierExpression | literal =>
    simp only [Layout.tokens, List.mem_cons, List.not_mem_nil, or_false] at ht
    rcases ht with rfl | rfl | rfl | rfl | rfl <;> rfl
  case unaryExpression =>
    simp only [Layout.tokens, List.mem_cons, List.not_mem_nil, or_false] at ht
    rcases ht with rfl | rfl | rfl <;> rfl
  case letExpression | iteExpression | iversonExpression | parenthesizedExpression =>
    obtain rfl := List.mem_singleton.mp ht
    rfl
  all_goals exact absurd hc (by decide)

theorem isOperand_of_layout {c : Category} {l : Layout} (hc : c ∈ Category.expressions)
    (hl : Layout.of? c = some l) (hunary : c ≠ .unaryExpression)
    (h : Expands c.production (ts.map label)) (htrees : ∀ t ∈ ts, t.IsRead) :
    (node role c ts).IsOperand := by
  intro role' rest children outer ls hls
  have hitems : isRegular l.items = true ∧ ∀ t, (node role c ts).stopsAt t = true →
      continues l.items t = false := by
    cases c <;> simp only [Layout.of?, Option.some.injEq, reduceCtorEq] at hl <;> subst hl
    case quantifierExpression =>
      refine ⟨by decide, fun t ht => ?_⟩
      cases t with
      | binary o => cases ht
      | punctuation p => cases p <;> first | rfl | cases ht
      | _ => rfl
    case unaryExpression => exact absurd rfl hunary
    case letExpression | iteExpression | iversonExpression | parenthesizedExpression | literal =>
      exact ⟨by decide, fun _ _ => rfl⟩
    all_goals exact absurd hc (by decide)
  exact build?_node hl (startOperand_of_layout hc hl role') hitems.1 htrees h children outer
    fun x hx => hitems.2 _ (hls x hx)

theorem isOperand_unary {x : Lexeme} {operand : Tree} {o : UnaryOperator}
    (hx : x.token = .unary o) (hrole : operand.role = none) (hlevel : operand.level? = none)
    (h : operand.IsOperand) :
    (node role .unaryExpression [leaf (some .operator) x, operand]).IsOperand := by
  intro role' rest children outer ls hls
  have hstart : (Item.operand role').start x.token =
      some (.opening .unaryExpression role' (some .operator) [.operand none]) := by
    rw [hx]
    rfl
  have hnone : (node role .unaryExpression [leaf (some .operator) x, operand]).level? = none :=
    level?_eq_none (by decide)
  have hstop : ∀ l ∈ ls.head?, operand.stopsAt l.token = true := by
    intro l hl
    have := hls l hl
    cases htoken : l.token with
    | binary o' => simpa [stopsAt, htoken, isRightOpen_unary, hasLevel, hlevel, hnone] using this
    | punctuation p => cases p <;> first | rfl | exact absurd this (by simp [stopsAt, htoken])
    | _ => rfl
  have hread := h none (.leave role' .unaryExpression :: rest) [leaf (some .operator) x]
    (children :: outer) ls hstop
  have hleaves : (node role .unaryExpression [leaf (some .operator) x, operand]).leaves =
      x :: operand.leaves := by
    simp [leaves, leavesOfList]
  rw [hleaves]
  calc build? (.operand role' :: rest) (children :: outer) (x :: operand.leaves ++ ls)
      = build? (.operand none :: .leave role' .unaryExpression :: rest)
          ([leaf (some .operator) x] :: children :: outer) (operand.leaves ++ ls) :=
        build?_shift hstart
    _ = build? (.leave role' .unaryExpression :: rest)
          ([leaf (some .operator) x, operand] :: children :: outer) ls := by
        rw [hread, ← hrole, withRole_role]
        rfl
    _ = build? rest ((children ++ [node role' .unaryExpression
          [leaf (some .operator) x, operand]]) :: outer) ls := build?_leave _ _ _

/-- Where a binary expression is complete, so is its right operand, and no operator that is tighter
than its own follows. -/
theorem stopsAt_right {left right : Tree} {x : Lexeme} {o : BinaryOperator} {t : Token}
    (hkind : left.kind ∈ Kind.expressions) (hx : x.token = .binary o)
    (hright : ∀ p ∈ right.level?, o.level + 1 ≤ p)
    (hstop : (node role .binaryExpression [left, leaf none x, right]).stopsAt t = true) :
    right.stopsAt t = true ∧ (Item.operators none (o.level + 1)).start t = none := by
  cases t with
  | binary o' =>
    simp only [stopsAt, isRightOpen_binary, hasLevel, level?_binary hkind hx, Option.any_some,
      Bool.and_eq_true, Bool.not_eq_true', decide_eq_false_iff_not, Nat.not_lt] at hstop
    have hnot : ¬ o.level + 1 ≤ o'.level := by omega
    refine ⟨?_, by simp [Item.start, Item.startOperators, hnot]⟩
    rw [stopsAt, hstop.1]
    cases hp : right.level? with
    | none => simp [hasLevel, hp]
    | some p =>
      have htighter : o.level + 1 ≤ p := hright p hp
      have hle : o'.level ≤ p := by omega
      simp [hasLevel, hp, hle]
  | punctuation p => cases p <;> first | exact ⟨rfl, rfl⟩ | cases hstop
  | _ => exact ⟨rfl, rfl⟩

theorem isOperation_binary {left right : Tree} {x : Lexeme} {o : BinaryOperator}
    (hx : x.token = .binary o) (hkinds : left.kind ∈ Kind.expressions ∧
      right.kind ∈ Kind.expressions) (hroles : left.role = none ∧ right.role = none)
    (hgrouped : (node role .binaryExpression [left, leaf none x, right]).isGroupedAt = true)
    (hleft : left.IsOperation) (hright : right.IsOperation) :
    (node role .binaryExpression [left, leaf none x, right]).IsOperation := by
  intro role' level rest children outer ls hlevel hls
  rw [isGroupedAt_binary hkinds.1 hkinds.2 hx] at hgrouped
  simp only [Bool.and_eq_true, Bool.not_eq_true'] at hgrouped
  obtain ⟨⟨hopen, hlower⟩, hhigher⟩ := hgrouped
  have hlevel : level ≤ o.level := hlevel _ (level?_binary hkinds.1 hx)
  have hleftLevel : ∀ p ∈ left.level?, level ≤ p := by
    intro p hp
    have : o.level ≤ p := by simpa [hasLevel, Option.mem_def.mp hp] using hlower
    omega
  have hrightLevel : ∀ p ∈ right.level?, o.level + 1 ≤ p := by
    intro p hp
    have : o.level < p := by simpa [hasLevel, Option.mem_def.mp hp] using hhigher
    omega
  have hleftStop : ∀ l ∈ (x :: (right.leaves ++ ls)).head?, left.stopsAt l.token = true := by
    intro l hl
    obtain rfl : x = l := by simpa using hl
    simp [stopsAt, hx, hopen, hlower]
  have hfollow : ∀ l ∈ ls.head?, right.stopsAt l.token = true ∧
      (Item.operators none (o.level + 1)).start l.token = none := fun l hl =>
    stopsAt_right hkinds.1 hx hrightLevel (hls l hl)
  have hstart : (Item.operators role' level).start x.token = some ⟨[.adopt none], none,
      [.operand none, .operators none (o.level + 1), .leave role' .binaryExpression,
        .operators role' level]⟩ := by
    simp [hx, Item.start, Item.startOperators, hlevel]
  have hplace (after : List Item) :
      place ((children ++ [left.withRole role']) :: outer) ⟨[.adopt none], none, after⟩ x =
        [left, leaf none x] :: children :: outer := by
    have : (left.withRole role').withRole none = left := by
      rw [← hroles.1]
      cases left <;> rfl
    simp [place, Builder.act, Builder.add, this]
  have hleaves : (node role .binaryExpression [left, leaf none x, right]).leaves ++ ls =
      left.leaves ++ x :: (right.leaves ++ ls) := by
    simp [leaves, leavesOfList]
  -- The left operand is complete at the operator, which adopts it; the right one is where the node is.
  rw [hleaves, hleft role' level rest children outer _ hleftLevel hleftStop,
    build?_shift hstart, hplace]
  refine (hright none _ _ _ _ _ hrightLevel fun l hl => (hfollow l hl).1).trans ?_
  rw [build?_skip rfl fun l hl => (hfollow l hl).2, ← hroles.2, withRole_role]
  exact build?_leave _ _ _

theorem IsOperation.reads {t : Tree} (h : t.IsOperation) :
    Expectation.Reads [.expression t.role] [t] := by
  intro rest children outer ls hls
  have hfollow : ∀ l ∈ ls.head?, t.stopsAt l.token = true ∧
      (Item.operators t.role 0).start l.token = none := by
    intro l hl
    have hstop := hls l hl
    cases htoken : l.token with
    | binary o => simp [htoken, continues, Item.continues, Token.continuesExpression] at hstop
    | punctuation p =>
      cases p <;> first
        | exact ⟨rfl, rfl⟩
        | simp [htoken, continues, Item.continues, Token.continuesExpression] at hstop
    | _ => exact ⟨rfl, rfl⟩
  have hread := h t.role 0 rest children outer ls (fun _ _ => Nat.zero_le _)
    fun l hl => (hfollow l hl).1
  rw [build?_skip rfl fun l hl => (hfollow l hl).2, withRole_role] at hread
  have hall := h t.role 0 [] [] [] [] (fun _ _ => Nat.zero_le _) (by simp)
  rw [leavesOfList_singleton]
  cases hleaves : t.leaves with
  | nil =>
    rw [hleaves] at hall
    cases hall
  | cons l xs =>
    rw [hleaves] at hall hread
    cases hm : (Item.operand t.role).start l.token with
    | none =>
      simp [build?, advance, hm, Item.optional] at hall
      cases hall
    | some m =>
      have hstart : (Item.expression t.role).start l.token =
          some (m.followedBy [.operators t.role 0]) := by
        simp only [Item.start] at hm
        simp [Item.start, Item.startExpression, hm]
      exact (build?_unfold hm hstart).trans hread

end Tree

end HeyVL
