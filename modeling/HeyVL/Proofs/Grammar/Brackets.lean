import HeyVL.Proofs.Grammar.Repetition

namespace HeyVL

inductive Bracket
  | round | curly | square
deriving DecidableEq, Repr

namespace Bracket

def opening : Bracket → Token
  | round => .punctuation .parenOpen
  | curly => .punctuation .braceOpen
  | square => .punctuation .bracketOpen

def closing : Bracket → Token
  | round => .punctuation .parenClose
  | curly => .punctuation .braceClose
  | square => .punctuation .bracketClose

def all : List Bracket := [round, curly, square]

end Bracket

namespace Token

def isOpening (t : Token) : Bool := t ∈ Bracket.all.map Bracket.opening

def isClosing (t : Token) : Bool := t ∈ Bracket.all.map Bracket.closing

/-- Whether the token is a bracket. The token of the list types is none, nor are strings and comments
with brackets in them. -/
def isBracket (t : Token) : Bool := t.isOpening || t.isClosing

end Token

namespace Bracket

variable (b : Bracket)

@[simp] theorem isOpening_opening : b.opening.isOpening = true := by cases b <;> rfl

@[simp] theorem isClosing_opening : b.opening.isClosing = false := by cases b <;> rfl

@[simp] theorem isOpening_closing : b.closing.isOpening = false := by cases b <;> rfl

@[simp] theorem isClosing_closing : b.closing.isClosing = true := by cases b <;> rfl

@[simp] theorem isBracket_opening : b.opening.isBracket = true := by cases b <;> rfl

@[simp] theorem isBracket_closing : b.closing.isBracket = true := by cases b <;> rfl

end Bracket

def Kind.isBracket : Kind → Bool
  | .token t => t.isBracket
  | .category _ => false

inductive WellNested : List Token → Prop
  | nil : WellNested []
  | pair (b : Bracket) {u v : List Token} (hu : WellNested u) (hv : WellNested v) :
      WellNested (b.opening :: (u ++ b.closing :: v))

namespace WellNested

variable {u v w : List Token}

theorem append (hu : WellNested u) (hv : WellNested v) : WellNested (u ++ v) := by
  induction hu with
  | nil => exact hv
  | pair b hx _ _ ih =>
    have hrest := pair b hx ih
    simpa using hrest

theorem countP_eq (h : WellNested w) : w.countP Token.isClosing = w.countP Token.isOpening := by
  induction h with
  | nil => rfl
  | pair b _ _ ihu ihv =>
    simp only [List.countP_cons, List.countP_append, Bracket.isOpening_opening, Bracket.isClosing_opening,
      Bracket.isOpening_closing, Bracket.isClosing_closing, ihu, ihv]
    simp
    omega

theorem countP_le_of_isPrefix (h : WellNested w) (hu : u <+: w) :
    u.countP Token.isClosing ≤ u.countP Token.isOpening := by
  induction h generalizing u with
  | nil =>
    obtain rfl := List.prefix_nil.mp hu
    exact Nat.le_refl _
  | @pair b x y hx hy ihx ihy =>
    rcases List.prefix_cons_iff.mp hu with rfl | ⟨u, rfl, hrest⟩
    · exact Nat.le_refl _
    -- The place is in the pair, or the pair is before it.
    obtain ⟨v, huv⟩ := hrest
    rcases List.append_eq_append_iff.mp huv with ⟨z, hz, -⟩ | ⟨u, rfl, hz⟩
    · have hinner := ihx ⟨z, hz.symm⟩
      rw [List.countP_cons_of_pos b.isOpening_opening, List.countP_cons_of_neg (by simp)]
      omega
    · have hpair := hx.countP_eq
      rw [List.countP_cons_of_pos b.isOpening_opening, List.countP_cons_of_neg (by simp),
        List.countP_append, List.countP_append]
      rcases List.prefix_cons_iff.mp ⟨v, hz.symm⟩ with rfl | ⟨u, rfl, hbehind⟩
      · rw [hpair]
        simp
      · have hrest := ihy hbehind
        rw [List.countP_cons_of_pos b.isClosing_closing, List.countP_cons_of_neg (by simp)]
        omega

/-- A well-nested word cannot go on to another one with a closing bracket. -/
theorem not_append_closing {t : Token} (hu : WellNested u) (ht : t.isClosing = true)
    (ht' : t.isOpening = false) : ¬ WellNested (u ++ t :: v) := by
  intro h
  have hle := h.countP_le_of_isPrefix (u := u ++ [t]) ⟨v, by simp⟩
  have heq := hu.countP_eq
  rw [List.countP_append, List.countP_append, heq, List.countP_singleton, List.countP_singleton, ht,
    ht'] at hle
  exact absurd hle (Nat.not_succ_le_self _)

end WellNested

open Production

/-- A pair of brackets with what stands before them and between them. -/
structure Enclosure where
  bracket : Bracket
  first : List Production
  inner : List Production

/-- What the brackets make with what stands before them and between them. -/
def Enclosure.production (e : Enclosure) : Production :=
  inOrder (e.first ++ token e.bracket.opening :: (e.inner ++ [token e.bracket.closing]))

def Production.isBracketFree (p : Production) : Bool := p.labels.all fun x => !x.2.isBracket

namespace Category

/-- The brackets of a category. Nothing stands behind them. -/
def enclosure? : Category → Option Enclosure
  | domainDeclaration =>
    some ⟨.curly, [kw .kwDomain, declaredName], [many (symbol (.hidden .domainSpec))]⟩
  | parameterList => some ⟨.round, [], [separated (node .parameter)]⟩
  | block => some ⟨.curly, [], [many (seq statement (maybe (mark .semicolon)))]⟩
  | annotationInputs => some ⟨.round, [], [separated expression]⟩
  | iversonExpression => some ⟨.square, [], [expression]⟩
  | letExpression =>
    some ⟨.round, [kw .kwLet], [word, mark .comma, expression, mark .comma, expression]⟩
  | iteExpression =>
    some ⟨.round, [kw .kwIte], [expression, mark .comma, expression, mark .comma, expression]⟩
  | callExpression => some ⟨.round, [field .function word], [separated expression]⟩
  | parenthesizedExpression => some ⟨.round, [], [expression]⟩
  | quantifierTrigger => some ⟨.round, [mark .trigger], [separated expression]⟩
  | _ => none

variable {c : Category} {e : Enclosure} {w : List Label}

theorem expands_of_enclosure? (h : c.enclosure? = some e) :
    c.production.Expands w ↔ e.production.Expands w := by
  cases c
  case iversonExpression =>
    obtain rfl := Option.some.inj h
    exact expands_prec_iff
  all_goals
    cases h
    try exact Iff.rfl

theorem isBracketFree (c : Category) :
    c.enclosure?.elim c.production.isBracketFree
      (fun e => (inOrder e.first).isBracketFree && (inOrder e.inner).isBracketFree) = true := by
  have hall : all.all (fun c => c.enclosure?.elim c.production.isBracketFree
      fun e => (inOrder e.first).isBracketFree && (inOrder e.inner).isBracketFree) = true := by
    decide
  exact List.all_eq_true.mp hall c c.mem_all

end Category

theorem Production.Expands.isBracket_eq_false {p : Production} {w : List Label} (h : Expands p w)
    (hp : p.isBracketFree = true) : ∀ x ∈ w, x.2.isBracket = false := by
  intro x hx
  have hx' := List.all_eq_true.mp hp x (h.mem_labels x hx)
  simpa using hx'

/-- A child list has no brackets, or one pair of brackets at whose closing one it ends. -/
theorem Category.brackets_of_expands {c : Category} {w : List Label} (h : c.production.Expands w) :
    (∀ x ∈ w, x.2.isBracket = false) ∨
      ∃ (b : Bracket) (u v : List Label),
        w = u ++ (none, .token b.opening) :: (v ++ [(none, .token b.closing)]) ∧
          (∀ x ∈ u, x.2.isBracket = false) ∧ ∀ x ∈ v, x.2.isBracket = false := by
  have hfree := c.isBracketFree
  cases he : c.enclosure? with
  | none =>
    rw [he] at hfree
    exact .inl (h.isBracket_eq_false hfree)
  | some e =>
    rw [he] at hfree
    obtain ⟨hfirst, hinner⟩ := (Bool.and_eq_true _ _).mp hfree
    obtain ⟨u, _, hu, hpair, rfl⟩ :=
      expands_inOrder_append_iff.mp ((Category.expands_of_enclosure? he).mp h)
    obtain ⟨x, _, hx, hrest, rfl⟩ := expands_inOrder_cons_iff.mp hpair
    obtain ⟨v, y, hv, hy, rfl⟩ := expands_inOrder_append_iff.mp hrest
    obtain rfl := expands_token_iff.mp hx
    obtain rfl := expands_token_iff.mp hy
    exact .inr ⟨e.bracket, u, v, rfl, hu.isBracket_eq_false hfirst, hv.isBracket_eq_false hinner⟩

end HeyVL
