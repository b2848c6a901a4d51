import HeyVL.Proofs.Expectation.Soundness
import HeyVL.Tree.Builder

namespace HeyVL

namespace Expectation

variable {todo rest : Expectation} {b : Builder} {item : Item} {l : Lexeme} {ls : List Lexeme}
  {m : Move}

/-- The builder behind a move: the steps before the token, then its leaf. -/
def place (b : Builder) (m : Move) (l : Lexeme) : Builder :=
  (m.before.foldl Builder.act b).add (.leaf m.role l)

/-- The builder when all lexemes are read and nothing more need follow. -/
def build? (todo : Expectation) (b : Builder) : List Lexeme → Option Builder
  | [] => todo.finish?.map fun actions => actions.foldl Builder.act b
  | l :: ls => (todo.advance l.token).bind fun m => build? m.after (place b m l) ls

/-- What is expected when all tokens are read. -/
def after? (todo : Expectation) : List Token → Option Expectation
  | [] => some todo
  | t :: ts => (todo.advance t).bind fun m => after? m.after ts

/-- Whether the tokens are a complete text of what is expected. -/
def accepts (todo : Expectation) (ts : List Token) : Bool :=
  (todo.after? ts).any fun todo => todo.finish?.isSome

theorem after?_append (todo : Expectation) (us vs : List Token) :
    todo.after? (us ++ vs) = (todo.after? us).bind fun todo => todo.after? vs := by
  induction us generalizing todo with
  | nil => rfl
  | cons t us ih =>
    rw [List.cons_append, after?, after?]
    cases todo.advance t with
    | none => rfl
    | some m => exact ih m.after

theorem isSome_build? (todo : Expectation) (b : Builder) (ls : List Lexeme) :
    (todo.build? b ls).isSome = todo.accepts (ls.map Lexeme.token) := by
  induction ls generalizing todo b with
  | nil => cases h : todo.finish? <;> simp [build?, accepts, after?, h]
  | cons l ls ih =>
    simp only [build?, accepts, after?, List.map_cons]
    cases todo.advance l.token with
    | none => rfl
    | some m => exact ih m.after (place b m l)

theorem generates_of_after? {todo later : Expectation} {us vs : List Token}
    (h : todo.after? us = some later) (hv : Production.Generates later.phrase vs) :
    Production.Generates todo.phrase (us ++ vs) := by
  induction us generalizing todo with
  | nil =>
    cases h
    exact hv
  | cons t us ih =>
    obtain ⟨m, hm, hlater⟩ := Option.bind_eq_some_iff.mp h
    exact generates_of_advance hm (ih hlater)

theorem generates_of_accepts {ts : List Token} (h : todo.accepts ts = true) :
    Production.Generates todo.phrase ts := by
  obtain ⟨later, hlater, hfinish⟩ := (Option.any_eq_true _ _).mp h
  obtain ⟨actions, hactions⟩ := Option.isSome_iff_exists.mp hfinish
  simpa using generates_of_after? hlater (generates_nil_of_finish? hactions)

theorem build?_nil (b : Builder) : build? [] b [] = some b := rfl

theorem build?_shift (h : item.start l.token = some m) :
    build? (item :: rest) b (l :: ls) = build? (m.after ++ rest) (place b m l) ls := by
  simp [build?, advance, h, Move.followedBy, place]

theorem build?_skip (hitem : item.optional = true)
    (h : ∀ x ∈ ls.head?, item.start x.token = none) :
    build? (item :: rest) b ls = build? rest (item.skipped.foldl Builder.act b) ls := by
  cases ls with
  | nil =>
    simp only [build?, finish?, hitem, if_true, Option.map_map]
    congr 1
    funext actions
    simp
  | cons l ls =>
    have hl := h l (by simp)
    simp only [build?, advance, hl, hitem, if_true]
    cases rest.advance l.token with
    | none => rfl
    | some m => simp [place]

theorem build?_unfold {other : Item} {items : List Item} (h : other.start l.token = some m)
    (hitem : item.start l.token = some (m.followedBy items)) :
    build? (item :: rest) b (l :: ls) = build? (other :: items ++ rest) b (l :: ls) := by
  rw [build?_shift hitem, List.cons_append, build?_shift h]
  simp [Move.followedBy, place]

theorem build?_leave (role : Option Field) (c : Category) (children : List Tree) :
    build? (.leave role c :: rest) (children :: b) ls =
      build? rest (Builder.add (.node role c children) b) ls :=
  build?_skip rfl fun _ _ => rfl

end Expectation

end HeyVL
