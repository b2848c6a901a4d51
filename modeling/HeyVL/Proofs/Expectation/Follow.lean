import HeyVL.Proofs.Expectation.Run
import HeyVL.Proofs.Tree.Syntax

/-!
What may follow a phrase. A complete phrase could still take some tokens (an operator behind an
expression, a comma behind a list), and where none of these comes next, reading the leaves of the
trees of a phrase builds just these trees.
-/

namespace HeyVL

open Production

/-- An operator or the parenthesis of a call could still belong to an expression before it. -/
def Token.continuesExpression : Token → Bool
  | .binary _ | .punctuation .parenOpen => true
  | _ => false

/-- The tokens that a complete phrase of the item could still take. -/
def Item.continues : Item → Token → Bool
  | .maybe item, t | .many item, t => (item.start t).isSome || item.continues t
  | .more _ item, t => t == .punctuation .comma || item.continues t
  | .series item, t =>
    (item.start t).isSome || t == .punctuation .comma || item.continues t
  | .declaration, t =>
    t.continuesExpression || t == .keyword .kwPre || t == .keyword .kwPost ||
      t == .punctuation .braceOpen
  | .specification, t | .initializer, t | .expression _, t => t.continuesExpression
  | .domainItem, t | .functionBody, t =>
    t.continuesExpression || t == .punctuation .assign || t == .punctuation .computable
  | .statement _, t =>
    t.continuesExpression || t == .punctuation .assign || t == .punctuation .comma
  | .blockStatement, t =>
    t.continuesExpression || t == .punctuation .assign || t == .punctuation .comma ||
      t == .punctuation .semicolon
  | _, _ => false

/-- Items that are whole phrases, in which nothing that follows a part could belong to it. -/
def Item.isRegular : Item → Bool
  | .maybe item => item.isRegular && !item.optional
  | .many item =>
    item.isRegular && !item.optional &&
      Token.all.all fun t => !(item.continues t && (item.start t).isSome)
  | .more _ item => item.isRegular && !item.continues (.punctuation .comma)
  | .series item =>
    item.isRegular && !item.optional && !item.continues (.punctuation .comma)
  | .leave _ _ | .nameTail _ | .ifTail _ | .operand _ | .callTail _ | .operators _ _ => false
  | _ => true

namespace Expectation

/-- The tokens that a complete text of all phrases could still take. -/
def continues : Expectation → Token → Bool
  | [], _ => false
  | item :: rest, t => continues rest t || rest.all Item.optional && item.continues t

/-- Lists of whole phrases in which nothing that follows a phrase could belong to it. -/
def isRegular : Expectation → Bool
  | [] => true
  | item :: rest =>
    item.isRegular && isRegular rest &&
      Token.all.all fun t => !(item.continues t && expects rest t)

end Expectation

/-- Where none of the tokens follows, the leaves are read and the trees are built. -/
def Expectation.Reads (items : Expectation) (ts : List Tree) : Prop :=
  ∀ (rest : Expectation) (children : List Tree) (outer : Builder) (ls : List Lexeme),
    (∀ l ∈ ls.head?, items.continues l.token = false) →
      build? (items ++ rest) (children :: outer) (Tree.leavesOfList ts ++ ls) =
        build? rest ((children ++ ts) :: outer) ls

namespace Expectation

variable {items rest : Expectation} {item other : Item} {ts us : List Tree}

theorem all_optional_of_finish? (h : (finish? items).isSome = true) :
    items.all Item.optional = true := by
  induction items with
  | nil => rfl
  | cons item rest ih =>
    rw [finish?] at h
    split at h
    · next hitem => simpa [hitem] using ih (by simpa using h)
    · cases h

theorem reads_nil : Reads [] [] := by
  intro rest children outer ls _
  simp [Tree.leavesOfList]

theorem Reads.build?_eq (h : Reads items ts) :
    build? items [[]] (Tree.leavesOfList ts) = some [ts] := by
  simpa [build?_nil] using h [] [] [] [] (by simp)

theorem Reads.expects_head {l : Lexeme} {ls : List Lexeme} (h : Reads items ts)
    (hl : Tree.leavesOfList ts = l :: ls) : items.expects l.token = true := by
  have hbuild := h.build?_eq
  rw [hl, build?] at hbuild
  obtain ⟨m, hm, -⟩ := Option.bind_eq_some_iff.mp hbuild
  rw [expects, hm]
  rfl

theorem Reads.all_optional (h : Reads items ts) (hl : Tree.leavesOfList ts = []) :
    items.all Item.optional = true := by
  have hbuild := h.build?_eq
  rw [hl, build?] at hbuild
  obtain ⟨actions, hactions, -⟩ := Option.map_eq_some_iff.mp hbuild
  exact all_optional_of_finish? (by rw [hactions]; rfl)

/-- Phrases are read one after the other if the first could take nothing that the others begin
with. -/
theorem reads_cons (hitem : Reads [item] ts) (hrest : Reads rest us)
    (hdisjoint : ∀ t, item.continues t = true → rest.expects t = false) :
    Reads (item :: rest) (ts ++ us) := by
  intro later children outer ls hls
  -- What follows the item is the first leaf of the rest, or what follows the rest if it has none.
  have hhead : ∀ l ∈ (Tree.leavesOfList us ++ ls).head?, continues [item] l.token = false := by
    intro l hl
    have hitem : item.continues l.token = false := by
      cases hus : Tree.leavesOfList us with
      | nil =>
        rw [hus, List.nil_append] at hl
        have := hls l hl
        simp only [continues, hrest.all_optional hus, Bool.true_and, Bool.or_eq_false_iff] at this
        exact this.2
      | cons x xs =>
        obtain rfl : x = l := by simpa [hus] using hl
        refine Bool.eq_false_iff.mpr fun hcontinues => ?_
        have := hdisjoint x.token hcontinues
        rw [hrest.expects_head hus] at this
        cases this
    simpa [continues] using hitem
  have hlater : ∀ l ∈ ls.head?, continues rest l.token = false := by
    intro l hl
    have := hls l hl
    simp only [continues, Bool.or_eq_false_iff] at this
    exact this.1
  calc build? (item :: rest ++ later) (children :: outer) (Tree.leavesOfList (ts ++ us) ++ ls)
      = build? ([item] ++ (rest ++ later)) (children :: outer)
          (Tree.leavesOfList ts ++ (Tree.leavesOfList us ++ ls)) := by
        rw [Tree.leavesOfList_append]
        simp
    _ = build? (rest ++ later) ((children ++ ts) :: outer) (Tree.leavesOfList us ++ ls) :=
        hitem _ _ _ _ hhead
    _ = build? later ((children ++ (ts ++ us)) :: outer) ls := by
        rw [hrest _ _ _ _ hlater]
        simp

theorem Reads.exists_start (h : Reads [item] ts) (hitem : item.optional = false) :
    ∃ l ls m, Tree.leavesOfList ts = l :: ls ∧ item.start l.token = some m := by
  cases hl : Tree.leavesOfList ts with
  | nil => simpa [hitem] using h.all_optional hl
  | cons l ls =>
    have := h.expects_head hl
    simp only [expects, advance, hitem] at this
    cases hm : item.start l.token with
    | none => simp [hm] at this
    | some m => exact ⟨l, ls, m, rfl, hm⟩

/-- An item that begins like another one with more behind it is read like these. -/
theorem reads_unfold (hother : Reads [other] ts) (hitems : Reads (other :: items) (ts ++ us))
    (hoptional : other.optional = false)
    (hstart : ∀ t m, other.start t = some m → item.start t = some (m.followedBy items))
    (hcontinues : ∀ t, item.continues t = false → continues (other :: items) t = false) :
    Reads [item] (ts ++ us) := by
  intro rest children outer ls hls
  obtain ⟨l, xs, m, hl, hm⟩ := hother.exists_start hoptional
  have hread := hitems rest children outer ls fun x hx =>
    hcontinues x.token (by simpa [continues] using hls x hx)
  rw [Tree.leavesOfList_append, hl, List.cons_append, List.cons_append] at hread ⊢
  exact (build?_unfold hm (hstart l.token m hm)).trans hread

theorem reads_nothing (hitem : item.optional = true) (hskipped : item.skipped = [])
    (hcontinues : ∀ t, item.continues t = false → item.start t = none) :
    Reads [item] [] := by
  intro rest children outer ls hls
  have hskip : ∀ x ∈ ls.head?, item.start x.token = none := fun x hx =>
    hcontinues x.token (by simpa [continues] using hls x hx)
  simpa [Tree.leavesOfList, hskipped] using build?_skip (b := children :: outer) hitem hskip

end Expectation

end HeyVL
