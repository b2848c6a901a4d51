import HeyVL.Proofs.Expectation.Completeness
import HeyVL.Proofs.Tree.Existence

namespace HeyVL

open Production

namespace Expectation

variable {todo : Expectation} {ls : List Lexeme} {us vs : List Token} {t : Token}

/-- The trees are built from the lexemes just if these are the leaves of the syntax tree that has
the trees as its children. -/
theorem build?_source_iff {ts : List Tree} :
    build? .source [[]] ls = some [ts] ↔
      (Tree.node none .sourceFile ts).IsSyntax ∧ Tree.leavesOfList ts = ls := by
  constructor
  · intro h
    have haccepts : source.accepts (ls.map Lexeme.token) = true := by
      rw [← isSome_build? source [[]] ls, h]
      rfl
    obtain ⟨us, hus, rfl⟩ := Tree.exists_isSyntax (.symbol (generates_of_accepts haccepts))
    have hbuild : build? .source [[]] (Tree.leavesOfList us) = some [us] :=
      hus.build?_source rfl
    obtain rfl : us = ts := by simpa [hbuild] using h
    exact ⟨hus, rfl⟩
  · rintro ⟨hts, rfl⟩
    exact hts.build?_source rfl

theorem map_token_of_places (ts : List Token) :
    (ts.map fun t => (⟨t, 0, 0⟩ : Lexeme)).map Lexeme.token = ts := by
  simp [Function.comp_def]

theorem accepts_source_iff : source.accepts us = true ↔ Grammar.Derivable us := by
  constructor
  · intro h
    exact .symbol (generates_of_accepts h)
  · intro h
    rw [← map_token_of_places us] at h ⊢
    obtain ⟨ts, hts, hleaves⟩ := Tree.exists_isSyntax h
    rw [← isSome_build? source [[]], build?_source_iff.mpr ⟨hts, hleaves⟩]
    rfl

theorem exists_derivable_of_after? (h : source.after? us = some todo) :
    ∃ vs, Grammar.Derivable (us ++ vs) := by
  obtain ⟨vs, hvs⟩ := exists_generates todo.phrase
  exact ⟨vs, .symbol (generates_of_after? h hvs)⟩

theorem exists_after?_of_derivable (h : Grammar.Derivable (us ++ vs)) :
    ∃ todo, source.after? us = some todo ∧ (todo.after? vs).any fun todo => todo.finish?.isSome := by
  have haccepts := accepts_source_iff.mpr h
  rw [accepts, after?_append, Option.any_bind] at haccepts
  obtain ⟨todo, htodo, hafter⟩ := (Option.any_eq_true _ _).mp haccepts
  exact ⟨todo, htodo, hafter⟩

theorem expects_iff_viable (h : source.after? us = some todo) :
    todo.expects t = true ↔ Grammar.Viable us t := by
  constructor
  · intro ht
    obtain ⟨m, hm⟩ := Option.isSome_iff_exists.mp ht
    have hafter : source.after? (us ++ [t]) = some m.after := by
      simp [after?_append, h, after?, hm]
    obtain ⟨vs, hvs⟩ := exists_derivable_of_after? hafter
    exact ⟨vs, by simpa using hvs⟩
  · rintro ⟨vs, hvs⟩
    obtain ⟨other, hother, hafter⟩ := exists_after?_of_derivable hvs
    obtain rfl : todo = other := by simpa [h] using hother
    rw [after?, Option.any_bind] at hafter
    obtain ⟨m, hm, -⟩ := (Option.any_eq_true _ _).mp hafter
    rw [expects, hm]
    rfl

theorem finish?_iff_derivable (h : source.after? us = some todo) :
    todo.finish?.isSome = true ↔ Grammar.Derivable us := by
  rw [← accepts_source_iff, accepts, h]
  rfl

end Expectation

end HeyVL
