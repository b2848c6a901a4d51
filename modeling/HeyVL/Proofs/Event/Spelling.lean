import HeyVL.Proofs.Event.Lexing
import HeyVL.Proofs.Grammar.Words
import HeyVL.Proofs.Token.Separation

namespace HeyVL

open Bytes

namespace Token

variable {viable : Token → Prop} {t : Token}

/-- One text of a token. -/
def sample : Token → Bytes
  | identifier => ofText "x"
  | decimal => ofText "0.0"
  | integer => ofText "0"
  | string => ofText "\"\""
  | comment => ofText "//"
  | t => (t.texts.head?.map ofText).getD []

theorem sample_table : Token.all.all (fun t =>
    t.matchLength t.sample == some t.sample.length && !closes t.sample &&
      (t != identifier || Token.all.all fun u =>
        u.matchLength t.sample != some t.sample.length || u == identifier)) = true := by
  decide

theorem sample_spec (t : Token) :
    t.Matches t.sample t.sample.length ∧ closes t.sample = false ∧
      (t = identifier → ∀ u, u.Matches t.sample t.sample.length → u = identifier) := by
  have hall := forall_of_all sample_table t
  simp only [Bool.and_eq_true, beq_iff_eq, Bool.not_eq_true'] at hall
  obtain ⟨⟨htext, hcloses⟩, hidentifier⟩ := hall
  refine ⟨matches_length_iff.mpr htext, hcloses, ?_⟩
  rintro rfl u hu
  rw [bne_self_eq_false, Bool.false_or, List.all_eq_true] at hidentifier
  simpa [matches_length_iff.mp hu] using hidentifier u u.mem_all

theorem taken_sample (ht : viable t) {x : Bytes} (hx : closes x = false) :
    Taken viable (t.sample ++ 10 :: x) t t.sample.length := by
  obtain ⟨htext, -, hidentifier⟩ := t.sample_spec
  have hle {u : Token} {m : Nat} (h : u.Matches (t.sample ++ []) m) : m ≤ t.sample.length := by
    rw [List.append_nil] at h
    exact h.1
  have hstands : Stands viable (t.sample ++ []) t t.sample.length := by
    refine ⟨.inr ht, ?_, fun m => hle⟩
    rwa [List.append_nil]
  have htaken : Taken viable (t.sample ++ []) t t.sample.length := by
    refine ⟨hstands, fun u m h => hle h.text, fun h u hu => hidentifier h u ?_⟩
    have hu := hu.text
    rwa [List.append_nil] at hu
  exact htaken.of_append (.inr ⟨x, rfl, hx⟩) (Nat.le_refl _)

/-- The tokens spelled one on a line. -/
def spell (ts : List Token) : Bytes := ts.flatMap fun t => t.sample ++ [10]

theorem spell_cons (t : Token) (ts : List Token) : spell (t :: ts) = t.sample ++ 10 :: spell ts := by
  simp [spell]

theorem closes_spell (ts : List Token) : closes (spell ts) = false := by
  induction ts with
  | nil => rfl
  | cons t ts ih => rw [spell_cons, closes_append_newline, t.sample_spec.2.1, ih]; rfl

end Token

open Token Grammar Lexeme

/-- What is spelled of the language is cut into the tokens it was spelled from. -/
theorem Lexes.of_spell {before ts : List Token} (h : Derivable (before ++ ts)) (offset : Nat) :
    ∃ ls, Lexes before offset (spell ts) ls [] ∧ tokensOf ls = ts := by
  induction ts generalizing before offset with
  | nil => exact ⟨[], .stop _ _ _, rfl⟩
  | cons t ts ih =>
    have hviable : Viable before t := ⟨ts, h⟩
    have htail : Derivable (before ++ [t] ++ ts) := by rwa [List.append_assoc]
    have htaken := taken_sample hviable (closes_spell ts)
    have hcomment : t ≠ .comment := h.ne_comment t (by simp)
    have htokens : tokensOf [⟨t, offset, offset + t.sample.length⟩] = [t] := by
      simp [tokensOf, significant, hcomment]
    obtain ⟨ls, hls, hts⟩ := ih htail (offset + t.sample.length + 1)
    refine ⟨⟨t, offset, offset + t.sample.length⟩ :: ls, ?_, ?_⟩
    · rw [spell_cons]
      refine .lexeme htaken ?_
      rw [htokens, List.drop_left]
      exact .space rfl hls
    · calc tokensOf (⟨t, offset, offset + t.sample.length⟩ :: ls)
          = tokensOf ([⟨t, offset, offset + t.sample.length⟩] ++ ls) := rfl
        _ = t :: ts := by rw [tokensOf_append, htokens, hts]; rfl

end HeyVL
