import HeyVL.Proofs.Token.Respelling
import HeyVL.Proofs.Expectation.Reserved
import HeyVL.Proofs.Grammar.Adjacent

namespace HeyVL

open Bytes

namespace Token

variable {viable viable' : Token → Prop} {bytes : Bytes} {t u : Token} {b : UInt8} {n m : Nat}

/-- A longer text of another token goes on behind the at sign with a word, or it goes on behind a sign
that awaits an expression with a byte that begins neither a comment nor an expression. -/
theorem longer_table : all.all (fun u => u.isReserved || u.texts.all fun s' =>
    all.all fun t => t.isClass || t.texts.all fun s =>
      !(ofText s).isPrefixOf (ofText s') || s == s' ||
      t == punctuation .atSign && u.isWordSign ||
      t.awaitsExpression && ((ofText s').drop (ofText s).length).head?.any fun b =>
        !isSpace b && all.all fun x => !((x == comment || x.startsExpression) && x.begins b)) =
    true := by
  decide

theorem identifier_matches_of_isReserved (hu : u.isReserved = true) (h : u.Matches bytes m) :
    identifier.Matches bytes m := by
  obtain ⟨b, rest, rfl, hb, -⟩ := exists_begins h
  exact (isReserved_or_eq_identifier (isWordStart_of_isReserved hu hb) h).2

theorem le_of_isClass (hclass : t.isClass = true) (ht : t.Matches bytes n)
    (hreserved : u.isReserved = false) (hfinite : u.isClass = false) (hu : u.Matches bytes m) :
    m ≤ n := by
  obtain ⟨s, hs, htake, rfl⟩ := exists_spelling hfinite hu
  have hall := forall_of_all extension_table u
  rw [hreserved, Bool.false_or] at hall
  have hpair := forall_of_all (List.all_eq_true.mp hall s hs) t
  rw [if_pos hclass, Bool.or_eq_true, beq_iff_eq] at hpair
  obtain ⟨b, rest, rfl, hb, hpos⟩ := exists_begins ht
  rcases hpair with hone | hnone
  · omega
  · cases hlength : (ofText s).length with
    | zero => exact Nat.zero_le n
    | succ k =>
      rw [← htake, hlength, List.take_succ_cons, List.head?_cons, Option.any_some, hb] at hnone
      cases hnone

/-- What may be behind a sign that awaits an expression: whitespace, a comment or an expression. -/
def MayFollow (b : UInt8) : Prop :=
  isSpace b = true ∨ ∃ x : Token, (x = comment ∨ x.startsExpression = true) ∧ x.begins b = true

theorem cases_of_lt (hclass : t.isClass = false) (ht : t.Matches bytes n)
    (hreserved : u.isReserved = false) (hfinite : u.isClass = false) (hu : u.Matches bytes m)
    (hlt : n < m) :
    (t = punctuation .atSign ∧ u.isWordSign = true) ∨ t.awaitsExpression = true ∧
      ∃ b ∈ (bytes.drop n).head?, ¬ MayFollow b := by
  obtain ⟨s, hs, htake, hlength⟩ := exists_spelling hclass ht
  obtain ⟨s', hs', htake', hlength'⟩ := exists_spelling hfinite hu
  have hall := forall_of_all longer_table u
  rw [hreserved, Bool.false_or] at hall
  have hpair := forall_of_all (List.all_eq_true.mp hall s' hs') t
  rw [hclass, Bool.false_or] at hpair
  have hpair := List.all_eq_true.mp hpair s hs
  have hbegin : (ofText s).isPrefixOf (ofText s') = true := by
    rw [List.isPrefixOf_iff_prefix, ← htake, ← htake']
    exact List.take_prefix_take_left hlt.le
  have hne : (s == s') = false := by
    rw [beq_eq_false_iff_ne]
    rintro rfl
    omega
  simp only [hbegin, hne, Bool.not_true, Bool.false_or, Bool.or_eq_true, Bool.and_eq_true,
    beq_iff_eq, Option.any_eq_true, Bool.not_eq_true'] at hpair
  refine hpair.imp id fun ⟨hawaits, b, hb, hspace, hnone⟩ => ⟨hawaits, b, ?_, ?_⟩
  · rw [← hlength, ← htake', List.drop_take, List.head?_take, if_neg (by omega)] at hb
    exact hb
  · rintro (hb | ⟨x, hx, hbegins⟩)
    · rw [hspace] at hb
      cases hb
    · have hx' : (x == comment || x.startsExpression) = true := by simpa using hx
      have := forall_of_all hnone x
      rw [hx', hbegins] at this
      cases this

/-- A token is taken where other tokens are viable if no reserved word is viable only there, and what is
behind a sign that awaits an expression begins one. -/
theorem Taken.of_viable (h : Taken viable bytes t n) (ht : t = comment ∨ viable' t)
    (hnumber : viable integer ↔ viable decimal)
    (hat : viable' (punctuation .atSign) → ∀ u, u.isWordSign = true → ¬ viable' u)
    (hnext : t.awaitsExpression = true → ∀ b ∈ (bytes.drop n).head?, MayFollow b)
    (hwords : t = identifier → ∀ u, u.isReserved = true → viable' u → viable u) :
    Taken viable' bytes t n := by
  have htext := h.stands.text
  refine ⟨⟨ht, htext, h.stands.whole⟩, fun u m hu => ?_, fun hidentifier u hu => ?_⟩
  · by_contra hle
    rw [not_le] at hle
    -- A longer token that stands here was not viable before.
    have hnot : ¬ (u = comment ∨ viable u) := fun hviable =>
      absurd (h.longest u m ⟨hviable, hu.text, hu.whole⟩) (by omega)
    rw [not_or] at hnot
    have huviable := hu.is_viable.resolve_left hnot.1
    have hidentifier : ¬ identifier.Matches bytes m := fun hm =>
      absurd (h.stands.whole m hm) (by omega)
    cases hreserved : u.isReserved with
    | true => exact hidentifier (identifier_matches_of_isReserved hreserved hu.text)
    | false =>
      cases hfinite : u.isClass with
      | true =>
        have hcases : u = identifier ∨ u.isNumber = true ∨ u = string ∨ u = comment := by
          cases u <;> simp_all [isClass, isNumber]
        rcases hcases with rfl | hunumber | rfl | rfl
        · exact hidentifier hu.text
        · -- Two numbers are viable together.
          obtain ⟨b, rest, rfl, hb, -⟩ := exists_begins hu.text
          obtain ⟨_, _, heq, hbegins, -⟩ := exists_begins htext
          obtain ⟨rfl, rfl⟩ := List.cons.inj heq
          have htnumber := isNumber_of_begins (isDigit_of_isNumber hunumber hb) hbegins
          have hviable : viable t := by
            refine h.stands.is_viable.resolve_left ?_
            rintro rfl
            cases htnumber
          apply hnot.2
          simp only [isNumber, Bool.or_eq_true, beq_iff_eq] at htnumber hunumber
          rcases htnumber with rfl | rfl <;> rcases hunumber with rfl | rfl
          · exact hviable
          · exact hnumber.mpr hviable
          · exact hnumber.mp hviable
          · exact hviable
        · have := eq_length_of_string htext hu.text
          omega
        · exact hnot.1 rfl
      | false =>
        cases hclass : t.isClass with
        | true => exact absurd (le_of_isClass hclass htext hreserved hfinite hu.text) (by omega)
        | false =>
          rcases cases_of_lt hclass htext hreserved hfinite hu.text hle with
            ⟨rfl, hsign⟩ | ⟨hawaits, b, hb, hnone⟩
          · exact hat (ht.resolve_left Token.noConfusion) u hsign huviable
          · exact hnone (hnext hawaits b hb)
  · subst hidentifier
    rcases eq_of_matches htext hu.text with heq | ⟨heq, -⟩ | ⟨-, hreserved⟩
    · exact heq
    · exact heq
    · have hviable := hwords rfl u hreserved (hu.is_viable.resolve_left (by rintro rfl; cases hreserved))
      exact h.unreserved rfl u ⟨.inr hviable, hu.text, hu.whole⟩

end Token

end HeyVL
