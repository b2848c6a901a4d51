import HeyVL.Event
import HeyVL.Grammar.Derivation
import HeyVL.Proofs.Token.Taking

/-!
How a source is cut into lexemes. Each of them is the longest match at its place among the comments
and the tokens that are viable behind the tokens before it. What is cut may end anywhere; the bytes
that are left keep their part in what is the longest.
-/

namespace HeyVL

open Token Grammar

namespace Lexeme

/-- The lexemes that are no comments. -/
def significant (ls : List Lexeme) : List Lexeme := ls.filter fun l => l.token != .comment

def onlyComments (ls : List Lexeme) : List Lexeme := ls.filter fun l => l.token == .comment

def tokensOf (ls : List Lexeme) : List Token := (significant ls).map token

/-- The end of the last lexeme, or the given offset if there is none. -/
def endOf (start : Nat) (ls : List Lexeme) : Nat := (ls.getLast?.map stop).getD start

@[simp] theorem tokensOf_nil : tokensOf [] = [] := rfl

@[simp] theorem tokensOf_append (ls ms : List Lexeme) :
    tokensOf (ls ++ ms) = tokensOf ls ++ tokensOf ms := by
  simp [tokensOf, significant]

@[simp] theorem endOf_nil (start : Nat) : endOf start [] = start := rfl

theorem endOf_cons (start : Nat) (l : Lexeme) (ls : List Lexeme) :
    endOf start (l :: ls) = endOf l.stop ls := by
  cases h : ls.getLast? <;> simp [endOf, List.getLast?_cons, h]

variable {l : Lexeme} {ls us vs : List Lexeme}

theorem mem_significant_iff : l ∈ significant ls ↔ l ∈ ls ∧ l.token ≠ .comment := by
  simp [significant]

theorem mem_onlyComments_iff : l ∈ onlyComments ls ↔ l ∈ ls ∧ l.token = .comment := by
  simp [onlyComments]

theorem significant_eq_self (h : ∀ l ∈ ls, l.token ≠ .comment) : significant ls = ls :=
  List.filter_eq_self.mpr fun l hl => by simpa using h l hl

theorem onlyComments_eq_nil (h : ∀ l ∈ ls, l.token ≠ .comment) : onlyComments ls = [] :=
  List.filter_eq_nil_iff.mpr fun l hl => by simpa using h l hl

theorem exists_split_of_significant (h : significant ls = us ++ l :: vs) :
    ∃ us' vs', ls = us' ++ l :: vs' ∧ significant us' = us ∧ significant vs' = vs := by
  obtain ⟨us', ms, rfl, hus, hms⟩ := List.filter_eq_append_iff.mp h
  obtain ⟨ks, vs', rfl, hks, -, hvs⟩ := List.filter_eq_cons_iff.mp hms
  refine ⟨us' ++ ks, vs', (List.append_assoc _ _ _).symm, ?_, hvs⟩
  rw [significant, List.filter_append, hus, List.filter_eq_nil_iff.mpr hks, List.append_nil]

end Lexeme

open Lexeme

/-- The bytes from the offset on are cut into whitespace and the lexemes up to the bytes that are
left. The tokens before them tell which tokens are viable. -/
inductive Lexes : List Token → Nat → Bytes → List Lexeme → Bytes → Prop
  | stop (before : List Token) (offset : Nat) (bytes : Bytes) :
      Lexes before offset bytes [] bytes
  | space {before : List Token} {offset : Nat} {b : UInt8} {bytes rest : Bytes}
      {ls : List Lexeme} (hb : Bytes.isSpace b = true)
      (h : Lexes before (offset + 1) bytes ls rest) : Lexes before offset (b :: bytes) ls rest
  | lexeme {before : List Token} {offset n : Nat} {t : Token} {bytes rest : Bytes}
      {ls : List Lexeme} (ht : Taken (Viable before) bytes t n)
      (h : Lexes (before ++ tokensOf [⟨t, offset, offset + n⟩]) (offset + n) (bytes.drop n) ls rest) :
      Lexes before offset bytes (⟨t, offset, offset + n⟩ :: ls) rest

namespace Lexes

variable {before : List Token} {offset : Nat} {bytes rest tail : Bytes} {ls ms : List Lexeme}

theorem length_le (h : Lexes before offset bytes ls rest) : rest.length ≤ bytes.length := by
  induction h with
  | stop => exact Nat.le_refl _
  | space _ _ ih => exact ih.trans (Nat.le_succ _)
  | lexeme _ _ ih => exact ih.trans (by simp)

theorem append (h : Lexes before offset bytes ls rest)
    (hrest : Lexes (before ++ tokensOf ls) (offset + (bytes.length - rest.length)) rest ms tail) :
    Lexes before offset bytes (ls ++ ms) tail := by
  induction h with
  | stop => simpa using hrest
  | @space before offset b bytes rest ls hb h ih =>
    have hle := h.length_le
    refine .space hb (ih ?_)
    have hoffset : offset + 1 + (bytes.length - rest.length) =
        offset + ((b :: bytes).length - rest.length) := by
      rw [List.length_cons]
      omega
    rwa [hoffset]
  | @lexeme before offset n t bytes rest ls ht h ih =>
    have hle := h.length_le
    have hn := ht.stands.text.1
    refine .lexeme ht (ih ?_)
    have hoffset : offset + n + ((bytes.drop n).length - rest.length) =
        offset + (bytes.length - rest.length) := by
      rw [List.length_drop] at hle ⊢
      omega
    rw [hoffset, List.append_assoc, ← tokensOf_append]
    exact hrest

theorem not_stands_of_isSpace {viable : Token → Prop} {b : UInt8} {bytes : Bytes}
    (hb : Bytes.isSpace b = true) (t : Token) (n : Nat) : ¬ Stands viable (b :: bytes) t n := by
  intro h
  obtain ⟨_, _, heq, hbegins, -⟩ := exists_begins h.text
  obtain ⟨rfl, rfl⟩ := List.cons.inj heq
  rw [(not_isSpace_of_begins hbegins).1] at hb
  cases hb

theorem exists_maximal (before : List Token) (offset : Nat) (bytes : Bytes) :
    ∃ ls rest, Lexes before offset bytes ls rest ∧
      (∀ b ∈ rest.head?, Bytes.isSpace b = false) ∧
      ∀ t n, ¬ Stands (Viable (before ++ tokensOf ls)) rest t n := by
  induction hlength : bytes.length using Nat.strong_induction_on
    generalizing before offset bytes with
  | _ k ih =>
    subst hlength
    by_cases hstands : ∃ t n, Stands (Viable before) bytes t n
    · obtain ⟨t, n, hstands⟩ := hstands
      obtain ⟨u, m, hu⟩ := hstands.exists_taken
      obtain ⟨_, _, hbytes, -, hpos⟩ := exists_begins hu.stands.text
      have hlt : (bytes.drop m).length < bytes.length := by
        rw [List.length_drop, hbytes, List.length_cons]
        omega
      obtain ⟨ls, rest, h, hspace, hnone⟩ :=
        ih _ hlt (before ++ tokensOf [⟨u, offset, offset + m⟩]) (offset + m) (bytes.drop m) rfl
      refine ⟨⟨u, offset, offset + m⟩ :: ls, rest, .lexeme hu h, hspace, ?_⟩
      rwa [List.append_assoc, ← tokensOf_append] at hnone
    · rw [not_exists] at hstands
      cases bytes with
      | nil => exact ⟨[], [], .stop _ _ _, by simp, by simpa using hstands⟩
      | cons b bytes =>
        cases hb : Bytes.isSpace b with
        | false => exact ⟨[], _, .stop _ _ _, by simpa using hb, by simpa using hstands⟩
        | true =>
          obtain ⟨ls, rest, h, hspace, hnone⟩ :=
            ih bytes.length (Nat.lt_succ_self _) before (offset + 1) bytes rfl
          exact ⟨ls, rest, .space hb h, hspace, hnone⟩

end Lexes

end HeyVL
