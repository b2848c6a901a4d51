import HeyVL.Proofs.Event.Lexing
import HeyVL.Proofs.Token.Separation

namespace HeyVL

open Token Grammar Lexeme Bytes

namespace Lexes

variable {before : List Token} {offset : Nat} {bytes rest : Bytes} {ls ms : List Lexeme}

theorem split (h : Lexes before offset bytes (ls ++ ms) rest) :
    ∃ middle, Lexes before offset bytes ls middle := by
  generalize hks : ls ++ ms = ks at h
  induction h generalizing ls with
  | stop before offset bytes =>
    obtain ⟨rfl, -⟩ := List.append_eq_nil_iff.mp hks
    exact ⟨bytes, .stop _ _ _⟩
  | space hb _ ih =>
    obtain ⟨middle, h⟩ := ih hks
    exact ⟨middle, .space hb h⟩
  | @lexeme before offset n t bytes rest ks ht _ ih =>
    cases ls with
    | nil => exact ⟨bytes, .stop _ _ _⟩
    | cons l ls =>
      obtain ⟨rfl, htail⟩ := List.cons.inj hks
      obtain ⟨middle, h⟩ := ih htail
      exact ⟨middle, .lexeme ht h⟩

theorem unique (hls : Lexes before offset bytes ls []) (hms : Lexes before offset bytes ms []) :
    ls = ms := by
  generalize hrest : ([] : Bytes) = rest at hls
  induction hls generalizing ms with
  | stop =>
    subst hrest
    cases hms with
    | stop => rfl
    | lexeme ht _ =>
      obtain ⟨_, _, heq, -⟩ := exists_begins ht.stands.text
      cases heq
  | space hb _ ih =>
    cases hms with
    | space _ hms => exact ih hms hrest
    | lexeme ht _ => exact absurd ht.stands (not_stands_of_isSpace hb _ _)
  | lexeme ht _ ih =>
    cases hms with
    | stop =>
      obtain ⟨_, _, heq, -⟩ := exists_begins ht.stands.text
      cases heq
    | space hb _ => exact absurd ht.stands (not_stands_of_isSpace hb _ _)
    | lexeme hu hms =>
      obtain ⟨rfl, rfl⟩ := ht.unique hu
      rw [ih hms hrest]

theorem endOf_eq (start start' : Nat) (hls : ls ≠ []) : endOf start ls = endOf start' ls := by
  cases ls with
  | nil => exact absurd rfl hls
  | cons l ls => rw [endOf_cons, endOf_cons]

/-- The bytes up to the end of the last lexeme are cut into the same lexemes with anything behind
them that separates. Only whitespace is between this end and the bytes that are left. -/
theorem exists_cut (h : Lexes before offset bytes ls rest) :
    ∃ w gap, bytes = w ++ (gap ++ rest) ∧ (∀ b ∈ gap, isSpace b = true) ∧
      endOf offset ls = offset + w.length ∧
      ∀ v, Separates v → Lexes before offset (w ++ v) ls v := by
  induction h with
  | stop before offset bytes =>
    exact ⟨[], [], rfl, by simp, rfl, fun v _ => .stop _ _ _⟩
  | @space before offset b bytes rest ls hb h ih =>
    obtain ⟨w, gap, rfl, hgap, hend, hcut⟩ := ih
    -- Without a lexeme nothing is kept, and the byte belongs to the gap.
    by_cases hls : ls = []
    · subst hls
      have hw : w = [] := by
        apply List.eq_nil_of_length_eq_zero
        rw [endOf_nil] at hend
        omega
      subst hw
      refine ⟨[], b :: gap, rfl, ?_, rfl, fun v _ => .stop _ _ _⟩
      intro c hc
      rcases List.mem_cons.mp hc with rfl | hc
      · exact hb
      · exact hgap c hc
    · refine ⟨b :: w, gap, rfl, hgap, ?_, fun v hv => .space hb (hcut v hv)⟩
      rw [endOf_eq offset (offset + 1) hls, hend, List.length_cons]
      omega
  | @lexeme before offset n t bytes rest ls ht h ih =>
    obtain ⟨w, gap, hbytes, hgap, hend, hcut⟩ := ih
    have hn : n ≤ bytes.length := ht.stands.text.1
    have hlength : (bytes.take n).length = n := by
      rw [List.length_take]
      omega
    have hsplit : bytes = bytes.take n ++ w ++ (gap ++ rest) := by
      rw [List.append_assoc, ← hbytes, List.take_append_drop]
    refine ⟨bytes.take n ++ w, gap, hsplit, hgap, ?_, fun v hv => ?_⟩
    · show endOf offset (⟨t, offset, offset + n⟩ :: ls) = _
      rw [endOf_cons, hend, List.length_append, hlength, Nat.add_assoc]
    · have htaken : Taken (Viable before) (bytes.take n ++ w ++ v) t n := by
        rw [hsplit] at ht
        apply ht.of_append hv
        rw [List.length_append, hlength]
        omega
      refine .lexeme htaken ?_
      rw [List.append_assoc, List.drop_append_of_le_length hlength.ge,
        List.drop_eq_nil_of_le hlength.le]
      exact hcut v hv

end Lexes

end HeyVL
