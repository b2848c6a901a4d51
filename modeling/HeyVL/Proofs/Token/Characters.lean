import HeyVL.Proofs.Bytes.Characters
import HeyVL.Proofs.Token.Taking

namespace HeyVL

open Bytes

namespace Token

open String (utf8EncodeChar)

variable {t : Token} {w : Bytes} {b : UInt8}

/-- Whether bytes that are no characters may stand in the token. -/
def isVerbatim (t : Token) : Bool := t == string || t == comment

/-- The characters of the tokens that are not ASCII. -/
def symbols : List Char := ['⊓', '⊔', '→', '←', '↘', '↖', '∞']

theorem symbol_table : all.all (fun t => t.texts.all fun s =>
    (ofText s).all (· < 128) || symbols.any fun c => ofText s == utf8EncodeChar c) = true := by
  decide +kernel

theorem lt_of_isWordByte (h : isWordByte b = true) : b < 128 := by
  have hall : every.all (fun b => !isWordByte b || b < 128) = true := by decide +kernel
  simpa [h] using List.all_eq_true.mp hall b (mem_every b)

theorem lt_of_isSpace (h : isSpace b = true) : b < 128 := by
  have hall : every.all (fun b => !isSpace b || b < 128) = true := by decide +kernel
  simpa [h] using List.all_eq_true.mp hall b (mem_every b)

theorem lt_of_isWordStart (h : isWordStart b = true) : b < 128 :=
  lt_of_isWordByte (by rw [isWordByte, h]; rfl)

theorem lt_of_isDigit (h : isDigit b = true) : b < 128 :=
  lt_of_isWordByte (by simp [isWordByte, h])

theorem lt_of_mem_integer (h : w ∈ integer.language) : ∀ b ∈ w, b < 128 := by
  obtain ⟨b, rest, rfl, hb, hrest⟩ := mem_byte_mul_iff.mp h
  rw [mem_kstar_byte_iff] at hrest
  intro c hc
  rcases List.mem_cons.mp hc with rfl | hc
  · exact lt_of_isDigit hb
  · exact lt_of_isDigit (hrest c hc)

theorem lt_of_mem_identifier (h : w ∈ identifier.language) : ∀ b ∈ w, b < 128 := by
  obtain ⟨b, rest, rfl, hb, hrest⟩ := mem_byte_mul_iff.mp h
  rw [mem_kstar_byte_iff] at hrest
  intro c hc
  rcases List.mem_cons.mp hc with rfl | hc
  · exact lt_of_isWordStart hb
  · exact lt_of_isWordByte (hrest c hc)

theorem lt_of_mem_decimal (h : w ∈ decimal.language) : ∀ b ∈ w, b < 128 := by
  rw [language, Language.mem_mul] at h
  obtain ⟨_, h, v, hv, rfl⟩ := h
  rw [Language.mem_mul] at h
  obtain ⟨u, hu, x, hx, rfl⟩ := h
  obtain rfl := mem_literally_iff.mp hx
  have hpoint : ∀ b ∈ ofText ".", b < 128 := by
    intro b hb
    obtain rfl : b = 46 := List.mem_singleton.mp hb
    decide
  intro b hb
  simp only [List.mem_append] at hb
  rcases hb with (hb | hb) | hb
  · exact lt_of_mem_integer hu b hb
  · exact hpoint b hb
  · exact lt_of_mem_integer hv b hb

theorem lt_or_symbol (h : w ∈ t.language) (ht : t.isVerbatim = false) :
    (∀ b ∈ w, b < 128) ∨ ∃ c ∈ symbols, w = utf8EncodeChar c := by
  cases hclass : t.isClass with
  | true =>
    cases t <;> simp only [isClass, reduceCtorEq] at hclass
    case identifier => exact .inl (lt_of_mem_identifier h)
    case decimal => exact .inl (lt_of_mem_decimal h)
    case integer => exact .inl (lt_of_mem_integer h)
    case string | comment => cases ht
  | false =>
    have hmatches : t.Matches w w.length := ⟨Nat.le_refl _, by rwa [List.take_length]⟩
    obtain ⟨s, hs, hw, -⟩ := exists_spelling hclass hmatches
    rw [List.take_length] at hw
    have htable := List.all_eq_true.mp (forall_of_all symbol_table t) s hs
    rw [← hw] at htable
    simpa using htable

theorem isText_of_mem (h : w ∈ t.language) (ht : t.isVerbatim = false) : w.IsText := by
  rcases lt_or_symbol h ht with hascii | ⟨c, -, rfl⟩
  · exact isText_of_lt hascii
  · exact ⟨[c], by rw [List.flatMap_singleton]⟩

theorem isUTF8FirstByte_of_mem (h : w ∈ t.language) : ∃ b ∈ w.head?, b.IsUTF8FirstByte := by
  have hmatches : t.Matches w w.length := ⟨Nat.le_refl _, by rwa [List.take_length]⟩
  obtain ⟨b, rest, rfl, hb, -⟩ := exists_begins hmatches
  refine ⟨b, rfl, ?_⟩
  cases ht : t.isVerbatim with
  | true =>
    rw [isVerbatim, Bool.or_eq_true, beq_iff_eq, beq_iff_eq] at ht
    rcases ht with rfl | rfl
    · obtain rfl : b = 34 := beq_iff_eq.mp hb
      decide
    · obtain rfl : b = 47 := beq_iff_eq.mp hb
      decide
  | false =>
    rcases lt_or_symbol h ht with hascii | ⟨c, -, hc⟩
    · exact isUTF8FirstByte_of_lt (hascii b List.mem_cons_self)
    · have hchar : HasCharAt (b :: rest) c 0 := by
        rw [HasCharAt, List.drop_zero, hc]
      exact hchar.isBoundary b rfl

end Token

end HeyVL
