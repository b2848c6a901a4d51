import HeyVL.Token.Pattern
import Mathlib.Computability.Language

/-!
The texts of the tokens, as regular languages over bytes. The scanner of each token is exact: it
finds the longest of the token's texts at the head of the bytes.
-/

/-- Regular languages are over the bytes of a source. -/
abbrev ByteLanguage := Language UInt8

namespace HeyVL

open scoped Computability

namespace Bytes

/-- The texts of one byte in a class. -/
def byte (p : UInt8 → Bool) : ByteLanguage := {w | ∃ b, p b = true ∧ w = [b]}

def literally (s : String) : ByteLanguage := {ofText s}

def asterisk : ByteLanguage := byte (· == 42)

/-- Texts of one byte that is no asterisk. As everywhere, a NUL does not match. -/
def noAsterisk : ByteLanguage := byte fun b => b != 42 && b != 0

/-- Texts of one byte that is neither a slash nor an asterisk. -/
def noDelimiter : ByteLanguage := byte fun b => b != 47 && b != 42 && b != 0

/-- What follows an asterisk in a block comment, up to the slash that closes it. -/
def behindAsterisk : ByteLanguage :=
  asterisk∗ * ((noDelimiter * noAsterisk∗ * (asterisk * asterisk∗))∗ * literally "/")

/-- A block comment behind its opening. -/
def blockRest : ByteLanguage :=
  noAsterisk∗ * (asterisk * asterisk∗) *
    (noDelimiter * noAsterisk∗ * (asterisk * asterisk∗))∗ * literally "/"

/-- A string behind its opening quote. -/
def stringRest : ByteLanguage := (byte fun b => b != 34 && b != 0)∗ * literally "\""

end Bytes

open Bytes in
/-- The texts of a token. -/
def Token.language : Token → ByteLanguage
  | identifier => byte isWordStart * (byte isWordByte)∗
  | decimal => byte isDigit * (byte isDigit)∗ * literally "." * (byte isDigit * (byte isDigit)∗)
  | integer => byte isDigit * (byte isDigit)∗
  | string => literally "\"" * stringRest
  | infinity => literally "∞" + literally "\\infty"
  | boolean => literally "true" + literally "false"
  | comment =>
    literally "//" * (byte fun b => b != 10 && b != 0)∗ +
      literally "/*" * blockRest
  | keyword k => literally k.text
  | command c => literally c.text
  | quantifier q => literally q.text
  | binary o => literally o.text
  | unary o => literally o.text
  | punctuation p => literally p.text

/-- The first `n` bytes are a text of the language. -/
def Bytes.Takes (bytes : Bytes) (n : Nat) (L : ByteLanguage) : Prop :=
  n ≤ bytes.length ∧ bytes.take n ∈ L

/-- The first `n` bytes are a text of the token. -/
def Token.Matches (t : Token) (bytes : Bytes) (n : Nat) : Prop := bytes.Takes n t.language

namespace Bytes

variable {p : UInt8 → Bool} {L M : ByteLanguage} {b : UInt8} {w bytes : Bytes} {m n : Nat}

theorem mem_byte_mul_iff :
    w ∈ byte p * L ↔ ∃ b rest, w = b :: rest ∧ p b = true ∧ rest ∈ L := by
  rw [Language.mem_mul]
  constructor
  · rintro ⟨_, ⟨b, hb, rfl⟩, rest, hrest, rfl⟩
    exact ⟨b, rest, rfl, hb, hrest⟩
  · rintro ⟨b, rest, rfl, hb, hrest⟩
    exact ⟨[b], ⟨b, hb, rfl⟩, rest, hrest, rfl⟩

theorem cons_mem_byte_mul_iff : b :: w ∈ byte p * L ↔ p b = true ∧ w ∈ L := by
  rw [mem_byte_mul_iff]
  constructor
  · rintro ⟨_, _, heq, hb, hw⟩
    obtain ⟨rfl, rfl⟩ := List.cons.inj heq
    exact ⟨hb, hw⟩
  · rintro ⟨hb, hw⟩
    exact ⟨b, w, rfl, hb, hw⟩

theorem nil_notMem_byte_mul : [] ∉ byte p * L := by
  rw [mem_byte_mul_iff]
  rintro ⟨b, rest, heq, -⟩
  cases heq

theorem mem_kstar_byte_iff : w ∈ (byte p)∗ ↔ ∀ b ∈ w, p b = true := by
  induction w with
  | nil => simp [Language.nil_mem_kstar]
  | cons b w ih =>
    rw [← Language.one_add_self_mul_kstar_eq_kstar, Language.mem_add, cons_mem_byte_mul_iff, ih]
    simp [Language.mem_one]

theorem mem_literally_iff {s : String} : w ∈ literally s ↔ w = ofText s := Iff.rfl

theorem blockRest_eq : blockRest = asterisk * behindAsterisk + noAsterisk * blockRest := by
  have h : blockRest = noAsterisk∗ * (asterisk * behindAsterisk) := by
    simp only [blockRest, behindAsterisk, mul_assoc]
  rw [h]
  conv_lhs => rw [← Language.one_add_self_mul_kstar_eq_kstar, add_mul, one_mul, mul_assoc]

theorem behindAsterisk_eq :
    behindAsterisk = asterisk * behindAsterisk + (literally "/" + noDelimiter * blockRest) := by
  have h : (noDelimiter * noAsterisk∗ * (asterisk * asterisk∗))∗ * literally "/" =
      literally "/" + noDelimiter * blockRest := by
    conv_lhs => rw [← Language.one_add_self_mul_kstar_eq_kstar, add_mul, one_mul]
    simp only [blockRest, mul_assoc]
  rw [behindAsterisk, h]
  conv_lhs => rw [← Language.one_add_self_mul_kstar_eq_kstar, add_mul, one_mul, mul_assoc, add_comm]

theorem eq_zero_iff_take_eq_nil : n = 0 ↔ n ≤ bytes.length ∧ (n = 0 ∨ bytes = []) := by
  cases n <;> cases bytes <;> simp

theorem cons_mem_blockRest_iff :
    b :: w ∈ blockRest ↔
      b = 42 ∧ w ∈ behindAsterisk ∨ (b ≠ 42 ∧ b ≠ 0) ∧ w ∈ blockRest := by
  rw [blockRest_eq, Language.mem_add, asterisk, noAsterisk, cons_mem_byte_mul_iff,
    cons_mem_byte_mul_iff, ← asterisk, ← noAsterisk, ← blockRest_eq]
  simp

theorem cons_mem_behindAsterisk_iff :
    b :: w ∈ behindAsterisk ↔
      b = 42 ∧ w ∈ behindAsterisk ∨ b = 47 ∧ w = [] ∨
        (b ≠ 47 ∧ b ≠ 42 ∧ b ≠ 0) ∧ w ∈ blockRest := by
  have hslash : ofText "/" = [47] := rfl
  rw [behindAsterisk_eq, Language.mem_add, Language.mem_add, asterisk, noDelimiter,
    cons_mem_byte_mul_iff, cons_mem_byte_mul_iff, mem_literally_iff, hslash, ← asterisk,
    ← noDelimiter, ← behindAsterisk_eq]
  simp [and_assoc]

theorem nil_notMem_blockRest : [] ∉ blockRest := by
  rw [blockRest_eq, Language.mem_add]
  rintro (h | h)
  · exact nil_notMem_byte_mul h
  · exact nil_notMem_byte_mul h

theorem nil_notMem_behindAsterisk : [] ∉ behindAsterisk := by
  have hslash : ofText "/" = [47] := rfl
  rw [behindAsterisk_eq, Language.mem_add, Language.mem_add, mem_literally_iff, hslash]
  rintro (h | h | h)
  · exact nil_notMem_byte_mul h
  · cases h
  · exact nil_notMem_byte_mul h

/-- The end of a block comment is found where a text of its pattern ends, from its opening on as
well as behind an asterisk. -/
theorem commentEnd_eq_some_iff (bytes : Bytes) :
    (∀ n, commentEnd bytes = some n ↔ bytes.Takes n blockRest) ∧
      ∀ n, commentEnd (42 :: bytes) = some (n + 1) ↔ bytes.Takes n behindAsterisk := by
  unfold Takes
  -- Both at once: one byte leads from either place in the pattern to the other.
  induction bytes with
  | nil => simp [commentEnd, nil_notMem_blockRest, nil_notMem_behindAsterisk]
  | cons b bytes ih =>
    obtain ⟨ihblock, ihbehind⟩ := ih
    have hcons (n : Nat) (h : b ≠ 42) (h0 : b ≠ 0) :
        commentEnd (b :: bytes) = some (n + 1) ↔
          n ≤ bytes.length ∧ bytes.take n ∈ blockRest := by
      rw [← ihblock]
      simp [commentEnd, h, h0]
    have hpos : commentEnd (b :: bytes) ≠ some 0 := by
      intro h
      rw [commentEnd] at h
      split at h
      · cases h
      · split at h
        · cases h
        · simp at h
    constructor
    · intro n
      cases n with
      | zero => simp [hpos, nil_notMem_blockRest]
      | succ n =>
        rw [List.take_succ_cons, cons_mem_blockRest_iff]
        by_cases h : b = 42
        · subst h
          simp [ihbehind]
        · by_cases h0 : b = 0
          · subst h0
            simp [commentEnd]
          · simp [hcons n h h0, h, h0]
    · intro n
      cases n with
      | zero =>
        simp only [List.take_zero, nil_notMem_behindAsterisk, and_false, iff_false]
        intro h
        rw [commentEnd] at h
        split at h
        · cases h
        · split at h
          · cases h
          · simp [hpos] at h
      | succ n =>
        rw [List.take_succ_cons, cons_mem_behindAsterisk_iff]
        by_cases hslash : b = 47
        · subst hslash
          have htwo : commentEnd (42 :: 47 :: bytes) = some 2 := by simp [commentEnd]
          rw [htwo, Option.some.injEq]
          simpa using eq_zero_iff_take_eq_nil
        · have hstep : commentEnd (42 :: b :: bytes) = some (n + 1 + 1) ↔
              commentEnd (b :: bytes) = some (n + 1) := by
            rw [commentEnd]
            simp [hslash]
          rw [hstep]
          by_cases h : b = 42
          · subst h
            simp [ihbehind]
          · by_cases h0 : b = 0
            · subst h0
              simp [commentEnd]
            · simp [hcons n h h0, h, h0, hslash]

theorem stringRest_eq :
    stringRest = literally "\"" + (byte fun b => b != 34 && b != 0) * stringRest := by
  rw [stringRest]
  conv_lhs => rw [← Language.one_add_self_mul_kstar_eq_kstar, add_mul, one_mul, mul_assoc]

theorem cons_mem_stringRest_iff :
    b :: w ∈ stringRest ↔ b = 34 ∧ w = [] ∨ (b ≠ 34 ∧ b ≠ 0) ∧ w ∈ stringRest := by
  have hquote : ofText "\"" = [34] := rfl
  rw [stringRest_eq, Language.mem_add, cons_mem_byte_mul_iff, mem_literally_iff, hquote,
    ← stringRest_eq]
  simp

theorem closingQuote_eq_some_iff :
    closingQuote bytes = some n ↔ bytes.Takes n stringRest := by
  unfold Takes
  have hnil : [] ∉ stringRest := by
    rw [stringRest_eq, Language.mem_add]
    rintro (h | h)
    · cases h
    · exact nil_notMem_byte_mul h
  induction bytes generalizing n with
  | nil => simp [closingQuote, hnil]
  | cons b bytes ih =>
    cases n with
    | zero =>
      simp only [List.take_zero, hnil, and_false, iff_false, closingQuote]
      split
      · simp
      · split <;> simp
    | succ n =>
      rw [List.take_succ_cons, cons_mem_stringRest_iff]
      by_cases hzero : b = 0
      · subst hzero
        simp [closingQuote]
      · by_cases hquote : b = 34
        · subst hquote
          simpa [closingQuote] using eq_zero_iff_take_eq_nil
        · simp [closingQuote, hzero, hquote, ih]

theorem takes_add_iff : bytes.Takes n (L + M) ↔ bytes.Takes n L ∨ bytes.Takes n M := by
  rw [Takes, Language.mem_add, and_or_left]
  rfl

theorem takes_kstar_iff : bytes.Takes n (byte p)∗ ↔ n ≤ (bytes.takeWhile p).length := by
  rw [Takes, mem_kstar_byte_iff]
  induction bytes generalizing n with
  | nil => simp
  | cons b bytes ih =>
    cases n with
    | zero => simp
    | succ n =>
      rw [List.takeWhile_cons]
      cases hb : p b with
      | false => simp [hb]
      | true => simpa [hb] using ih

theorem takes_mul_iff :
    bytes.Takes n (L * M) ↔
      ∃ k m, n = k + m ∧ bytes.Takes k L ∧ Takes (bytes.drop k) m M := by
  unfold Takes
  rw [Language.mem_mul]
  constructor
  · rintro ⟨hn, u, hu, v, hv, huv⟩
    have hlength : n = u.length + v.length := by
      rw [← List.length_append, huv, List.length_take]
      omega
    have hbytes : bytes = u ++ (v ++ bytes.drop n) := by
      rw [← List.append_assoc, huv, List.take_append_drop]
    refine ⟨u.length, v.length, hlength, ⟨by omega, ?_⟩, ?_, ?_⟩
    · rw [hbytes, List.take_left]
      exact hu
    · rw [List.length_drop]
      omega
    · rw [hbytes, List.drop_left, List.take_left]
      exact hv
  · rintro ⟨k, m, rfl, ⟨hk, hu⟩, hm, hv⟩
    rw [List.length_drop] at hm
    exact ⟨by omega, _, hu, _, hv, List.take_add.symm⟩

theorem takes_byte_mul_iff :
    bytes.Takes n (byte p * L) ↔
      ∃ b rest m, bytes = b :: rest ∧ n = m + 1 ∧ p b = true ∧ Takes rest m L := by
  cases bytes with
  | nil => simp [Takes, nil_notMem_byte_mul]
  | cons b rest =>
    cases n with
    | zero => simp [Takes, nil_notMem_byte_mul]
    | succ n =>
      rw [Takes, List.take_succ_cons, cons_mem_byte_mul_iff]
      constructor
      · rintro ⟨hn, hb, hrest⟩
        exact ⟨b, rest, n, rfl, rfl, hb, by simpa using hn, hrest⟩
      · rintro ⟨_, _, m, heq, hm, hb, hn, hrest⟩
        obtain ⟨rfl, rfl⟩ := List.cons.inj heq
        obtain rfl := Nat.succ.inj hm
        exact ⟨by simpa using hn, hb, hrest⟩

theorem takes_literally_iff {s : String} :
    bytes.Takes n (literally s) ↔ fixedLength s bytes = some n := by
  rw [Takes, mem_literally_iff, fixedLength]
  constructor
  · rintro ⟨hn, h⟩
    have hlength : (ofText s).length = n := by
      rw [← h, List.length_take]
      omega
    rw [if_pos (List.isPrefixOf_iff_prefix.mpr (h ▸ List.take_prefix n bytes)), hlength]
  · intro h
    split at h
    · next hbegin =>
      cases h
      have hbegin := List.isPrefixOf_iff_prefix.mp hbegin
      exact ⟨hbegin.length_le, (List.prefix_iff_eq_take.mp hbegin).symm⟩
    · cases h

end Bytes

end HeyVL
