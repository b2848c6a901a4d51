import HeyVL.Proofs.Token.Language
import Mathlib.Order.Lattice.Nat

namespace HeyVL

open Bytes

variable {bytes : Bytes} {n : Nat}

/-- What a search finds is the greatest if it is in the set, bounds it, and is found unless the
set is empty. -/
theorem eq_some_iff_isGreatest {f : Option Nat} {s : Set Nat}
    (hnone : f = none → ∀ m, m ∉ s) (hsome : ∀ k, f = some k → IsGreatest s k) :
    f = some n ↔ IsGreatest s n := by
  constructor
  · exact hsome n
  · intro h
    cases hf : f with
    | none => exact absurd h.1 (hnone hf n)
    | some k => rw [(hsome k hf).unique h]

theorem eq_some_iff_isGreatest_of_unique {f : Option Nat} {s : Set Nat}
    (h : ∀ m, m ∈ s ↔ f = some m) : f = some n ↔ IsGreatest s n := by
  refine eq_some_iff_isGreatest (fun hf m hm => ?_) fun k hk => ⟨(h k).mpr hk, fun m hm => ?_⟩
  · rw [hf] at h
    cases (h m).mp hm
  · have hm := (h m).mp hm
    rw [hk] at hm
    exact (Option.some.inj hm).ge

namespace Bytes

theorem takes_integer_iff :
    bytes.Takes n Token.integer.language ↔
      0 < n ∧ n ≤ (bytes.takeWhile isDigit).length := by
  rw [Token.language, takes_byte_mul_iff]
  simp only [takes_kstar_iff]
  cases bytes with
  | nil => simp; omega
  | cons b rest =>
    rw [List.takeWhile_cons]
    cases hb : isDigit b with
    | false => simp [hb]; omega
    | true =>
      constructor
      · rintro ⟨_, _, m, heq, rfl, -, hm⟩
        obtain ⟨rfl, rfl⟩ := List.cons.inj heq
        simpa using hm
      · rintro ⟨hpos, hn⟩
        refine ⟨b, rest, n - 1, rfl, by omega, hb, ?_⟩
        simp only [if_true, List.length_cons] at hn
        omega

theorem integerLength_eq_some_iff :
    integerLength bytes = some n ↔ 0 < n ∧ n = (bytes.takeWhile isDigit).length := by
  rw [integerLength]
  split
  · next h => simp [h]; omega
  · next k h => simp [h]; omega

theorem wordLength_eq_some_iff :
    wordLength bytes = some n ↔
      ∃ b rest, bytes = b :: rest ∧ isWordStart b = true ∧
        n = (rest.takeWhile isWordByte).length + 1 := by
  cases bytes with
  | nil => simp [wordLength]
  | cons b rest =>
    rw [wordLength]
    cases hb : isWordStart b with
    | false => simp [hb]
    | true =>
      constructor
      · intro h
        cases h
        exact ⟨b, rest, rfl, hb, rfl⟩
      · rintro ⟨_, _, heq, -, rfl⟩
        obtain ⟨rfl, rfl⟩ := List.cons.inj heq
        rfl

theorem fixedLength_eq_some_iff {s : String} :
    fixedLength s bytes = some n ↔
      ∃ rest, bytes = ofText s ++ rest ∧ n = (ofText s).length := by
  rw [fixedLength]
  constructor
  · intro h
    split at h
    · next hbegin =>
      cases h
      obtain ⟨rest, rfl⟩ := List.isPrefixOf_iff_prefix.mp hbegin
      exact ⟨rest, rfl, rfl⟩
    · cases h
  · rintro ⟨rest, rfl, rfl⟩
    simp

theorem eq_length_takeWhile {p : UInt8 → Bool} {b : UInt8} {rest : Bytes}
    (h : n ≤ (bytes.takeWhile p).length) (hdrop : bytes.drop n = b :: rest)
    (hb : p b = false) : n = (bytes.takeWhile p).length := by
  induction bytes generalizing n with
  | nil => simpa using h
  | cons c bytes ih =>
    rw [List.takeWhile_cons] at h ⊢
    cases n with
    | zero =>
      obtain ⟨rfl, rfl⟩ := List.cons.inj hdrop
      simp [hb]
    | succ n =>
      cases hc : p c with
      | false => simp [hc] at h
      | true =>
        rw [hc] at h
        simpa using ih (by simpa using h) hdrop

end Bytes

namespace Token

theorem matches_identifier_iff :
    identifier.Matches bytes n ↔
      ∃ b rest m, bytes = b :: rest ∧ n = m + 1 ∧ isWordStart b = true ∧
        m ≤ (rest.takeWhile isWordByte).length := by
  simp only [Matches, language, takes_byte_mul_iff, takes_kstar_iff]

theorem matches_integer_iff :
    integer.Matches bytes n ↔ 0 < n ∧ n ≤ (bytes.takeWhile isDigit).length :=
  takes_integer_iff

theorem matches_decimal_iff :
    decimal.Matches bytes n ↔
      ∃ whole rest fraction, bytes.integerLength = some whole ∧
        bytes.drop whole = 46 :: rest ∧ integer.Matches rest fraction ∧
        n = whole + 1 + fraction := by
  have hpoint : ofText "." = [46] := rfl
  have hlanguage : decimal.language =
      integer.language * literally "." * integer.language := rfl
  rw [Matches, hlanguage, takes_mul_iff]
  simp only [takes_mul_iff, takes_literally_iff, fixedLength_eq_some_iff, hpoint]
  constructor
  · rintro ⟨_, fraction, rfl, ⟨whole, _, rfl, hwhole, rest, hrest, rfl⟩, hfraction⟩
    obtain ⟨hpos, hle⟩ := takes_integer_iff.mp hwhole
    have hrun := eq_length_takeWhile hle hrest rfl
    refine ⟨whole, rest, fraction, integerLength_eq_some_iff.mpr ⟨hpos, hrun⟩, hrest, ?_, rfl⟩
    have hdrop : bytes.drop (whole + 1) = rest := by
      rw [← List.drop_drop, hrest]
      rfl
    rw [← hdrop]
    exact hfraction
  · rintro ⟨whole, rest, fraction, hwhole, hrest, hfraction, rfl⟩
    obtain ⟨hpos, hrun⟩ := integerLength_eq_some_iff.mp hwhole
    have hdrop : bytes.drop (whole + 1) = rest := by
      rw [← List.drop_drop, hrest]
      rfl
    refine ⟨whole + 1, fraction, rfl,
      ⟨whole, 1, rfl, takes_integer_iff.mpr ⟨hpos, hrun.le⟩, rest, hrest, rfl⟩, ?_⟩
    rw [hdrop]
    exact hfraction

theorem matches_string_iff :
    string.Matches bytes n ↔
      ∃ rest m, bytes = 34 :: rest ∧ n = m + 1 ∧ closingQuote rest = some m := by
  have hquote : ofText "\"" = [34] := rfl
  rw [Matches, language, takes_mul_iff]
  simp only [takes_literally_iff, fixedLength_eq_some_iff, hquote, closingQuote_eq_some_iff]
  constructor
  · rintro ⟨_, m, rfl, ⟨rest, rfl, rfl⟩, hm⟩
    exact ⟨rest, m, rfl, Nat.add_comm _ _, hm⟩
  · rintro ⟨rest, m, rfl, rfl, hm⟩
    exact ⟨1, m, Nat.add_comm _ _, ⟨rest, rfl, rfl⟩, hm⟩

theorem matches_comment_iff :
    comment.Matches bytes n ↔
      (∃ rest m, bytes = 47 :: 47 :: rest ∧ n = m + 2 ∧
        m ≤ (rest.takeWhile fun b => b != 10 && b != 0).length) ∨
      ∃ rest m, bytes = 47 :: 42 :: rest ∧ n = m + 2 ∧ commentEnd rest = some m := by
  have hline : ofText "//" = [47, 47] := rfl
  have hblock : ofText "/*" = [47, 42] := rfl
  rw [Matches, language, takes_add_iff, takes_mul_iff, takes_mul_iff]
  simp only [takes_literally_iff, fixedLength_eq_some_iff, hline, hblock, takes_kstar_iff,
    (commentEnd_eq_some_iff _).1]
  constructor
  · rintro (⟨_, m, rfl, ⟨rest, rfl, rfl⟩, hm⟩ | ⟨_, m, rfl, ⟨rest, rfl, rfl⟩, hm⟩)
    · exact .inl ⟨rest, m, rfl, Nat.add_comm _ _, hm⟩
    · exact .inr ⟨rest, m, rfl, Nat.add_comm _ _, hm⟩
  · rintro (⟨rest, m, rfl, rfl, hm⟩ | ⟨rest, m, rfl, rfl, hm⟩)
    · exact .inl ⟨2, m, Nat.add_comm _ _, ⟨rest, rfl, rfl⟩, hm⟩
    · exact .inr ⟨2, m, Nat.add_comm _ _, ⟨rest, rfl, rfl⟩, hm⟩

theorem matches_fixed_iff {t : Token} {s : String} (h : t.fixedText? = some s) :
    t.Matches bytes n ↔ fixedLength s bytes = some n := by
  cases t <;> cases h
  all_goals exact takes_literally_iff

theorem matchLength_fixed {t : Token} {s : String} (h : t.fixedText? = some s) :
    t.matchLength bytes = fixedLength s bytes := by
  cases t <;> cases h
  all_goals rfl

theorem or_fixedLength_eq_some_iff {s₁ s₂ : String} {b₁ b₂ : UInt8} {w₁ w₂ : Bytes}
    (h₁ : ofText s₁ = b₁ :: w₁) (h₂ : ofText s₂ = b₂ :: w₂) (hne : b₁ ≠ b₂) :
    (fixedLength s₁ bytes).or (fixedLength s₂ bytes) = some n ↔
      bytes.Takes n (literally s₁ + literally s₂) := by
  rw [takes_add_iff, takes_literally_iff, takes_literally_iff, Option.or_eq_some_iff]
  constructor
  · rintro (h | ⟨-, h⟩)
    · exact .inl h
    · exact .inr h
  · rintro (h | h)
    · exact .inl h
    · refine .inr ⟨?_, h⟩
      cases hfirst : fixedLength s₁ bytes with
      | none => rfl
      | some k =>
        obtain ⟨rest₁, hbytes₁, -⟩ := fixedLength_eq_some_iff.mp hfirst
        obtain ⟨rest₂, hbytes₂, -⟩ := fixedLength_eq_some_iff.mp h
        rw [h₁] at hbytes₁
        rw [hbytes₁, h₂] at hbytes₂
        exact absurd (List.cons.inj hbytes₂).1 hne

theorem isGreatest_identifier :
    wordLength bytes = some n ↔ IsGreatest {m | identifier.Matches bytes m} n := by
  refine eq_some_iff_isGreatest (fun hnone m hm => ?_) fun k hk => ?_
  · obtain ⟨b, rest, _, rfl, rfl, hb, -⟩ := matches_identifier_iff.mp hm
    simp [wordLength, hb] at hnone
  · obtain ⟨b, rest, rfl, hb, rfl⟩ := wordLength_eq_some_iff.mp hk
    refine ⟨matches_identifier_iff.mpr ⟨b, rest, _, rfl, rfl, hb, le_refl _⟩, fun m hm => ?_⟩
    obtain ⟨_, _, m, heq, rfl, -, hle⟩ := matches_identifier_iff.mp hm
    obtain ⟨rfl, rfl⟩ := List.cons.inj heq
    exact Nat.succ_le_succ hle

theorem isGreatest_integer :
    integerLength bytes = some n ↔ IsGreatest {m | integer.Matches bytes m} n := by
  refine eq_some_iff_isGreatest (fun hnone m hm => ?_) fun k hk => ?_
  · obtain ⟨hpos, hle⟩ := matches_integer_iff.mp hm
    have hsome := integerLength_eq_some_iff.mpr ⟨hpos.trans_le hle, rfl⟩
    rw [hsome] at hnone
    cases hnone
  · obtain ⟨hpos, rfl⟩ := integerLength_eq_some_iff.mp hk
    exact ⟨matches_integer_iff.mpr ⟨hpos, le_refl _⟩, fun m hm => (matches_integer_iff.mp hm).2⟩

theorem decimalLength_eq_some_iff :
    decimalLength bytes = some n ↔
      ∃ whole rest fraction, bytes.integerLength = some whole ∧
        bytes.drop whole = 46 :: rest ∧ integerLength rest = some fraction ∧
        n = whole + 1 + fraction := by
  rw [decimalLength, Option.bind_eq_some_iff]
  constructor
  · rintro ⟨whole, hwhole, h⟩
    split at h
    · next rest hrest =>
      obtain ⟨fraction, hfraction, rfl⟩ := Option.map_eq_some_iff.mp h
      exact ⟨whole, rest, fraction, hwhole, hrest, hfraction, rfl⟩
    · cases h
  · rintro ⟨whole, rest, fraction, hwhole, hrest, hfraction, rfl⟩
    exact ⟨whole, hwhole, by simp [hrest, hfraction]⟩

theorem isGreatest_decimal :
    decimalLength bytes = some n ↔ IsGreatest {m | decimal.Matches bytes m} n := by
  refine eq_some_iff_isGreatest (fun hnone m hm => ?_) fun k hk => ?_
  · obtain ⟨whole, rest, fraction, hwhole, hrest, hfraction, rfl⟩ := matches_decimal_iff.mp hm
    cases hrun : integerLength rest with
    | none =>
      obtain ⟨hpos, hle⟩ := matches_integer_iff.mp hfraction
      have hsome := integerLength_eq_some_iff.mpr ⟨hpos.trans_le hle, rfl⟩
      rw [hsome] at hrun
      cases hrun
    | some longest =>
      have hsome := decimalLength_eq_some_iff.mpr ⟨whole, rest, longest, hwhole, hrest, hrun, rfl⟩
      rw [hsome] at hnone
      cases hnone
  · obtain ⟨whole, rest, fraction, hwhole, hrest, hfraction, rfl⟩ :=
      decimalLength_eq_some_iff.mp hk
    have hlongest := isGreatest_integer.mp hfraction
    refine ⟨matches_decimal_iff.mpr ⟨whole, rest, fraction, hwhole, hrest, hlongest.1, rfl⟩,
      fun m hm => ?_⟩
    obtain ⟨_, _, other, hwhole', hrest', hother, rfl⟩ := matches_decimal_iff.mp hm
    obtain rfl := Option.some.inj (hwhole.symm.trans hwhole')
    obtain ⟨-, rfl⟩ := List.cons.inj (hrest.symm.trans hrest')
    have hle : other ≤ fraction := hlongest.2 hother
    omega

theorem matchLength_string_eq_some_iff :
    string.matchLength bytes = some n ↔ string.Matches bytes n := by
  rw [matches_string_iff]
  unfold matchLength
  dsimp only
  split
  · next rest =>
    simp only [Option.map_eq_some_iff, List.cons.injEq, true_and]
    constructor
    · rintro ⟨m, hm, rfl⟩
      exact ⟨rest, m, rfl, rfl, hm⟩
    · rintro ⟨_, m, rfl, rfl, hm⟩
      exact ⟨m, hm, rfl⟩
  · next hne =>
    constructor
    · intro h
      cases h
    · rintro ⟨rest, m, rfl, -⟩
      exact absurd rfl (hne rest)

theorem isGreatest_comment :
    commentLength bytes = some n ↔ IsGreatest {m | comment.Matches bytes m} n := by
  refine eq_some_iff_isGreatest (fun hnone m hm => ?_) fun k hk => ?_
  · rcases matches_comment_iff.mp hm with ⟨rest, m, rfl, rfl, -⟩ | ⟨rest, m, rfl, rfl, hend⟩
    · simp [commentLength] at hnone
    · simp [commentLength, hend] at hnone
  · unfold commentLength at hk
    split at hk
    · next rest =>
      cases hk
      refine ⟨matches_comment_iff.mpr (.inl ⟨rest, _, rfl, rfl, le_refl _⟩), fun m hm => ?_⟩
      rcases matches_comment_iff.mp hm with ⟨_, m, heq, rfl, hle⟩ | ⟨_, m, heq, -⟩
      · cases heq
        exact Nat.add_le_add_right hle 2
      · cases heq
    · next rest =>
      obtain ⟨m, hm, rfl⟩ := Option.map_eq_some_iff.mp hk
      refine ⟨matches_comment_iff.mpr (.inr ⟨rest, m, rfl, rfl, hm⟩), fun k hk => ?_⟩
      rcases matches_comment_iff.mp hk with ⟨_, m, heq, -⟩ | ⟨_, k, heq, rfl, hk⟩
      · cases heq
      · cases heq
        rw [hm] at hk
        exact Nat.add_le_add_right (Option.some.inj hk).ge 2
    · cases hk

/-- The scanner of a token finds the longest text of the token. -/
theorem matchLength_eq_some_iff {t : Token} :
    t.matchLength bytes = some n ↔ IsGreatest {m | t.Matches bytes m} n := by
  cases ht : t.fixedText? with
  | some s =>
    rw [matchLength_fixed ht]
    exact eq_some_iff_isGreatest_of_unique fun m => matches_fixed_iff ht
  | none =>
    cases t <;> simp only [fixedText?, reduceCtorEq] at ht
    case identifier => exact isGreatest_identifier
    case integer => exact isGreatest_integer
    case decimal => exact isGreatest_decimal
    case string =>
      exact eq_some_iff_isGreatest_of_unique fun m => matchLength_string_eq_some_iff.symm
    case comment => exact isGreatest_comment
    case infinity =>
      have hfirst : ofText "∞" = 0xE2 :: [0x88, 0x9E] := by decide
      have hsecond : ofText "\\infty" = 92 :: [105, 110, 102, 116, 121] := by decide
      exact eq_some_iff_isGreatest_of_unique fun m =>
        (or_fixedLength_eq_some_iff hfirst hsecond (by decide)).symm
    case boolean =>
      have hfirst : ofText "true" = 116 :: [114, 117, 101] := by decide
      have hsecond : ofText "false" = 102 :: [97, 108, 115, 101] := by decide
      exact eq_some_iff_isGreatest_of_unique fun m =>
        (or_fixedLength_eq_some_iff hfirst hsecond (by decide)).symm

theorem matchLength_eq_none_iff {t : Token} :
    t.matchLength bytes = none ↔ ∀ m, ¬ t.Matches bytes m := by
  constructor
  · intro hnone m hm
    have hbounded : BddAbove {m | t.Matches bytes m} := ⟨bytes.length, fun m hm => hm.1⟩
    have hgreatest : IsGreatest {m | t.Matches bytes m} (sSup {m | t.Matches bytes m}) :=
      ⟨Nat.sSup_mem ⟨m, hm⟩ hbounded, fun m hm => le_csSup hbounded hm⟩
    rw [← matchLength_eq_some_iff, hnone] at hgreatest
    cases hgreatest
  · intro hnone
    cases h : t.matchLength bytes with
    | none => rfl
    | some n => exact absurd (matchLength_eq_some_iff.mp h).1 (hnone n)

end Token

end HeyVL
