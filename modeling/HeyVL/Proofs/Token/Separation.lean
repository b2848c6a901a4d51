import HeyVL.Proofs.Token.Taking

/-!
Cutting a source behind a token. The tokens before the cut stay what they are if nothing follows,
or a newline behind which no block comment is closed: strings and block comments are the only
texts with a newline in them, and a string is as long as its quotes say.
-/

namespace HeyVL

namespace Bytes

variable {u v x bytes : Bytes} {k m n : Nat}

/-- Whether a block comment could be closed in the bytes. -/
def closes : Bytes → Bool
  | [] => false
  | b :: rest => b == 42 && rest.head? == some 47 || closes rest

/-- What may follow a cut. -/
def Separates (v : Bytes) : Prop := v = [] ∨ ∃ x, v = 10 :: x ∧ closes x = false

theorem closes_append_newline (u x : Bytes) :
    closes (u ++ 10 :: x) = (closes u || closes x) := by
  induction u with
  | nil => rfl
  | cons b u ih =>
    have hhead : ((u ++ 10 :: x).head? == some 47) = (u.head? == some 47) := by
      cases u <;> rfl
    rw [List.cons_append, closes, closes, ih, hhead, Bool.or_assoc]

theorem closes_of_commentEnd (h : commentEnd bytes = some k) : closes bytes = true := by
  induction bytes generalizing k with
  | nil => cases h
  | cons b rest ih =>
    rw [closes]
    rw [commentEnd] at h
    split at h
    · cases h
    · split at h
      · next hend =>
        have hend : (b == 42 && rest.head? == some 47) = true := by simpa using hend
        rw [hend, Bool.true_or]
      · obtain ⟨j, hj, -⟩ := Option.map_eq_some_iff.mp h
        rw [ih hj, Bool.or_true]

theorem exists_cons_of_append_cons {b c : UInt8} {rest : Bytes} (h : u ++ c :: x = b :: rest)
    (hb : b ≠ c) : ∃ w, u = b :: w ∧ rest = w ++ c :: x := by
  cases u with
  | nil => exact absurd (List.cons.inj h).1.symm hb
  | cons d w =>
    obtain ⟨rfl, rfl⟩ := List.cons.inj h
    exact ⟨w, rfl, rfl⟩

theorem length_takeWhile_le {p : UInt8 → Bool} {c : UInt8} (hp : p c = false) (u x : Bytes) :
    ((u ++ c :: x).takeWhile p).length ≤ u.length := by
  induction u with
  | nil => simp [hp]
  | cons b u ih =>
    rw [List.cons_append, List.takeWhile_cons]
    split
    · simpa using ih
    · exact Nat.zero_le _

/-- What no token goes on with, except for strings and comments: whitespace, parentheses and opening
braces. -/
def isBreak (b : UInt8) : Bool := isSpace b || b == 40 || b == 41 || b == 123

theorem isBreak_of_isSpace {b : UInt8} (h : isSpace b = true) : isBreak b = true := by
  rw [isBreak, h]
  rfl

theorem not_word_of_isBreak {c : UInt8} (hc : isBreak c = true) :
    isWordByte c = false ∧ isWordStart c = false ∧ isDigit c = false ∧ c ≠ 46 := by
  have hall : every.all (fun b => !isBreak b ||
      (!isWordByte b && !isWordStart b && !isDigit b && b != 46)) = true := by decide +kernel
  have hbyte := List.all_eq_true.mp hall c (mem_every c)
  simpa [hc, and_assoc] using hbyte

theorem commentEnd_le_length (hx : closes x = false) (h : commentEnd (u ++ 10 :: x) = some k) :
    k ≤ u.length := by
  induction u generalizing k with
  | nil =>
    obtain ⟨j, hj, -⟩ := Option.map_eq_some_iff.mp
      (show (commentEnd x).map (· + 1) = some k from h)
    rw [closes_of_commentEnd hj] at hx
    cases hx
  | cons b u ih =>
    rw [List.cons_append, commentEnd] at h
    rw [List.length_cons]
    split at h
    · cases h
    · split at h
      · next hend =>
        obtain rfl := Option.some.inj h
        cases u with
        | nil => simp at hend
        | cons c u => simp
      · obtain ⟨j, hj, rfl⟩ := Option.map_eq_some_iff.mp h
        exact Nat.succ_le_succ (ih hj)

end Bytes

open Bytes

namespace Token

variable {viable : Token → Prop} {u v v₀ x bytes : Bytes} {t t' : Token} {m n : Nat}

theorem matches_append_iff (hn : n ≤ u.length) : t.Matches (u ++ v) n ↔ t.Matches u n := by
  have hlength : n ≤ (u ++ v).length := by
    rw [List.length_append]
    omega
  rw [Matches, Matches, Takes, Takes, List.take_append_of_le_length hn]
  exact and_congr_left fun _ => iff_of_true hlength hn

theorem integer_le_length {c : UInt8} (hc : isBreak c = true)
    (h : integer.Matches (u ++ c :: x) n) : n ≤ u.length :=
  (matches_integer_iff.mp h).2.trans (length_takeWhile_le (not_word_of_isBreak hc).2.2.1 u x)

theorem decimal_le_length {c : UInt8} (hc : isBreak c = true)
    (h : decimal.Matches (u ++ c :: x) n) : n ≤ u.length := by
  obtain ⟨whole, rest, fraction, hwhole, hrest, hfraction, rfl⟩ := matches_decimal_iff.mp h
  obtain ⟨-, -, hdigit, hpoint⟩ := not_word_of_isBreak hc
  have hle : whole ≤ u.length := by
    rw [(integerLength_eq_some_iff.mp hwhole).2]
    exact length_takeWhile_le hdigit u x
  rw [List.drop_append_of_le_length hle] at hrest
  obtain ⟨w, hw, rfl⟩ := exists_cons_of_append_cons hrest hpoint.symm
  have hlength := congrArg List.length hw
  rw [List.length_drop, List.length_cons] at hlength
  have hle := integer_le_length hc hfraction
  omega

theorem identifier_le_length {c : UInt8} (hc : isBreak c = true)
    (h : identifier.Matches (u ++ c :: x) n) : n ≤ u.length := by
  obtain ⟨b, rest, m, hu, rfl, hb, hm⟩ := matches_identifier_iff.mp h
  obtain ⟨hword, hstart, -, -⟩ := not_word_of_isBreak hc
  have hne : b ≠ c := by
    rintro rfl
    rw [hstart] at hb
    cases hb
  obtain ⟨w, rfl, rfl⟩ := exists_cons_of_append_cons hu hne
  exact Nat.succ_le_succ (hm.trans (length_takeWhile_le hword w x))

theorem comment_le_length (hx : closes x = false) (h : comment.Matches (u ++ 10 :: x) n) :
    n ≤ u.length := by
  rcases matches_comment_iff.mp h with ⟨rest, m, hu, rfl, hm⟩ | ⟨rest, m, hu, rfl, hm⟩
  all_goals
    obtain ⟨w, rfl, hw⟩ := exists_cons_of_append_cons hu (by decide)
    obtain ⟨w, rfl, rfl⟩ := exists_cons_of_append_cons hw.symm (by decide)
    rw [List.length_cons, List.length_cons]
    apply Nat.add_le_add_right
  · exact hm.trans (length_takeWhile_le rfl w x)
  · exact commentEnd_le_length hx hm

theorem not_break_table : all.all (fun t => t.texts.all fun s =>
    ((ofText s).drop 1).all fun b => !isBreak b) = true := by
  decide

theorem le_length_of_finite {c : UInt8} (hc : isBreak c = true) (hu : u ≠ [])
    (hclass : t.isClass = false) (h : t.Matches (u ++ c :: x) n) : n ≤ u.length := by
  obtain ⟨s, hs, htake, -⟩ := exists_spelling hclass h
  have hbreak := List.all_eq_true.mp (forall_of_all not_break_table t) s hs
  rw [← htake] at hbreak
  have hpos := List.length_pos_iff.mpr hu
  by_contra hlt
  have hmem : c ∈ ((u ++ c :: x).take n).drop 1 := by
    rw [List.mem_iff_getElem?]
    refine ⟨u.length - 1, ?_⟩
    rw [List.getElem?_drop, List.getElem?_take, if_pos (by omega), Nat.add_sub_cancel' hpos]
    simp
  have := List.all_eq_true.mp hbreak c hmem
  rw [hc] at this
  cases this

/-- Only strings and comments go on behind whitespace, parentheses and opening braces. -/
theorem le_length_of_isBreak {c : UInt8} (hc : isBreak c = true) (hu : u ≠ [])
    (hstring : t ≠ string) (hcomment : t ≠ comment) (h : t.Matches (u ++ c :: x) n) :
    n ≤ u.length := by
  cases hclass : t.isClass with
  | false => exact le_length_of_finite hc hu hclass h
  | true =>
    cases t <;> simp only [isClass, reduceCtorEq] at hclass
    case identifier => exact identifier_le_length hc h
    case decimal => exact decimal_le_length hc h
    case integer => exact integer_le_length hc h
    case string => exact absurd rfl hstring
    case comment => exact absurd rfl hcomment

theorem ne_nil_of_matches (ht : t.Matches bytes n) (hn : n ≤ u.length) : u ≠ [] := by
  obtain ⟨_, _, -, -, hpos⟩ := exists_begins ht
  exact List.length_pos_iff.mp (hpos.trans_le hn)

theorem string_matches_unique (hm : string.Matches bytes m) (hn : string.Matches bytes n) :
    m = n := by
  rw [← matchLength_string_eq_some_iff] at hm hn
  rw [hm] at hn
  exact Option.some.inj hn

theorem eq_length_of_string (ht : t.Matches bytes n) (h : string.Matches bytes m) : m = n := by
  obtain ⟨b, rest, rfl, hbegins, -⟩ := exists_begins ht
  obtain ⟨_, k, hquote, -⟩ := matches_string_iff.mp h
  obtain ⟨rfl, -⟩ := List.cons.inj hquote
  obtain rfl := eq_string_of_begins hbegins
  exact string_matches_unique h ht

theorem le_length_of_separates (hv : Separates v) (ht : t.Matches (u ++ v) n)
    (hn : n ≤ u.length) (h : t'.Matches (u ++ v) m) : m ≤ u.length := by
  rcases hv with rfl | ⟨x, rfl, hx⟩
  · simpa using h.1
  · by_cases hstring : t' = string
    · subst hstring
      rwa [eq_length_of_string ht h]
    · by_cases hcomment : t' = comment
      · subst hcomment
        exact comment_le_length hx h
      · exact le_length_of_isBreak rfl (ne_nil_of_matches ht hn) hstring hcomment h

/-- A token that ends before a cut is taken there with other bytes behind the cut, if nothing that
could be taken in its place goes on behind the cut. -/
theorem Taken.of_append_of_le (hn : n ≤ u.length)
    (hle : t.Matches (u ++ v) n → ∀ (t' : Token) (m : Nat),
      t' = identifier ∨ t' = comment ∨ viable t' → t'.Matches (u ++ v) m → m ≤ u.length)
    (h : Taken viable (u ++ v₀) t n) : Taken viable (u ++ v) t n := by
  have hmatches {t' : Token} {m : Nat} (hm : m ≤ u.length) :
      t'.Matches (u ++ v) m ↔ t'.Matches (u ++ v₀) m := by
    rw [matches_append_iff hm, matches_append_iff hm]
  have htext : t.Matches (u ++ v) n := (hmatches hn).mpr h.stands.text
  have hwhole (m : Nat) (hm : identifier.Matches (u ++ v) m) : m ≤ n :=
    h.stands.whole m ((hmatches (hle htext _ m (.inl rfl) hm)).mp hm)
  -- An identifier-shaped run that begins here ends before the cut, so both ends are alike to it.
  have hstands {t' : Token} {m : Nat} (ht' : Stands viable (u ++ v) t' m) :
      Stands viable (u ++ v₀) t' m := by
    have hm : m ≤ u.length := hle htext _ m (.inr ht'.is_viable) ht'.text
    refine ⟨ht'.is_viable, (hmatches hm).mp ht'.text, fun k hk => ?_⟩
    have hk' : k ≤ u.length := (h.stands.whole k hk).trans hn
    exact ht'.whole k ((hmatches hk').mpr hk)
  exact ⟨⟨h.stands.is_viable, htext, hwhole⟩, fun t' m ht' => h.longest t' m (hstands ht'),
    fun hidentifier t' ht' => h.unreserved hidentifier t' (hstands ht')⟩

theorem Taken.of_append (hv : Separates v) (hn : n ≤ u.length)
    (h : Taken viable (u ++ v₀) t n) : Taken viable (u ++ v) t n := by
  apply h.of_append_of_le hn
  intro htext t' m _ ht'
  exact le_length_of_separates hv htext hn ht'

end Token

end HeyVL
