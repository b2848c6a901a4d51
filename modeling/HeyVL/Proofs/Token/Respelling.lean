import HeyVL.Proofs.Token.Gaps

namespace HeyVL

open Bytes
open scoped Computability

namespace Bytes

variable {p : UInt8 → Bool} {b : UInt8} {w y : Bytes}

theorem length_lt_takeWhile_iff (u x : Bytes) :
    u.length < ((u ++ b :: x).takeWhile p).length ↔ (∀ a ∈ u, p a = true) ∧ p b = true := by
  induction u with
  | nil =>
    rw [List.nil_append, List.takeWhile_cons]
    cases p b <;> simp
  | cons a u ih =>
    rw [List.cons_append, List.takeWhile_cons]
    cases ha : p a with
    | false => simp [ha]
    | true => simpa [ha] using ih

theorem length_takeWhile_append_le (hy : ∀ b ∈ y.head?, p b = false) (w : Bytes) :
    ((w ++ y).takeWhile p).length ≤ w.length := by
  cases y with
  | nil =>
    rw [List.append_nil]
    exact (List.takeWhile_prefix p).length_le
  | cons b x => exact length_takeWhile_le (hy b rfl) w x

theorem append_mem_run {p q : UInt8 → Bool} (hw : w ∈ byte p * (byte q)∗) (hb : q b = true) :
    w ++ [b] ∈ byte p * (byte q)∗ := by
  obtain ⟨a, rest, rfl, ha, hrest⟩ := mem_byte_mul_iff.mp hw
  rw [mem_kstar_byte_iff] at hrest
  refine mem_byte_mul_iff.mpr ⟨a, rest ++ [b], rfl, ha, mem_kstar_byte_iff.mpr fun d hd => ?_⟩
  rcases List.mem_append.mp hd with hd | hd
  · exact hrest d hd
  · rwa [List.mem_singleton.mp hd]

end Bytes

namespace Token

variable {viable : Token → Prop} {u v w x x₀ y o bytes : Bytes} {c t t' : Token} {b b₀ : UInt8}
  {m n : Nat}

theorem matches_decimal_iff_exists_append :
    decimal.Matches bytes n ↔ ∃ w rest k, bytes = w ++ 46 :: rest ∧ w ≠ [] ∧
      (∀ a ∈ w, isDigit a = true) ∧ integer.Matches rest k ∧ n = w.length + 1 + k := by
  rw [matches_decimal_iff]
  constructor
  · rintro ⟨whole, rest, k, hwhole, hrest, hk, rfl⟩
    obtain ⟨hpos, hrun⟩ := integerLength_eq_some_iff.mp hwhole
    have htake : bytes.take whole = bytes.takeWhile isDigit := by
      rw [hrun]
      exact (List.prefix_iff_eq_take.mp (List.takeWhile_prefix isDigit)).symm
    refine ⟨bytes.takeWhile isDigit, rest, k, ?_, ?_, List.all_eq_true.mp List.all_takeWhile, hk, ?_⟩
    · rw [← htake, ← hrest, List.take_append_drop]
    · rw [← List.length_pos_iff, ← hrun]
      exact hpos
    · rw [hrun]
  · rintro ⟨w, rest, k, rfl, hw, hdigits, hk, rfl⟩
    refine ⟨w.length, rest, k, ?_, List.drop_left, hk, rfl⟩
    rw [integerLength_eq_some_iff, List.takeWhile_append_of_pos hdigits]
    exact ⟨List.length_pos_iff.mpr hw, by simp [isDigit]⟩

theorem first_table : all.all (fun c => !c.isClass || every.all fun b => !c.begins b ||
    isWordStart b == (c == identifier) && isDigit b == c.isNumber && (b == 47) == (c == comment) &&
      (isWordByte b || b == 34 || b == 47) && b != 0 && b != 10 && b != 42 && b != 46 &&
      b != 39) = true := by
  decide +kernel

theorem first_of_begins (hclass : c.isClass = true) (hb : c.begins b = true) :
    isWordStart b = (c == identifier) ∧ isDigit b = c.isNumber ∧ (b == 47) = (c == comment) ∧
      (isWordByte b || b == 34 || b == 47) = true ∧ b ≠ 0 ∧ b ≠ 10 ∧ b ≠ 42 ∧ b ≠ 46 ∧ b ≠ 39 := by
  have hall := forall_of_all first_table c
  rw [hclass, Bool.not_true, Bool.false_or] at hall
  have hbyte := List.all_eq_true.mp hall b (mem_every b)
  simpa [hb, and_assoc] using hbyte

theorem isWordByte_of_begins (hclass : c.isClass = true) (hb : c.begins b = true) :
    isWordByte b = (c == identifier || c.isNumber) := by
  obtain ⟨hstart, hdigit, -, -, -, -, -, -, hprime⟩ := first_of_begins hclass hb
  simp [isWordByte, hstart, hdigit, hprime]

theorem isDigit_of_isNumber (ht : t.isNumber = true) (hb : t.begins b = true) :
    isDigit b = true := by
  simp only [isNumber, Bool.or_eq_true, beq_iff_eq] at ht
  obtain rfl | rfl := ht <;> exact hb

theorem head_table : all.all (fun t => t.texts.all fun s => (ofText s).head?.all fun b =>
    !isDigit b && (!t.isReserved || isWordStart b)) = true := by
  decide

theorem head_of_begins (hclass : t.isClass = false) (h : t.begins b = true) :
    isDigit b = false ∧ (t.isReserved = true → isWordStart b = true) := by
  rw [begins_eq hclass] at h
  obtain ⟨s, hs, hb⟩ := List.any_eq_true.mp h
  have hhead := List.all_eq_true.mp (forall_of_all head_table t) s hs
  rw [beq_iff_eq.mp hb] at hhead
  simp only [Option.all_some, Bool.and_eq_true, Bool.not_eq_true', Bool.or_eq_true] at hhead
  exact ⟨hhead.1, fun ht => hhead.2.resolve_left (by simp [ht])⟩

theorem isNumber_of_begins (hb : isDigit b = true) (h : t.begins b = true) :
    t.isNumber = true := by
  cases hclass : t.isClass with
  | true => exact (first_of_begins hclass h).2.1.symm.trans hb
  | false => simp [(head_of_begins hclass h).1] at hb

theorem isWordStart_of_isReserved (ht : t.isReserved = true) (h : t.begins b = true) :
    isWordStart b = true := by
  have hclass : t.isClass = false := by
    cases t <;> first | rfl | cases ht
  exact (head_of_begins hclass h).2 ht

/-- A text that goes on behind a text of another token with a byte that a class begins with: only
the signs with a word behind the at sign are like this. -/
theorem extension_table : all.all (fun t' => t'.isReserved || t'.texts.all fun s' =>
    all.all fun t =>
      if t.isClass then (ofText s').length == 1 || !(ofText s').head?.any t.begins
      else t.texts.all fun s => !(ofText s).isPrefixOf (ofText s') || s == s' ||
        t == punctuation .atSign && (t' == punctuation .trigger || t' == punctuation .computable) ||
        ((ofText s').drop (ofText s).length).all fun b =>
          !(isWordByte b || b == 34 || b == 47)) = true := by
  decide +kernel

theorem not_begins_behind (hreserved : t'.isReserved = false) (hfinite : t'.isClass = false)
    (hat : ¬ (t = punctuation .atSign ∧
      (t' = punctuation .trigger ∨ t' = punctuation .computable)))
    (ht : t.Matches bytes n) (ht' : t'.Matches bytes m) {k : Nat} (hn : n ≤ k) (hk : k < m)
    (hb : bytes[k]? = some b) : (isWordByte b || b == 34 || b == 47) = false := by
  obtain ⟨s', hs', hm⟩ := (matches_texts_iff hfinite).mp ht'
  obtain ⟨rest, rfl, rfl⟩ := fixedLength_eq_some_iff.mp hm
  rw [List.getElem?_append_left hk] at hb
  have htable := forall_of_all extension_table t'
  rw [hreserved, Bool.false_or] at htable
  have htable := forall_of_all (List.all_eq_true.mp htable s' hs') t
  split at htable
  · obtain ⟨a, w, hw, -⟩ := exists_head_of_mem hs'
    obtain ⟨_, _, heq, hbegins, hpos⟩ := exists_begins ht
    rw [hw, List.cons_append] at heq
    obtain ⟨rfl, -⟩ := List.cons.inj heq
    have hlength : (ofText s').length ≠ 1 := by omega
    simp [hw, hbegins] at htable hlength
    exact absurd htable hlength
  · next hclass =>
    obtain ⟨s, hs, hn'⟩ := (matches_texts_iff (by simpa using hclass)).mp ht
    obtain ⟨rest', heq, rfl⟩ := fixedLength_eq_some_iff.mp hn'
    have hprefix : ofText s <+: ofText s' :=
      List.prefix_of_prefix_length_le ⟨rest', heq.symm⟩ ⟨rest, rfl⟩ (by omega)
    have hne : s ≠ s' := by
      rintro rfl
      omega
    have hspell := List.all_eq_true.mp htable s hs
    have hmem : b ∈ (ofText s').drop (ofText s).length :=
      List.mem_iff_getElem?.mpr ⟨k - (ofText s).length, by
        rw [List.getElem?_drop, Nat.add_sub_cancel' hn, hb]⟩
    simp only [Bool.or_eq_true, Bool.not_eq_true', Bool.and_eq_true, beq_iff_eq] at hspell
    obtain ((hnone | heq) | hpair) | hall := hspell
    · rw [List.isPrefixOf_iff_prefix.mpr hprefix] at hnone
      cases hnone
    · exact absurd heq hne
    · exact absurd hpair hat
    · simpa using List.all_eq_true.mp hall b hmem

theorem Taken.le_of_matches (h : Taken viable bytes t n) (ht' : t' = comment ∨ viable t')
    (hm : t'.Matches bytes m) : m ≤ n := by
  by_contra hlt
  have hstands : Stands viable bytes t' m :=
    ⟨ht', hm, fun k hk => (h.stands.whole k hk).trans (Nat.le_of_not_le hlt)⟩
  exact hlt (h.longest t' m hstands)

section Before

variable (hclass : c.isClass = true) (hb : c.begins b = true) (hb₀ : c.begins b₀ = true)

include hclass hb hb₀

theorem matches_identifier_of_lt (hu : u ≠ []) (h : identifier.Matches (u ++ b :: x) m)
    (hm : u.length < m) : identifier.Matches (u ++ b₀ :: x₀) (u.length + 1) := by
  obtain ⟨a, rest, k, heq, rfl, ha, hk⟩ := matches_identifier_iff.mp h
  obtain ⟨a', w, rfl⟩ := List.exists_cons_of_ne_nil hu
  rw [List.cons_append] at heq
  obtain ⟨rfl, rfl⟩ := List.cons.inj heq
  have hlt : w.length < ((w ++ b :: x).takeWhile isWordByte).length := by
    rw [List.length_cons] at hm
    omega
  obtain ⟨hw, hword⟩ := (length_lt_takeWhile_iff w x).mp hlt
  rw [isWordByte_of_begins hclass hb, ← isWordByte_of_begins hclass hb₀] at hword
  exact matches_identifier_iff.mpr ⟨a', w ++ b₀ :: x₀, w.length + 1, rfl, rfl, ha,
    (length_lt_takeWhile_iff w x₀).mpr ⟨hw, hword⟩⟩

theorem isDigit_of_begins (h : isDigit b = true) : isDigit b₀ = true := by
  rw [(first_of_begins hclass hb).2.1] at h
  rw [(first_of_begins hclass hb₀).2.1, h]

theorem matches_integer_of_lt (h : u.length < ((u ++ b :: x).takeWhile isDigit).length) :
    integer.Matches (u ++ b₀ :: x₀) (u.length + 1) := by
  obtain ⟨hu, hdigit⟩ := (length_lt_takeWhile_iff u x).mp h
  exact matches_integer_iff.mpr ⟨Nat.succ_pos _,
    (length_lt_takeWhile_iff u x₀).mpr ⟨hu, isDigit_of_begins hclass hb hb₀ hdigit⟩⟩

variable (hn : n ≤ u.length) (h : Taken viable (u ++ b₀ :: x₀) t n) (hm : u.length < m)

include hn h hm

theorem not_matches_identifier : ¬ identifier.Matches (u ++ b :: x) m := by
  intro h'
  obtain ⟨_, _, hbytes, -, hpos⟩ := exists_begins h.stands.text
  have hu : u ≠ [] := List.length_pos_iff.mp (hpos.trans_le hn)
  have hle := h.stands.whole _ (matches_identifier_of_lt hclass hb hb₀ hu h' hm)
  omega

theorem not_matches_integer (hviable : viable integer) : ¬ integer.Matches (u ++ b :: x) m := by
  intro h'
  have hlt := hm.trans_le (matches_integer_iff.mp h').2
  have hle := h.le_of_matches (.inr hviable) (matches_integer_of_lt hclass hb hb₀ hlt)
  omega

theorem not_all_isDigit (hdigit : isDigit b = true) : ¬ ∀ a ∈ u, isDigit a = true := by
  intro hu
  have hlt₀ := (length_lt_takeWhile_iff u x₀).mpr ⟨hu, isDigit_of_begins hclass hb hb₀ hdigit⟩
  obtain ⟨a, rest, heq, hbegins, hpos⟩ := exists_begins h.stands.text
  obtain ⟨a', w, rfl⟩ := List.exists_cons_of_ne_nil (List.length_pos_iff.mp (hpos.trans_le hn))
  rw [List.cons_append] at heq
  obtain ⟨rfl, -⟩ := List.cons.inj heq
  have hnumber := isNumber_of_begins (hu a' (by simp)) hbegins
  simp only [isNumber, Bool.or_eq_true, beq_iff_eq] at hnumber
  obtain rfl | rfl := hnumber
  · obtain ⟨whole, _, _, hwhole, -, -, rfl⟩ := matches_decimal_iff.mp h.stands.text
    have := (integerLength_eq_some_iff.mp hwhole).2
    omega
  · have hle := h.le_of_matches h.stands.is_viable
      (matches_integer_iff.mpr ⟨Nat.succ_pos _, hlt₀⟩)
    omega

theorem not_matches_decimal (hviable : viable decimal) : ¬ decimal.Matches (u ++ b :: x) m := by
  intro h'
  have hpoint : b ≠ 46 := (first_of_begins hclass hb).2.2.2.2.2.2.2.1
  obtain ⟨w, rest, k, heq, hw, hdigits, hk, rfl⟩ := matches_decimal_iff_exists_append.mp h'
  obtain ⟨v, rfl, hv⟩ | ⟨v, rfl, hv⟩ := List.append_eq_append_iff.mp heq
  · cases v with
    | nil => exact hpoint (List.cons.inj hv).1
    | cons a v =>
      rw [List.cons_append] at hv
      obtain ⟨rfl, -⟩ := List.cons.inj hv
      exact not_all_isDigit hclass hb hb₀ hn h hm (hdigits b (by simp))
        fun a ha => hdigits a (by simp [ha])
  · cases v with
    | nil => exact hpoint (List.cons.inj hv).1.symm
    | cons a v =>
      rw [List.cons_append] at hv
      obtain ⟨rfl, rfl⟩ := List.cons.inj hv
      have hlt : v.length < ((v ++ b :: x).takeWhile isDigit).length := by
        have := (matches_integer_iff.mp hk).2
        rw [List.length_append, List.length_cons] at hm
        omega
      have hdecimal : decimal.Matches (w ++ 46 :: v ++ b₀ :: x₀) (w.length + 1 + (v.length + 1)) :=
        matches_decimal_iff_exists_append.mpr ⟨w, v ++ b₀ :: x₀, v.length + 1, by simp, hw, hdigits,
          matches_integer_of_lt hclass hb hb₀ hlt, rfl⟩
      have hle := h.le_of_matches (.inr hviable) hdecimal
      rw [List.length_append, List.length_cons] at hn
      omega

theorem not_matches_comment (hstar : t = binary .div → (u.drop n).head? ≠ some 42) :
    ¬ comment.Matches (u ++ b :: x) m := by
  intro h'
  obtain ⟨-, -, hslash, -, hzero, hnewline, hasterisk, -⟩ := first_of_begins hclass hb₀
  have hstar₀ : b ≠ 42 := (first_of_begins hclass hb).2.2.2.2.2.2.1
  have hslash₀ : (b == 47) = (b₀ == 47) := by
    rw [hslash, (first_of_begins hclass hb).2.2.1]
  obtain ⟨_, _, hbytes, -, hpos⟩ := exists_begins h.stands.text
  obtain ⟨a, u, rfl⟩ := List.exists_cons_of_ne_nil (List.length_pos_iff.mp (hpos.trans_le hn))
  rcases matches_comment_iff.mp h' with ⟨rest, k, heq, rfl, hk⟩ | ⟨rest, k, heq, rfl, hk⟩
  · -- A line comment that goes on behind the cut did so before.
    rw [List.cons_append] at heq
    obtain ⟨rfl, htail⟩ := List.cons.inj heq
    have hcomment : comment.Matches (47 :: u ++ b₀ :: x₀) (u.length + 1 + 1) := by
      cases u with
      | nil =>
        obtain ⟨rfl, -⟩ := List.cons.inj htail
        have hb₀ : b₀ = 47 := by simpa using hslash₀
        exact matches_comment_iff.mpr (.inl ⟨x₀, 0, by simp [hb₀], rfl, Nat.zero_le _⟩)
      | cons a u =>
        rw [List.cons_append] at htail
        obtain ⟨rfl, rfl⟩ := List.cons.inj htail
        have hlt : u.length < ((u ++ b :: x).takeWhile fun b => b != 10 && b != 0).length := by
          rw [List.length_cons, List.length_cons] at hm
          omega
        obtain ⟨hu, -⟩ := (length_lt_takeWhile_iff u x).mp hlt
        exact matches_comment_iff.mpr (.inl ⟨u ++ b₀ :: x₀, u.length + 1, rfl, rfl,
          (length_lt_takeWhile_iff u x₀).mpr ⟨hu, by simp [hnewline, hzero]⟩⟩)
    have hle := h.le_of_matches (.inl rfl) hcomment
    rw [List.length_cons] at hn
    omega
  · -- A block comment ends where it did.
    rw [List.cons_append] at heq
    obtain ⟨rfl, htail⟩ := List.cons.inj heq
    cases u with
    | nil => exact hstar₀ (List.cons.inj htail).1
    | cons a u =>
      rw [List.cons_append] at htail
      obtain ⟨rfl, rfl⟩ := List.cons.inj htail
      obtain ⟨_, _, hcons, hbegins, -⟩ := exists_begins h.stands.text
      obtain ⟨rfl, -⟩ := List.cons.inj hcons
      rcases eq_comment_or_div_of_begins hbegins with rfl | rfl
      · have htext := (matches_append_iff hn).mp h.stands.text
        rcases matches_comment_iff.mp htext with ⟨_, _, hline, -⟩ | ⟨_, j, hblock, rfl, hj⟩
        · cases hline
        · cases hblock
          obtain rfl := Option.some.inj (hk.symm.trans (commentEnd_append hj (b :: x)))
          omega
      · obtain ⟨rfl, -⟩ := matches_div_iff.mp h.stands.text
        exact hstar rfl rfl

theorem not_matches_of_finite (hat : ¬ (viable (punctuation .atSign) ∧
      (viable (punctuation .trigger) ∨ viable (punctuation .computable))))
    (hfinite : t'.isClass = false) (hviable : viable t') : ¬ t'.Matches (u ++ b :: x) m := by
  intro h'
  obtain ⟨a, rest, heq, hbegins, -⟩ := exists_begins h'
  cases hreserved : t'.isReserved with
  | true =>
    rw [heq] at h'
    have hword := (isReserved_or_eq_identifier (isWordStart_of_isReserved hreserved hbegins) h').2
    rw [← heq] at hword
    exact not_matches_identifier hclass hb hb₀ hn h hm hword
  | false =>
    have htext : t.Matches (u ++ b :: x) n :=
      (matches_append_iff hn).mpr ((matches_append_iff hn).mp h.stands.text)
    have hpair : ¬ (t = punctuation .atSign ∧
        (t' = punctuation .trigger ∨ t' = punctuation .computable)) := by
      rintro ⟨rfl, ht'⟩
      have hsign : viable (punctuation .atSign) := h.stands.is_viable.resolve_left (by decide)
      rcases ht' with rfl | rfl
      · exact hat ⟨hsign, .inl hviable⟩
      · exact hat ⟨hsign, .inr hviable⟩
    have hbehind := not_begins_behind hreserved hfinite hpair htext h' hn hm
      (show (u ++ b :: x)[u.length]? = some b by simp)
    rw [(first_of_begins hclass hb).2.2.2.1] at hbehind
    cases hbehind

end Before

/-- What is before a text of a class is taken as before when the class is spelled otherwise there. -/
theorem Taken.of_append_begins (hclass : c.isClass = true) (hb : c.begins b = true)
    (hb₀ : c.begins b₀ = true) (hn : n ≤ u.length)
    (hat : ¬ (viable (punctuation .atSign) ∧
      (viable (punctuation .trigger) ∨ viable (punctuation .computable))))
    (hstar : t = binary .div → (u.drop n).head? ≠ some 42)
    (h : Taken viable (u ++ b₀ :: x₀) t n) : Taken viable (u ++ b :: x) t n := by
  apply h.of_append_of_le hn
  intro htext t' m ht' h'
  by_contra hle
  have hm : u.length < m := Nat.lt_of_not_le hle
  cases hfinite : t'.isClass with
  | false =>
    have hviable : viable t' := by
      rcases ht' with rfl | rfl | hviable
      · cases hfinite
      · cases hfinite
      · exact hviable
    exact not_matches_of_finite hclass hb hb₀ hn h hm hat hfinite hviable h'
  | true =>
    cases t' <;> simp only [isClass, reduceCtorEq] at hfinite
    case identifier => exact not_matches_identifier hclass hb hb₀ hn h hm h'
    case decimal =>
      exact not_matches_decimal hclass hb hb₀ hn h hm (by simpa using ht') h'
    case integer =>
      exact not_matches_integer hclass hb hb₀ hn h hm (by simpa using ht') h'
    case string =>
      obtain rfl := eq_length_of_string htext h'
      exact hle hn
    case comment => exact not_matches_comment hclass hb hb₀ hn h hm hstar h'

theorem taken_string (hw : w ∈ string.language) (hviable : viable string) :
    Taken viable (w ++ y) string w.length := by
  have htext := matches_append_of_mem hw y
  refine ⟨⟨.inr hviable, htext, fun k hk => ?_⟩, fun t m ht => ?_, fun h => by cases h⟩
  · exact (eq_length_of_string hk htext).ge
  · exact (eq_length_of_string ht.text htext).ge

theorem append_digit_mem (ht : t.isNumber = true) (hw : w ∈ t.language) (hb : isDigit b = true) :
    w ++ [b] ∈ t.language := by
  simp only [isNumber, Bool.or_eq_true, beq_iff_eq] at ht
  obtain rfl | rfl := ht
  · obtain ⟨p, hp, q, hq, rfl⟩ := Language.mem_mul.mp hw
    rw [List.append_assoc]
    exact Language.append_mem_mul hp (append_mem_run hq hb)
  · exact append_mem_run hw hb

theorem Taken.not_append_mem (h : Taken viable (o ++ b :: x) t o.length) :
    o ++ [b] ∉ t.language := by
  intro hmem
  have hmatches := matches_append_of_mem hmem x
  rw [List.append_assoc, List.singleton_append] at hmatches
  have hle := h.le_of_matches h.stands.is_viable hmatches
  rw [List.length_append, List.length_singleton] at hle
  omega

theorem mem_language_of_taken (h : Taken viable (o ++ y) t o.length) : o ∈ t.language := by
  have htext := h.stands.text.2
  rwa [List.take_left] at htext

theorem isDigit_head_of_taken (ht : t.isNumber = true) (h : Taken viable (o ++ y) t o.length) :
    ∀ b ∈ y.head?, isDigit b = false := by
  intro b hb
  obtain ⟨x, rfl⟩ := List.head?_eq_some_iff.mp hb
  exact Bool.eq_false_iff.mpr fun hdigit =>
    h.not_append_mem (append_digit_mem ht (mem_language_of_taken h) hdigit)

theorem integer_le_of_head (hy : ∀ b ∈ y.head?, isDigit b = false)
    (h : integer.Matches (w ++ y) m) : m ≤ w.length :=
  (matches_integer_iff.mp h).2.trans (length_takeWhile_append_le hy w)

theorem isDigit_of_mem (hw : w ∈ integer.language) : w ≠ [] ∧ ∀ a ∈ w, isDigit a = true := by
  obtain ⟨b, rest, rfl, hb, hrest⟩ := mem_byte_mul_iff.mp hw
  exact ⟨List.cons_ne_nil _ _, by simpa [hb] using mem_kstar_byte_iff.mp hrest⟩

theorem takeWhile_isDigit_append (hw : ∀ a ∈ w, isDigit a = true) (x : Bytes) :
    (w ++ 46 :: x).takeWhile isDigit = w := by
  rw [List.takeWhile_append_of_pos hw]
  simp [isDigit]

/-- A decimal fraction cannot go on behind a number: an integer that is taken has no fraction behind
it, and a decimal ends with its own. -/
theorem decimal_le_of_taken (ht : t.isNumber = true) (hw : w ∈ t.language)
    (h : Taken viable (o ++ y) t o.length) (hviable : viable decimal)
    (hm : decimal.Matches (w ++ y) m) : m ≤ w.length := by
  have hy := isDigit_head_of_taken ht h
  obtain ⟨v, rest, k, heq, hv, hdigits, hk, rfl⟩ := matches_decimal_iff_exists_append.mp hm
  simp only [isNumber, Bool.or_eq_true, beq_iff_eq] at ht
  obtain rfl | rfl := ht
  · obtain ⟨v', rest', -, rfl, -, hdigits', -⟩ := matches_decimal_iff_exists_append.mp
      (show decimal.Matches w w.length from ⟨Nat.le_refl _, by rwa [List.take_length]⟩)
    rw [List.append_assoc, List.cons_append] at heq
    have hrun := congrArg (List.takeWhile isDigit) heq
    rw [takeWhile_isDigit_append hdigits, takeWhile_isDigit_append hdigits'] at hrun
    subst hrun
    obtain ⟨-, rfl⟩ := List.cons.inj (List.append_cancel_left heq)
    have hle := integer_le_of_head hy hk
    rw [List.length_append, List.length_cons]
    omega
  · -- All digits of the new text are before the point, and so the point is behind the old one, too.
    have hrun : (w ++ y).takeWhile isDigit = w := by
      rw [List.takeWhile_append_of_pos (isDigit_of_mem hw).2]
      cases y with
      | nil => simp
      | cons b x => simp [hy b rfl]
    rw [heq, takeWhile_isDigit_append hdigits] at hrun
    subst hrun
    obtain rfl := List.append_cancel_left heq
    obtain ⟨ho, hdigits'⟩ := isDigit_of_mem (mem_language_of_taken h)
    have hle := h.le_of_matches (.inr hviable)
      (matches_decimal_iff_exists_append.mpr ⟨o, rest, k, rfl, ho, hdigits', hk, rfl⟩)
    omega

theorem Taken.of_number (ht : t.isNumber = true) (hw : w ∈ t.language)
    (h : Taken viable (o ++ y) t o.length) : Taken viable (w ++ y) t w.length := by
  have htext := matches_append_of_mem hw y
  have hy := isDigit_head_of_taken ht h
  have hnumber {t' : Token} {m : Nat} (h' : t'.Matches (w ++ y) m) : t'.isNumber = true := by
    obtain ⟨b, rest, hbytes, hb, -⟩ := exists_begins htext
    obtain ⟨_, _, heq, hb', -⟩ := exists_begins h'
    obtain ⟨rfl, -⟩ := List.cons.inj (hbytes.symm.trans heq)
    exact isNumber_of_begins (isDigit_of_isNumber ht hb) hb'
  refine ⟨⟨h.stands.is_viable, htext, fun k hk => ?_⟩, fun t' m ht' => ?_, ?_⟩
  · cases hnumber hk
  · have hclass := hnumber ht'.text
    simp only [isNumber, Bool.or_eq_true, beq_iff_eq] at hclass
    obtain rfl | rfl := hclass
    · exact decimal_le_of_taken ht hw h (ht'.is_viable.resolve_left (by decide)) ht'.text
    · exact integer_le_of_head hy ht'.text
  · rintro rfl
    cases ht

theorem Taken.of_identifier (hw : w ∈ identifier.language)
    (hfree : ∀ t : Token, t.isReserved = true → viable t → w ∉ t.language)
    (h : Taken viable (o ++ y) identifier o.length) : Taken viable (w ++ y) identifier w.length := by
  have htext := matches_append_of_mem hw y
  have hy : ∀ b ∈ y.head?, isWordByte b = false := by
    intro b hb
    obtain ⟨x, rfl⟩ := List.head?_eq_some_iff.mp hb
    exact Bool.eq_false_iff.mpr fun hword =>
      h.not_append_mem (append_mem_run (mem_language_of_taken h) hword)
  have hle (k : Nat) (hk : identifier.Matches (w ++ y) k) : k ≤ w.length := by
    obtain ⟨b, rest, rfl, hb, -⟩ := mem_byte_mul_iff.mp hw
    obtain ⟨_, _, j, heq, rfl, -, hj⟩ := matches_identifier_iff.mp hk
    rw [List.cons_append] at heq
    obtain ⟨rfl, rfl⟩ := List.cons.inj heq
    exact Nat.succ_le_succ (hj.trans (length_takeWhile_append_le hy rest))
  have hlength : wordLength (w ++ y) = some w.length := isGreatest_identifier.mpr ⟨htext, hle⟩
  refine ⟨⟨h.stands.is_viable, htext, hle⟩, fun t m ht => (ht.eq_wordLength hlength).1.le,
    fun _ t ht => ?_⟩
  refine (ht.eq_wordLength hlength).2.resolve_left fun hreserved => ?_
  have hviable : viable t := by
    rcases ht.is_viable with rfl | hviable
    · cases hreserved
    · exact hviable
  have hmem := ht.text.2
  rw [List.take_left] at hmem
  exact hfree t hreserved hviable hmem

theorem all_takeWhile_of_le {p : UInt8 → Bool} (h : w.length ≤ (w.takeWhile p).length) :
    ∀ a ∈ w, p a = true := by
  have heq := (List.takeWhile_prefix p).eq_of_length_le h
  rw [← heq]
  exact List.all_eq_true.mp List.all_takeWhile

theorem Taken.head_of_line (hline : [47, 47] <+: o) (h : Taken viable (o ++ y) comment o.length) :
    ∀ b ∈ y.head?, b = 10 ∨ b = 0 := by
  intro b hb
  obtain ⟨x, rfl⟩ := List.head?_eq_some_iff.mp hb
  obtain ⟨rest, rfl⟩ := hline
  by_contra hnot
  have htext := (matches_append_iff (Nat.le_refl _)).mp h.stands.text
  rcases matches_comment_iff.mp htext with ⟨_, k, heq, hk, hle⟩ | ⟨_, _, heq, -⟩
  · obtain rfl := (List.cons.inj (List.cons.inj heq).2).2
    obtain rfl : rest.length = k := by simpa using hk
    have hlt := (length_lt_takeWhile_iff rest x).mpr
      ⟨all_takeWhile_of_le hle, show (b != 10 && b != 0) = true by simpa [not_or] using hnot⟩
    have hle := h.le_of_matches (.inl rfl)
      (matches_comment_iff.mpr (.inl ⟨rest ++ b :: x, rest.length + 1, rfl, rfl, hlt⟩))
    have hlength : ([47, 47] ++ rest).length = rest.length + 2 := by simp
    omega
  · cases heq

end Token

end HeyVL
