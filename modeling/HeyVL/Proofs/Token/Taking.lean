import HeyVL.Proofs.Token.Longest
import HeyVL.Proofs.Token.Tables

/-!
Which token stands at a place. Of all viable tokens and comments the longest is taken, and an
identifier-shaped run is never cut. Two tokens can have a text in common only if one of them is a
reserved word and the other the identifier, so what is taken is unique.
-/

namespace HeyVL

open Bytes
open scoped Computability

namespace Token

variable {viable : Token → Prop} {bytes : Bytes} {t u : Token} {m n : Nat}

/-- A viable token, or a comment, has its text at the head of the bytes, and this cuts no
identifier-shaped run. -/
structure Stands (viable : Token → Prop) (bytes : Bytes) (t : Token) (n : Nat) : Prop where
  is_viable : t = .comment ∨ viable t
  text : t.Matches bytes n
  whole : ∀ m, identifier.Matches bytes m → m ≤ n

/-- The token is taken: no other one that stands here is longer, and it is an identifier only if
no reserved word is spelled like it. -/
structure Taken (viable : Token → Prop) (bytes : Bytes) (t : Token) (n : Nat) : Prop where
  stands : Stands viable bytes t n
  longest : ∀ u m, Stands viable bytes u m → m ≤ n
  unreserved : t = .identifier → ∀ u, Stands viable bytes u n → u = .identifier

theorem matches_take_iff : t.Matches (bytes.take n) n ↔ t.Matches bytes n := by
  constructor
  · rintro ⟨hn, h⟩
    rw [List.take_take, Nat.min_self] at h
    rw [List.length_take] at hn
    exact ⟨by omega, h⟩
  · rintro ⟨hn, h⟩
    refine ⟨by rw [List.length_take]; omega, ?_⟩
    rwa [List.take_take, Nat.min_self]

theorem matches_length_iff :
    t.Matches bytes bytes.length ↔ t.matchLength bytes = some bytes.length := by
  rw [matchLength_eq_some_iff]
  exact ⟨fun h => ⟨h, fun m hm => hm.1⟩, fun h => h.1⟩

theorem matches_texts_iff (h : t.isClass = false) :
    t.Matches bytes n ↔ ∃ s ∈ t.texts, fixedLength s bytes = some n := by
  cases t
  case infinity | boolean =>
    rw [Matches, language, takes_add_iff, takes_literally_iff, takes_literally_iff]
    simp [texts]
  case identifier | decimal | integer | string | comment => cases h
  all_goals simp [Matches, language, takes_literally_iff, texts, fixedText?]

theorem exists_spelling (h : t.isClass = false) (ht : t.Matches bytes n) :
    ∃ s ∈ t.texts, bytes.take n = ofText s ∧ n = (ofText s).length := by
  obtain ⟨s, hs, hn⟩ := (matches_texts_iff h).mp ht
  obtain ⟨rest, rfl, rfl⟩ := fixedLength_eq_some_iff.mp hn
  exact ⟨s, hs, List.take_left, rfl⟩

theorem exists_begins (h : t.Matches bytes n) :
    ∃ b rest, bytes = b :: rest ∧ t.begins b = true ∧ 0 < n := by
  cases hclass : t.isClass with
  | false =>
    obtain ⟨s, hs, htake, hn⟩ := exists_spelling hclass h
    obtain ⟨b, w, hw, -⟩ := exists_head_of_mem hs
    refine ⟨b, w ++ bytes.drop n, ?_, ?_, ?_⟩
    · rw [← List.cons_append, ← hw, ← htake, List.take_append_drop]
    · rw [begins_eq hclass, List.any_eq_true]
      exact ⟨s, hs, by simp [hw]⟩
    · rw [hn, hw]
      exact Nat.succ_pos _
  | true =>
    cases t <;> simp only [isClass, reduceCtorEq] at hclass
    case identifier =>
      obtain ⟨b, rest, m, rfl, rfl, hb, -⟩ := matches_identifier_iff.mp h
      exact ⟨b, rest, rfl, hb, Nat.succ_pos m⟩
    case integer =>
      obtain ⟨b, rest, m, rfl, rfl, hb, -⟩ := takes_byte_mul_iff.mp h
      exact ⟨b, rest, rfl, hb, Nat.succ_pos m⟩
    case decimal =>
      have hlanguage : decimal.language =
        byte isDigit * ((byte isDigit)∗ * literally "." * integer.language) := by
          simp only [language, mul_assoc]
      rw [Matches, hlanguage] at h
      obtain ⟨b, rest, m, rfl, rfl, hb, -⟩ := takes_byte_mul_iff.mp h
      exact ⟨b, rest, rfl, hb, Nat.succ_pos m⟩
    case string =>
      obtain ⟨rest, m, rfl, rfl, -⟩ := matches_string_iff.mp h
      exact ⟨34, rest, rfl, rfl, Nat.succ_pos m⟩
    case comment =>
      rcases matches_comment_iff.mp h with ⟨rest, m, rfl, rfl, -⟩ | ⟨rest, m, rfl, rfl, -⟩
      · exact ⟨47, 47 :: rest, rfl, rfl, by omega⟩
      · exact ⟨47, 42 :: rest, rfl, rfl, by omega⟩

theorem eq_of_matches_of_finite (hclass : t.isClass = false) (ht : t.Matches bytes n)
    (hu : u.Matches bytes n) : u = t ∨ u = identifier ∧ t.isReserved = true := by
  obtain ⟨s, hs, htake, rfl⟩ := exists_spelling hclass ht
  have hword := matches_take_iff.mpr hu
  rw [htake] at hword
  exact (spelling_of_mem hs).2.2 u (matches_length_iff.mp hword)

theorem not_matches_integer_of_decimal (h : decimal.Matches bytes n) :
    ¬ integer.Matches bytes n := by
  intro hinteger
  obtain ⟨whole, rest, fraction, hwhole, hrest, -, rfl⟩ := matches_decimal_iff.mp h
  have hle := (matches_integer_iff.mp hinteger).2
  have hrun := (integerLength_eq_some_iff.mp hwhole).2
  omega

/-- Two tokens with a common text are the same, unless one is a reserved word and the other one
the identifier. -/
theorem eq_of_matches (ht : t.Matches bytes n) (hu : u.Matches bytes n) :
    u = t ∨ u = identifier ∧ t.isReserved = true ∨ t = identifier ∧ u.isReserved = true := by
  cases htclass : t.isClass with
  | false => exact (eq_of_matches_of_finite htclass ht hu).imp_right .inl
  | true =>
    cases huclass : u.isClass with
    | false =>
      rcases eq_of_matches_of_finite huclass hu ht with h | h
      · exact .inl h.symm
      · exact .inr (.inr h)
    | true =>
      obtain ⟨b, rest, rfl, hbt, -⟩ := exists_begins ht
      obtain ⟨c, _, heq, hbu, -⟩ := exists_begins hu
      obtain ⟨rfl, -⟩ := List.cons.inj heq
      left
      rcases (class_of_begins htclass hbt).2.2 u huclass hbu with h | ⟨hnumber, hnumber'⟩
      · exact h
      · simp only [isNumber, Bool.or_eq_true, beq_iff_eq] at hnumber hnumber'
        rcases hnumber with rfl | rfl <;> rcases hnumber' with rfl | rfl
        · rfl
        · exact absurd hu (not_matches_integer_of_decimal ht)
        · exact absurd ht (not_matches_integer_of_decimal hu)
        · rfl

theorem Taken.unique (ht : Taken viable bytes t n) (hu : Taken viable bytes u m) :
    t = u ∧ n = m := by
  obtain rfl : n = m := Nat.le_antisymm (hu.longest t n ht.stands) (ht.longest u m hu.stands)
  refine ⟨?_, rfl⟩
  rcases eq_of_matches ht.stands.text hu.stands.text with h | ⟨rfl, h⟩ | ⟨rfl, h⟩
  · exact h.symm
  · exact hu.unreserved rfl t ht.stands
  · exact (ht.unreserved rfl u hu.stands).symm

theorem Taken.some_eq_some_iff (hu : Taken viable bytes u n) :
    some u = some t ↔ Taken viable bytes t n := by
  constructor
  · intro h
    obtain rfl := Option.some.inj h
    exact hu
  · intro h
    rw [(hu.unique h).1]

theorem isReserved_or_eq_identifier {b : UInt8} {rest : Bytes} (hb : isWordStart b = true)
    (h : t.Matches (b :: rest) n) :
    (t.isReserved = true ∨ t = identifier) ∧ identifier.Matches (b :: rest) n := by
  obtain ⟨_, _, heq, hbegins, -⟩ := exists_begins h
  obtain ⟨rfl, rfl⟩ := List.cons.inj heq
  cases hclass : t.isClass with
  | true =>
    have ht : t = identifier := (class_of_begins hclass hbegins).2.1 hb
    exact ⟨.inr ht, ht ▸ h⟩
  | false =>
    obtain ⟨s, hs, htake, rfl⟩ := exists_spelling hclass h
    obtain ⟨c, w, hw, hword⟩ := exists_head_of_mem hs
    have hc : c = b := by
      have hcons := htake
      rw [hw, List.length_cons, List.take_succ_cons] at hcons
      exact (List.cons.inj hcons).1.symm
    obtain ⟨hreserved, hlength⟩ := hword (hc ▸ hb)
    have hidentifier : identifier.Matches (ofText s) (ofText s).length :=
      matches_length_iff.mpr hlength
    rw [← htake] at hidentifier
    exact ⟨.inl hreserved, matches_take_iff.mp (by rwa [htake] at hidentifier ⊢)⟩

theorem Stands.eq_wordLength {k : Nat} (hk : bytes.wordLength = some k)
    (h : Stands viable bytes t n) : n = k ∧ (t.isReserved = true ∨ t = identifier) := by
  have hlongest := isGreatest_identifier.mp hk
  obtain ⟨b, rest, rfl, hb, -⟩ := wordLength_eq_some_iff.mp hk
  obtain ⟨ht, hidentifier⟩ := isReserved_or_eq_identifier hb h.text
  exact ⟨Nat.le_antisymm (hlongest.2 hidentifier) (h.whole k hlongest.1), ht⟩

theorem ofWord?_eq_some_iff {viable : Token → Bool} {k : Nat} (hk : bytes.wordLength = some k) :
    ofWord? viable (bytes.take k) = some t ↔ Taken (fun t => viable t = true) bytes t k := by
  have hlongest := isGreatest_identifier.mp hk
  have hlength : (bytes.take k).length = k := by
    rw [List.length_take]
    exact Nat.min_eq_left hlongest.1.1
  have hword {u : Token} :
      u.matchLength (bytes.take k) = some (bytes.take k).length ↔ u.Matches bytes k := by
    rw [← matches_length_iff, hlength, matches_take_iff]
  have hstands {u : Token} (hviable : viable u = true) (h : u.Matches bytes k) :
      Stands (fun t => viable t = true) bytes u k := ⟨.inr hviable, h, hlongest.2⟩
  have hbound (u : Token) (m : Nat) (h : Stands (fun t => viable t = true) bytes u m) : m ≤ k :=
    (h.eq_wordLength hk).1.le
  rw [ofWord?]
  split
  · next u hu =>
    have hfound := List.find?_some hu
    simp only [Bool.and_eq_true, beq_iff_eq, hword] at hfound
    obtain ⟨⟨hreserved, htext⟩, hviable⟩ := hfound
    have hne : u ≠ identifier := by
      rintro rfl
      cases hreserved
    have htaken : Taken (fun t => viable t = true) bytes u k :=
      ⟨hstands hviable htext, hbound, fun h => absurd h hne⟩
    exact htaken.some_eq_some_iff
  · next hnone =>
    have hidentifier (u : Token) (h : Stands (fun t => viable t = true) bytes u k) :
        u = identifier := by
      rcases (h.eq_wordLength hk).2 with hreserved | hu
      · have hviable : viable u = true := by
          rcases h.is_viable with rfl | hviable
          · cases hreserved
          · exact hviable
        refine absurd ?_ (List.find?_eq_none.mp hnone u u.mem_all)
        simp [hreserved, hviable, hword.mpr h.text]
      · exact hu
    split
    · next hviable =>
      have htaken : Taken (fun t => viable t = true) bytes identifier k :=
        ⟨hstands hviable hlongest.1, hbound, fun _ => hidentifier⟩
      exact htaken.some_eq_some_iff
    · next hviable =>
      constructor
      · intro h
        cases h
      · intro h
        obtain rfl := hidentifier t h.stands
        rcases h.stands.is_viable with h | h
        · cases h
        · exact absurd h hviable

theorem mem_candidates_iff {viable : Token → Bool} :
    (t, n) ∈ candidates viable bytes ↔
      (t = comment ∨ viable t = true) ∧ t.matchLength bytes = some n := by
  simp only [candidates, List.mem_filterMap]
  constructor
  · rintro ⟨u, -, h⟩
    split at h
    · next k hk =>
      split at h
      · next hu =>
        obtain ⟨rfl, rfl⟩ := Prod.mk.inj (Option.some.inj h)
        exact ⟨by simpa using hu, hk⟩
      · cases h
    · cases h
  · rintro ⟨ht, hn⟩
    refine ⟨t, t.mem_all, ?_⟩
    simp only [hn]
    rw [if_pos (by simpa using ht)]

/-- What is read at the head of the bytes is the token that is taken there. -/
theorem next?_eq_some_iff {viable : Token → Bool} :
    next? viable bytes = some (t, n) ↔ Taken (fun t => viable t = true) bytes t n := by
  rw [next?]
  split
  · next k hk =>
    rw [Option.map_eq_some_iff]
    constructor
    · rintro ⟨u, hu, heq⟩
      obtain ⟨rfl, rfl⟩ := Prod.mk.inj heq
      exact (ofWord?_eq_some_iff hk).mp hu
    · intro h
      obtain rfl := (h.stands.eq_wordLength hk).1
      exact ⟨t, (ofWord?_eq_some_iff hk).mpr h, rfl⟩
  · next hnone =>
    have hword : ∀ m, ¬ identifier.Matches bytes m := matchLength_eq_none_iff.mp hnone
    have hstands {u : Token} {m : Nat} : Stands (fun t => viable t = true) bytes u m ↔
        (u = comment ∨ viable u = true) ∧ u.Matches bytes m :=
      ⟨fun h => ⟨h.is_viable, h.text⟩, fun h => ⟨h.1, h.2, fun m hm => absurd hm (hword m)⟩⟩
    have hlongest {u : Token} {m : Nat} (h : Stands (fun t => viable t = true) bytes u m) :
        ∃ k, (u, k) ∈ candidates viable bytes ∧ m ≤ k := by
      cases hlength : u.matchLength bytes with
      | none => exact absurd h.text (matchLength_eq_none_iff.mp hlength m)
      | some k =>
        exact ⟨k, mem_candidates_iff.mpr ⟨h.is_viable, hlength⟩,
          (matchLength_eq_some_iff.mp hlength).2 h.text⟩
    have hsound {u : Token} {m : Nat} (h : (candidates viable bytes).maxOn? Prod.snd = some (u, m)) :
        Taken (fun t => viable t = true) bytes u m := by
      obtain ⟨hu, hm⟩ := mem_candidates_iff.mp (List.maxOn?_mem h)
      have htext := (matchLength_eq_some_iff.mp hm).1
      refine ⟨hstands.mpr ⟨hu, htext⟩, fun v k hv => ?_, ?_⟩
      · obtain ⟨l, hl, hkl⟩ := hlongest hv
        have hle := List.le_apply_get_maxOn?_of_mem (f := Prod.snd) hl
        simp only [h, Option.get_some] at hle
        exact hkl.trans hle
      · rintro rfl
        exact absurd htext (hword m)
    refine ⟨hsound, fun h => ?_⟩
    obtain ⟨k, hk, -⟩ := hlongest h.stands
    obtain ⟨⟨u, m⟩, hu⟩ := Option.isSome_iff_exists.mp
      (List.isSome_maxOn?_of_mem (f := Prod.snd) hk)
    obtain ⟨rfl, rfl⟩ := h.unique (hsound hu)
    exact hu

theorem next?_eq_none_iff {viable : Token → Bool} :
    next? viable bytes = none ↔
      ∀ t n, ¬ Stands (fun t => viable t = true) bytes t n := by
  constructor
  · intro hnone t n h
    rw [next?] at hnone
    split at hnone
    · next k hk =>
      rw [Option.map_eq_none_iff] at hnone
      have hbound (u : Token) (m : Nat) (hu : Stands (fun t => viable t = true) bytes u m) :
          m ≤ k := (hu.eq_wordLength hk).1.le
      obtain rfl := (h.eq_wordLength hk).1
      have htaken : ∃ u, Taken (fun t => viable t = true) bytes u n := by
        by_cases hreserved : ∃ u, Stands (fun t => viable t = true) bytes u n ∧ u ≠ identifier
        · obtain ⟨u, hu, hne⟩ := hreserved
          exact ⟨u, hu, hbound, fun h => absurd h hne⟩
        · exact ⟨t, h, hbound, fun _ u hu => by_contra fun hne => hreserved ⟨u, hu, hne⟩⟩
      obtain ⟨u, hu⟩ := htaken
      rw [(ofWord?_eq_some_iff hk).mpr hu] at hnone
      cases hnone
    · next hword =>
      cases hlength : t.matchLength bytes with
      | none => exact matchLength_eq_none_iff.mp hlength n h.text
      | some k =>
        have hsome := List.isSome_maxOn?_of_mem (f := Prod.snd)
          (mem_candidates_iff.mpr ⟨h.is_viable, hlength⟩)
        rw [hnone] at hsome
        cases hsome
  · intro h
    cases hnext : next? viable bytes with
    | none => rfl
    | some p => exact absurd (next?_eq_some_iff.mp hnext).stands (h p.1 p.2)

theorem Stands.exists_taken (h : Stands viable bytes t n) : ∃ u m, Taken viable bytes u m := by
  classical
  have hviable : (fun t => decide (viable t) = true) = viable := by simp
  cases hnext : next? (fun t => decide (viable t)) bytes with
  | none =>
    have hnone := next?_eq_none_iff.mp hnext
    rw [hviable] at hnone
    exact absurd h (hnone t n)
  | some p =>
    have htaken := next?_eq_some_iff.mp hnext
    rw [hviable] at htaken
    exact ⟨p.1, p.2, htaken⟩

end Token

end HeyVL
