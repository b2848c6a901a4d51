import HeyVL.Proofs.Token.Separation

namespace HeyVL

open Bytes

namespace Bytes

variable {bytes v : Bytes} {n : Nat} {L : ByteLanguage}

theorem takes_append (h : bytes.Takes n L) (v : Bytes) : Takes (bytes ++ v) n L := by
  obtain ⟨hn, htake⟩ := h
  refine ⟨by rw [List.length_append]; omega, ?_⟩
  rwa [List.take_append_of_le_length hn]

theorem commentEnd_append (h : commentEnd bytes = some n) (v : Bytes) :
    commentEnd (bytes ++ v) = some n := by
  rw [(commentEnd_eq_some_iff _).1] at h ⊢
  exact takes_append h v

theorem isPrefix_takeWhile {v v₀ : Bytes}
    (h : ∀ (i : Nat) (b : UInt8), v[i]? = some b → isSpace b = false → v₀[i]? = some b) :
    (v.takeWhile fun b => !isSpace b) <+: v₀ := by
  induction v generalizing v₀ with
  | nil => exact List.nil_prefix
  | cons b v ih =>
    rw [List.takeWhile_cons]
    cases hb : isSpace b with
    | true => exact List.nil_prefix
    | false =>
      cases v₀ with
      | nil => cases h 0 b rfl hb
      | cons c v₀ =>
        obtain rfl := Option.some.inj (h 0 b rfl hb)
        exact (List.prefix_cons_inj c).mpr (ih fun i => h (i + 1))

end Bytes

namespace Token

variable {viable : Token → Prop} {u v v₀ w bytes : Bytes} {t t' : Token} {m n : Nat}

theorem eq_comment_or_div_of_begins (h : t.begins 47 = true) : t = comment ∨ t = binary .div := by
  have hall : all.all (fun t => !t.begins 47 || t == comment || t == binary .div) = true := by
    decide
  simpa [h] using forall_of_all hall t

theorem eq_mul_of_begins (h : t.begins 42 = true) : t = binary .mul := by
  have hall : all.all (fun t => !t.begins 42 || t == binary .mul) = true := by decide
  simpa [h] using forall_of_all hall t

theorem not_begins_zero (t : Token) : t.begins 0 = false := by
  have hall : all.all (fun t => !t.begins 0) = true := by decide
  simpa using forall_of_all hall t

/-- Some signs, each with the one byte of its text. -/
def signs : List (Punctuation × UInt8) := [(.parenOpen, 40), (.parenClose, 41), (.braceOpen, 123)]

theorem isBreak_of_sign {p : Punctuation} {b : UInt8} (hp : (p, b) ∈ signs) : isBreak b = true := by
  have hall : signs.all (fun (_, b) => isBreak b) = true := by decide
  exact List.all_eq_true.mp hall _ hp

theorem matches_byte_iff {s : String} {b : UInt8} (ht : t.fixedText? = some s) (hs : ofText s = [b]) :
    t.Matches bytes n ↔ n = 1 ∧ ∃ rest, bytes = b :: rest := by
  rw [matches_fixed_iff ht, fixedLength_eq_some_iff, hs]
  constructor
  · rintro ⟨rest, rfl, rfl⟩
    exact ⟨rfl, rest, rfl⟩
  · rintro ⟨rfl, rest, rfl⟩
    exact ⟨rest, rfl, rfl⟩

theorem taken_byte {p : Punctuation} {b : UInt8} (hp : ofText p.text = [b])
    (honly : ∀ u : Token, u.begins b = true → u = punctuation p) (hviable : viable (punctuation p)) :
    Taken viable (b :: bytes) (punctuation p) 1 := by
  have htext (m : Nat) : (punctuation p).Matches (b :: bytes) m ↔ m = 1 ∧ ∃ rest, b :: bytes = b :: rest :=
    matches_byte_iff rfl hp
  have hlength {u : Token} {m : Nat} (h : u.Matches (b :: bytes) m) : m = 1 := by
    obtain ⟨_, _, heq, hbegins, -⟩ := exists_begins h
    obtain ⟨rfl, rfl⟩ := List.cons.inj heq
    obtain rfl := honly u hbegins
    exact ((htext m).mp h).1
  exact ⟨⟨.inr hviable, (htext 1).mpr ⟨rfl, bytes, rfl⟩, fun m hm => (hlength hm).le⟩,
    fun u m hu => (hlength hu.text).le, nofun⟩

theorem text_of_sign {p : Punctuation} {b : UInt8} (hp : (p, b) ∈ signs) : ofText p.text = [b] := by
  have hall : signs.all (fun (p, b) => ofText p.text == [b]) = true := by decide
  simpa using List.all_eq_true.mp hall _ hp

theorem matches_sign_iff {p : Punctuation} {b : UInt8} (hp : (p, b) ∈ signs) :
    (punctuation p).Matches bytes n ↔ n = 1 ∧ ∃ rest, bytes = b :: rest :=
  matches_byte_iff rfl (text_of_sign hp)

theorem taken_sign {p : Punctuation} {b : UInt8} (hp : (p, b) ∈ signs)
    (hviable : viable (punctuation p)) : Taken viable (b :: bytes) (punctuation p) 1 := by
  refine taken_byte (text_of_sign hp) (fun u hu => ?_) hviable
  have hall : all.all (fun u => signs.all fun (p, b) => !u.begins b || u == punctuation p) = true := by
    decide
  simpa [hu] using List.all_eq_true.mp (forall_of_all hall u) _ hp

theorem taken_semicolon (hviable : viable (punctuation .semicolon)) :
    Taken viable (59 :: bytes) (punctuation .semicolon) 1 := by
  refine taken_byte (by decide) (fun u hu => ?_) hviable
  have hall : all.all (fun u => !u.begins 59 || u == punctuation .semicolon) = true := by decide
  simpa [hu] using forall_of_all hall u

theorem matches_div_iff : (binary .div).Matches bytes n ↔ n = 1 ∧ ∃ rest, bytes = 47 :: rest :=
  matches_byte_iff rfl (by decide)

/-- Where a comment could be read and another token is, this is the slash. -/
theorem eq_div_of_comment_matches (h : comment.Matches bytes m) (ht : t.Matches bytes n)
    (hcomment : t ≠ comment) : t = binary .div ∧ n = 1 := by
  obtain ⟨b, rest, rfl, hb, -⟩ := exists_begins h
  obtain rfl : b = 47 := by simpa [begins] using hb
  obtain ⟨_, _, heq, hbegins, -⟩ := exists_begins ht
  obtain ⟨rfl, rfl⟩ := List.cons.inj heq
  obtain rfl := (eq_comment_or_div_of_begins hbegins).resolve_left hcomment
  exact ⟨rfl, (matches_div_iff.mp ht).1⟩

theorem not_identifier_of_comment (h : comment.Matches bytes m) : ¬ identifier.Matches bytes n := by
  intro hidentifier
  have := (eq_div_of_comment_matches h hidentifier (by decide)).1
  cases this

theorem Taken.not_slash (h : Taken viable (47 :: bytes) (binary .div) n) :
    bytes.head? ≠ some 47 := by
  intro hhead
  obtain ⟨rest, rfl⟩ := List.head?_eq_some_iff.mp hhead
  have hline : comment.Matches (47 :: 47 :: rest) (0 + 2) :=
    matches_comment_iff.mpr (.inl ⟨rest, 0, rfl, rfl, Nat.zero_le _⟩)
  have hle := h.longest comment _ ⟨.inl rfl, hline, fun k hk => absurd hk (not_identifier_of_comment hline)⟩
  have hone := (matches_div_iff.mp h.stands.text).1
  omega

/-- A token before whitespace, a parenthesis or an opening brace is taken whatever is behind that. The
slash is, unless an asterisk follows it. -/
theorem Taken.of_append_break (hv : ∀ b ∈ v.head?, isBreak b = true) (hn : n ≤ u.length)
    (ht : t ≠ comment) (hstar : t = binary .div → (u.drop n).head? ≠ some 42)
    (h : Taken viable (u ++ v₀) t n) : Taken viable (u ++ v) t n := by
  apply h.of_append_of_le hn
  intro htext t' m _ ht'
  cases v with
  | nil => simpa using ht'.1
  | cons c x =>
    have hc : isBreak c = true := hv c rfl
    by_cases hstring : t' = string
    · subst hstring
      rwa [eq_length_of_string htext ht']
    · by_cases hcomment : t' = comment
      · subst hcomment
        obtain ⟨rfl, rfl⟩ := eq_div_of_comment_matches ht' htext ht
        obtain ⟨-, rest, hslash⟩ := matches_div_iff.mp htext
        cases u with
        | nil => cases hn
        | cons b w =>
          obtain ⟨rfl, rfl⟩ := List.cons.inj hslash
          have hnot : (w ++ v₀).head? ≠ some 47 := h.not_slash
          have hstar : w.head? ≠ some 42 := hstar rfl
          -- Neither of the two bytes that would make the slash a comment is behind it.
          exfalso
          have hsecond : ((w ++ c :: x).head? = some 47) ∨ (w ++ c :: x).head? = some 42 := by
            rcases matches_comment_iff.mp ht' with ⟨rest, _, heq, -⟩ | ⟨rest, _, heq, -⟩
            · exact .inl (congrArg List.head? (List.cons.inj heq).2)
            · exact .inr (congrArg List.head? (List.cons.inj heq).2)
          cases w with
          | nil =>
            rcases hsecond with heq | heq
            all_goals
              obtain rfl := Option.some.inj heq
              cases hc
          | cons d w => exact hsecond.elim hnot hstar
      · exact le_length_of_isBreak hc (ne_nil_of_matches htext hn) hstring hcomment ht'

theorem Taken.of_agree (hv : (v.takeWhile fun b => !isSpace b) <+: v₀) (ht : t ≠ comment)
    (hstar : t = binary .div → v₀.head? ≠ some 42) (h : Taken viable (w ++ v₀) t w.length) :
    Taken viable (w ++ v) t w.length := by
  obtain ⟨x, rfl⟩ := hv
  rw [← List.append_assoc] at h
  have hbreak : ∀ b ∈ (v.dropWhile fun b => !isSpace b).head?, isBreak b = true := by
    intro b hb
    have hnot := List.head?_dropWhile_not (fun b => !isSpace b) v
    rw [hb] at hnot
    exact isBreak_of_isSpace (by simpa using hnot)
  have htaken := h.of_append_break hbreak (by simp) ht (fun hdiv => ?_)
  · rwa [List.append_assoc, List.takeWhile_append_dropWhile] at htaken
  · rw [List.drop_left]
    have hnot := hstar hdiv
    cases hp : v.takeWhile fun b => !isSpace b with
    | nil => simp
    | cons b p =>
      rw [hp] at hnot
      exact hnot

theorem mem_language_of_matchLength (h : t.matchLength w = some w.length) : w ∈ t.language := by
  have hmatches := (matches_length_iff.mpr h).2
  rwa [List.take_length] at hmatches

theorem matches_append_of_mem (hw : w ∈ t.language) (v : Bytes) : t.Matches (w ++ v) w.length :=
  ⟨by rw [List.length_append]; omega, by rwa [List.take_left]⟩

theorem comment_le_length_of_mem (hw : w ∈ comment.language)
    (hend : [47, 47] <+: w → ∀ b ∈ v.head?, b = 10) (h : comment.Matches (w ++ v) m) :
    m ≤ w.length := by
  have hwhole : comment.Matches w w.length := ⟨Nat.le_refl _, by rwa [List.take_length]⟩
  rcases matches_comment_iff.mp hwhole with ⟨rest, k, rfl, -, -⟩ | ⟨rest, k, rfl, hk, hblock⟩
  · rcases matches_comment_iff.mp h with ⟨_, j, heq, rfl, hj⟩ | ⟨_, j, heq, -⟩
    · obtain rfl := (List.cons.inj (List.cons.inj heq).2).2
      cases v with
      | nil => simpa using h.1
      | cons b x =>
        obtain rfl : b = 10 := hend ⟨rest, rfl⟩ b rfl
        exact Nat.add_le_add_right (hj.trans (length_takeWhile_le rfl rest x)) 2
    · cases heq
  · rcases matches_comment_iff.mp h with ⟨_, j, heq, -⟩ | ⟨_, j, heq, rfl, hj⟩
    · cases heq
    · obtain rfl := (List.cons.inj (List.cons.inj heq).2).2
      have hend := commentEnd_append hblock v
      obtain rfl : k = j := Option.some.inj (hend.symm.trans hj)
      exact hk.ge

theorem taken_comment (hw : w ∈ comment.language)
    (hend : [47, 47] <+: w → ∀ b ∈ v.head?, b = 10) :
    Taken viable (w ++ v) comment w.length := by
  have htext := matches_append_of_mem hw v
  refine ⟨⟨.inl rfl, htext, fun k hk => absurd hk (not_identifier_of_comment htext)⟩, ?_, ?_⟩
  · intro t m ht
    by_cases hcomment : t = comment
    · subst hcomment
      exact comment_le_length_of_mem hw hend ht.text
    · obtain ⟨-, rfl⟩ := eq_div_of_comment_matches htext ht.text hcomment
      obtain ⟨_, _, _, _, hpos⟩ := exists_begins htext
      exact hpos
  · intro h
    cases h

end Token

end HeyVL
