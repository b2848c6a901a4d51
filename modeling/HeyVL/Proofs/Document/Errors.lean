import HeyVL.Proofs.Document.Acceptance
import HeyVL.Proofs.Event.Spelling

namespace HeyVL

open Token Grammar Lexeme Bytes

namespace Document

variable {source u v x rest : Bytes} {ls ms : List Lexeme} {offset : Nat}

/-- What the scanner has before it at an offset where a lexeme ended, or at the beginning. -/
def behind (source : Bytes) (offset : Nat) : Bytes :=
  source.drop (if offset = 0 then markLength source else offset)

theorem prefix_of_prefix_append {w : Bytes} (hw : 10 ∉ w) (h : w <+: u ++ 10 :: x) : w <+: u := by
  rcases List.prefix_or_prefix_of_prefix h (List.prefix_append u (10 :: x)) with h' | ⟨y, rfl⟩
  · exact h'
  · cases y with
    | nil => rw [List.append_nil]
    | cons b y =>
      rw [List.prefix_append_right_inj, List.cons_prefix_cons] at h
      exact absurd (by simp [h.1]) hw

theorem markLength_take_append (hv : Separates v) (hoffset : markLength source ≤ offset) :
    markLength (source.take offset ++ v) = markLength source := by
  by_cases hmark : byteOrderMark <+: source
  · have hlength : byteOrderMark.length ≤ offset := by
      rwa [markLength, if_pos (List.isPrefixOf_iff_prefix.mpr hmark)] at hoffset
    have htake : byteOrderMark <+: source.take offset := by
      rw [List.prefix_take_iff]
      exact ⟨hmark, hlength⟩
    have happend := htake.trans (List.prefix_append _ v)
    rw [markLength, markLength, if_pos (List.isPrefixOf_iff_prefix.mpr hmark),
      if_pos (List.isPrefixOf_iff_prefix.mpr happend)]
  · have happend : ¬ byteOrderMark <+: source.take offset ++ v := by
      intro h
      apply hmark
      refine List.IsPrefix.trans ?_ (List.take_prefix offset source)
      rcases hv with rfl | ⟨x, rfl, -⟩
      · rwa [List.append_nil] at h
      · exact prefix_of_prefix_append (by decide) h
    rw [markLength, markLength, if_neg (by rwa [List.isPrefixOf_iff_prefix]),
      if_neg (by rwa [List.isPrefixOf_iff_prefix])]

/-- Up to the end of its last lexeme a source is cut into the same lexemes whatever follows, and
what is left is behind whitespace. -/
theorem LexesTo.cut (h : LexesTo source ls rest) :
    (∃ gap, behind source (endOf 0 ls) = gap ++ rest ∧ ∀ b ∈ gap, isSpace b = true) ∧
      ∀ v, Separates v → LexesTo (source.take (endOf 0 ls) ++ v) ls v := by
  obtain ⟨w, gap, hbytes, hgap, hend, hcut⟩ := h.exists_cut
  cases ls with
  | nil =>
    have hw : w = [] := by
      apply List.eq_nil_of_length_eq_zero
      rw [endOf_nil] at hend
      omega
    subst hw
    refine ⟨⟨gap, hbytes, hgap⟩, fun v hv => ?_⟩
    have hmark : markLength ([].take 0 ++ v) = 0 := markLength_take_append hv (Nat.le_refl 0)
    rw [List.take_zero, List.nil_append] at hmark
    rw [endOf_nil, List.take_zero, List.nil_append, LexesTo, hmark]
    exact .stop _ _ _
  | cons l ls =>
    have hlast : endOf 0 (l :: ls) = markLength source + w.length := by
      rw [← hend, endOf_cons, endOf_cons]
    have hbehind : source.drop (markLength source + w.length) = gap ++ rest := by
      rw [← List.drop_drop, hbytes, List.drop_left]
    have htake : (source.take (markLength source + w.length)).drop (markLength source) = w := by
      rw [List.drop_take, Nat.add_sub_cancel_left, hbytes, List.take_left]
    refine ⟨⟨gap, ?_, hgap⟩, fun v hv => ?_⟩
    · rw [behind, hlast, ← hbehind]
      split
      · next hzero => rw [hzero, show markLength source = 0 by omega]
      · rfl
    · have hle : markLength source ≤ (source.take (markLength source + w.length)).length := by
        have hmark := markLength_le source
        rw [List.length_take]
        omega
      rw [hlast, LexesTo, markLength_take_append hv (Nat.le_add_right _ _),
        List.drop_append_of_le_length hle, htake]
      exact hcut v hv

theorem LexesTo.exists_completion (h : LexesTo source ls rest) :
    ∃ t d, parse (source.take (endOf 0 ls) ++ 10 :: t) = .ok d := by
  obtain ⟨later, events, hlater, -⟩ :=
    Event.scan_of_lexes h (show Expectation.source.after? [] = some Expectation.source from rfl) 0
  obtain ⟨us, hus⟩ := Expectation.exists_derivable_of_after? hlater
  refine ⟨spell us, ?_⟩
  have hcut := h.cut.2 (10 :: spell us) (.inr ⟨_, rfl, closes_spell us⟩)
  generalize source.take (endOf 0 ls) ++ 10 :: spell us = text at hcut ⊢
  obtain ⟨ms, hms, htokens⟩ := Lexes.of_spell hus
    (markLength text + ((text.drop (markLength text)).length - (10 :: spell us).length) + 1)
  have hwhole : LexesTo text (ls ++ ms) [] := Lexes.append hcut (.space rfl hms)
  apply exists_parse_of_derivable hwhole
  rwa [tokensOf_append, htokens]

theorem LexesTo.parse_take {l : Lexeme} (h : LexesTo source (ls ++ l :: ms) rest) :
    (∃ d, parse (source.take l.stop) = .ok d) ∨
      parse (source.take l.stop) = .error ⟨l.stop⟩ := by
  rw [List.append_cons] at h
  obtain ⟨middle, hmiddle⟩ : ∃ middle, LexesTo source (ls ++ [l]) middle := h.split
  have hend : endOf 0 (ls ++ [l]) = l.stop := by simp [endOf]
  have hcut := hmiddle.cut.2 [] (.inl rfl)
  rw [hend, List.append_nil] at hcut
  by_cases hderivable : Derivable (tokensOf (ls ++ [l]))
  · exact .inl (exists_parse_of_derivable hcut hderivable)
  · rw [parse_eq_error hcut hderivable, hend]
    exact .inr rfl

/-- The place of the error in a source that is not accepted is the end of the longest beginning of
it that can be completed, and a source that is accepted is cut nowhere else. -/
theorem error_offsets :
    (∀ source offset, parse source = .error ⟨offset⟩ →
      ∃ ls rest, LexesTo source ls rest ∧ offset = endOf 0 ls ∧
        LexesTo (source.take offset) ls [] ∧
        (∃ t d, parse (source.take offset ++ 10 :: t) = .ok d) ∧
        rest = (behind source offset).dropWhile isSpace ∧
        (∀ t n, ¬ Stands (Viable (tokensOf ls)) rest t n) ∧
        (rest = [] → ∀ d, parse (source.take offset) ≠ .ok d)) ∧
    ∀ source d, parse source = .ok d →
      ∃ ls, LexesTo source ls [] ∧ ∀ l ∈ ls,
        (∃ d', parse (source.take l.stop) = .ok d') ∨
          parse (source.take l.stop) = .error ⟨l.stop⟩ := by
  constructor
  · intro source offset h
    obtain ⟨ls, rest, hstops⟩ := exists_stopsAt h
    obtain ⟨⟨gap, hbehind, hgap⟩, hcut⟩ := hstops.lexes.cut
    have htake : LexesTo (source.take offset) ls [] := by
      rw [hstops.offset_eq, ← List.append_nil (source.take _)]
      exact hcut [] (.inl rfl)
    refine ⟨ls, rest, hstops.lexes, hstops.offset_eq, htake, ?_, ?_, hstops.none_stands, ?_⟩
    · rw [hstops.offset_eq]
      exact hstops.lexes.exists_completion
    · rw [hstops.offset_eq, hbehind, List.dropWhile_append_of_pos hgap]
      have hspace := hstops.space
      cases rest with
      | nil => rfl
      | cons b rest => rw [List.dropWhile_cons_of_neg (by simp [hspace b (by simp)])]
    · intro hrest d
      rw [parse_eq_error htake (hstops.underivable hrest)]
      exact nofun
  · intro source d h
    obtain ⟨ls, -, hlexes, -⟩ := exists_of_parse_eq_ok h
    refine ⟨ls, hlexes, fun l hl => ?_⟩
    obtain ⟨us, vs, rfl⟩ := List.append_of_mem hl
    exact hlexes.parse_take

theorem error_offsets_unfinished :
    (∃ t d, parse ((Bytes.ofText "proc p // c").take 11 ++ 10 :: t) = .ok d) ∧
      ∃ ls, LexesTo (Bytes.ofText "domain D \x7b\x7d") ls [] ∧ ∀ l ∈ ls,
        (∃ d', parse ((Bytes.ofText "domain D \x7b\x7d").take l.stop) = .ok d') ∨
          parse ((Bytes.ofText "domain D \x7b\x7d").take l.stop) = .error ⟨l.stop⟩ := by
  have herror : parse (Bytes.ofText "proc p // c") = .error ⟨11⟩ := by
    rw [parse, show Event.read (Bytes.ofText "proc p // c") = .error ⟨11⟩ by decide +kernel]
    rfl
  obtain ⟨ls, rest, -, -, -, hcompletion, -⟩ := error_offsets.1 _ _ herror
  obtain ⟨d, hd⟩ := isOk_parse_iff.mp
    (show (parse (Bytes.ofText "domain D \x7b\x7d")).isOk = true by decide +kernel)
  exact ⟨hcompletion, error_offsets.2 _ d hd⟩

end Document

end HeyVL
