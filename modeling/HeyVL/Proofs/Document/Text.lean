import HeyVL.Proofs.Document.Comments
import HeyVL.Proofs.Token.Characters

namespace HeyVL

open Token Lexeme Bytes
open String (utf8EncodeChar)

namespace Bytes

variable {bytes : Bytes} {start stop start' stop' i : Nat}

theorem head?_slice (h : start < stop) : (bytes.slice start stop).head? = bytes[start]? := by
  rw [slice, List.head?_take, if_neg (by omega), List.head?_drop]

theorem InChar.mono (h : bytes.InChar start stop i) (hstart : start' ≤ start) (hstop : stop ≤ stop') :
    bytes.InChar start' stop' i := by
  obtain ⟨c, j, hchar, hj, hji, hij, hle⟩ := h
  exact ⟨c, j, hchar, by omega, hji, hij, by omega⟩

theorem isBoundary_length (bytes : Bytes) : bytes.IsBoundary bytes.length := by
  rw [IsBoundary, List.getElem?_eq_none (Nat.le_refl _)]
  intro b hb
  cases hb

end Bytes

namespace Document

variable {d : Document} {ls : List Lexeme} {ts : List Tree} {t : Tree} {l : Lexeme} {i j : Nat}
  {b : UInt8} {c : Char}

theorem Built.isBoundary_start (h : d.Built ls ts) (hl : l ∈ ls) : d.source.IsBoundary l.start := by
  obtain ⟨b, hb, hfirst⟩ := isUTF8FirstByte_of_mem (h.lexes.slice_mem l hl)
  rw [head?_slice ((Lexes.inOrder h.lexes).nonempty l hl)] at hb
  rw [IsBoundary, hb]
  intro c hc
  cases hc
  exact hfirst

theorem Built.byte_cases (h : d.Built ls ts) (hi : d.source[i]? = some b) :
    (∃ l ∈ ls, l.start ≤ i ∧ i < l.stop) ∨ isSpace b = true ∨ i < markLength d.source := by
  by_cases hcovered : ∃ l ∈ ls, l.start ≤ i ∧ i < l.stop
  · exact .inl hcovered
  · exact .inr (h.lexes.isSpace_of_uncovered hi fun l hl hli => hcovered ⟨l, hl, hli⟩)

theorem Built.isBoundary_stop (h : d.Built ls ts) (hl : l ∈ ls) : d.source.IsBoundary l.stop := by
  intro b hb
  have hls := Lexes.inOrder h.lexes
  have hpos := hls.nonempty l hl
  have hmark := (h.lexes.within l hl).1
  rcases h.byte_cases hb with ⟨m, hm, hstart, hstop⟩ | hspace | hlt
  · have hne : l ≠ m := by
      rintro rfl
      omega
    have happart := hls.apart_of_mem hl hm hne
    obtain hsame : m.start = l.stop := by omega
    exact h.isBoundary_start hm b (by rwa [hsame])
  · exact isUTF8FirstByte_of_lt (lt_of_isSpace hspace)
  · omega

theorem Built.exists_leaf_start (h : d.Built ls ts) (ht : t ∈ d.root.subtrees) :
    (∃ l ∈ ls, d.startOf t = l.start) ∨ d.startOf t = d.source.length := by
  have hfirst {u : Tree} (hu : u ∈ d.root.subtrees) (hfull : u.IsFull) : ∃ l ∈ ls, u.start = l.start := by
    obtain ⟨l, rest, hleaves⟩ := List.exists_cons_of_ne_nil hfull.leaves_ne_nil
    refine ⟨l, ?_, hfull.start_eq l (by rw [hleaves]; rfl)⟩
    rw [← h.leaves_root]
    exact (Tree.isInfix_leaves hu).subset (by rw [hleaves]; exact List.mem_cons_self)
  rcases h.mem_subtreesOfList ht with rfl | hinner
  · have hchildren := h.leavesOfList_children.2
    cases hus : d.root.children with
    | nil =>
      right
      rw [h.root_eq, Tree.children] at hus
      rw [h.root_eq, hus]
      rfl
    | cons u us =>
      left
      have hu : u ∈ d.root.children := by simp [hus]
      obtain ⟨l, hl, hstart⟩ := hfirst (Tree.mem_subtrees_of_mem hu) (hchildren u hu)
      refine ⟨l, hl, ?_⟩
      rw [h.root_eq, Tree.children] at hus
      rw [h.root_eq, hus, ← hstart]
      rfl
  · left
    rw [startOf_eq (h.isFull hinner)]
    exact hfirst ht (h.isFull hinner)

theorem Built.exists_leaf_stop (h : d.Built ls ts) (ht : t ∈ d.root.subtrees) :
    (∃ l ∈ ls, d.stopOf t = l.stop) ∨ d.stopOf t = d.source.length := by
  rcases h.mem_subtreesOfList ht with rfl | hinner
  · right
    rw [h.root_eq]
    rfl
  · left
    have hfull := h.isFull hinner
    obtain ⟨front, l, hleaves⟩ := (List.eq_nil_or_concat' t.leaves).resolve_left hfull.leaves_ne_nil
    refine ⟨l, ?_, ?_⟩
    · rw [← h.leaves_root]
      exact (Tree.isInfix_leaves ht).subset (by simp [hleaves])
    · rw [stopOf_eq hfull]
      exact hfull.stop_eq l (by simp [hleaves])

theorem Built.isBoundary_startOf (h : d.Built ls ts) (ht : t ∈ d.root.subtrees) :
    d.source.IsBoundary (d.startOf t) ∧ markLength d.source ≤ d.startOf t ∧ d.startOf t ≤ d.source.length := by
  rcases h.exists_leaf_start ht with ⟨l, hl, hstart⟩ | hstart
  · have hwithin := h.lexes.within l hl
    have hpos := (Lexes.inOrder h.lexes).nonempty l hl
    rw [hstart]
    exact ⟨h.isBoundary_start hl, hwithin.1, by omega⟩
  · rw [hstart]
    exact ⟨isBoundary_length _, markLength_le _, Nat.le_refl _⟩

theorem Built.isBoundary_stopOf (h : d.Built ls ts) (ht : t ∈ d.root.subtrees) :
    d.source.IsBoundary (d.stopOf t) ∧ d.stopOf t ≤ d.source.length := by
  rcases h.exists_leaf_stop ht with ⟨l, hl, hstop⟩ | hstop
  · rw [hstop]
    exact ⟨h.isBoundary_stop hl, (h.lexes.within l hl).2⟩
  · rw [hstop]
    exact ⟨isBoundary_length _, Nat.le_refl _⟩

theorem Built.within_of_covers (h : d.Built ls ts) (ht : t ∈ d.root.subtrees) (hl : l ∈ ls)
    (hi : d.startOf t ≤ i ∧ i < d.stopOf t) (hli : l.start ≤ i ∧ i < l.stop) :
    d.startOf t ≤ l.start ∧ l.stop ≤ d.stopOf t := by
  have hls := Lexes.inOrder h.lexes
  constructor
  · rcases h.exists_leaf_start ht with ⟨m, hm, hstart⟩ | hstart
    · by_cases hne : l = m
      · rw [hstart, hne]
      · have hpos := hls.nonempty m hm
        have happart := hls.apart_of_mem hl hm hne
        omega
    · have hwithin := h.lexes.within l hl
      omega
  · rcases h.exists_leaf_stop ht with ⟨m, hm, hstop⟩ | hstop
    · by_cases hne : l = m
      · rw [hstop, hne]
      · have hpos := hls.nonempty m hm
        have happart := hls.apart_of_mem hl hm hne
        omega
    · have hwithin := h.lexes.within l hl
      omega

theorem Built.inChar_of_isText (h : d.Built ls ts) (hl : l ∈ ls)
    (htext : (d.source.slice l.start l.stop).IsText) (hi : l.start ≤ i) (hlt : i < l.stop) :
    d.source.InChar l.start l.stop i :=
  (isText_slice_iff (h.lexes.within l hl).2).mp htext i hi hlt

theorem hasCharAt_mark (hi : i < markLength d.source) :
    d.source.HasCharAt '\uFEFF' 0 ∧ i < '\uFEFF'.utf8Size := by
  rw [markLength] at hi
  split at hi
  · next hmark => exact ⟨List.isPrefixOf_iff_prefix.mp hmark, hi⟩
  · cases hi

theorem Built.exists_isVerbatim (h : d.Built ls ts) (hi : i < d.source.length)
    (hnone : ¬ d.source.InChar 0 d.source.length i) :
    ∃ l ∈ ls, l.token.isVerbatim = true ∧ l.start ≤ i ∧ i < l.stop := by
  rcases h.byte_cases (List.getElem?_eq_getElem hi) with ⟨l, hl, hstart, hstop⟩ | hspace | hmark
  · refine ⟨l, hl, ?_, hstart, hstop⟩
    by_contra hverbatim
    have htext := isText_of_mem (h.lexes.slice_mem l hl) (by simpa using hverbatim)
    exact hnone ((h.inChar_of_isText hl htext hstart hstop).mono (Nat.zero_le _) (h.lexes.within l hl).2)
  · have hchar := inChar_of_lt (List.getElem?_eq_getElem hi) (lt_of_isSpace hspace)
    exact absurd (hchar.mono (Nat.zero_le _) hi) hnone
  · obtain ⟨hchar, hsize⟩ := hasCharAt_mark hmark
    have hlength := hchar.le_length
    exact absurd ⟨_, 0, hchar, Nat.le_refl _, Nat.zero_le _, by omega, hlength⟩ hnone

/-- A character outside of strings and comments that is not ASCII is one of the symbols. -/
theorem Built.mem_symbols (h : d.Built ls ts) (hc : d.source.HasCharAt c j) (hascii : 128 ≤ c.toNat)
    (hnone : ¬ ∃ l ∈ ls, l.token.isVerbatim = true ∧ l.start ≤ j ∧ j + c.utf8Size ≤ l.stop) :
    c ∈ symbols ∨ c = '\uFEFF' ∧ j = 0 := by
  obtain ⟨b, hb, hlarge⟩ := hc.exists_not_lt hascii
  rcases h.byte_cases hb with ⟨l, hl, hstart, hstop⟩ | hspace | hmark
  · cases hverbatim : l.token.isVerbatim with
    | true => exact absurd ⟨l, hl, hverbatim, hstart, hc.le_of_isBoundary (h.isBoundary_stop hl) hstop⟩ hnone
    | false =>
      left
      have hslice := h.lexes.slice_mem l hl
      rcases lt_or_symbol hslice hverbatim with hall | ⟨s, hs, hsymbol⟩
      · have hbyte : (d.source.slice l.start l.stop)[j - l.start]? = some b := by
          rw [getElem?_slice, if_pos (by omega), Nat.add_sub_cancel' hstart, hb]
        exact absurd (hall b (List.mem_of_getElem? hbyte)) hlarge
      · have hsize := congrArg List.length hsymbol
        have hchar : d.source.HasCharAt s l.start := by
          rw [HasCharAt, ← hsymbol]
          exact List.take_prefix _ _
        rw [length_slice _ _ (h.lexes.within l hl).2, String.length_utf8EncodeChar] at hsize
        have hzero := (hchar.isBoundary_add_iff (i := j - l.start) (by omega)).mp (by
          rw [Nat.add_sub_cancel' hstart]
          exact hc.isBoundary)
        obtain rfl : j = l.start := by omega
        rwa [hc.unique hchar]
  · exact absurd (lt_of_isSpace hspace) hlarge
  · obtain ⟨hchar, hlt⟩ := hasCharAt_mark hmark
    have hzero := (hchar.isBoundary_add_iff hlt).mp (by rw [Nat.zero_add]; exact hc.isBoundary)
    subst hzero
    exact .inr ⟨hc.unique hchar, rfl⟩

theorem Built.isText_iff (h : d.Built ls ts) (ht : t ∈ d.root.subtrees) :
    (d.source.slice (d.startOf t) (d.stopOf t)).IsText ↔
      ∀ l ∈ ls, l.token.isVerbatim = true → d.startOf t ≤ l.start → l.stop ≤ d.stopOf t →
        (d.source.slice l.start l.stop).IsText := by
  obtain ⟨hstart, hmark, -⟩ := h.isBoundary_startOf ht
  obtain ⟨hstop, hlength⟩ := h.isBoundary_stopOf ht
  constructor
  · intro htext l hl _ hle hle'
    exact htext.slice hle hle' hlength (h.isBoundary_start hl) (h.isBoundary_stop hl)
  · intro htexts
    refine (isText_slice_iff hlength).mpr fun i hi hlt => ?_
    have hlt' : i < d.source.length := by omega
    rcases h.byte_cases (List.getElem?_eq_getElem hlt') with ⟨l, hl, hli⟩ | hspace | hlt
    · obtain ⟨hle, hle'⟩ := h.within_of_covers ht hl ⟨hi, hlt⟩ hli
      refine (h.inChar_of_isText hl ?_ hli.1 hli.2).mono hle hle'
      cases hverbatim : l.token.isVerbatim with
      | true => exact htexts l hl hverbatim hle hle'
      | false => exact isText_of_mem (h.lexes.slice_mem l hl) hverbatim
    · exact (inChar_of_lt (List.getElem?_eq_getElem hlt') (lt_of_isSpace hspace)).mono hi hlt
    · omega

/-- What the text of the nodes of a document is. -/
structure HasText (d : Document) : Prop where
  /-- In a text, every node begins and ends between two characters, and its text is what it covers. -/
  covered : ∀ s, d.source = ofText s → ∀ t ∈ d.root.subtrees,
    String.Pos.Raw.IsValid s ⟨d.startOf t⟩ ∧ String.Pos.Raw.IsValid s ⟨d.stopOf t⟩ ∧
      ∃ text, d.textOf? t = some text ∧ ofText text = d.source.slice (d.startOf t) (d.stopOf t)
  /-- A byte that is not part of a character is in a string or a comment. -/
  undecodable : ∀ i < d.source.length, ¬ d.source.InChar 0 d.source.length i →
    ∃ l ∈ d.root.leaves, (l.token = .string ∨ l.token = .comment) ∧ l.start ≤ i ∧ i < l.stop
  /-- A character that is not ASCII and not in a string or a comment is one of the symbols, or it is
  the byte order mark of the source. -/
  symbols : ∀ c i, d.source.HasCharAt c i → 128 ≤ c.toNat →
    (¬ ∃ l ∈ d.root.leaves, (l.token = .string ∨ l.token = .comment) ∧
      l.start ≤ i ∧ i + c.utf8Size ≤ l.stop) →
    c ∈ ['⊓', '⊔', '→', '←', '↘', '↖', '∞'] ∨ c = '\uFEFF' ∧ i = 0
  /-- A node has no text just if one of its strings and comments has none. -/
  fails : ∀ t ∈ d.root.subtrees, d.textOf? t = none ↔
    ∃ l ∈ d.root.leaves, (l.token = .string ∨ l.token = .comment) ∧
      d.startOf t ≤ l.start ∧ l.stop ≤ d.stopOf t ∧ (d.source.slice l.start l.stop).text? = none

theorem isVerbatim_iff : l.token.isVerbatim = true ↔ l.token = .string ∨ l.token = .comment := by
  rw [isVerbatim, Bool.or_eq_true, beq_iff_eq, beq_iff_eq]

theorem hasText_of_parse (source : Bytes) (d : Document) (h : parse source = .ok d) :
    d.source = source ∧ d.HasText := by
  obtain ⟨hsource, ls, ts, hbuilt⟩ := exists_built h
  refine ⟨hsource, fun s hs t ht => ?_, fun i hi hnone => ?_, fun c i hc hascii hnone => ?_, fun t ht => ?_⟩
  · obtain ⟨hstart, -, hstart'⟩ := hbuilt.isBoundary_startOf ht
    obtain ⟨hstop, hstop'⟩ := hbuilt.isBoundary_stopOf ht
    have hwhole : (d.source.slice 0 d.source.length).IsText := by
      rw [Bytes.slice, List.drop_zero, Nat.sub_zero, List.take_length]
      exact isText_iff.mpr ⟨s, hs⟩
    obtain ⟨text, htext⟩ :=
      isText_iff.mp (hwhole.slice (Nat.zero_le _) hstop' (Nat.le_refl _) hstart hstop)
    rw [hs] at hstart hstart' hstop hstop'
    exact ⟨isValid_of_isBoundary hstart' hstart, isValid_of_isBoundary hstop' hstop, text,
      text?_eq_some_iff.mpr htext, htext.symm⟩
  · rw [hbuilt.leaves_root]
    simpa only [isVerbatim_iff] using hbuilt.exists_isVerbatim hi hnone
  · rw [hbuilt.leaves_root] at hnone
    exact hbuilt.mem_symbols hc hascii (by simpa only [isVerbatim_iff] using hnone)
  · rw [textOf?, text?_eq_none_iff, hbuilt.isText_iff ht, hbuilt.leaves_root]
    simp only [isVerbatim_iff, text?_eq_none_iff]
    push Not
    rfl

/-- A string with a byte that is no character, next to a symbol. -/
theorem hasText_of_undecodable : ∃ d,
    (parse (Bytes.byteOrderMark ++ Bytes.ofText "domain D \x7b axiom a \"" ++ 0xFF ::
        Bytes.ofText "\" ⊓ x \x7d") = .ok d ∧ (d.textOf? d.root).isNone = true) ∧
      d.HasText := by
  suffices hparse : ∃ d, _ ∧ _ from hparse.imp fun d hd => ⟨hd, (hasText_of_parse _ d hd.1).2⟩
  exact exists_parse_of_map (by decide +kernel)

end Document

end HeyVL
