import HeyVL.Proofs.Token.Tables
import Mathlib.Tactic.ByContra

namespace HeyVL

namespace Bytes

open String (utf8EncodeChar)

/-- The bytes are valid UTF-8. -/
def IsText (bytes : Bytes) : Prop := ∃ cs : List Char, bytes = cs.flatMap utf8EncodeChar

/-- The byte at the offset is the first one of a character, or the bytes end there. -/
def IsBoundary (bytes : Bytes) (i : Nat) : Prop := ∀ b ∈ bytes[i]?, b.IsUTF8FirstByte

/-- The character is encoded at the offset. -/
def HasCharAt (bytes : Bytes) (c : Char) (i : Nat) : Prop := utf8EncodeChar c <+: bytes.drop i

/-- The byte at `i` is part of a character between the two offsets. -/
def InChar (bytes : Bytes) (start stop i : Nat) : Prop :=
  ∃ c j, bytes.HasCharAt c j ∧ start ≤ j ∧ j ≤ i ∧ i < j + c.utf8Size ∧ j + c.utf8Size ≤ stop

variable {bytes : Bytes} {c c' : Char} {s : String} {i j start stop start' stop' : Nat} {b : UInt8}

theorem ofText_eq (s : String) : ofText s = s.toList.flatMap utf8EncodeChar := by
  have h := String.utf8Encode_toList (b := s)
  rw [ofText, String.toUTF8, ← h, List.utf8Encode]
  simp

theorem isText_iff : bytes.IsText ↔ ∃ s, bytes = ofText s := by
  constructor
  · rintro ⟨cs, rfl⟩
    exact ⟨String.ofList cs, by rw [ofText_eq, String.toList_ofList]⟩
  · rintro ⟨s, rfl⟩
    exact ⟨s.toList, ofText_eq s⟩

theorem text?_eq_some_iff : bytes.text? = some s ↔ bytes = ofText s := by
  have harray : bytes = ofText s ↔ (⟨bytes.toArray⟩ : ByteArray) = s.toByteArray := by
    rw [ofText, String.toUTF8, ByteArray.ext_iff, ← Array.toList_inj]
  rw [harray, text?, String.fromUTF8?]
  constructor
  · intro h
    split at h
    · cases h
      rfl
    · cases h
  · intro h
    rw [dif_pos (by rw [h]; exact s.isValidUTF8), Option.some.injEq, ← String.toByteArray_inj]
    exact h

theorem text?_eq_none_iff : bytes.text? = none ↔ ¬ bytes.IsText := by
  simp only [isText_iff, ← text?_eq_some_iff, Option.eq_none_iff_forall_ne_some, not_exists, ne_eq]

theorem HasCharAt.getElem?_add (h : bytes.HasCharAt c j) (hi : i < c.utf8Size) :
    bytes[j + i]? = (utf8EncodeChar c)[i]? := by
  obtain ⟨rest, hrest⟩ := h
  rw [← List.getElem?_drop, ← hrest, List.getElem?_append_left]
  rwa [String.length_utf8EncodeChar]

theorem HasCharAt.isBoundary_add_iff (h : bytes.HasCharAt c j) (hi : i < c.utf8Size) :
    bytes.IsBoundary (j + i) ↔ i = 0 := by
  have hlt : i < (utf8EncodeChar c).length := by rwa [String.length_utf8EncodeChar]
  rw [IsBoundary, h.getElem?_add hi, List.getElem?_eq_getElem hlt]
  simp [Option.mem_def]

theorem HasCharAt.le_of_isBoundary (h : bytes.HasCharAt c j) (hi : bytes.IsBoundary i)
    (hlt : j < i) : j + c.utf8Size ≤ i := by
  by_contra hover
  have hoffset : j + (i - j) = i := by omega
  have hzero := (h.isBoundary_add_iff (i := i - j) (by omega)).mp (by rwa [hoffset])
  omega

theorem HasCharAt.isBoundary (h : bytes.HasCharAt c j) : bytes.IsBoundary j :=
  (h.isBoundary_add_iff (i := 0) c.utf8Size_pos).mpr rfl

theorem HasCharAt.unique (h : bytes.HasCharAt c j) (h' : bytes.HasCharAt c' j) : c = c' := by
  obtain ⟨rest, hrest⟩ := h
  obtain ⟨rest', hrest'⟩ := h'
  have hsame := congrArg (fun w : Bytes => w.toByteArray.utf8DecodeChar? 0) (hrest.trans hrest'.symm)
  simpa [List.toByteArray_append, ByteArray.utf8DecodeChar?_utf8EncodeChar_append] using hsame

theorem HasCharAt.slice_eq (h : bytes.HasCharAt c start) (hstop : start + c.utf8Size ≤ stop) :
    bytes.slice start stop = utf8EncodeChar c ++ bytes.slice (start + c.utf8Size) stop := by
  obtain ⟨rest, hrest⟩ := h
  have hlength := String.length_utf8EncodeChar c
  rw [slice, slice, ← List.drop_drop, ← hrest, ← hlength, List.drop_left, List.take_append,
    List.take_of_length_le (by omega)]
  congr 2
  omega

/-- The bytes from one offset to the other are valid UTF-8 if each of them is part of a character
there. -/
theorem isText_slice_iff (h : stop ≤ bytes.length) :
    (bytes.slice start stop).IsText ↔ ∀ i, start ≤ i → i < stop → bytes.InChar start stop i := by
  constructor
  · rintro ⟨cs, hcs⟩
    induction cs generalizing start with
    | nil =>
      intro i hi hlt
      have hlength := congrArg List.length hcs
      rw [slice, List.length_take, List.length_drop, List.flatMap_nil, List.length_nil] at hlength
      omega
    | cons c cs ih =>
      have hlength := String.length_utf8EncodeChar c
      have hchar : bytes.HasCharAt c start := by
        refine List.IsPrefix.trans ?_ (List.take_prefix (stop - start) _)
        rw [← slice, hcs, List.flatMap_cons]
        exact List.prefix_append _ _
      have hstop : start + c.utf8Size ≤ stop := by
        have hle := congrArg List.length hcs
        rw [slice, List.length_take, List.length_drop, List.flatMap_cons, List.length_append,
          hlength] at hle
        have := c.utf8Size_pos
        omega
      rw [hchar.slice_eq hstop, List.flatMap_cons, List.append_cancel_left_eq] at hcs
      intro i hi hlt
      by_cases hin : i < start + c.utf8Size
      · exact ⟨c, start, hchar, Nat.le_refl _, hi, hin, hstop⟩
      · obtain ⟨c', j, hchar', hj, hrest⟩ := ih hcs i (by omega) hlt
        exact ⟨c', j, hchar', by omega, hrest⟩
  · intro hall
    induction hn : stop - start using Nat.strongRecOn generalizing start with
    | ind n ih =>
      by_cases hempty : stop ≤ start
      · exact ⟨[], by rw [slice, Nat.sub_eq_zero_of_le hempty, List.take_zero, List.flatMap_nil]⟩
      obtain ⟨c, j, hchar, hj, hjstart, -, hstop⟩ := hall start (Nat.le_refl _) (by omega)
      obtain rfl : j = start := by omega
      have hpos := c.utf8Size_pos
      -- The characters of the later bytes are behind this one.
      have hlater : ∀ i, j + c.utf8Size ≤ i → i < stop → bytes.InChar (j + c.utf8Size) stop i := by
        intro i hi hlt
        obtain ⟨c', j', hchar', hj', hji, hij, hstop'⟩ := hall i (by omega) hlt
        have hbehind : j ≠ j' := by
          rintro rfl
          obtain rfl := hchar.unique hchar'
          omega
        have hle := hchar.le_of_isBoundary hchar'.isBoundary (by omega)
        exact ⟨c', j', hchar', hle, hji, hij, hstop'⟩
      obtain ⟨cs, hcs⟩ := ih _ (by omega) hlater rfl
      exact ⟨c :: cs, by rw [hchar.slice_eq hstop, hcs, List.flatMap_cons]⟩

theorem IsText.slice (h : (bytes.slice start stop).IsText) (hle : start ≤ start') (hle' : stop' ≤ stop)
    (hlength : stop ≤ bytes.length) (hstart : bytes.IsBoundary start') (hstop : bytes.IsBoundary stop') :
    (bytes.slice start' stop').IsText := by
  rw [isText_slice_iff hlength] at h
  refine (isText_slice_iff (by omega)).mpr fun i hi hlt => ?_
  obtain ⟨c, j, hchar, hj, hji, hij, hjstop⟩ := h i (by omega) (by omega)
  refine ⟨c, j, hchar, ?_, hji, hij, hchar.le_of_isBoundary hstop (by omega)⟩
  by_contra hbefore
  have := hchar.le_of_isBoundary hstart (by omega)
  omega

theorem isValid_of_isBoundary (hi : i ≤ (ofText s).length) (h : (ofText s).IsBoundary i) :
    String.Pos.Raw.IsValid s ⟨i⟩ := by
  rw [String.Pos.Raw.isValid_iff_isUTF8FirstByte]
  have hlength : (ofText s).length = s.utf8ByteSize := by simp [ofText]
  rcases Nat.eq_or_lt_of_le hi with rfl | hlt
  · exact .inl (String.Pos.Raw.ext hlength)
  · have hend : (⟨i⟩ : String.Pos.Raw) < s.rawEndPos := Nat.lt_of_lt_of_eq hlt hlength
    refine .inr ⟨hend, h _ ?_⟩
    rw [Option.mem_def, List.getElem?_eq_getElem hlt]
    rfl

theorem isUTF8FirstByte_of_lt (hb : b < 128) : b.IsUTF8FirstByte := by
  have hall : every.all (fun b => !(b < 128) || b.IsUTF8FirstByte) = true := by decide +kernel
  simpa [hb] using List.all_eq_true.mp hall b (mem_every b)

theorem encode_of_lt (hb : b < 128) :
    utf8EncodeChar (Char.ofNat b.toNat) = [b] ∧ (Char.ofNat b.toNat).toNat < 128 := by
  have hall : every.all (fun b => !(b < 128) ||
      utf8EncodeChar (Char.ofNat b.toNat) == [b] && (Char.ofNat b.toNat).toNat < 128) = true := by
    decide +kernel
  simpa [hb] using List.all_eq_true.mp hall b (mem_every b)

theorem hasCharAt_of_lt (hi : bytes[i]? = some b) (hb : b < 128) :
    bytes.HasCharAt (Char.ofNat b.toNat) i := by
  obtain ⟨hlt, hbyte⟩ := List.getElem?_eq_some_iff.mp hi
  rw [HasCharAt, (encode_of_lt hb).1, List.drop_eq_getElem_cons hlt, hbyte]
  exact (List.prefix_cons_inj b).mpr List.nil_prefix

theorem inChar_of_lt (hi : bytes[i]? = some b) (hb : b < 128) : bytes.InChar i (i + 1) i := by
  have hsize : (Char.ofNat b.toNat).utf8Size = 1 := by
    rw [← String.length_utf8EncodeChar, (encode_of_lt hb).1, List.length_singleton]
  exact ⟨_, i, hasCharAt_of_lt hi hb, Nat.le_refl _, Nat.le_refl _, by omega, by omega⟩

theorem HasCharAt.exists_not_lt (h : bytes.HasCharAt c i) (hc : 128 ≤ c.toNat) :
    ∃ b, bytes[i]? = some b ∧ ¬ b < 128 := by
  have hlt : 0 < (utf8EncodeChar c).length := by
    rw [String.length_utf8EncodeChar]
    exact c.utf8Size_pos
  have hi : bytes[i]? = some (utf8EncodeChar c)[0] := by
    rw [← List.getElem?_eq_getElem hlt]
    exact h.getElem?_add c.utf8Size_pos
  refine ⟨_, hi, fun hb => ?_⟩
  have hsmall := (encode_of_lt hb).2
  rw [← h.unique (hasCharAt_of_lt hi hb)] at hsmall
  omega

theorem HasCharAt.le_length (h : bytes.HasCharAt c i) : i + c.utf8Size ≤ bytes.length := by
  have hle := h.length_le
  have hpos := c.utf8Size_pos
  rw [String.length_utf8EncodeChar, List.length_drop] at hle
  omega

theorem isText_of_lt (h : ∀ b ∈ bytes, b < 128) : bytes.IsText := by
  refine ⟨bytes.map fun b => Char.ofNat b.toNat, ?_⟩
  induction bytes with
  | nil => rfl
  | cons b bytes ih =>
    rw [List.map_cons, List.flatMap_cons, (encode_of_lt (h b List.mem_cons_self)).1,
      ← ih fun x hx => h x (List.mem_cons_of_mem _ hx), List.singleton_append]

end Bytes

end HeyVL
