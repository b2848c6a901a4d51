import HeyVL.Proofs.Event.Extents
import HeyVL.Proofs.Expectation.Reachable
import HeyVL.Proofs.Token.Gaps

namespace HeyVL

namespace Bytes

variable {bytes w : Bytes} {start stop n : Nat}

theorem getElem?_slice (bytes : Bytes) (start stop i : Nat) :
    (bytes.slice start stop)[i]? = if i < stop - start then bytes[start + i]? else none := by
  rw [slice, List.getElem?_take, List.getElem?_drop]

theorem drop_eq_slice_append (bytes : Bytes) {start stop : Nat} (h : start ≤ stop) :
    bytes.drop start = bytes.slice start stop ++ bytes.drop stop := by
  have hdrop : bytes.drop stop = (bytes.drop start).drop (stop - start) := by
    rw [List.drop_drop, Nat.add_sub_cancel' h]
  rw [slice, hdrop, List.take_append_drop]

theorem length_slice (bytes : Bytes) (start : Nat) {stop : Nat} (h : stop ≤ bytes.length) :
    (bytes.slice start stop).length = stop - start := by
  rw [slice, List.length_take, List.length_drop]
  omega

theorem drop_splice_of_le (hn : n ≤ start) (hstart : start ≤ bytes.length) :
    (bytes.splice start stop w).drop n = bytes.slice n start ++ (w ++ bytes.drop stop) := by
  rw [splice, List.append_assoc, List.drop_append_of_le_length (by rw [List.length_take]; omega),
    slice, List.drop_take]

theorem drop_splice_of_ge (hstart : start ≤ bytes.length) (hn : stop ≤ n) :
    (bytes.splice start stop w).drop (start + w.length + (n - stop)) = bytes.drop n := by
  have hlength : (bytes.take start ++ w).length = start + w.length := by
    rw [List.length_append, List.length_take, Nat.min_eq_left hstart]
  rw [splice, List.drop_append, hlength, List.drop_eq_nil_of_le (by omega), List.nil_append,
    List.drop_drop]
  congr 1
  omega

theorem take_splice_of_le (hn : n ≤ start) (hstart : start ≤ bytes.length) :
    (bytes.splice start stop w).take n = bytes.take n := by
  rw [splice, List.append_assoc, List.take_append_of_le_length (by rw [List.length_take]; omega),
    List.take_take, Nat.min_eq_left hn]

theorem length_splice (hstart : start ≤ bytes.length) :
    (bytes.splice start stop w).length = start + w.length + (bytes.length - stop) := by
  rw [splice, List.length_append, List.length_append, List.length_take, List.length_drop,
    Nat.min_eq_left hstart]

end Bytes

open Token Grammar Lexeme

/-- A token is taken at its place in the source behind the given tokens. No asterisk follows it
if it is a slash. -/
structure TakenAt (source : Bytes) (before : List Token) (l : Lexeme) : Prop where
  taken : Taken (Viable before) (source.drop l.start) l.token (l.stop - l.start)
  ne_comment : l.token ≠ .comment
  start_le : l.start ≤ l.stop
  stop_le : l.stop ≤ source.length
  not_star : l.token = .binary .div → (source.drop l.stop).head? ≠ some 42

theorem TakenAt.of_agree {source v : Bytes} {before : List Token} {l : Lexeme}
    (h : TakenAt source before l)
    (hv : (v.takeWhile fun b => !Bytes.isSpace b) <+: source.drop l.stop) :
    Taken (Viable before) (source.slice l.start l.stop ++ v) l.token (l.stop - l.start) := by
  have htaken := h.taken
  rw [Bytes.drop_eq_slice_append source h.start_le, ← Bytes.length_slice source l.start h.stop_le]
    at htaken
  rw [← Bytes.length_slice source l.start h.stop_le]
  exact htaken.of_agree hv h.ne_comment h.not_star

namespace Lexes

variable {before : List Token} {offset : Nat} {bytes rest gap : Bytes} {l : Lexeme}
  {ls ms : List Lexeme}

theorem of_spaces (hgap : ∀ b ∈ gap, Bytes.isSpace b = true)
    (h : Lexes before (offset + gap.length) bytes ls rest) :
    Lexes before offset (gap ++ bytes) ls rest := by
  induction gap generalizing offset with
  | nil => exact h
  | cons b gap ih =>
    refine .space (hgap b (by simp)) (ih (fun c hc => hgap c (by simp [hc])) ?_)
    rw [List.length_cons] at h
    rwa [Nat.add_right_comm, Nat.add_assoc]

theorem exists_taken (h : Lexes before offset bytes (ls ++ l :: ms) rest) :
    Taken (Viable (before ++ tokensOf ls)) (bytes.drop (l.start - offset)) l.token
        (l.stop - l.start) ∧
      Lexes (before ++ tokensOf (ls ++ [l])) l.stop (bytes.drop (l.stop - offset)) ms rest := by
  generalize hks : ls ++ l :: ms = ks at h
  induction h generalizing ls with
  | stop => cases (List.append_eq_nil_iff.mp hks).2
  | @space before offset b bytes rest ks hb h ih =>
    obtain ⟨htaken, hlexes⟩ := ih hks
    have hmem : l ∈ ks := by simp [← hks]
    have hle := (h.within l hmem).1
    have hpos := h.inOrder.nonempty l hmem
    have hstart : l.start - offset = l.start - (offset + 1) + 1 := by omega
    have hstop : l.stop - offset = l.stop - (offset + 1) + 1 := by omega
    rw [hstart, hstop, List.drop_succ_cons, List.drop_succ_cons]
    exact ⟨htaken, hlexes⟩
  | @lexeme before offset n t bytes rest ks ht h ih =>
    cases ls with
    | nil =>
      obtain ⟨rfl, rfl⟩ := List.cons.inj hks
      constructor
      · simpa using ht
      · simpa using h
    | cons k ls =>
      obtain ⟨rfl, htail⟩ := List.cons.inj hks
      obtain ⟨htaken, hlexes⟩ := ih htail
      have hmem : l ∈ ks := by simp [← htail]
      have hle := (h.within l hmem).1
      have hpos := h.inOrder.nonempty l hmem
      have hstart : n + (l.start - (offset + n)) = l.start - offset := by omega
      have hstop : n + (l.stop - (offset + n)) = l.stop - offset := by omega
      rw [List.drop_drop, hstart, List.append_assoc, ← tokensOf_append] at htaken
      rw [List.drop_drop, hstop, List.append_assoc, ← tokensOf_append] at hlexes
      exact ⟨htaken, hlexes⟩

/-- Lexemes that are taken at their places, with whitespace between them, are what the bytes are
cut into. -/
theorem of_taken (horder : InOrder ls) (hoffset : ∀ l ∈ ls, offset ≤ l.start)
    (htaken : ∀ us l vs, ls = us ++ l :: vs →
      Taken (Viable (before ++ tokensOf us)) (bytes.drop (l.start - offset)) l.token
        (l.stop - l.start))
    (hspace : ∀ i b, bytes[i]? = some b →
      (∀ l ∈ ls, ¬ (l.start ≤ offset + i ∧ offset + i < l.stop)) → Bytes.isSpace b = true) :
    Lexes before offset bytes ls [] := by
  induction ls generalizing before offset bytes with
  | nil =>
    have hgap : ∀ b ∈ bytes, Bytes.isSpace b = true := by
      intro b hb
      obtain ⟨i, hi⟩ := List.mem_iff_getElem?.mp hb
      exact hspace i b hi (by simp)
    have h := of_spaces hgap (.stop before (offset + bytes.length) [])
    rwa [List.append_nil] at h
  | cons l ls ih =>
    obtain ⟨hpos, hls, hbehind⟩ := inOrder_cons_iff.mp horder
    have hle := hoffset l (by simp)
    have hfirst := htaken [] l ls rfl
    rw [tokensOf_nil, List.append_nil] at hfirst
    have hlength := hfirst.stands.text.1
    rw [List.length_drop] at hlength
    -- No lexeme covers a byte before the first one.
    have hgap : ∀ b ∈ bytes.take (l.start - offset), Bytes.isSpace b = true := by
      intro b hb
      obtain ⟨i, hi⟩ := List.mem_iff_getElem?.mp hb
      rw [List.getElem?_take, Option.ite_none_right_eq_some] at hi
      apply hspace i b hi.2
      intro m hm
      rcases List.mem_cons.mp hm with rfl | hm
      · omega
      · have := hbehind m hm
        omega
    rw [← List.take_append_drop (l.start - offset) bytes]
    apply of_spaces hgap
    have hgapLength : (bytes.take (l.start - offset)).length = l.start - offset := by
      rw [List.length_take]
      omega
    rw [hgapLength, Nat.add_sub_cancel' hle]
    obtain ⟨t, start, stop⟩ := l
    dsimp only at hpos hle hbehind hfirst hlength ⊢
    obtain ⟨n, rfl⟩ := Nat.exists_eq_add_of_le hpos.le
    rw [Nat.add_sub_cancel_left] at hfirst hlength
    refine .lexeme hfirst (ih hls hbehind ?_ ?_)
    · intro us m vs hsplit
      have hm := htaken (⟨t, start, start + n⟩ :: us) m vs (by rw [hsplit]; rfl)
      have hmle := hbehind m (by simp [hsplit])
      have hdrop : start - offset + n + (m.start - (start + n)) = m.start - offset := by omega
      rw [List.drop_drop, List.drop_drop, ← Nat.add_assoc, hdrop, List.append_assoc,
        ← tokensOf_append]
      exact hm
    · intro i b hi hnone
      rw [List.drop_drop, List.getElem?_drop] at hi
      apply hspace _ b hi
      intro m hm
      have hplace : offset + (start - offset + n + i) = start + n + i := by omega
      rw [hplace]
      rcases List.mem_cons.mp hm with rfl | hm
      · dsimp only
        omega
      · exact hnone m hm

theorem not_star_of_div {us : List Token}
    (h : Lexes (us ++ [.binary .div]) offset bytes ls []) : bytes.head? ≠ some 42 := by
  intro hhead
  obtain ⟨rest, rfl⟩ := List.head?_eq_some_iff.mp hhead
  cases h with
  | space hb => cases hb
  | @lexeme _ _ n t _ _ ms ht hms =>
    obtain ⟨_, _, heq, hbegins, -⟩ := exists_begins ht.stands.text
    obtain ⟨rfl, -⟩ := List.cons.inj heq
    obtain rfl := eq_mul_of_begins hbegins
    rcases ht.stands.is_viable with hcomment | hviable
    · cases hcomment
    · exact not_viable_mul us hviable

theorem ne_zero (h : Lexes before offset bytes ls []) : bytes.head? ≠ some 0 := by
  intro hhead
  obtain ⟨rest, rfl⟩ := List.head?_eq_some_iff.mp hhead
  cases h with
  | space hb => cases hb
  | @lexeme _ _ n t _ _ ms ht hms =>
    obtain ⟨_, _, heq, hbegins, -⟩ := exists_begins ht.stands.text
    obtain ⟨rfl, -⟩ := List.cons.inj heq
    rw [not_begins_zero] at hbegins
    cases hbegins

end Lexes

end HeyVL
