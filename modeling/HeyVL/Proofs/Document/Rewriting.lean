import HeyVL.Proofs.Document.Acceptance
import HeyVL.Proofs.Document.Extents
import HeyVL.Proofs.Event.Places

namespace HeyVL

open Token Grammar Lexeme

namespace Document

variable {source source' rest : Bytes} {l : Lexeme} {ls us vs : List Lexeme}

theorem LexesTo.exists_taken (h : LexesTo source (us ++ l :: vs) rest) :
    Taken (Viable (tokensOf us)) (source.drop l.start) l.token (l.stop - l.start) ∧
      Lexes (tokensOf (us ++ [l])) l.stop (source.drop l.stop) vs rest := by
  have hl := h.within l (by simp)
  have hpos := (Lexes.inOrder h).nonempty l (by simp)
  have hstart : markLength source + (l.start - markLength source) = l.start := by omega
  have hstop : markLength source + (l.stop - markLength source) = l.stop := by omega
  obtain ⟨htaken, hbehind⟩ := Lexes.exists_taken h
  rw [List.drop_drop, hstart] at htaken
  rw [List.drop_drop, hstop] at hbehind
  exact ⟨htaken, hbehind⟩

theorem LexesTo.not_star (h : LexesTo source (us ++ l :: vs) []) (hl : l.token = .binary .div) :
    (source.drop l.stop).head? ≠ some 42 := by
  have hrest := h.exists_taken.2
  have htokens : tokensOf [l] = [.binary .div] := by simp [tokensOf, significant, hl]
  rw [tokensOf_append, htokens] at hrest
  exact hrest.not_star_of_div

theorem LexesTo.takenAt (h : LexesTo source ls []) (hsplit : significant ls = us ++ l :: vs) :
    TakenAt source (us.map token) l := by
  obtain ⟨us', vs', rfl, rfl, -⟩ := exists_split_of_significant hsplit
  have hmem : l ∈ significant (us' ++ l :: vs') := by simp [hsplit]
  exact ⟨h.exists_taken.1, (mem_significant_iff.mp hmem).2,
    ((Lexes.inOrder h).nonempty l (by simp)).le, (h.within l (by simp)).2, h.not_star⟩

theorem take_markLength (source : Bytes) :
    source.take (markLength source) = [] ∨
      source.take (markLength source) = Bytes.byteOrderMark := by
  rw [markLength]
  split
  · next hmark =>
    exact .inr (List.prefix_iff_eq_take.mp (List.isPrefixOf_iff_prefix.mp hmark)).symm
  · exact .inl List.take_zero

/-- A source with the byte order mark of another one, or none as that one, is cut into lexemes that
are taken at their places and have whitespace between them. -/
theorem LexesTo.of_taken (source : Bytes)
    (hmark : source'.take (markLength source) = source.take (markLength source))
    (hlength : markLength source ≤ source'.length) (horder : InOrder ls)
    (hstart : ∀ l ∈ ls, markLength source ≤ l.start)
    (htaken : ∀ us l vs, ls = us ++ l :: vs →
      Taken (Viable (tokensOf us)) (source'.drop l.start) l.token (l.stop - l.start))
    (hspace : ∀ i b, markLength source ≤ i → source'[i]? = some b →
      (∀ l ∈ ls, ¬ (l.start ≤ i ∧ i < l.stop)) → Bytes.isSpace b = true) :
    LexesTo source' ls [] := by
  have htake : (source'.take (markLength source)).length = markLength source := by
    rw [List.length_take]
    omega
  refine lexesTo_iff.mpr ⟨source'.take (markLength source), source'.drop (markLength source), ?_,
    (List.take_append_drop _ _).symm, ?_⟩
  · rw [hmark]
    exact take_markLength source
  · rw [htake]
    apply Lexes.of_taken horder hstart
    · intro us l vs hsplit
      have hle := hstart l (by simp [hsplit])
      rw [List.drop_drop, Nat.add_sub_cancel' hle, List.nil_append]
      exact htaken us l vs hsplit
    · intro i b hi
      rw [List.getElem?_drop] at hi
      exact hspace _ b (Nat.le_add_right _ _) hi

end Document

end HeyVL
