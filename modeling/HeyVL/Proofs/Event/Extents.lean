import HeyVL.Proofs.Event.Lexing

namespace HeyVL

open Token Grammar

namespace Lexeme

/-- Lexemes in the order of the source, none of them empty and none of them over another one. -/
structure InOrder (ls : List Lexeme) : Prop where
  nonempty : ∀ l ∈ ls, l.start < l.stop
  apart : ls.Pairwise fun a b => a.stop ≤ b.start

variable {l m : Lexeme} {ls ms : List Lexeme}

theorem InOrder.sublist (h : InOrder ls) (hms : ms.Sublist ls) : InOrder ms where
  nonempty := fun l hl => h.nonempty l (hms.subset hl)
  apart := h.apart.sublist hms

theorem inOrder_append_iff :
    InOrder (ls ++ ms) ↔
      InOrder ls ∧ InOrder ms ∧ ∀ a ∈ ls, ∀ b ∈ ms, a.stop ≤ b.start := by
  constructor
  · intro h
    exact ⟨h.sublist (List.sublist_append_left _ _), h.sublist (List.sublist_append_right _ _),
      (List.pairwise_append.mp h.apart).2.2⟩
  · rintro ⟨hls, hms, happart⟩
    refine ⟨?_, List.pairwise_append.mpr ⟨hls.apart, hms.apart, happart⟩⟩
    intro l hl
    rcases List.mem_append.mp hl with hl | hl
    · exact hls.nonempty l hl
    · exact hms.nonempty l hl

theorem inOrder_cons_iff :
    InOrder (l :: ls) ↔
      l.start < l.stop ∧ InOrder ls ∧ ∀ a ∈ ls, l.stop ≤ a.start := by
  constructor
  · intro h
    exact ⟨h.nonempty l (by simp), h.sublist (List.sublist_cons_self _ _),
      (List.pairwise_cons.mp h.apart).1⟩
  · rintro ⟨hl, hls, happart⟩
    refine ⟨?_, List.pairwise_cons.mpr ⟨happart, hls.apart⟩⟩
    intro a ha
    rcases List.mem_cons.mp ha with rfl | ha
    · exact hl
    · exact hls.nonempty a ha

theorem InOrder.nodup (h : InOrder ls) : ls.Nodup := by
  have hne : ls.Pairwise fun a b => a.stop ≤ b.start ∧ a.start < a.stop :=
    h.apart.imp_of_mem fun ha _ hab => ⟨hab, h.nonempty _ ha⟩
  apply hne.imp
  rintro a b ⟨hab, ha⟩ rfl
  omega

theorem InOrder.eq_of_perm (hls : InOrder ls) (hms : InOrder ms) (h : ls.Perm ms) : ls = ms := by
  apply List.Perm.eq_of_pairwise _ hls.apart hms.apart h
  intro a b ha hb hab hba
  have := hls.nonempty a ha
  have := hms.nonempty b hb
  omega

theorem InOrder.apart_of_mem (h : InOrder ls) (hl : l ∈ ls) (hm : m ∈ ls) (hne : l ≠ m) :
    l.stop ≤ m.start ∨ m.stop ≤ l.start := by
  have happart : ls.Pairwise fun a b => a.stop ≤ b.start ∨ b.stop ≤ a.start := h.apart.imp Or.inl
  have : Std.Symm fun a b : Lexeme => a.stop ≤ b.start ∨ b.stop ≤ a.start :=
    ⟨fun _ _ => Or.symm⟩
  exact happart.forall hl hm hne

theorem InOrder.exists_split (h : InOrder ls) (hm : m.start < m.stop)
    (happart : ∀ l ∈ ls, l.stop ≤ m.start ∨ m.stop ≤ l.start) :
    ∃ us vs, ls = us ++ vs ∧ InOrder (us ++ m :: vs) := by
  induction ls with
  | nil => exact ⟨[], [], rfl, inOrder_cons_iff.mpr ⟨hm, h, by simp⟩⟩
  | cons l ls ih =>
    obtain ⟨hl, hls, hfirst⟩ := inOrder_cons_iff.mp h
    rcases happart l (by simp) with hbefore | hbehind
    · obtain ⟨us, vs, rfl, horder⟩ := ih hls fun a ha => happart a (by simp [ha])
      refine ⟨l :: us, vs, rfl, inOrder_cons_iff.mpr ⟨hl, horder, ?_⟩⟩
      intro a ha
      rcases List.mem_append.mp ha with ha | ha
      · exact hfirst a (by simp [ha])
      · rcases List.mem_cons.mp ha with rfl | ha
        · exact hbefore
        · exact hfirst a (by simp [ha])
    · refine ⟨[], l :: ls, rfl, inOrder_cons_iff.mpr ⟨hm, h, ?_⟩⟩
      intro a ha
      rcases List.mem_cons.mp ha with rfl | ha
      · exact hbehind
      · have := hfirst a ha
        omega

end Lexeme

open Lexeme

namespace Lexes

variable {before : List Token} {offset : Nat} {bytes rest : Bytes} {ls : List Lexeme}

theorem within (h : Lexes before offset bytes ls rest) :
    ∀ l ∈ ls, offset ≤ l.start ∧ l.stop + rest.length ≤ offset + bytes.length := by
  induction h with
  | stop => simp
  | space _ _ ih =>
    intro l hl
    have := ih l hl
    rw [List.length_cons]
    omega
  | @lexeme before offset n t bytes rest ls ht h ih =>
    have hn := ht.stands.text.1
    have hle := h.length_le
    rw [List.length_drop] at hle
    intro l hl
    rcases List.mem_cons.mp hl with rfl | hl
    · show offset ≤ offset ∧ offset + n + rest.length ≤ offset + bytes.length
      omega
    · have := ih l hl
      rw [List.length_drop] at this
      omega

theorem inOrder (h : Lexes before offset bytes ls rest) : InOrder ls := by
  induction h with
  | stop => exact ⟨by simp, .nil⟩
  | space _ _ ih => exact ih
  | @lexeme before offset n t bytes rest ls ht h ih =>
    obtain ⟨_, _, _, _, hpos⟩ := exists_begins ht.stands.text
    refine inOrder_cons_iff.mpr ⟨Nat.lt_add_of_pos_right hpos, ih, ?_⟩
    intro l hl
    exact (h.within l hl).1

theorem matches_of_mem (h : Lexes before offset bytes ls rest) {l : Lexeme} (hl : l ∈ ls) :
    l.token.Matches (bytes.drop (l.start - offset)) (l.stop - l.start) := by
  induction h with
  | stop => cases hl
  | @space before offset b bytes rest ls _ h ih =>
    have hle := (h.within l hl).1
    have hdrop : l.start - offset = l.start - (offset + 1) + 1 := by omega
    rw [hdrop, List.drop_succ_cons]
    exact ih hl
  | @lexeme before offset n t bytes rest ls ht h ih =>
    rcases List.mem_cons.mp hl with rfl | hl
    · have htext := ht.stands.text
      simpa using htext
    · have hle := (h.within l hl).1
      have hmatches := ih hl
      rw [List.drop_drop] at hmatches
      have hdrop : n + (l.start - (offset + n)) = l.start - offset := by omega
      rwa [hdrop] at hmatches

theorem isSpace_of_uncovered (h : Lexes before offset bytes ls []) {i : Nat} {b : UInt8}
    (hi : bytes[i]? = some b) (hls : ∀ l ∈ ls, ¬ (l.start ≤ offset + i ∧ offset + i < l.stop)) :
    Bytes.isSpace b = true := by
  generalize hrest : ([] : Bytes) = rest at h
  induction h generalizing i with
  | stop =>
    subst hrest
    cases hi
  | @space before offset c bytes rest ls hc h ih =>
    cases i with
    | zero =>
      obtain rfl : c = b := by simpa using hi
      exact hc
    | succ i =>
      apply ih (by simpa using hi) _ hrest
      intro l hl
      have := hls l hl
      omega
  | @lexeme before offset n t bytes rest ls ht h ih =>
    have hle : n ≤ i := by
      have hfirst : ¬ (offset ≤ offset + i ∧ offset + i < offset + n) :=
        hls ⟨t, offset, offset + n⟩ (by simp)
      omega
    have hbyte : (bytes.drop n)[i - n]? = some b := by
      rw [List.getElem?_drop, ← hi]
      congr 1
      omega
    apply ih hbyte _ hrest
    intro l hl
    have := hls l (List.mem_cons_of_mem _ hl)
    omega

end Lexes

end HeyVL
