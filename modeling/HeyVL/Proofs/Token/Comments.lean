import HeyVL.Proofs.Token.Taking

namespace HeyVL

namespace Bytes

variable {source bytes rest : Bytes} {b : UInt8} {start k n : Nat}

/-- A block comment that is opened at `start` can be closed at `close`: `*/` stands there, behind the
two bytes of the opening, and no NUL comes before it. -/
structure ClosesAt (source : Bytes) (start close : Nat) : Prop where
  behind : start + 2 ≤ close
  text : source.slice close (close + 2) = ofText "*/"
  unbroken : 0 ∉ source.slice start close

/-- A line comment that is opened at `start` can end at `stop`: there, behind the two slashes, is a
newline, a NUL or the end of the source. -/
structure EndsLineAt (source : Bytes) (start stop : Nat) : Prop where
  behind : start + 2 ≤ stop
  last : source.length ≤ stop ∨ source[stop]? = some 10 ∨ source[stop]? = some 0

/-- The places at which a block comment can be closed, counted from behind its opening. -/
def closings (bytes : Bytes) : Set Nat := {k | ofText "*/" <+: bytes.drop k ∧ 0 ∉ bytes.take k}

theorem not_mem_closings_nil : k ∉ closings [] := by
  intro h
  simpa [show ofText "*/" = [42, 47] from rfl] using h.1.length_le

theorem zero_mem_closings_iff :
    0 ∈ closings (b :: bytes) ↔ b = 42 ∧ bytes.head? = some 47 := by
  have htext : ofText "*/" = [42, 47] := rfl
  cases bytes <;> simp [closings, htext, eq_comm]

theorem succ_mem_closings_iff : k + 1 ∈ closings (b :: bytes) ↔ b ≠ 0 ∧ k ∈ closings bytes := by
  simp only [closings, Set.mem_ofPred_eq, List.drop_succ_cons, List.take_succ_cons, List.mem_cons,
    not_or]
  rw [and_left_comm, ne_comm]

theorem isLeast_closings_cons_iff (hb : b ≠ 0) (hzero : 0 ∉ closings (b :: bytes)) :
    IsLeast (closings (b :: bytes)) n ↔ ∃ k, IsLeast (closings bytes) k ∧ n = k + 1 := by
  constructor
  · rintro ⟨hmem, hleast⟩
    cases n with
    | zero => exact absurd hmem hzero
    | succ k =>
      refine ⟨k, ⟨(succ_mem_closings_iff.mp hmem).2, fun j hj => ?_⟩, rfl⟩
      exact Nat.le_of_succ_le_succ (hleast (succ_mem_closings_iff.mpr ⟨hb, hj⟩))
  · rintro ⟨k, ⟨hmem, hleast⟩, rfl⟩
    refine ⟨succ_mem_closings_iff.mpr ⟨hb, hmem⟩, fun j hj => ?_⟩
    cases j with
    | zero => exact absurd hj hzero
    | succ j => exact Nat.succ_le_succ (hleast (succ_mem_closings_iff.mp hj).2)

theorem commentEnd_eq_some_iff_isLeast :
    commentEnd bytes = some n ↔ ∃ k, IsLeast (closings bytes) k ∧ n = k + 2 := by
  induction bytes generalizing n with
  | nil =>
    constructor
    · intro h
      cases h
    · rintro ⟨k, hk, -⟩
      exact absurd hk.1 not_mem_closings_nil
  | cons b bytes ih =>
    rw [commentEnd]
    split
    · next hb =>
      constructor
      · intro h
        cases h
      · rintro ⟨k, hk, -⟩
        cases k with
        | zero => simp [zero_mem_closings_iff.mp hk.1] at hb
        | succ k => exact absurd hb (succ_mem_closings_iff.mp hk.1).1
    · next hb =>
      split
      · next hclosed =>
        have hzero : IsLeast (closings (b :: bytes)) 0 :=
          ⟨zero_mem_closings_iff.mpr (by simpa using hclosed), fun k _ => Nat.zero_le k⟩
        constructor
        · intro h
          cases h
          exact ⟨0, hzero, rfl⟩
        · rintro ⟨k, hk, rfl⟩
          rw [hk.unique hzero]
      · next hopen =>
        have hzero : 0 ∉ closings (b :: bytes) := by
          rw [zero_mem_closings_iff]
          simpa using hopen
        simp only [Option.map_eq_some_iff, ih, isLeast_closings_cons_iff hb hzero]
        constructor
        · rintro ⟨_, ⟨k, hk, rfl⟩, rfl⟩
          exact ⟨k + 1, ⟨k, hk, rfl⟩, rfl⟩
        · rintro ⟨_, ⟨k, hk, rfl⟩, rfl⟩
          exact ⟨k + 2, ⟨k, hk, rfl⟩, rfl⟩

theorem closesAt_iff_mem_closings (h : source.drop start = 47 :: 42 :: rest) :
    source.ClosesAt start (start + 2 + k) ↔ k ∈ closings rest := by
  have hrest : source.drop (start + 2 + k) = rest.drop k := by
    rw [← List.drop_drop, ← List.drop_drop, h]
    rfl
  have htext : source.slice (start + 2 + k) (start + 2 + k + 2) = ofText "*/" ↔
      ofText "*/" <+: rest.drop k := by
    rw [slice, hrest, Nat.add_sub_cancel_left, List.prefix_iff_eq_take, eq_comm]
    rfl
  have hbefore : source.slice start (start + 2 + k) = 47 :: 42 :: rest.take k := by
    rw [slice, h, Nat.add_assoc, Nat.add_sub_cancel_left, Nat.add_comm 2 k]
    rfl
  constructor
  · rintro ⟨-, hclose, hnul⟩
    rw [hbefore] at hnul
    exact ⟨htext.mp hclose, fun h => hnul (by simp [h])⟩
  · rintro ⟨hclose, hnul⟩
    refine ⟨Nat.le_add_right _ _, htext.mpr hclose, ?_⟩
    rw [hbefore]
    simpa using hnul

theorem isLeast_closesAt_iff (h : source.drop start = 47 :: 42 :: rest) :
    IsLeast {close | source.ClosesAt start close} n ↔
      ∃ k, IsLeast (closings rest) k ∧ n = start + 2 + k := by
  constructor
  · rintro ⟨hmem, hleast⟩
    obtain ⟨k, rfl⟩ := Nat.exists_eq_add_of_le hmem.behind
    refine ⟨k, ⟨(closesAt_iff_mem_closings h).mp hmem, fun j hj => ?_⟩, rfl⟩
    exact Nat.le_of_add_le_add_left (hleast ((closesAt_iff_mem_closings h).mpr hj))
  · rintro ⟨k, ⟨hmem, hleast⟩, rfl⟩
    refine ⟨(closesAt_iff_mem_closings h).mpr hmem, fun j hj => ?_⟩
    obtain ⟨i, rfl⟩ := Nat.exists_eq_add_of_le hj.behind
    exact Nat.add_le_add_left (hleast ((closesAt_iff_mem_closings h).mp hj)) _

theorem exists_isLeast_closesAt (h : ∃ close, source.ClosesAt start close) :
    ∃ close, IsLeast {close | source.ClosesAt start close} close :=
  ⟨_, Nat.sInf_mem h, fun _ hclose => Nat.sInf_le hclose⟩

theorem isLeast_length_takeWhile (p : UInt8 → Bool) (bytes : Bytes) :
    IsLeast {k | ∀ b ∈ bytes[k]?, p b = false} (bytes.takeWhile p).length := by
  induction bytes with
  | nil => exact ⟨by simp, fun k _ => Nat.zero_le k⟩
  | cons b bytes ih =>
    rw [List.takeWhile_cons]
    cases hb : p b with
    | false => exact ⟨by simpa using hb, fun k _ => Nat.zero_le k⟩
    | true =>
      refine ⟨by simpa using ih.1, fun k hk => ?_⟩
      cases k with
      | zero =>
        have hfalse : p b = false := hk b rfl
        rw [hb] at hfalse
        cases hfalse
      | succ k => exact Nat.succ_le_succ (ih.2 (by simpa using hk))

theorem endsLineAt_iff (h : source.drop start = 47 :: 47 :: rest) :
    source.EndsLineAt start (start + 2 + k) ↔
      ∀ b ∈ rest[k]?, (b != 10 && b != 0) = false := by
  have hbyte : source[start + 2 + k]? = rest[k]? := by
    rw [← List.getElem?_drop, ← List.drop_drop, h]
    rfl
  have hnone : source.length ≤ start + 2 + k ↔ rest[k]? = none := by
    rw [← hbyte, List.getElem?_eq_none_iff]
  constructor
  · rintro ⟨-, hlast⟩
    rw [hnone, hbyte] at hlast
    rcases hlast with hlast | hlast | hlast <;> simp [hlast]
  · intro hbytes
    refine ⟨Nat.le_add_right _ _, ?_⟩
    rw [hnone, hbyte]
    cases hk : rest[k]? with
    | none => exact .inl rfl
    | some b =>
      right
      simpa [hk, Decidable.or_iff_not_imp_left] using hbytes b hk

theorem isLeast_endsLineAt_iff (h : source.drop start = 47 :: 47 :: rest) :
    IsLeast {stop | source.EndsLineAt start stop} n ↔
      n = start + 2 + (rest.takeWhile fun b => b != 10 && b != 0).length := by
  have hrun := isLeast_length_takeWhile (fun b => b != 10 && b != 0) rest
  have hleast : IsLeast {stop | source.EndsLineAt start stop}
      (start + 2 + (rest.takeWhile fun b => b != 10 && b != 0).length) := by
    refine ⟨(endsLineAt_iff h).mpr hrun.1, fun stop hstop => ?_⟩
    obtain ⟨k, rfl⟩ := Nat.exists_eq_add_of_le hstop.behind
    exact Nat.add_le_add_left (hrun.2 ((endsLineAt_iff h).mp hstop)) _
  constructor
  · intro hn
    exact hn.unique hleast
  · rintro rfl
    exact hleast

theorem drop_of_slice {a c : UInt8} (h : source.slice start (start + 2) = [a, c]) :
    ∃ rest, source.drop start = a :: c :: rest := by
  rw [slice, Nat.add_sub_cancel_left] at h
  exact ⟨(source.drop start).drop 2, by rw [← List.take_append_drop 2 (source.drop start), h]; rfl⟩

end Bytes

open Bytes

namespace Token

variable {viable : Token → Prop} {source rest : Bytes} {t : Token} {start n : Nat}

/-- Where `/*` stands, the comment pattern matches up to the first place at which it can be closed. -/
theorem comment_matches_block_iff (h : source.slice start (start + 2) = ofText "/*") :
    comment.Matches (source.drop start) n ↔
      ∃ close, IsLeast {close | source.ClosesAt start close} close ∧ start + n = close + 2 := by
  obtain ⟨rest, hrest⟩ := drop_of_slice (h.trans (show ofText "/*" = [47, 42] from rfl))
  simp only [isLeast_closesAt_iff hrest]
  rw [hrest, matches_comment_iff]
  constructor
  · rintro (⟨_, _, heq, -⟩ | ⟨_, m, heq, rfl, hm⟩)
    · cases heq
    · cases heq
      obtain ⟨k, hk, rfl⟩ := commentEnd_eq_some_iff_isLeast.mp hm
      exact ⟨_, ⟨k, hk, rfl⟩, by omega⟩
  · rintro ⟨_, ⟨k, hk, rfl⟩, hn⟩
    exact .inr ⟨rest, k + 2, rfl, by omega, commentEnd_eq_some_iff_isLeast.mpr ⟨k, hk, rfl⟩⟩

theorem exists_comment_matches_iff (h : source.slice start (start + 2) = ofText "/*") :
    (∃ n, comment.Matches (source.drop start) n) ↔ ∃ close, source.ClosesAt start close := by
  constructor
  · rintro ⟨n, hn⟩
    obtain ⟨close, hclose, -⟩ := (comment_matches_block_iff h).mp hn
    exact ⟨close, hclose.1⟩
  · intro hcloses
    obtain ⟨close, hclose⟩ := exists_isLeast_closesAt hcloses
    have hbehind := hclose.1.behind
    exact ⟨close + 2 - start, (comment_matches_block_iff h).mpr ⟨close, hclose, by omega⟩⟩

theorem comment_isGreatest_line_iff (h : source.slice start (start + 2) = ofText "//") :
    IsGreatest {m | comment.Matches (source.drop start) m} n ↔
      IsLeast {stop | source.EndsLineAt start stop} (start + n) := by
  obtain ⟨rest, hrest⟩ := drop_of_slice (h.trans (show ofText "//" = [47, 47] from rfl))
  rw [isLeast_endsLineAt_iff hrest, hrest, ← isGreatest_comment, commentLength, Option.some.injEq]
  omega

theorem slash_table : all.all (fun t => !t.begins 47 || t == comment || t == binary .div) = true := by
  decide

theorem asterisk_table : all.all (fun t => !t.begins 42 || t == binary .mul) = true := by
  decide

/-- Where a block comment is opened and never closed, only the division sign can stand. -/
theorem stands_of_unclosed_iff (h : source.slice start (start + 2) = ofText "/*")
    (hopen : ∀ close, ¬ source.ClosesAt start close) :
    Stands viable (source.drop start) t n ↔ viable (.binary .div) ∧ t = .binary .div ∧ n = 1 := by
  obtain ⟨rest, hrest⟩ := drop_of_slice (h.trans (show ofText "/*" = [47, 42] from rfl))
  have hdiv {m : Nat} : (binary .div).Matches (source.drop start) m ↔ m = 1 := by
    rw [hrest, matches_fixed_iff rfl, fixedLength_eq_some_iff]
    constructor
    · rintro ⟨_, -, rfl⟩
      rfl
    · rintro rfl
      exact ⟨42 :: rest, rfl, rfl⟩
  have hcomment (m : Nat) : ¬ comment.Matches (source.drop start) m := by
    rw [comment_matches_block_iff h]
    rintro ⟨close, hclose, -⟩
    exact hopen close hclose.1
  constructor
  · intro hstands
    obtain ⟨_, _, heq, hbegins, -⟩ := exists_begins hstands.text
    obtain ⟨rfl, -⟩ := List.cons.inj (hrest.symm.trans heq)
    have hslash : t = comment ∨ t = binary .div := by
      simpa [hbegins] using forall_of_all slash_table t
    rcases hslash with rfl | rfl
    · exact absurd hstands.text (hcomment n)
    · exact ⟨hstands.is_viable.resolve_left nofun, rfl, hdiv.mp hstands.text⟩
  · rintro ⟨hviable, rfl, rfl⟩
    refine ⟨.inr hviable, hdiv.mpr rfl, fun m hm => ?_⟩
    obtain ⟨b, _, _, heq, -, hword, -⟩ := matches_identifier_iff.mp hm
    obtain ⟨rfl, -⟩ := List.cons.inj (hrest.symm.trans heq)
    cases hword

theorem taken_of_unclosed_iff (h : source.slice start (start + 2) = ofText "/*")
    (hopen : ∀ close, ¬ source.ClosesAt start close) :
    Taken viable (source.drop start) t n ↔ viable (.binary .div) ∧ t = .binary .div ∧ n = 1 := by
  constructor
  · intro htaken
    exact (stands_of_unclosed_iff h hopen).mp htaken.stands
  · rintro ⟨hviable, rfl, rfl⟩
    refine ⟨(stands_of_unclosed_iff h hopen).mpr ⟨hviable, rfl, rfl⟩, fun u m hu => ?_, nofun⟩
    exact ((stands_of_unclosed_iff h hopen).mp hu).2.2.le

theorem next?_of_unclosed {viable : Token → Bool}
    (h : source.slice start (start + 2) = ofText "/*")
    (hopen : ∀ close, ¬ source.ClosesAt start close) :
    next? viable (source.drop start) =
      if viable (.binary .div) then some (.binary .div, 1) else none := by
  split
  · next hviable =>
    rw [next?_eq_some_iff, taken_of_unclosed_iff h hopen]
    exact ⟨hviable, rfl, rfl⟩
  · next hviable =>
    rw [next?_eq_none_iff]
    intro t n hstands
    exact hviable ((stands_of_unclosed_iff h hopen).mp hstands).1

theorem not_stands_asterisk (h : ¬ viable (.binary .mul)) : ¬ Stands viable (42 :: rest) t n := by
  intro hstands
  obtain ⟨_, _, heq, hbegins, -⟩ := exists_begins hstands.text
  obtain ⟨rfl, -⟩ := List.cons.inj heq
  obtain rfl : t = binary .mul := by simpa [hbegins] using forall_of_all asterisk_table t
  exact h (hstands.is_viable.resolve_left nofun)

end Token

end HeyVL
