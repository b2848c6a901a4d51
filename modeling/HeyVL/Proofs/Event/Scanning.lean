import HeyVL.Proofs.Event.Lexing
import HeyVL.Proofs.Expectation.Language

namespace HeyVL

open Token Grammar Lexeme Expectation

namespace Event

variable {todo later : Expectation} {before : List Token} {offset last : Nat}
  {bytes rest : Bytes} {ls : List Lexeme}

/-- The events of the lexemes: the comments among these, and the steps that build their tree. -/
structure Reports (todo later : Expectation) (ls : List Lexeme) (events : List Event) : Prop where
  comments_eq : comments events = onlyComments ls
  builds : ∀ b ms, todo.build? b (significant ls ++ ms) =
    later.build? (events.foldl Builder.apply b) ms

theorem comments_append (us vs : List Event) :
    comments (us ++ vs) = comments us ++ comments vs := by
  simp [comments]

theorem comments_actions (actions : List Action) : comments (actions.map action) = [] := by
  simp [comments, List.filterMap_map]

theorem comments_ofMove (m : Move) (l : Lexeme) : comments (ofMove m l) = [] := by
  rw [ofMove, comments_append, comments_actions]
  rfl

theorem foldl_apply_actions (actions : List Action) (b : Builder) :
    (actions.map action).foldl Builder.apply b = actions.foldl Builder.act b := by
  rw [List.foldl_map]
  rfl

theorem foldl_apply_ofMove (m : Move) (l : Lexeme) (b : Builder) :
    (ofMove m l).foldl Builder.apply b = place b m l := by
  rw [ofMove, List.foldl_append, foldl_apply_actions]
  rfl

theorem Reports.append {middle : Expectation} {ms : List Lexeme} {us vs : List Event}
    (hu : Reports todo middle ls us) (hv : Reports middle later ms vs) :
    Reports todo later (ls ++ ms) (us ++ vs) where
  comments_eq := by
    rw [comments_append, hu.comments_eq, hv.comments_eq]
    simp [onlyComments]
  builds b xs := by
    have hsplit : significant (ls ++ ms) ++ xs =
        significant ls ++ (significant ms ++ xs) := by
      simp [significant]
    rw [hsplit, hu.builds, hv.builds, List.foldl_append]

theorem reports_comment (todo : Expectation) {l : Lexeme} (hl : l.token = .comment) :
    Reports todo todo [l] [comment l] where
  comments_eq := by simp [comments, onlyComments, hl]
  builds b ms := by simp [significant, hl, Builder.apply]

theorem reports_token {m : Move} {l : Lexeme} (hl : l.token ≠ .comment)
    (hm : todo.advance l.token = some m) : Reports todo m.after [l] (ofMove m l) where
  comments_eq := by
    rw [comments_ofMove]
    simp [onlyComments, hl]
  builds b ms := by
    rw [foldl_apply_ofMove]
    simp [significant, hl, build?, hm]

theorem map_map_append (us vs : List Event) (r : Except SyntaxError (List Event)) :
    (r.map (us ++ ·)).map (vs ++ ·) = r.map ((vs ++ us) ++ ·) := by
  cases r <;> simp [Except.map]

theorem next?_eq_of_taken {t : Token} {n : Nat} (htodo : source.after? before = some todo)
    (ht : Taken (Viable before) bytes t n) : next? todo.expects bytes = some (t, n) := by
  have hviable : (fun t => todo.expects t = true) = Viable before := by
    funext t
    exact propext (expects_iff_viable htodo)
  rw [next?_eq_some_iff, hviable]
  exact ht

theorem scan_lexeme {t : Token} {n : Nat} (htodo : source.after? before = some todo)
    (ht : Taken (Viable before) bytes t n) (offset last : Nat) :
    ∃ later events,
      source.after? (before ++ tokensOf [⟨t, offset, offset + n⟩]) = some later ∧
      Reports todo later [⟨t, offset, offset + n⟩] events ∧
      scan todo offset last bytes =
        (scan later (offset + n) (offset + n) (bytes.drop n)).map (events ++ ·) := by
  have hnext := next?_eq_of_taken htodo ht
  obtain ⟨b, bytes, rfl, hbegins, hpos⟩ := exists_begins ht.stands.text
  have hspace : ¬ Bytes.isSpace b = true := by simp [(not_isSpace_of_begins hbegins).1]
  have hdrop : bytes.drop (n - 1) = (b :: bytes).drop n := by
    cases n with
    | zero => cases hpos
    | succ n => rfl
  rw [scan, if_neg hspace, hnext]
  simp only [hdrop]
  by_cases hcomment : t = .comment
  · subst hcomment
    refine ⟨todo, [comment ⟨.comment, offset, offset + n⟩], ?_, reports_comment todo rfl, ?_⟩
    · have htokens : tokensOf [⟨.comment, offset, offset + n⟩] = [] := rfl
      rw [htokens, List.append_nil]
      exact htodo
    · rw [if_pos rfl]
      rfl
  · obtain ⟨m, hm⟩ : ∃ m, todo.advance t = some m := by
      apply Option.isSome_iff_exists.mp
      rcases ht.stands.is_viable with h | h
      · exact absurd h hcomment
      · exact (expects_iff_viable htodo).mpr h
    refine ⟨m.after, _, ?_, reports_token hcomment hm, ?_⟩
    · have htokens : tokensOf [⟨t, offset, offset + n⟩] = [t] := by
        simp [tokensOf, significant, hcomment]
      rw [htokens, after?_append, htodo]
      simp [after?, hm]
    · rw [if_neg hcomment, hm]

/-- The scanner passes over the lexemes of a source and goes on with what is left. -/
theorem scan_of_lexes (h : Lexes before offset bytes ls rest)
    (htodo : source.after? before = some todo) (last : Nat) :
    ∃ later events, source.after? (before ++ tokensOf ls) = some later ∧
      Reports todo later ls events ∧
      scan todo offset last bytes =
        (scan later (offset + (bytes.length - rest.length)) (endOf last ls) rest).map
          (events ++ ·) := by
  induction h generalizing todo last with
  | stop before offset bytes =>
    refine ⟨todo, [], by simpa using htodo, ⟨rfl, fun _ _ => rfl⟩, ?_⟩
    cases hscan : scan todo offset last bytes <;> simp [hscan, Except.map]
  | @space before offset b bytes rest ls hb h ih =>
    obtain ⟨later, events, hlater, hreports, hscan⟩ := ih htodo last
    refine ⟨later, events, hlater, hreports, ?_⟩
    have hle := h.length_le
    have hoffset : offset + ((b :: bytes).length - rest.length) =
        offset + 1 + (bytes.length - rest.length) := by
      rw [List.length_cons]
      omega
    rw [scan, if_pos hb, hscan, hoffset]
  | @lexeme before offset n t bytes rest ls ht h ih =>
    have hle := h.length_le
    have hn := ht.stands.text.1
    have hoffset : offset + n + ((bytes.drop n).length - rest.length) =
        offset + (bytes.length - rest.length) := by
      rw [List.length_drop] at hle ⊢
      omega
    obtain ⟨middle, first, hmiddle, hfirst, hstep⟩ := scan_lexeme htodo ht offset last
    obtain ⟨later, events, hlater, hreports, hscan⟩ := ih hmiddle (offset + n)
    refine ⟨later, first ++ events, ?_, hfirst.append hreports, ?_⟩
    · rw [← hlater, List.append_assoc, ← tokensOf_append]
      rfl
    · rw [hstep, hscan, hoffset, endOf_cons, map_map_append]

theorem scan_nil (hlater : source.after? before = some later) :
    (Derivable before → ∃ actions, later.finish? = some actions ∧
      ∀ offset last, scan later offset last [] = .ok (actions.map action)) ∧
    (¬ Derivable before → ∀ offset last, scan later offset last [] = .error ⟨last⟩) := by
  rw [← finish?_iff_derivable hlater]
  cases hfinish : later.finish? with
  | none => simp [scan, hfinish]
  | some actions => simp [scan, hfinish]

theorem scan_of_not_stands (hlater : source.after? before = some later) (offset last : Nat)
    (hrest : rest ≠ []) (hspace : ∀ b ∈ rest.head?, Bytes.isSpace b = false)
    (hnone : ∀ t n, ¬ Stands (Viable before) rest t n) :
    scan later offset last rest = .error ⟨last⟩ := by
  have hviable : (fun t => later.expects t = true) = Viable before := by
    funext t
    exact propext (expects_iff_viable hlater)
  have hnext : next? later.expects rest = none := by
    rw [next?_eq_none_iff, hviable]
    exact hnone
  cases rest with
  | nil => exact absurd rfl hrest
  | cons b rest =>
    have hb : ¬ Bytes.isSpace b = true := by simp [hspace b (by simp)]
    rw [scan, if_neg hb, hnext]

end Event

end HeyVL
