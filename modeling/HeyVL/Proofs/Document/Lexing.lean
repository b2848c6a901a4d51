import HeyVL.Proofs.Document.Errors
import HeyVL.Proofs.Document.Rewriting
import HeyVL.Proofs.Token.Comments
import HeyVL.Proofs.Token.Ties

namespace HeyVL

open Token Grammar Lexeme Bytes

namespace Document

variable {source rest : Bytes} {ls : List Lexeme} {t : Token} {place n : Nat}

theorem LexesTo.append_taken (h : LexesTo source ls (source.drop place))
    (ht : Taken (Viable (tokensOf ls)) (source.drop place) t n) :
    LexesTo source (ls ++ [⟨t, place, place + n⟩]) (source.drop (place + n)) := by
  obtain ⟨_, _, hbytes, -, -⟩ := exists_begins ht.stands.text
  have hlength := congrArg List.length hbytes
  have hle := Lexes.length_le h
  rw [List.length_drop, List.length_cons] at hlength
  rw [List.length_drop, List.length_drop] at hle
  have hplace : markLength source +
      ((source.drop (markLength source)).length - (source.drop place).length) = place := by
    rw [List.length_drop, List.length_drop]
    omega
  refine Lexes.append h ?_
  rw [hplace, List.nil_append, ← List.drop_drop]
  exact .lexeme ht (.stop _ _ _)

/-- A source is rejected where a block comment is opened and never closed: behind the slash if it is
a division sign, for no factor begins with an asterisk, and else before it. -/
theorem LexesTo.parse_of_unclosed (h : LexesTo source ls (source.drop place))
    (htext : source.slice place (place + 2) = ofText "/*")
    (hopen : ∀ close, ¬ source.ClosesAt place close) :
    (Viable (tokensOf ls) (.binary .div) → parse source = .error ⟨place + 1⟩) ∧
      (¬ Viable (tokensOf ls) (.binary .div) → parse source = .error ⟨endOf 0 ls⟩) := by
  obtain ⟨rest, hrest⟩ := drop_of_slice (htext.trans (show ofText "/*" = [47, 42] from rfl))
  constructor
  · intro hviable
    have htaken : Taken (Viable (tokensOf ls)) (source.drop place) (.binary .div) 1 :=
      (taken_of_unclosed_iff htext hopen).mpr ⟨hviable, rfl, rfl⟩
    have hnext := h.append_taken htaken
    have hstar : source.drop (place + 1) = 42 :: rest := by
      rw [← List.drop_drop, hrest]
      rfl
    rw [hstar] at hnext
    have hmul : ¬ Viable (tokensOf (ls ++ [⟨.binary .div, place, place + 1⟩])) (.binary .mul) := by
      rw [tokensOf_append]
      exact not_viable_mul (tokensOf ls)
    rw [parse_eq_error_of_not_stands hnext (by simp) (by simp [isSpace])
      fun t n => not_stands_asterisk hmul]
    simp [endOf]
  · intro hviable
    rw [hrest] at h
    refine parse_eq_error_of_not_stands h (by simp) (by simp [isSpace]) fun t n hstands => ?_
    rw [← hrest, stands_of_unclosed_iff htext hopen] at hstands
    exact hviable hstands.1

/-- Comments are recognized as they are meant. Where `/*` stands, the comment pattern matches up to
the first `*/` behind it, if no NUL comes before that, and nothing else; where `//` stands, it matches
up to the end of the line. Where `/*` stands and is not closed, the division sign is taken if it is
viable, and nothing otherwise, so that the source is rejected there. -/
theorem comment_extents (source : Bytes) (place : Nat) :
    (∀ n, comment.matchLength (source.drop place) = some n ↔
      IsGreatest {m | comment.Matches (source.drop place) m} n) ∧
    (source.slice place (place + 2) = ofText "/*" →
      ((∃ n, comment.Matches (source.drop place) n) ↔ ∃ close, source.ClosesAt place close) ∧
      ∀ n, comment.Matches (source.drop place) n ↔
        ∃ close, IsLeast {close | source.ClosesAt place close} close ∧ place + n = close + 2) ∧
    (source.slice place (place + 2) = ofText "//" → ∀ n,
      IsGreatest {m | comment.Matches (source.drop place) m} n ↔
        IsLeast {stop | source.EndsLineAt place stop} (place + n)) ∧
    (source.slice place (place + 2) = ofText "/*" → (∀ close, ¬ source.ClosesAt place close) →
      (∀ viable : Token → Bool, next? viable (source.drop place) =
        if viable (.binary .div) then some (.binary .div, 1) else none) ∧
      ∀ ls, LexesTo source ls (source.drop place) →
        (Viable (tokensOf ls) (.binary .div) →
          LexesTo source (ls ++ [⟨.binary .div, place, place + 1⟩]) (source.drop (place + 1)) ∧
            parse source = .error ⟨place + 1⟩) ∧
        (¬ Viable (tokensOf ls) (.binary .div) →
          (∀ t n, ¬ Stands (Viable (tokensOf ls)) (source.drop place) t n) ∧
            parse source = .error ⟨endOf 0 ls⟩)) := by
  refine ⟨fun n => isGreatest_comment, fun htext => ?_, fun htext n => ?_, fun htext hopen => ?_⟩
  · exact ⟨exists_comment_matches_iff htext, fun n => comment_matches_block_iff htext⟩
  · exact comment_isGreatest_line_iff htext
  · refine ⟨fun viable => next?_of_unclosed htext hopen, fun ls hlexes => ?_⟩
    obtain ⟨hdiv, hnone⟩ := hlexes.parse_of_unclosed htext hopen
    constructor
    · intro hviable
      have htaken := (taken_of_unclosed_iff htext hopen).mpr ⟨hviable, rfl, rfl⟩
      exact ⟨hlexes.append_taken htaken, hdiv hviable⟩
    · intro hviable
      refine ⟨fun t n hstands => ?_, hnone hviable⟩
      exact hviable ((stands_of_unclosed_iff htext hopen).mp hstands).1

theorem comment_extents_stars :
    IsLeast {close | (ofText "/*/ **/ */").ClosesAt 0 close} 5 ∧
      IsLeast {stop | (ofText "// c\nx").EndsLineAt 0 stop} 4 ∧
      parse (ofText "proc p() -> () pre 1\n/* c") = .error ⟨22⟩ ∧
      parse (ofText "/* c") = .error ⟨0⟩ := by
  refine ⟨?_, ?_, ?_, ?_⟩
  · have hgreatest := ((comment_extents (ofText "/*/ **/ */") 0).1 7).mp (by decide)
    obtain ⟨close, hclose, hlength⟩ :=
      (((comment_extents (ofText "/*/ **/ */") 0).2.1 (by decide)).2 7).mp hgreatest.1
    obtain rfl : close = 5 := by omega
    exact hclose
  · have hgreatest := ((comment_extents (ofText "// c\nx") 0).1 4).mp (by decide)
    exact ((comment_extents (ofText "// c\nx") 0).2.2.1 (by decide) 4).mp hgreatest
  · obtain ⟨d, hd, hleaves⟩ := exists_parse_of_map
      (show (parse (ofText "proc p() -> () pre 1")).toOption.map (fun d => d.root.leaves) =
        some [⟨.keyword .kwProc, 0, 4⟩, ⟨.identifier, 5, 6⟩, ⟨.punctuation .parenOpen, 6, 7⟩,
          ⟨.punctuation .parenClose, 7, 8⟩, ⟨.punctuation .arrow, 9, 11⟩,
          ⟨.punctuation .parenOpen, 12, 13⟩, ⟨.punctuation .parenClose, 13, 14⟩,
          ⟨.keyword .kwPre, 15, 18⟩, ⟨.integer, 19, 20⟩] by decide +kernel)
    obtain ⟨hsource, ls, ts, hbuilt⟩ := exists_built hd
    rw [hbuilt.leaves_root] at hleaves
    subst hleaves
    have hcut := (LexesTo.cut hbuilt.lexes).2 (ofText "\n/* c") (.inr ⟨ofText "/* c", rfl, rfl⟩)
    rw [hsource, show (ofText "proc p() -> () pre 1").take _ ++ ofText "\n/* c" =
      ofText "proc p() -> () pre 1\n/* c" by decide] at hcut
    have hlexes : LexesTo (ofText "proc p() -> () pre 1\n/* c") _
        ((ofText "proc p() -> () pre 1\n/* c").drop 21) :=
      Lexes.append hcut (.space rfl (.stop _ _ _))
    have hopen (close : Nat) : ¬ (ofText "proc p() -> () pre 1\n/* c").ClosesAt 21 close := by
      intro hclose
      obtain ⟨n, hn⟩ := ((comment_extents _ 21).2.1 (by decide)).1.mpr ⟨close, hclose⟩
      exact matchLength_eq_none_iff.mp (by decide) n hn
    exact (((comment_extents _ 21).2.2.2 (by decide) hopen).2 _ hlexes).1
      ⟨[.integer], Expectation.accepts_source_iff.mp (by decide)⟩ |>.2
  · have hopen (close : Nat) : ¬ (ofText "/* c").ClosesAt 0 close := by
      intro hclose
      obtain ⟨n, hn⟩ := ((comment_extents _ 0).2.1 (by decide)).1.mpr ⟨close, hclose⟩
      exact matchLength_eq_none_iff.mp (by decide) n hn
    have hlexes : LexesTo (ofText "/* c") [] ((ofText "/* c").drop 0) := .stop _ _ _
    have hexpects : Expectation.source.expects (.binary .div) = true ↔ Viable [] (.binary .div) :=
      Expectation.expects_iff_viable rfl
    refine (((comment_extents _ 0).2.2.2 (by decide) hopen).2 _ hlexes).2 ?_ |>.2
    rw [tokensOf_nil, ← hexpects]
    decide

/-- Nothing is left to choose where a token is read. Behind the tokens with which a text of the
language begins, no two tokens tie, whatever bytes follow; and what is read at the beginning of an
identifier-shaped run is the whole run, or the source is rejected there. -/
theorem taken_without_ties :
    (∀ before bytes, (∃ after, Derivable (before ++ after)) →
      ∃ todo, Expectation.source.after? before = some todo ∧
        (∀ t, todo.expects t = true ↔ Viable before t) ∧ IsUntied todo.expects bytes) ∧
    ∀ source ls rest, LexesTo source ls rest →
      (∀ l ∈ ls, ∀ k, wordLength (source.drop l.start) = some k → l.stop = l.start + k) ∧
      ∀ k, rest.wordLength = some k → ¬ Viable (tokensOf ls) .identifier →
        (∀ t, t.isReserved = true → Viable (tokensOf ls) t → t.matchLength rest ≠ some k) →
          parse source = .error ⟨endOf 0 ls⟩ := by
  constructor
  · rintro before bytes ⟨after, hafter⟩
    obtain ⟨todo, htodo, -⟩ := Expectation.exists_after?_of_derivable hafter
    exact ⟨todo, htodo, fun t => Expectation.expects_iff_viable htodo, isUntied todo.expects bytes⟩
  · intro source ls rest h
    refine ⟨fun l hl k hk => ?_, fun k hk hidentifier hreserved => ?_⟩
    · obtain ⟨us, vs, rfl⟩ := List.append_of_mem hl
      have hpos := (Lexes.inOrder h).nonempty l hl
      have hlength := (h.exists_taken.1.stands.eq_wordLength hk).1
      omega
    · obtain ⟨b, bytes, rfl, hb, -⟩ := wordLength_eq_some_iff.mp hk
      refine parse_eq_error_of_not_stands h (by simp) ?_ (not_stands_of_word hk hidentifier hreserved)
      intro c hc
      obtain rfl : b = c := by simpa using hc
      exact (not_isSpace_of_begins (t := .identifier) hb).1

theorem taken_without_ties_words :
    (∃ todo, Expectation.source.after? [.keyword .kwProc] = some todo ∧
      (∀ t, todo.expects t = true ↔ Viable [.keyword .kwProc] t) ∧
        IsUntied todo.expects (ofText "if() -> ()")) ∧
      (∃ ls, LexesTo (ofText "proc iffy() -> ()") ls [] ∧ ∀ l ∈ ls, ∀ k,
        wordLength ((ofText "proc iffy() -> ()").drop l.start) = some k → l.stop = l.start + k) ∧
      parse (ofText "domainx D \x7b\x7d") = .error ⟨0⟩ := by
  refine ⟨?_, ?_, ?_⟩
  · exact taken_without_ties.1 _ _ ⟨[.identifier, .punctuation .parenOpen, .punctuation .parenClose,
      .punctuation .arrow, .punctuation .parenOpen, .punctuation .parenClose],
      Expectation.accepts_source_iff.mp (by decide)⟩
  · obtain ⟨d, hd⟩ := isOk_parse_iff.mp
      (show (parse (ofText "proc iffy() -> ()")).isOk = true by decide +kernel)
    obtain ⟨ls, -, hlexes, -⟩ := exists_of_parse_eq_ok hd
    exact ⟨ls, hlexes, (taken_without_ties.2 _ ls [] hlexes).1⟩
  · have hexpects (t : Token) : Expectation.source.expects t = true ↔ Viable [] t :=
      Expectation.expects_iff_viable rfl
    have hlexes : LexesTo (ofText "domainx D \x7b\x7d") [] (ofText "domainx D \x7b\x7d") :=
      .stop _ _ _
    refine (taken_without_ties.2 _ [] _ hlexes).2 7 (by decide) ?_ fun t _ ht => ?_
    · rw [tokensOf_nil, ← hexpects]
      decide
    · rw [tokensOf_nil, ← hexpects] at ht
      have htable : all.all (fun t => !Expectation.source.expects t ||
          t.matchLength (ofText "domainx D \x7b\x7d") != some 7) = true := by decide
      simpa [ht] using forall_of_all htable t

end Document

end HeyVL
