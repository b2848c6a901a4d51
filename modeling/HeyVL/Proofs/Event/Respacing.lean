import HeyVL.Proofs.Event.Places

namespace HeyVL

open Token Grammar Lexeme

/-- Whitespace and comments before the given bytes. Behind a line comment the line ends. -/
inductive Trivia (rest : Bytes) : Bytes → Prop
  | nil : Trivia rest []
  | space {b : UInt8} {gap : Bytes} (hb : Bytes.isSpace b = true) (h : Trivia rest gap) :
      Trivia rest (b :: gap)
  | comment {w gap : Bytes} (hw : w ∈ Token.comment.language)
      (hend : [47, 47] <+: w → ∀ b ∈ (gap ++ rest).head?, b = 10) (h : Trivia rest gap) :
      Trivia rest (w ++ gap)

/-- The texts of the lexemes with trivia behind each of them. A gap begins with whitespace; it may
be empty between lexemes that touch in the source, and behind the last one. -/
inductive Respaced (source : Bytes) : List Lexeme → Bytes → Prop
  | nil : Respaced source [] []
  | cons {l : Lexeme} {ls : List Lexeme} {gap text : Bytes} (trivia : Trivia text gap)
      (space : ∀ b ∈ gap.head?, Bytes.isSpace b = true)
      (touch : gap = [] → ∀ m ∈ ls.head?, l.stop = m.start) (h : Respaced source ls text) :
      Respaced source (l :: ls) (source.slice l.start l.stop ++ (gap ++ text))

theorem Bytes.isPrefix_takeWhile_append {v v₀ : Bytes}
    (h : (v.takeWhile fun b => !isSpace b) <+: v₀) (w : Bytes) :
    ((w ++ v).takeWhile fun b => !isSpace b) <+: w ++ v₀ := by
  induction w with
  | nil => exact h
  | cons b w ih =>
    rw [List.cons_append, List.takeWhile_cons]
    split
    · exact (List.prefix_cons_inj b).mpr ih
    · exact List.nil_prefix

namespace Lexes

variable {before : List Token} {offset : Nat} {gap rest : Bytes} {ls : List Lexeme}

theorem of_trivia (h : Trivia rest gap) (hrest : Lexes before (offset + gap.length) rest ls []) :
    ∃ cs, (∀ c ∈ cs, c.token = .comment) ∧ Lexes before offset (gap ++ rest) (cs ++ ls) [] := by
  induction h generalizing offset with
  | nil => exact ⟨[], by simp, hrest⟩
  | @space b gap hb h ih =>
    have hoffset : offset + (b :: gap).length = offset + 1 + gap.length := by
      rw [List.length_cons]
      omega
    rw [hoffset] at hrest
    obtain ⟨cs, hcs, hlexes⟩ := ih hrest
    exact ⟨cs, hcs, .space hb hlexes⟩
  | @comment w gap hw hend h ih =>
    rw [List.length_append, ← Nat.add_assoc] at hrest
    obtain ⟨cs, hcs, hlexes⟩ := ih hrest
    refine ⟨⟨.comment, offset, offset + w.length⟩ :: cs, ?_, ?_⟩
    · intro c hc
      rcases List.mem_cons.mp hc with rfl | hc
      · rfl
      · exact hcs c hc
    · rw [List.append_assoc]
      refine .lexeme (taken_comment hw hend) ?_
      have htokens : tokensOf [⟨.comment, offset, offset + w.length⟩] = [] := rfl
      rw [htokens, List.append_nil, List.drop_left]
      exact hlexes

end Lexes

namespace Respaced

variable {source text : Bytes} {ls : List Lexeme}

/-- Up to the first whitespace in it the new text is what stands in the source. -/
theorem isPrefix (h : Respaced source ls text) (hls : ∀ l ∈ ls, l.start ≤ l.stop) {stop : Nat}
    (htouch : ∀ m ∈ ls.head?, stop = m.start) :
    (text.takeWhile fun b => !Bytes.isSpace b) <+: source.drop stop := by
  induction h generalizing stop with
  | nil => exact List.nil_prefix
  | @cons l ls gap text trivia space touch h ih =>
    obtain rfl := htouch l rfl
    rw [Bytes.drop_eq_slice_append source (hls l (by simp))]
    apply Bytes.isPrefix_takeWhile_append
    cases gap with
    | nil => exact ih (fun m hm => hls m (by simp [hm])) (touch rfl)
    | cons b gap =>
      rw [List.cons_append, List.takeWhile_cons, space b rfl]
      exact List.nil_prefix

theorem exists_lexes (h : Respaced source ls text) {before : List Token}
    (htaken : ∀ us l vs, ls = us ++ l :: vs → TakenAt source (before ++ us.map token) l)
    (front : Bytes) :
    ∃ ms, Lexes before front.length text ms [] ∧
      List.Forall₂ (fun l m => m.token = l.token ∧
        (front ++ text).slice m.start m.stop = source.slice l.start l.stop) ls (significant ms) := by
  induction h generalizing before front with
  | nil => exact ⟨[], .stop _ _ _, .nil⟩
  | @cons l ls gap text trivia space touch h ih =>
    have hfirst := htaken [] l ls rfl
    rw [List.map_nil, List.append_nil] at hfirst
    have hlength := Bytes.length_slice source l.start hfirst.stop_le
    have hagree : ((gap ++ text).takeWhile fun b => !Bytes.isSpace b) <+: source.drop l.stop := by
      cases gap with
      | nil =>
        -- Without a gap the lexemes touch in the source, too.
        refine h.isPrefix (fun m hm => ?_) (touch rfl)
        obtain ⟨us, vs, rfl⟩ := List.append_of_mem hm
        exact (htaken (l :: us) m vs rfl).start_le
      | cons b gap =>
        rw [List.cons_append, List.takeWhile_cons, space b rfl]
        exact List.nil_prefix
    have htail (us : List Lexeme) (m : Lexeme) (vs : List Lexeme) (hsplit : ls = us ++ m :: vs) :
        TakenAt source (before ++ [l.token] ++ us.map token) m := by
      rw [List.append_assoc]
      exact htaken (l :: us) m vs (by rw [hsplit]; rfl)
    obtain ⟨ms, hms, htexts⟩ := ih htail (front ++ source.slice l.start l.stop ++ gap)
    rw [List.length_append, List.length_append, hlength] at hms
    obtain ⟨cs, hcs, hlexes⟩ := Lexes.of_trivia trivia hms
    have htokens : tokensOf [⟨l.token, front.length, front.length + (l.stop - l.start)⟩] =
        [l.token] := by
      simp [tokensOf, significant, hfirst.ne_comment]
    refine ⟨⟨l.token, front.length, front.length + (l.stop - l.start)⟩ :: (cs ++ ms), ?_, ?_⟩
    · refine .lexeme (hfirst.of_agree hagree) ?_
      rw [htokens, ← hlength, List.drop_left, hlength]
      exact hlexes
    · have hnone : significant cs = [] :=
        List.filter_eq_nil_iff.mpr fun c hc => by simp [hcs c hc]
      have hsignificant :
          significant (⟨l.token, front.length, front.length + (l.stop - l.start)⟩ :: (cs ++ ms)) =
            ⟨l.token, front.length, front.length + (l.stop - l.start)⟩ :: significant ms := by
        rw [significant, List.filter_cons_of_pos (by simpa using hfirst.ne_comment),
          List.filter_append, ← significant, ← significant, hnone, List.nil_append]
      rw [hsignificant]
      refine .cons ⟨rfl, ?_⟩ ?_
      · rw [Bytes.slice, List.drop_left, Nat.add_sub_cancel_left, ← hlength, List.take_left]
      · simpa only [List.append_assoc] using htexts

end Respaced

end HeyVL
