import HeyVL.Proofs.Document.Parsing
import HeyVL.Proofs.Event.Cutting

namespace HeyVL

open Token Grammar Lexeme

namespace Document

variable {source body rest : Bytes} {ls ms : List Lexeme}

theorem LexesTo.unique (hls : LexesTo source ls []) (hms : LexesTo source ms []) : ls = ms :=
  Lexes.unique hls hms

theorem markLength_of_mark (body : Bytes) :
    markLength (Bytes.byteOrderMark ++ body) = Bytes.byteOrderMark.length := by
  rw [markLength, if_pos (List.isPrefixOf_iff_prefix.mpr (List.prefix_append _ _))]

theorem markLength_of_lexes (h : Lexes [] 0 source ls []) : markLength source = 0 := by
  rw [markLength, if_neg]
  intro hmark
  obtain ⟨body, rfl⟩ := List.isPrefixOf_iff_prefix.mp hmark
  cases h with
  | space hb _ => cases hb
  | lexeme ht _ =>
    obtain ⟨b, _, heq, hbegins, -⟩ := exists_begins ht.stands.text
    exact (not_isSpace_of_begins hbegins).2 (List.cons.inj heq).1.symm

theorem lexesTo_iff :
    LexesTo source ls [] ↔
      ∃ mark body, (mark = [] ∨ mark = Bytes.byteOrderMark) ∧ source = mark ++ body ∧
        Lexes [] mark.length body ls [] := by
  rw [LexesTo]
  constructor
  · intro h
    by_cases hmark : Bytes.byteOrderMark.isPrefixOf source = true
    · obtain ⟨body, rfl⟩ := List.isPrefixOf_iff_prefix.mp hmark
      rw [markLength_of_mark, List.drop_left] at h
      exact ⟨_, body, .inr rfl, rfl, h⟩
    · rw [markLength, if_neg hmark] at h
      exact ⟨[], source, .inl rfl, rfl, h⟩
  · rintro ⟨mark, body, rfl | rfl, rfl, h⟩
    · rw [markLength_of_lexes h]
      exact h
    · rw [markLength_of_mark, List.drop_left]
      exact h

/-- A source is accepted just if it is cut into the tokens of a text of the language. -/
theorem exists_parse_iff (source : Bytes) :
    (∃ d, parse source = .ok d) ↔
      ∃ mark body ls, (mark = [] ∨ mark = Bytes.byteOrderMark) ∧ source = mark ++ body ∧
        Lexes [] mark.length body ls [] ∧ Derivable (tokensOf ls) := by
  constructor
  · rintro ⟨d, h⟩
    obtain ⟨ls, _, hlexes, -⟩ := exists_of_parse_eq_ok h
    obtain ⟨mark, body, hmark, hsource, hbody⟩ := lexesTo_iff.mp hlexes
    exact ⟨mark, body, ls, hmark, hsource, hbody, derivable_of_parse_eq_ok h hlexes⟩
  · rintro ⟨mark, body, ls, hmark, hsource, hbody, hderivable⟩
    exact exists_parse_of_derivable (lexesTo_iff.mpr ⟨mark, body, hmark, hsource, hbody⟩) hderivable

end Document

end HeyVL
