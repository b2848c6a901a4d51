import HeyVL.Document.Basic
import HeyVL.Proofs.Event.Scanning

namespace HeyVL

open Token Grammar Lexeme Expectation

namespace Document

open Event

variable {source : Bytes} {ls : List Lexeme} {rest : Bytes} {d : Document}

/-- The length of the byte order mark with which a source may begin. -/
def markLength (source : Bytes) : Nat :=
  if Bytes.byteOrderMark.isPrefixOf source then Bytes.byteOrderMark.length else 0

theorem markLength_le (source : Bytes) : markLength source ≤ source.length := by
  rw [markLength]
  split
  · next hmark => exact (List.isPrefixOf_iff_prefix.mp hmark).length_le
  · exact Nat.zero_le _

/-- The source is cut into the lexemes up to the bytes that are left. A byte order mark at its
beginning is passed over. -/
def LexesTo (source : Bytes) (ls : List Lexeme) (rest : Bytes) : Prop :=
  Lexes [] (markLength source) (source.drop (markLength source)) ls rest

theorem read_eq (source : Bytes) :
    Event.read source =
      scan .source (markLength source) 0 (source.drop (markLength source)) := by
  rw [Event.read, markLength]
  split <;> rfl

theorem parse_eq_ok {ts : List Tree} (h : LexesTo source ls [])
    (hts : (Tree.node none .sourceFile ts).IsSyntax)
    (hleaves : Tree.leavesOfList ts = significant ls) :
    parse source =
      .ok ⟨source, .node none .sourceFile (Tree.placeAll (onlyComments ls) ts)⟩ := by
  have hbuild := build?_source_iff.mpr ⟨hts, hleaves⟩
  have hderivable : Derivable (tokensOf ls) := by
    rw [← accepts_source_iff, tokensOf, ← isSome_build? Expectation.source [[]], hbuild]
    rfl
  obtain ⟨later, events, hlater, hreports, hscan⟩ :=
    scan_of_lexes h (show Expectation.source.after? [] = some Expectation.source from rfl) 0
  obtain ⟨actions, hactions, hend⟩ := (scan_nil hlater).1 hderivable
  have hforest : Builder.forest (events ++ actions.map action) = ts := by
    have hbuilds := hreports.builds [[]] []
    rw [List.append_nil, hbuild, build?, hactions, Option.map_some] at hbuilds
    rw [Builder.forest, List.foldl_append, foldl_apply_actions,
      ← Option.some.inj hbuilds, List.flatten_singleton]
  have hcomments : comments (events ++ actions.map action) = onlyComments ls := by
    rw [comments_append, comments_actions, hreports.comments_eq, List.append_nil]
  rw [parse, read_eq, hscan, hend]
  simp [Except.map, hforest, hcomments]

theorem parse_eq_error (h : LexesTo source ls []) (hls : ¬ Derivable (tokensOf ls)) :
    parse source = .error ⟨endOf 0 ls⟩ := by
  obtain ⟨later, events, hlater, hreports, hscan⟩ :=
    scan_of_lexes h (show Expectation.source.after? [] = some Expectation.source from rfl) 0
  rw [parse, read_eq, hscan, (scan_nil hlater).2 hls]
  rfl

theorem parse_eq_error_of_not_stands (h : LexesTo source ls rest) (hrest : rest ≠ [])
    (hspace : ∀ b ∈ rest.head?, Bytes.isSpace b = false)
    (hnone : ∀ t n, ¬ Stands (Viable (tokensOf ls)) rest t n) :
    parse source = .error ⟨endOf 0 ls⟩ := by
  obtain ⟨later, events, hlater, -, hscan⟩ :=
    scan_of_lexes h (show Expectation.source.after? [] = some Expectation.source from rfl) 0
  rw [parse, read_eq, hscan, scan_of_not_stands hlater _ _ hrest hspace hnone]
  rfl

/-- What is known of a source that is not accepted: the place of the error is the end of the last
lexeme, and nothing that could follow stands at what is left. -/
structure StopsAt (source : Bytes) (offset : Nat) (ls : List Lexeme) (rest : Bytes) : Prop where
  lexes : LexesTo source ls rest
  offset_eq : offset = endOf 0 ls
  space : ∀ b ∈ rest.head?, Bytes.isSpace b = false
  none_stands : ∀ t n, ¬ Stands (Viable (tokensOf ls)) rest t n
  underivable : rest = [] → ¬ Derivable (tokensOf ls)

theorem parse_cases (source : Bytes) :
    (∃ ls ts, LexesTo source ls [] ∧ (Tree.node none .sourceFile ts).IsSyntax ∧
      Tree.leavesOfList ts = significant ls ∧ parse source =
        .ok ⟨source, .node none .sourceFile (Tree.placeAll (onlyComments ls) ts)⟩) ∨
    ∃ offset ls rest, StopsAt source offset ls rest ∧ parse source = .error ⟨offset⟩ := by
  obtain ⟨ls, rest, h, hspace, hnone⟩ :=
    Lexes.exists_maximal [] (markLength source) (source.drop (markLength source))
  rw [List.nil_append] at hnone
  by_cases hrest : rest = []
  · subst hrest
    by_cases hderivable : Derivable (tokensOf ls)
    · obtain ⟨ts, hts, hleaves⟩ := Tree.exists_isSyntax hderivable
      exact .inl ⟨ls, ts, h, hts, hleaves, parse_eq_ok h hts hleaves⟩
    · exact .inr ⟨_, ls, [], ⟨h, rfl, hspace, hnone, fun _ => hderivable⟩,
        parse_eq_error h hderivable⟩
  · exact .inr ⟨_, ls, rest, ⟨h, rfl, hspace, hnone, fun h => absurd h hrest⟩,
      parse_eq_error_of_not_stands h hrest hspace hnone⟩

theorem exists_of_parse_eq_ok (h : parse source = .ok d) :
    ∃ ls ts, LexesTo source ls [] ∧ (Tree.node none .sourceFile ts).IsSyntax ∧
      Tree.leavesOfList ts = significant ls ∧
      d = ⟨source, .node none .sourceFile (Tree.placeAll (onlyComments ls) ts)⟩ := by
  rcases parse_cases source with ⟨ls, ts, hlexes, hts, hleaves, hparse⟩ | ⟨_, _, _, _, hparse⟩
  · rw [h] at hparse
    exact ⟨ls, ts, hlexes, hts, hleaves, Except.ok.inj hparse⟩
  · rw [h] at hparse
    cases hparse

theorem exists_stopsAt {offset : Nat} (h : parse source = .error ⟨offset⟩) :
    ∃ ls rest, StopsAt source offset ls rest := by
  rcases parse_cases source with ⟨_, _, _, _, _, hparse⟩ | ⟨offset', ls, rest, hstops, hparse⟩
  · rw [h] at hparse
    cases hparse
  · rw [h] at hparse
    obtain rfl := SyntaxError.mk.inj (Except.error.inj hparse)
    exact ⟨ls, rest, hstops⟩

theorem exists_parse_of_derivable (h : LexesTo source ls []) (hls : Derivable (tokensOf ls)) :
    ∃ d, parse source = .ok d := by
  obtain ⟨ts, hts, hleaves⟩ := Tree.exists_isSyntax hls
  exact ⟨_, parse_eq_ok h hts hleaves⟩

theorem isOk_parse_iff : (parse source).isOk = true ↔ ∃ d, parse source = .ok d := by
  cases parse source <;> simp [Except.isOk, Except.toBool]

/-- A source is accepted if something is to be seen of its document. -/
theorem exists_parse_of_map {α : Type} {f : Document → α} {x : α}
    (h : (parse source).toOption.map f = some x) : ∃ d, parse source = .ok d ∧ f d = x := by
  cases hd : parse source with
  | error => simp [hd, Except.toOption] at h
  | ok d =>
    rw [hd] at h
    exact ⟨d, rfl, Option.some.inj h⟩

theorem derivable_of_parse_eq_ok (hparse : parse source = .ok d) (h : LexesTo source ls []) :
    Derivable (tokensOf ls) := by
  by_contra hls
  rw [parse_eq_error h hls] at hparse
  cases hparse

end Document

end HeyVL
