import HeyVL.Proofs.Document.Captures
import HeyVL.Proofs.Event.Respacing

namespace HeyVL

open Token Grammar Lexeme

namespace Lexeme

theorem InOrder.exists_moved {ls ms : List Lexeme} (h : InOrder ls)
    (htokens : List.Forall₂ (fun l m => m.token = l.token) ls ms) :
    ∃ f g, ms = ls.map (moved f g) := by
  induction htokens with
  | nil => exact ⟨id, id, rfl⟩
  | @cons l m ls ms htoken _ ih =>
    obtain ⟨hpos, hls, hbehind⟩ := inOrder_cons_iff.mp h
    obtain ⟨f, g, rfl⟩ := ih hls
    refine ⟨fun n => if n = l.start then m.start else f n,
      fun n => if n = l.stop then m.stop else g n, ?_⟩
    rw [List.map_cons]
    congr 1
    · simp [moved, ← htoken]
    · apply List.map_congr_left
      intro a ha
      have hle := hbehind a ha
      have hapos := hls.nonempty a ha
      rw [moved, moved, if_neg (by omega), if_neg (by omega)]

end Lexeme

namespace Document

variable {d d' : Document} {f g : Nat → Nat} {source' : Bytes} {ls ms : List Lexeme} {ts : List Tree}

/-- A source with the same tokens at other places has the same tree apart from its comments. -/
theorem Built.moved (h : d.Built ls ts) (hlexes : LexesTo source' ms [])
    (hmoved : significant ms = (significant ls).map (Lexeme.moved f g)) :
    ∃ d', parse source' = .ok d' ∧ d'.Built ms (ts.map (Tree.moved f g)) ∧
      d'.root.bare = d.root.bare.moved f g := by
  have hsyntax : (Tree.node none .sourceFile (ts.map (Tree.moved f g))).IsSyntax := by
    rw [← Tree.moved_node]
    exact h.isSyntax.moved
  have hleaves : Tree.leavesOfList (ts.map (Tree.moved f g)) = significant ms := by
    have hnode := Tree.leaves_moved f g (.node none .sourceFile ts)
    rw [Tree.moved_node, Tree.leaves, Tree.leaves, h.leaves_eq] at hnode
    rw [hnode, hmoved]
  have hbuilt : Built ⟨source', .node none .sourceFile
      (Tree.placeAll (onlyComments ms) (ts.map (Tree.moved f g)))⟩ ms (ts.map (Tree.moved f g)) :=
    ⟨hlexes, hsyntax, hleaves, rfl⟩
  refine ⟨_, parse_eq_ok hlexes hsyntax hleaves, hbuilt, ?_⟩
  rw [hbuilt.bare_root, h.bare_root, Tree.moved_node]

theorem Built.captures_moved (h : d.Built ls ts) {us : List Tree} (h' : d'.Built ms us)
    (hroot : d'.root.bare = d.root.bare.moved f g) :
    d'.captures.filter (·.name != "comment") =
      (d.captures.filter (·.name != "comment")).map (Capture.moved f g) := by
  rw [h.captures_blanked, h'.captures_blanked]
  refine Document.captures_moved h.blanked.isTidy hroot ?_
  have horder := h'.blanked.isTidy.inOrder
  rw [hroot, Tree.leaves_moved] at horder
  exact horder

/-- Two documents have the same syntax: the leaves of the second one that are no comments are those
of the first one, moved, with the same texts, and the other captures are moved with them. -/
structure SameSyntax (d d' : Document) (f g : Nat → Nat) : Prop where
  root_eq : d'.root.bare = d.root.bare.moved f g
  text : ∀ l ∈ d.root.bare.leaves,
    d'.source.slice (f l.start) (g l.stop) = d.source.slice l.start l.stop
  captures_eq : d'.captures.filter (·.name != "comment") =
    (d.captures.filter (·.name != "comment")).map (Capture.moved f g)

theorem exists_sameSyntax_of_respaced (source : Bytes) (d : Document) (h : parse source = .ok d)
    (first text : Bytes) (hfirst : Trivia text first)
    (htext : Respaced source d.root.bare.leaves text) :
    ∃ d' f g, parse (first ++ text) = .ok d' ∧ SameSyntax d d' f g := by
  obtain ⟨rfl, ls, ts, hbuilt⟩ := exists_built h
  have hleaves : d.root.bare.leaves = significant ls := by
    rw [hbuilt.bare_root]
    exact hbuilt.leaves_eq
  rw [hleaves] at htext
  have htaken (us : List Lexeme) (l : Lexeme) (vs : List Lexeme)
      (hsplit : significant ls = us ++ l :: vs) : TakenAt d.source ([] ++ us.map token) l :=
    hbuilt.lexes.takenAt hsplit
  obtain ⟨ms, hms, htexts⟩ := htext.exists_lexes htaken first
  rw [← Nat.zero_add first.length] at hms
  obtain ⟨cs, hcs, hlexes⟩ := Lexes.of_trivia hfirst hms
  have hlexes : LexesTo (first ++ text) (cs ++ ms) [] :=
    lexesTo_iff.mpr ⟨[], _, .inl rfl, rfl, hlexes⟩
  have hsignificant : significant (cs ++ ms) = significant ms := by
    rw [significant, List.filter_append, List.filter_eq_nil_iff.mpr fun c hc => by simp [hcs c hc]]
    rfl
  have horder : InOrder (significant ls) := (Lexes.inOrder hbuilt.lexes).sublist List.filter_sublist
  obtain ⟨f, g, hmoved⟩ := horder.exists_moved (htexts.imp fun _ _ hlm => hlm.1)
  obtain ⟨d', hd', hbuilt', hroot⟩ := hbuilt.moved hlexes (hsignificant.trans hmoved)
  refine ⟨d', f, g, hd', hroot, ?_, hbuilt.captures_moved hbuilt' hroot⟩
  rw [(exists_built hd').1, hleaves]
  intro l hl
  rw [hmoved, List.forall₂_map_right_iff, List.forall₂_same] at htexts
  exact (htexts l hl).2

theorem exists_sameSyntax_of_comments :
    ∃ d d' f g, parse (Bytes.ofText "domain D \x7b\x7d") = .ok d ∧
      parse (Bytes.ofText "/* a */domain // b\nD \x7b\x7d") = .ok d' ∧ SameSyntax d d' f g := by
  obtain ⟨d, hd⟩ := isOk_parse_iff.mp
    (show (parse (Bytes.ofText "domain D \x7b\x7d")).isOk = true by decide +kernel)
  have hleaves : d.root.bare.leaves = [⟨.keyword .kwDomain, 0, 6⟩, ⟨.identifier, 7, 8⟩,
      ⟨.punctuation .braceOpen, 9, 10⟩, ⟨.punctuation .braceClose, 10, 11⟩] := by
    have hall : (parse (Bytes.ofText "domain D \x7b\x7d")).toOption.map
        (fun d => d.root.bare.leaves) = some [⟨.keyword .kwDomain, 0, 6⟩, ⟨.identifier, 7, 8⟩,
          ⟨.punctuation .braceOpen, 9, 10⟩, ⟨.punctuation .braceClose, 10, 11⟩] := by
      decide +kernel
    rw [hd] at hall
    exact Option.some.inj hall
  have hblock : Bytes.ofText "/* a */" ∈ Token.comment.language :=
    mem_language_of_matchLength (by decide)
  have hline : Bytes.ofText "// b" ∈ Token.comment.language :=
    mem_language_of_matchLength (by decide)
  have hgap (rest : Bytes) :
      Trivia rest (32 :: (Bytes.ofText "// b" ++ Bytes.ofText "\n")) :=
    .space rfl (.comment hline (fun _ b hb => (Option.some.inj hb).symm) (.space rfl .nil))
  have hblank (rest : Bytes) : Trivia rest [32] := .space rfl .nil
  have hfirst (rest : Bytes) : Trivia rest (Bytes.ofText "/* a */" ++ []) :=
    .comment hblock (fun h => absurd h (by decide)) .nil
  obtain ⟨text, htext, rfl⟩ : ∃ text,
      Respaced (Bytes.ofText "domain D \x7b\x7d") d.root.bare.leaves text ∧
        text = Bytes.ofText "domain // b\nD \x7b\x7d" := by
    rw [hleaves]
    refine ⟨_, .cons (hgap _) ?_ (by simp) (.cons (hblank _) ?_ (by simp)
      (.cons .nil (by simp) (by simp) (.cons .nil (by simp) (by simp) .nil))), ?_⟩
    all_goals decide +kernel
  obtain ⟨d', f, g, hd', hsame⟩ :=
    exists_sameSyntax_of_respaced _ d hd _ _ (hfirst _) htext
  exact ⟨d, d', f, g, hd, hd', hsame⟩

end Document

end HeyVL
