import HeyVL.Proofs.Document.Trivia
import HeyVL.Proofs.Expectation.Positions
import HeyVL.Proofs.Token.Respelling

namespace HeyVL

open Token Grammar Lexeme

namespace Lexeme

/-- Where an offset is when the text of the lexeme is replaced by `w`. -/
def shift (l : Lexeme) (w : Bytes) (n : Nat) : Nat :=
  if n ≤ l.start then n else n - (l.stop - l.start) + w.length

variable {l k : Lexeme} {ls us ms vs : List Lexeme} {w : Bytes} {n : Nat}

theorem InOrder.between (h : InOrder (us ++ k :: (ms ++ l :: vs))) :
    k.start < k.stop ∧ k.stop ≤ l.start ∧ l.start < l.stop :=
  ⟨h.nonempty k (by simp), (inOrder_cons_iff.mp (inOrder_append_iff.mp h).2.1).2.2 l (by simp),
    h.nonempty l (by simp)⟩

theorem shift_of_le (h : n ≤ l.start) : l.shift w n = n := if_pos h

theorem shift_of_ge (hl : l.start < l.stop) (h : l.stop ≤ n) :
    l.shift w n = l.start + w.length + (n - l.stop) := by
  rw [shift, if_neg (by omega)]
  omega

theorem drop_splice_shift {source : Bytes} (hl : l.start < l.stop) (hstop : l.stop ≤ source.length)
    (hn : l.stop ≤ n) : (source.splice l.start l.stop w).drop (l.shift w n) = source.drop n := by
  rw [shift_of_ge hl hn, Bytes.drop_splice_of_ge (hl.le.trans hstop) hn]

theorem getElem?_splice_shift {source : Bytes} (hl : l.start < l.stop)
    (hstop : l.stop ≤ source.length) (hn : n < l.start ∨ l.stop ≤ n) :
    (source.splice l.start l.stop w)[l.shift w n]? = source[n]? := by
  rcases hn with hn | hn
  · have htake : (source.splice l.start l.stop w).take l.start = source.take l.start :=
      Bytes.take_splice_of_le (Nat.le_refl l.start) (hl.le.trans hstop)
    rw [shift_of_le hn.le, ← List.getElem?_take_of_lt hn, htake, List.getElem?_take_of_lt hn]
  · have hdrop := drop_splice_shift (w := w) hl hstop hn
    rw [← Nat.add_zero n, ← List.getElem?_drop, ← hdrop, List.getElem?_drop, Nat.add_zero]
    rfl

theorem exists_shift (hl : l.start < l.stop) (hn : ¬ (l.start ≤ n ∧ n < l.start + w.length)) :
    ∃ m, (m < l.start ∨ l.stop ≤ m) ∧ l.shift w m = n := by
  by_cases hlt : n < l.start
  · exact ⟨n, .inl hlt, shift_of_le hlt.le⟩
  · refine ⟨l.stop + (n - (l.start + w.length)), .inr (Nat.le_add_right _ _), ?_⟩
    rw [shift_of_ge hl (Nat.le_add_right _ _)]
    omega

/-- The offsets that are not inside the lexeme. -/
def outside (l : Lexeme) : Set Nat := {n | n ≤ l.start ∨ l.stop ≤ n}

theorem strictMonoOn_shift (hl : l.start < l.stop) (hw : 0 < w.length) :
    StrictMonoOn (l.shift w) l.outside := by
  rintro m (hm | hm) n (hn | hn) hlt
  · rwa [shift_of_le hm, shift_of_le hn]
  · rw [shift_of_le hm, shift_of_ge hl hn]
    omega
  · omega
  · rw [shift_of_ge hl hm, shift_of_ge hl hn]
    omega

theorem InOrder.areAt_outside (h : InOrder ls) (hl : l ∈ ls) : AreAt l.outside ls := by
  intro k hk
  have hlpos := h.nonempty l hl
  have hkpos := h.nonempty k hk
  by_cases hne : k = l
  · subst hne
    exact ⟨.inl (Nat.le_refl _), .inr (Nat.le_refl _)⟩
  · rcases h.apart_of_mem hk hl hne with hbefore | hbehind
    · exact ⟨.inl (by omega), .inl hbefore⟩
    · exact ⟨.inr hbehind, .inr (by omega)⟩

end Lexeme

namespace Document

variable {d : Document} {source : Bytes} {k l : Lexeme} {w : Bytes} {ls us ms vs : List Lexeme}
  {ts : List Tree}

theorem LexesTo.taken_slice (h : LexesTo source (us ++ l :: vs) []) :
    Taken (Viable (tokensOf us)) (source.slice l.start l.stop ++ source.drop l.stop) l.token
      (source.slice l.start l.stop).length := by
  have hpos := (Lexes.inOrder h).nonempty l (by simp)
  rw [← Bytes.drop_eq_slice_append source hpos.le,
    Bytes.length_slice _ _ (h.within l (by simp)).2]
  exact h.exists_taken.1

theorem LexesTo.taken_before (hclass : l.token.isClass = true) (hw : w ∈ l.token.language)
    (h : LexesTo source (us ++ k :: (ms ++ l :: vs)) []) :
    Taken (Viable (tokensOf us)) ((source.splice l.start l.stop w).drop (l.shift w k.start)) k.token
      (l.shift w k.stop - l.shift w k.start) := by
  obtain ⟨hk, hle, hl⟩ := (Lexes.inOrder h).between
  rw [shift_of_le hle, shift_of_le (hk.le.trans hle)]
  have hwithin := h.within l (by simp)
  have hlength := Bytes.length_slice source k.start (hl.le.trans hwithin.2)
  have htaken := h.exists_taken.1
  obtain ⟨b₀, x₀, heq₀, hb₀, -⟩ : ∃ b rest, source.drop l.start = b :: rest ∧
      l.token.begins b = true ∧ 0 < _ := by
    have hsplit : us ++ k :: (ms ++ l :: vs) = (us ++ k :: ms) ++ l :: vs := by simp
    rw [hsplit] at h
    exact exists_begins h.exists_taken.1.stands.text
  obtain ⟨b, x, heq, hb, -⟩ := exists_begins (matches_append_of_mem hw (source.drop l.stop))
  rw [Bytes.drop_eq_slice_append source (hk.le.trans hle), heq₀] at htaken
  rw [Bytes.drop_splice_of_le (hk.le.trans hle) (hl.le.trans hwithin.2), heq]
  refine htaken.of_append_begins hclass hb hb₀ (by omega) ?_ ?_
  · rintro ⟨hat, hsign | hsign⟩
    · exact not_viable_wordSign hat rfl hsign
    · exact not_viable_wordSign hat rfl hsign
  · intro hdiv hstar
    apply h.not_star hdiv
    have hdrop : (source.slice k.start l.start).drop (k.stop - k.start) =
        source.slice k.stop l.start := by
      rw [Bytes.slice, Bytes.slice, List.drop_take, List.drop_drop, Nat.add_sub_cancel' hk.le]
      congr 1
      omega
    rw [hdrop] at hstar
    rw [Bytes.drop_eq_slice_append source hle, List.head?_append, hstar]
    rfl

theorem LexesTo.isSpace_respelled (h : LexesTo source ls []) (hl : l ∈ ls) (hw : 0 < w.length)
    {i : Nat} {b : UInt8} (hmark : markLength source ≤ i)
    (hi : (source.splice l.start l.stop w)[i]? = some b)
    (hnone : ∀ m ∈ ls.map (Lexeme.moved (l.shift w) (l.shift w)), ¬ (m.start ≤ i ∧ i < m.stop)) :
    Bytes.isSpace b = true := by
  have horder := Lexes.inOrder h
  have hpos := horder.nonempty l hl
  have hwithin := h.within l hl
  have hf := strictMonoOn_shift hpos hw
  have hold : ¬ (l.start ≤ i ∧ i < l.start + w.length) := by
    have hnot := hnone _ (List.mem_map_of_mem hl)
    simpa only [Lexeme.moved, shift_of_le (Nat.le_refl _), shift_of_ge hpos (Nat.le_refl _),
      Nat.sub_self, Nat.add_zero] using hnot
  obtain ⟨j, hj, rfl⟩ := exists_shift hpos hold
  have hplace : j ∈ l.outside := hj.imp Nat.le_of_lt id
  rw [getElem?_splice_shift hpos hwithin.2 hj] at hi
  refine (h.isSpace_of_uncovered hi fun k hk hcovered => ?_).resolve_right ?_
  · obtain ⟨hstart, hstop⟩ := horder.areAt_outside hl k hk
    exact hnone _ (List.mem_map_of_mem hk)
      ⟨(hf.le_iff_le hstart hplace).mpr hcovered.1, (hf.lt_iff_lt hplace hstop).mpr hcovered.2⟩
  · rcases hj with hj | hj
    · rw [shift_of_le hj.le] at hmark
      omega
    · omega

theorem LexesTo.taken_at (h : LexesTo source (us ++ l :: vs) [])
    (htaken : Taken (Viable (tokensOf us)) (w ++ source.drop l.stop) l.token w.length) :
    Taken (Viable (tokensOf us)) ((source.splice l.start l.stop w).drop (l.shift w l.start)) l.token
      (l.shift w l.stop - l.shift w l.start) := by
  have hpos := (Lexes.inOrder h).nonempty l (by simp)
  have hwithin := h.within l (by simp)
  rw [shift_of_le (Nat.le_refl _), shift_of_ge hpos (Nat.le_refl _),
    Bytes.drop_splice_of_le (Nat.le_refl _) (hpos.le.trans hwithin.2), Bytes.slice, Nat.sub_self,
    Nat.sub_self, Nat.add_zero, Nat.add_sub_cancel_left]
  exact htaken

theorem LexesTo.taken_behind (h : LexesTo source (us ++ l :: (ms ++ k :: vs)) []) :
    Taken (Viable (tokensOf (us ++ l :: ms)))
      ((source.splice l.start l.stop w).drop (l.shift w k.start)) k.token
      (l.shift w k.stop - l.shift w k.start) := by
  obtain ⟨hpos, hle, hkpos⟩ := (Lexes.inOrder h).between
  have hlength : l.shift w k.stop - l.shift w k.start = k.stop - k.start := by
    rw [shift_of_ge hpos hle, shift_of_ge hpos (hle.trans hkpos.le)]
    omega
  rw [drop_splice_shift hpos (h.within l (by simp)).2 hle, hlength]
  have hsplit : us ++ l :: (ms ++ k :: vs) = (us ++ l :: ms) ++ k :: vs := by simp
  rw [hsplit] at h
  exact h.exists_taken.1

/-- Where the text of a leaf is replaced by another one of its class that is taken in its place, the
lexemes are the same, moved. -/
theorem LexesTo.respelled (hclass : l.token.isClass = true) (hw : w ∈ l.token.language)
    (h : LexesTo source (us ++ l :: vs) [])
    (htaken : Taken (Viable (tokensOf us)) (w ++ source.drop l.stop) l.token w.length) :
    LexesTo (source.splice l.start l.stop w)
      ((us ++ l :: vs).map (Lexeme.moved (l.shift w) (l.shift w))) [] := by
  have horder := Lexes.inOrder h
  have hl : l ∈ us ++ l :: vs := by simp
  have hpos := horder.nonempty l hl
  have hwithin := h.within l hl
  have hlength := hpos.le.trans hwithin.2
  obtain ⟨_, _, -, -, hwpos⟩ := exists_begins htaken.stands.text
  have hf := strictMonoOn_shift hpos hwpos
  apply LexesTo.of_taken source
  · exact Bytes.take_splice_of_le hwithin.1 hlength
  · rw [Bytes.length_splice hlength]
    omega
  · exact horder.map_moved hf (horder.areAt_outside hl)
  · intro m hm
    obtain ⟨k, hk, rfl⟩ := List.mem_map.mp hm
    have hkmark := (h.within k hk).1
    show markLength source ≤ l.shift w k.start
    rcases (horder.areAt_outside hl k hk).1 with hle | hge
    · rwa [shift_of_le hle]
    · rw [shift_of_ge hpos hge]
      omega
  · intro us' m vs' hsplit
    obtain ⟨front, back, hfront, rfl, hback⟩ := List.map_eq_append_iff.mp hsplit
    obtain ⟨k, tail, rfl, rfl, rfl⟩ := List.map_eq_cons_iff.mp hback
    rw [tokensOf_map_moved]
    show Taken _ (List.drop (l.shift w k.start) _) k.token (l.shift w k.stop - l.shift w k.start)
    -- The lexeme is behind the leaf, the leaf itself or before it.
    rcases List.append_eq_append_iff.mp hfront with ⟨ms, rfl, hms⟩ | ⟨ms, rfl, hms⟩
    · cases ms with
      | nil =>
        obtain ⟨rfl, rfl⟩ := List.cons.inj hms
        rw [List.append_nil]
        exact h.taken_at htaken
      | cons a ms =>
        rw [List.cons_append] at hms
        obtain ⟨rfl, rfl⟩ := List.cons.inj hms
        exact h.taken_behind
    · cases ms with
      | nil =>
        obtain ⟨rfl, rfl⟩ := List.cons.inj hms
        rw [List.append_nil] at h htaken
        exact h.taken_at htaken
      | cons a ms =>
        rw [List.cons_append] at hms
        obtain ⟨rfl, rfl⟩ := List.cons.inj hms
        rw [List.append_assoc, List.cons_append] at h
        exact h.taken_before hclass hw
  · intro i b hmark hi hnone
    exact h.isSpace_respelled hl hwpos hmark hi hnone

/-- The words that no identifier in expression position may be. -/
def expressionWords : List String :=
  ["inf", "sup", "exists", "forall", "let", "ite", "true", "false"]

/-- The words that no identifier at the start of a statement may be. -/
def statementWords : List String :=
  ["var", "havoc", "cohavoc", "assert", "coassert", "assume", "coassume", "compare", "cocompare",
    "reward", "tick", "negate", "conegate", "validate", "covalidate", "if", "while", "label"]

/-- The text may take the place of that of the leaf: both are literals of a class, comments of a kind
or identifiers, and the new one is no word that is reserved there. -/
structure Respells (d : Document) (l : Lexeme) (w : Bytes) : Prop where
  isClass : l.token.isClass = true
  mem : w ∈ l.token.language
  line : l.token = .comment →
    ([47, 47] <+: w ↔ [47, 47] <+: d.source.slice l.start l.stop)
  expression : l.token = .identifier → d.root.bare.InExpression l →
    ∀ s ∈ expressionWords, w ≠ Bytes.ofText s
  statement : l.token = .identifier → d.root.bare.StartsStatement l →
    ∀ s ∈ statementWords, w ≠ Bytes.ofText s

section Spelling

variable {t : Token}

theorem exists_word {p : Token → Bool} {words : List String}
    (htable : Token.all.all (fun t => !p t || !t.isClass && t.texts.all words.contains) = true)
    (ht : p t = true) (hw : w ∈ t.language) : ∃ s ∈ words, w = Bytes.ofText s := by
  have hwords := forall_of_all htable t
  simp only [ht, Bool.not_true, Bool.false_or, Bool.and_eq_true, Bool.not_eq_true',
    List.all_eq_true, List.contains_iff_mem] at hwords
  have htext := matches_append_of_mem hw []
  rw [List.append_nil] at htext
  obtain ⟨s, hs, htake, -⟩ := exists_spelling hwords.1 htext
  exact ⟨s, hwords.2 s hs, by rwa [List.take_length] at htake⟩

theorem exists_expressionWord (ht : t.isExpressionWord = true) (hw : w ∈ t.language) :
    ∃ s ∈ expressionWords, w = Bytes.ofText s :=
  exists_word (by decide) ht hw

theorem exists_statementWord (ht : t.isStatementWord = true) (hw : w ∈ t.language) :
    ∃ s ∈ statementWords, w = Bytes.ofText s :=
  exists_word (by decide) ht hw

/-- No reserved word that could be read in the place of an identifier is its new text. -/
theorem Respells.notMem_language (h : d.Respells l w) (hbuilt : d.Built (us ++ l :: vs) ts)
    (hl : l.token = .identifier) (hreserved : t.isReserved = true)
    (ht : Viable (tokensOf us) t) : w ∉ t.language := by
  intro hw
  have hsignificant : significant (us ++ l :: vs) = significant us ++ l :: significant vs := by
    simp [significant, hl]
  have hleaves := hbuilt.leaves_eq.trans hsignificant
  have hnodup : (significant us ++ l :: significant vs).Nodup := by
    rw [← hsignificant]
    exact (Lexes.inOrder hbuilt.lexes).nodup.sublist List.filter_sublist
  obtain ⟨todo, b, hreads⟩ := Expectation.exists_readsUpTo hbuilt.isSyntax hleaves hnodup
  rcases hreads.position_of_viable hl hreserved ht with ⟨hword, hplace⟩ | ⟨hword, hplace⟩
  · rw [← hbuilt.bare_root] at hplace
    obtain ⟨s, hs, rfl⟩ := exists_expressionWord hword hw
    exact h.expression hl hplace s hs rfl
  · rw [← hbuilt.bare_root] at hplace
    obtain ⟨s, hs, rfl⟩ := exists_statementWord hword hw
    exact h.statement hl hplace s hs rfl

theorem Respells.taken (h : d.Respells l w) (hbuilt : d.Built (us ++ l :: vs) ts) :
    Taken (Viable (tokensOf us)) (w ++ d.source.drop l.stop) l.token w.length := by
  have hslice := hbuilt.lexes.taken_slice
  have hmem := h.mem
  have hclass := h.isClass
  cases htoken : l.token
  case identifier =>
    rw [htoken] at hslice hmem
    exact Taken.of_identifier hmem (fun t => h.notMem_language hbuilt htoken) hslice
  case integer | decimal =>
    rw [htoken] at hslice hmem
    exact Taken.of_number rfl hmem hslice
  case string =>
    rw [htoken] at hslice hmem
    exact taken_string hmem (hslice.stands.is_viable.resolve_left Token.noConfusion)
  case comment =>
    rw [htoken] at hslice hmem
    refine taken_comment hmem fun hline b hb => ?_
    refine (hslice.head_of_line ((h.line htoken).mp hline) b hb).resolve_right ?_
    rintro rfl
    exact hbuilt.lexes.exists_taken.2.ne_zero hb
  all_goals
    rw [htoken] at hclass
    cases hclass

end Spelling

/-- The documents have the same tree, with the same captures at its nodes, but for the places. -/
structure IsMoved (d d' : Document) (f : Nat → Nat) : Prop where
  root_eq : d'.root = d.root.moved f f
  capturesAt_eq : ∀ t ∈ d.root.subtrees, ∀ r number, (r, number) ∈ Highlight.rules.zipIdx →
    d'.capturesAt number r (t.moved f f) = (d.capturesAt number r t).map (Capture.moved f f)
  captures_eq : d'.captures = d.captures.map (Capture.moved f f)

theorem Built.isMoved {d' : Document} {f : Nat → Nat} {s : Set Nat} (h : d.Built ls ts)
    (h' : d'.Built (ls.map (Lexeme.moved f f)) (ts.map (Tree.moved f f))) (hf : StrictMonoOn f s)
    (hls : AreAt s ls) : d.IsMoved d' f := by
  have honly : onlyComments (ls.map (Lexeme.moved f f)) =
      (onlyComments ls).map (Lexeme.moved f f) := List.filter_map
  have hroot : d'.root = d.root.moved f f := by
    have hts : AreAt s (Tree.leavesOfList ts) := by
      rw [h.leaves_eq]
      exact fun l hl => hls l (mem_significant_iff.mp hl).1
    have hcs : AreAt s (onlyComments ls) := fun l hl => hls l (mem_onlyComments_iff.mp hl).1
    rw [h'.root_eq, h.root_eq, Tree.moved_node, honly,
      Tree.map_moved_placeAll hf (fun t => h.isSyntax.isFull_of_mem) hts hcs]
  refine ⟨hroot, fun t ht r number hr => capturesAt_moved h.isTidy d' ht hr, ?_⟩
  apply Document.captures_moved h.isTidy hroot
  rw [h.leaves_root]
  exact (Lexes.inOrder h.lexes).map_moved hf hls

theorem exists_isMoved_of_respelled (source : Bytes) (d : Document) (h : parse source = .ok d)
    (l : Lexeme) (hl : l ∈ d.root.leaves) (w : Bytes) (hw : d.Respells l w) :
    ∃ d', parse (source.splice l.start l.stop w) = .ok d' ∧ d.IsMoved d' (l.shift w) := by
  obtain ⟨rfl, ls, ts, hbuilt⟩ := exists_built h
  rw [hbuilt.leaves_root] at hl
  have horder := Lexes.inOrder hbuilt.lexes
  have hpos := horder.nonempty l hl
  have hplaces := horder.areAt_outside hl
  obtain ⟨us, vs, rfl⟩ := List.append_of_mem hl
  have htaken := hw.taken hbuilt
  obtain ⟨_, _, -, -, hwpos⟩ := exists_begins htaken.stands.text
  have hlexes := hbuilt.lexes.respelled hw.isClass hw.mem htaken
  obtain ⟨d', hd', hbuilt', -⟩ := hbuilt.moved hlexes List.filter_map
  exact ⟨d', hd', hbuilt.isMoved hbuilt' (strictMonoOn_shift hpos hwpos) hplaces⟩

/-- Behind an expression, `else` may begin the next statement. -/
theorem exists_isMoved_of_else :
    ∃ d d', parse (Bytes.ofText "proc f() -> () \x7bx = 1 y = 2\x7d") = .ok d ∧
      parse (Bytes.ofText "proc f() -> () \x7bx = 1 else = 2\x7d") = .ok d' ∧
      d.IsMoved d' (Lexeme.shift ⟨.identifier, 22, 23⟩ (Bytes.ofText "else")) := by
  obtain ⟨d, hd⟩ := isOk_parse_iff.mp
    (show (parse (Bytes.ofText "proc f() -> () \x7bx = 1 y = 2\x7d")).isOk = true by decide +kernel)
  have hleaf : ⟨.identifier, 22, 23⟩ ∈ d.root.leaves := by
    have hall : (parse (Bytes.ofText "proc f() -> () \x7bx = 1 y = 2\x7d")).toOption.any
        (fun d => d.root.leaves.contains ⟨.identifier, 22, 23⟩) = true := by
      decide +kernel
    rw [hd] at hall
    exact List.contains_iff_mem.mp hall
  have hword : Bytes.ofText "else" ∈ Token.identifier.language :=
    mem_language_of_matchLength (by decide)
  have hspells : d.Respells ⟨.identifier, 22, 23⟩ (Bytes.ofText "else") :=
    ⟨rfl, hword, Token.noConfusion, fun _ _ => by decide, fun _ _ => by decide⟩
  obtain ⟨d', hd', hmoved⟩ := exists_isMoved_of_respelled _ d hd _ hleaf _ hspells
  have hsource : (Bytes.ofText "proc f() -> () \x7bx = 1 y = 2\x7d").splice 22 23
      (Bytes.ofText "else") = Bytes.ofText "proc f() -> () \x7bx = 1 else = 2\x7d" := by
    decide
  rw [hsource] at hd'
  exact ⟨d, d', hd, hd', hmoved⟩

end Document

end HeyVL
