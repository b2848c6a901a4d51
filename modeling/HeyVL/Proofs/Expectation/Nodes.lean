import HeyVL.Proofs.Expectation.Parts

namespace HeyVL

open Production

namespace Production

variable {p q : Production} {f : Field} {w : List Label}

theorem expands_field_seq (h : Expands (.field f (.seq p q)) w) :
    Expands (.seq (.field f p) (.field f q)) w := by
  obtain ⟨_, hu, rfl⟩ := expands_field_iff.mp h
  obtain ⟨u, v, hp, hq, rfl⟩ := expands_seq_iff.mp hu
  rw [List.map_append]
  exact .seq (.field hp) (.field hq)

/-- A field of a list is on each element and each comma. -/
theorem expands_field_many (h : Expands (.field f (.many (.seq p q))) w) :
    Expands (.many (.seq (.field f p) (.field f q))) w := by
  obtain ⟨_, hu, rfl⟩ := expands_field_iff.mp h
  obtain ⟨parts, hparts, rfl⟩ := expands_many_iff.mp hu
  rw [List.map_flatten]
  refine expands_many_iff.mpr ⟨_, fun v hv => ?_, rfl⟩
  obtain ⟨u, hu, rfl⟩ := List.mem_map.mp hv
  exact expands_field_seq (.field (hparts u hu))

theorem expands_field_maybe (h : Expands (.field f (.maybe p)) w) :
    Expands (.maybe (.field f p)) w := by
  obtain ⟨_, hu, rfl⟩ := expands_field_iff.mp h
  rcases expands_choice_iff.mp hu with hu | hu
  · exact .this (.field hu)
  · obtain rfl := expands_empty_iff.mp hu
    exact .other .empty

end Production

theorem Layout.expands_production {c : Category} {l : Layout} {w : List Label}
    (hl : of? c = some l) (h : Expands c.production w) : Expands l.production w := by
  cases c <;> simp only [of?, Option.some.injEq, reduceCtorEq] at hl <;> subst hl
  case quantifierExpression =>
    obtain ⟨u, _, hu, hbehind, rfl⟩ := expands_seq_iff.mp (expands_prec_iff.mp h)
    obtain ⟨v, x, hv, hx, rfl⟩ := expands_seq_iff.mp hbehind
    obtain ⟨y, z, hy, hz, rfl⟩ := expands_seq_iff.mp (expands_field_seq hv)
    rw [List.append_assoc]
    exact .seq hu (.seq hy (.seq (expands_field_many hz) hx))
  case unaryExpression => exact expands_prec_iff.mp h
  case iversonExpression => exact expands_prec_iff.mp h
  all_goals exact h

namespace Expectation

variable {items rest : Expectation} {ts : List Tree}

theorem reads (items : Expectation) (hregular : isRegular items = true) (htrees : ∀ t ∈ ts, t.IsRead)
    (h : Expands (phrase items) (ts.map Tree.label)) : Reads items ts := by
  induction items generalizing ts with
  | nil =>
    obtain rfl := List.map_eq_nil_iff.mp (expands_empty_iff.mp h)
    exact reads_nil
  | cons item rest ih =>
    simp only [isRegular, Bool.and_eq_true] at hregular
    obtain ⟨⟨hitem, hrest⟩, hdisjoint⟩ := hregular
    obtain ⟨us, vs, rfl, hus, hvs⟩ := split_of_expands_inOrder h
    refine reads_cons (item.reads hitem (fun t ht => htrees t (by simp [ht])) hus)
      (ih hrest (fun t ht => htrees t (by simp [ht])) hvs) fun t ht => ?_
    simpa [ht] using Token.forall_of_all hdisjoint t

theorem Reads.build?_leave (h : Reads items ts) (role : Option Field) (c : Category)
    (first children : List Tree) (outer : Builder) {ls : List Lexeme}
    (hls : ∀ l ∈ ls.head?, continues items l.token = false) :
    build? ((items ++ [.leave role c]) ++ rest) (first :: children :: outer)
        (Tree.leavesOfList ts ++ ls) =
      build? rest ((children ++ [.node role c (first ++ ts)]) :: outer) ls := by
  rw [List.append_assoc, h _ _ _ _ hls, List.cons_append, Expectation.build?_leave]
  rfl

theorem build?_node {item : Item} {c : Category} {l : Layout} {role : Option Field}
    (hl : Layout.of? c = some l)
    (hstart : ∀ t ∈ l.tokens, item.start t = some (.opening c role l.role l.items))
    (hregular : isRegular l.items = true) (htrees : ∀ t ∈ ts, t.IsRead)
    (h : Expands c.production (ts.map Tree.label)) (children : List Tree) (outer : Builder)
    {ls : List Lexeme} (hls : ∀ x ∈ ls.head?, continues l.items x.token = false) :
    build? (item :: rest) (children :: outer) (Tree.leavesOfList ts ++ ls) =
      build? rest ((children ++ [.node role c ts]) :: outer) ls := by
  obtain ⟨us, vs, rfl, hus, hvs⟩ :=
    split_of_expands_inOrder (Layout.expands_production hl h)
  obtain ⟨x, hx, rfl⟩ := Layout.eq_leaf_of_expands_head hus
  have hitems := reads _ hregular (fun t ht => htrees t (by simp [ht])) hvs
  exact (build?_shift (hstart _ hx)).trans
    (hitems.build?_leave role c [.leaf l.role x] children outer hls)

end Expectation

end HeyVL
