import HeyVL.Proofs.Expectation.Language
import HeyVL.Proofs.Tree.Grafting

namespace HeyVL

namespace Expectation

variable {items rest todo : Expectation} {b b' : Builder} {l : Lexeme} {ls us ys : List Lexeme}
  {children : List Tree} {outer : Builder}

theorem advance_append (items rest : Expectation) (t : Token) :
    advance (items ++ rest) t =
      ((advance items t).map fun m => m.followedBy rest).or
        ((finish? items).bind fun actions =>
          (advance rest t).map fun m => { m with before := actions ++ m.before }) := by
  induction items with
  | nil => simp [advance, finish?]
  | cons item items ih =>
    rw [List.cons_append, advance, advance, finish?]
    cases item.start t with
    | some m => simp [Move.followedBy]
    | none =>
      cases hoptional : item.optional with
      | false => simp
      | true =>
        rw [ih]
        cases advance items t with
        | some m => simp [Move.followedBy]
        | none => cases finish? items <;> simp [Function.comp_def]

theorem finish?_append (items rest : Expectation) :
    finish? (items ++ rest) =
      (finish? items).bind fun actions => (finish? rest).map (actions ++ ·) := by
  induction items with
  | nil => simp [finish?]
  | cons item items ih =>
    rw [List.cons_append, finish?, finish?, ih]
    cases item.optional <;> cases finish? items <;> cases finish? rest <;> simp

theorem exists_split (h : build? (items ++ rest) b ls = some b') :
    ∃ xs ys b₁, ls = xs ++ ys ∧ build? items b xs = some b₁ ∧ build? rest b₁ ys = some b' := by
  induction ls generalizing items b with
  | nil =>
    rw [build?, finish?_append] at h
    obtain ⟨actions, hactions, rfl⟩ := Option.map_eq_some_iff.mp h
    obtain ⟨first, hfirst, hrest⟩ := Option.bind_eq_some_iff.mp hactions
    obtain ⟨later, hlater, rfl⟩ := Option.map_eq_some_iff.mp hrest
    refine ⟨[], [], first.foldl Builder.act b, rfl, ?_, ?_⟩
    · rw [build?, hfirst]
      rfl
    · rw [build?, hlater, Option.map_some, List.foldl_append]
  | cons l ls ih =>
    rw [build?, advance_append] at h
    cases hm : advance items l.token with
    | some m =>
      rw [hm] at h
      obtain ⟨xs, ys, b₁, rfl, hfirst, hlater⟩ := ih h
      refine ⟨l :: xs, ys, b₁, rfl, ?_, hlater⟩
      rw [build?, hm]
      exact hfirst
    | none =>
      rw [hm, Option.map_none, Option.none_or] at h
      obtain ⟨m, hm, h⟩ := Option.bind_eq_some_iff.mp h
      obtain ⟨actions, hactions, hm⟩ := Option.bind_eq_some_iff.mp hm
      obtain ⟨m', hm', rfl⟩ := Option.map_eq_some_iff.mp hm
      refine ⟨[], l :: ls, actions.foldl Builder.act b, rfl, ?_, ?_⟩
      · rw [build?, hactions]
        rfl
      · rw [build?, hm', Option.bind_some]
        rwa [place, List.foldl_append] at h

theorem exists_trees (hregular : isRegular items = true) (hplain : (phrase items).isPlain = true)
    (hls : ∀ l ∈ ls, l.token ≠ .comment)
    (h : build? (items ++ rest) (children :: outer) ls = some b') :
    ∃ ts xs ys, ls = xs ++ ys ∧ build? rest ((children ++ ts) :: outer) ys = some b' := by
  obtain ⟨xs, ys, b₁, rfl, hitems, hrest⟩ := exists_split h
  have haccepts : accepts items (xs.map Lexeme.token) = true := by
    rw [← isSome_build? items (children :: outer), hitems]
    rfl
  obtain ⟨v, ts, hcovers⟩ := Tree.exists_covers (generates_of_accepts haccepts)
    fun l hl => hls l (by simp [hl])
  have hexpands := hcovers.expands.regroup hplain hcovers.regroups
  have hread := reads items hregular (fun t ht => (hcovers.isSyntax t ht).readable.isRead) hexpands
  have hbuild := hread [] children outer [] (by simp)
  rw [List.append_nil, List.append_nil, hcovers.leaves_eq, hitems] at hbuild
  obtain rfl := Option.some.inj hbuild
  exact ⟨ts, xs, ys, rfl, hrest⟩

theorem place_graft {m : Lexeme} (hl : l ≠ m) (u : Tree) (b : Builder) (mv : Move) :
    place (Builder.graft m u b) mv l = Builder.graft m u (place b mv l) := by
  rw [place, place, Builder.add_graft, Builder.foldl_act_graft, Tree.graft_leaf_of_ne hl]

/-- A run over other lexemes builds around a tree what it builds around a leaf in its place. -/
theorem build?_graft {m : Lexeme} (hm : m ∉ ls) (u : Tree) (todo : Expectation) (b : Builder) :
    build? todo (Builder.graft m u b) ls = (build? todo b ls).map (Builder.graft m u) := by
  induction ls generalizing todo b with
  | nil =>
    rw [build?, build?]
    cases todo.finish? <;> simp [Builder.foldl_act_graft]
  | cons l ls ih =>
    rw [List.mem_cons, not_or] at hm
    rw [build?, build?]
    cases todo.advance l.token with
    | none => rfl
    | some mv =>
      rw [Option.bind_some, Option.bind_some, place_graft (Ne.symm hm.1)]
      exact ih hm.2 _ _

theorem exists_builder (h : todo.after? (us.map Lexeme.token) = some rest) (b : Builder) :
    ∃ b', (∀ ls, build? todo b (us ++ ls) = build? rest b' ls) ∧ (b ≠ [] → b' ≠ []) ∧
      ∀ m u, m ∉ us → Builder.graft m u b = b → Builder.graft m u b' = b' := by
  induction us generalizing todo b with
  | nil =>
    obtain rfl := Option.some.inj h
    exact ⟨b, fun ls => rfl, fun hb => hb, fun m u _ hb => hb⟩
  | cons l us ih =>
    obtain ⟨mv, hmv, hafter⟩ := Option.bind_eq_some_iff.mp h
    obtain ⟨b', hbuild, hne, hgraft⟩ := ih hafter (place b mv l)
    refine ⟨b', fun ls => ?_, fun _ => hne (Builder.add_ne_nil _ _), fun m u hm hb => ?_⟩
    · rw [List.cons_append, build?, hmv, Option.bind_some]
      exact hbuild ls
    · rw [List.mem_cons, not_or] at hm
      refine hgraft m u hm.2 ?_
      rw [← place_graft (Ne.symm hm.1), hb]

theorem exists_grafted {m : Lexeme} {role : Option Field} {x : Tree} {ts : List Tree}
    (hb : ∀ u, Builder.graft m u b = b) (hm : m ∉ ys) (hx : x.role = role)
    (h : build? rest (b.add x) ys = some [ts]) :
    ∃ us : List Tree, ∀ u : Tree, u.role = role →
      build? rest (b.add u) ys = some [us.map (Tree.graft m u)] := by
  have hgraft (u : Tree) (hu : u.role = role) :
      build? rest (b.add u) ys =
        (build? rest (b.add (.leaf role m)) ys).map (Builder.graft m u) := by
    rw [← build?_graft hm, Builder.add_graft, hb, Tree.graft_leaf, ← hu, Tree.withRole_role]
  have hleaf := hgraft x hx
  rw [h] at hleaf
  obtain ⟨b₀, hb₀, hts⟩ := Option.map_eq_some_iff.mp hleaf.symm
  obtain ⟨us, rfl, -⟩ := List.map_eq_singleton_iff.mp hts
  exact ⟨us, fun u hu => by rw [hgraft u hu, hb₀]; rfl⟩

end Expectation

end HeyVL
