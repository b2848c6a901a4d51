import HeyVL.Grammar.Derivation

namespace HeyVL

namespace Production

variable {p q : Production} {ps qs : List Production}

theorem generates_seq_iff {w : List Token} :
    Generates (.seq p q) w ↔ ∃ u v, Generates p u ∧ Generates q v ∧ u ++ v = w := by
  constructor
  · intro h
    cases h with
    | seq hp hq => exact ⟨_, _, hp, hq, rfl⟩
  · rintro ⟨u, v, hp, hq, rfl⟩
    exact .seq hp hq

theorem generates_choice_iff {w : List Token} :
    Generates (.choice p q) w ↔ Generates p w ∨ Generates q w := by
  constructor
  · intro h
    cases h with
    | this h => exact .inl h
    | other h => exact .inr h
  · rintro (h | h)
    · exact .this h
    · exact .other h

theorem generates_field_iff {f : Field} {w : List Token} :
    Generates (.field f p) w ↔ Generates p w := by
  constructor
  · intro h
    cases h with
    | field h => exact h
  · exact .field

theorem generates_empty_iff {w : List Token} : Generates .empty w ↔ w = [] := by
  constructor
  · intro h
    cases h
    rfl
  · rintro rfl
    exact .empty

theorem generates_token_iff {t : Token} {w : List Token} :
    Generates (.token t) w ↔ w = [t] := by
  constructor
  · intro h
    cases h
    rfl
  · rintro rfl
    exact .token t

theorem generates_oneOf_iff {w : List Token} :
    Generates (oneOf p ps) w ↔ ∃ q ∈ p :: ps, Generates q w := by
  induction ps generalizing p with
  | nil => simp [oneOf]
  | cons q qs ih => simp [oneOf, generates_choice_iff, ih]

theorem generates_inOrder_cons_iff {w : List Token} :
    Generates (inOrder (p :: ps)) w ↔
      ∃ u v, Generates p u ∧ Generates (inOrder ps) v ∧ u ++ v = w := by
  cases ps with
  | nil => simp [inOrder, generates_empty_iff]
  | cons q qs => exact generates_seq_iff

theorem generates_inOrder_append_iff {w : List Token} :
    Generates (inOrder (ps ++ qs)) w ↔
      ∃ u v, Generates (inOrder ps) u ∧ Generates (inOrder qs) v ∧ u ++ v = w := by
  induction ps generalizing w with
  | nil => simp [inOrder, generates_empty_iff]
  | cons p ps ih =>
    simp only [List.cons_append, generates_inOrder_cons_iff, ih]
    constructor
    · rintro ⟨u, _, hp, ⟨v, x, hv, hx, rfl⟩, rfl⟩
      exact ⟨u ++ v, x, ⟨u, v, hp, hv, rfl⟩, hx, by simp⟩
    · rintro ⟨_, x, ⟨u, v, hp, hv, rfl⟩, hx, rfl⟩
      exact ⟨u, v ++ x, hp, ⟨v, x, hv, hx, rfl⟩, by simp⟩

theorem generates_many_iff {w : List Token} :
    Generates (.many p) w ↔ ∃ parts : List (List Token), (∀ u ∈ parts, Generates p u) ∧
      parts.flatten = w := by
  constructor
  · intro h
    generalize hm : Production.many p = m at h
    induction h with
    | none => exact ⟨[], by simp, rfl⟩
    | again hu hv _ ih =>
      cases hm
      obtain ⟨parts, hparts, rfl⟩ := ih rfl
      exact ⟨_ :: parts, by simpa using ⟨hu, hparts⟩, rfl⟩
    | _ => cases hm
  · rintro ⟨parts, hparts, rfl⟩
    induction parts with
    | nil => exact .none p
    | cons u parts ih =>
      exact .again (hparts u (by simp)) (ih fun v hv => hparts v (by simp [hv]))

theorem expands_empty_iff {w : List Label} : Expands .empty w ↔ w = [] := by
  constructor
  · intro h
    cases h
    rfl
  · rintro rfl
    exact .empty

theorem expands_token_iff {t : Token} {w : List Label} :
    Expands (.token t) w ↔ w = [(none, .token t)] := by
  constructor
  · intro h
    cases h
    rfl
  · rintro rfl
    exact .token t

theorem expands_visible_iff {c : Category} {w : List Label} :
    Expands (.symbol (.visible c)) w ↔ w = [(none, .category c)] := by
  constructor
  · intro h
    cases h
    rfl
  · rintro rfl
    exact .visible c

theorem expands_hidden_iff {h : Hidden} {w : List Label} :
    Expands (.symbol (.hidden h)) w ↔ Expands h.production w := by
  constructor
  · intro hw
    cases hw with
    | hidden hw => exact hw
  · exact .hidden

theorem expands_seq_iff {w : List Label} :
    Expands (.seq p q) w ↔ ∃ u v, Expands p u ∧ Expands q v ∧ u ++ v = w := by
  constructor
  · intro h
    cases h with
    | seq hp hq => exact ⟨_, _, hp, hq, rfl⟩
  · rintro ⟨u, v, hp, hq, rfl⟩
    exact .seq hp hq

theorem expands_choice_iff {w : List Label} :
    Expands (.choice p q) w ↔ Expands p w ∨ Expands q w := by
  constructor
  · intro h
    cases h with
    | this h => exact .inl h
    | other h => exact .inr h
  · rintro (h | h)
    · exact .this h
    · exact .other h

theorem expands_field_iff {f : Field} {w : List Label} :
    Expands (.field f p) w ↔ ∃ u, Expands p u ∧ u.map (fun label => (some f, label.2)) = w := by
  constructor
  · intro h
    cases h with
    | field h => exact ⟨_, h, rfl⟩
  · rintro ⟨u, h, rfl⟩
    exact .field h

theorem expands_prec_iff {s : Associativity} {n : Nat} {w : List Label} :
    Expands (.prec s n p) w ↔ Expands p w := by
  constructor
  · intro h
    cases h with
    | prec h => exact h
  · exact .prec

theorem expands_oneOf_iff {w : List Label} :
    Expands (oneOf p ps) w ↔ ∃ q ∈ p :: ps, Expands q w := by
  induction ps generalizing p with
  | nil => simp [oneOf]
  | cons q qs ih => simp [oneOf, expands_choice_iff, ih]

theorem expands_oneOf_map_iff {α : Type} {f : α → Production} {g : α → Label}
    (h : ∀ x w, Expands (f x) w ↔ w = [g x]) {a : α} {as : List α} {w : List Label} :
    Expands (oneOf (f a) (as.map f)) w ↔ ∃ x ∈ a :: as, w = [g x] := by
  rw [expands_oneOf_iff, ← List.map_cons]
  constructor
  · rintro ⟨_, hq, hw⟩
    obtain ⟨x, hx, rfl⟩ := List.mem_map.mp hq
    exact ⟨x, hx, (h x w).mp hw⟩
  · rintro ⟨x, hx, hw⟩
    exact ⟨f x, List.mem_map_of_mem hx, (h x w).mpr hw⟩

theorem expands_inOrder_cons_iff {w : List Label} :
    Expands (inOrder (p :: ps)) w ↔
      ∃ u v, Expands p u ∧ Expands (inOrder ps) v ∧ u ++ v = w := by
  cases ps with
  | nil => simp [inOrder, expands_empty_iff]
  | cons q qs => exact expands_seq_iff

theorem expands_many_iff {w : List Label} :
    Expands (.many p) w ↔ ∃ parts : List (List Label), (∀ u ∈ parts, Expands p u) ∧
      parts.flatten = w := by
  constructor
  · intro h
    generalize hm : Production.many p = m at h
    induction h with
    | none => exact ⟨[], by simp, rfl⟩
    | again hu hv _ ih =>
      cases hm
      obtain ⟨parts, hparts, rfl⟩ := ih rfl
      exact ⟨_ :: parts, by simpa using ⟨hu, hparts⟩, rfl⟩
    | _ => cases hm
  · rintro ⟨parts, hparts, rfl⟩
    induction parts with
    | nil => exact .none p
    | cons u parts ih =>
      exact .again (hparts u (by simp)) (ih fun v hv => hparts v (by simp [hv]))

end Production

end HeyVL
