import HeyVL.Proofs.Expectation.Language
import Mathlib.Data.List.Induction

namespace HeyVL

open Grammar

open Item (mark word) in
/-- The items that a source can lead to: only some phrases are optional or repeated, and no
operator is a phrase of its own. -/
def Item.occurs : Item → Bool
  | .leaf _ .identifier | .leaf _ (.punctuation _) | .leaf _ (.keyword .kwElse) => true
  | .leaf _ _ => false
  | .maybe item =>
    item ∈ [mark .semicolon, .block (some .body), .initializer, .annotationInputs]
  | .many item => item ∈ [.declaration, .specification, .domainItem, .blockStatement, .trigger]
  | .more _ item => item ∈ [word, .quantifierVariable, .parameter, .expression none]
  | .series item => item ∈ [.parameter, .expression none]
  | _ => true

theorem Layout.all_occurs {c : Category} {l : Layout} (h : of? c = some l) :
    l.items.all Item.occurs = true := by
  cases c <;> simp only [of?, Option.some.injEq, reduceCtorEq] at h <;> subst h <;> rfl

theorem Move.Opens.all_occurs {cs : List Category} {role : Option Field} {t : Token} {m : Move}
    (h : m.Opens cs role t) : m.after.all Item.occurs = true := by
  obtain ⟨c, -, l, hl, -, rfl⟩ := h
  rw [opening, List.all_append, Layout.all_occurs hl]
  rfl

namespace Item

variable {item : Item} {t : Token} {m : Move} {role : Option Field}

theorem occurs_of_startOperand (h : startOperand role t = some m) :
    m.after.all occurs = true := by
  obtain ⟨-, rfl⟩ | hopens := startOperand_cases h
  · rfl
  · exact hopens.all_occurs

theorem occurs_of_startExpression (h : startExpression role t = some m) :
    m.after.all occurs = true := by
  obtain ⟨m', hm', rfl⟩ := Option.map_eq_some_iff.mp h
  rw [Move.followedBy, List.all_append, occurs_of_startOperand hm']
  rfl

theorem occurs_of_startStatement (h : startStatement role t = some m) :
    m.after.all occurs = true := by
  obtain ⟨-, rfl⟩ | ⟨-, rfl⟩ | hopens := startStatement_cases h
  · rfl
  · rfl
  · exact hopens.all_occurs

theorem occurs_of_startIfTail (h : startIfTail role t = some m) :
    m.after.all occurs = true := by
  unfold startIfTail at h
  split at h
  case h_5 =>
    obtain ⟨m', hm', rfl⟩ := Option.map_eq_some_iff.mp h
    rw [Move.followedBy, List.all_append, occurs_of_startExpression hm']
    rfl
  all_goals
    cases h
    rfl

theorem occurs_of_maybe (h : (Item.maybe item).occurs = true) : item.occurs = true := by
  simp only [occurs, List.mem_cons, List.not_mem_nil, or_false, decide_eq_true_eq] at h
  obtain rfl | rfl | rfl | rfl := h <;> rfl

theorem occurs_of_many (h : (Item.many item).occurs = true) : item.occurs = true := by
  simp only [occurs, List.mem_cons, List.not_mem_nil, or_false, decide_eq_true_eq] at h
  obtain rfl | rfl | rfl | rfl | rfl := h <;> rfl

theorem occurs_of_more (h : (Item.more role item).occurs = true) : item.occurs = true := by
  simp only [occurs, List.mem_cons, List.not_mem_nil, or_false, decide_eq_true_eq] at h
  obtain rfl | rfl | rfl | rfl := h <;> rfl

theorem occurs_of_series (h : (Item.series item).occurs = true) :
    item.occurs = true ∧ (Item.more none item).occurs = true := by
  simp only [occurs, List.mem_cons, List.not_mem_nil, or_false, decide_eq_true_eq] at h
  obtain rfl | rfl := h <;> exact ⟨rfl, rfl⟩

theorem occurs_of_start (hitem : item.occurs = true) (h : item.start t = some m) :
    m.after.all occurs = true := by
  induction item generalizing m with
  | leaf role token =>
    rw [start, Option.ite_none_right_eq_some] at h
    obtain ⟨-, h⟩ := h
    cases h
    rfl
  | leave role c => cases h
  | maybe item ih => exact ih (occurs_of_maybe hitem) h
  | many item ih =>
    obtain ⟨m', hm', rfl⟩ := Option.map_eq_some_iff.mp h
    rw [Move.followedBy, List.all_append, ih (occurs_of_many hitem) hm', List.all_cons, hitem]
    rfl
  | more role item ih =>
    rw [start, Option.ite_none_right_eq_some] at h
    obtain ⟨-, h⟩ := h
    cases h
    rw [List.all_cons, List.all_cons, occurs_of_more hitem, hitem]
    rfl
  | series item ih =>
    obtain ⟨m', hm', rfl⟩ := Option.map_eq_some_iff.mp h
    obtain ⟨hinner, hmore⟩ := occurs_of_series hitem
    rw [Move.followedBy, List.all_append, ih hinner hm', List.all_cons, hmore]
    rfl
  | declaration =>
    obtain hopens | ⟨-, rfl⟩ | ⟨-, rfl⟩ := startDeclaration_cases h
    · exact hopens.all_occurs
    · rfl
    · rfl
  | specification => exact (opens_of_startSpecification h).all_occurs
  | domainItem => exact (opens_of_startDomainItem h).all_occurs
  | type role => exact (opens_of_startType h).all_occurs
  | block role => exact (opens_of_startBlock h).all_occurs
  | statement role => exact occurs_of_startStatement h
  | blockStatement =>
    obtain ⟨m', hm', rfl⟩ := Option.map_eq_some_iff.mp h
    rw [Move.followedBy, List.all_append, occurs_of_startStatement hm']
    rfl
  | ifTail role => exact occurs_of_startIfTail h
  | expression role => exact occurs_of_startExpression h
  | operand role => exact occurs_of_startOperand h
  | operators role level =>
    rw [start, startOperators.eq_def] at h
    split at h
    · rw [Option.ite_none_right_eq_some] at h
      obtain ⟨-, h⟩ := h
      cases h
      rfl
    · cases h
  | nameTail role =>
    rw [start, startNameTail.eq_def] at h
    split at h <;> cases h <;> rfl
  | direction | functionBody | parameters | parameter | initializer | annotationInputs
  | callTail | quantifierVariable | trigger =>
    simp only [start] at h
    split at h <;> cases h <;> rfl

theorem head_after_div (hitem : item.occurs = true) (h : item.start (.binary .div) = some m) :
    m.after.head? = some (.operand none) := by
  cases item with
  | leaf role token =>
    rw [start, Option.ite_none_right_eq_some] at h
    rw [← h.1] at hitem
    cases hitem
  | maybe item =>
    simp only [occurs, List.mem_cons, List.not_mem_nil, or_false, decide_eq_true_eq] at hitem
    obtain rfl | rfl | rfl | rfl := hitem <;> cases h
  | many item =>
    simp only [occurs, List.mem_cons, List.not_mem_nil, or_false, decide_eq_true_eq] at hitem
    obtain rfl | rfl | rfl | rfl | rfl := hitem <;> cases h
  | series item =>
    simp only [occurs, List.mem_cons, List.not_mem_nil, or_false, decide_eq_true_eq] at hitem
    obtain rfl | rfl := hitem <;> cases h
  | operators role level =>
    rw [start, startOperators.eq_def, Option.ite_none_right_eq_some] at h
    obtain ⟨-, h⟩ := h
    cases h
    rfl
  | _ => cases h

end Item

namespace Expectation

variable {todo rest : Expectation} {item : Item} {m : Move} {t : Token} {us : List Token}

/-- What holds of a whole source and is preserved by every token holds behind all tokens. -/
theorem of_after? {motive : Expectation → Prop} (source : motive .source)
    (step : ∀ todo t m, motive todo → todo.advance t = some m → motive m.after)
    (h : Expectation.source.after? us = some todo) : motive todo := by
  induction us using List.reverseRecOn generalizing todo with
  | nil =>
    obtain rfl := Option.some.inj h
    exact source
  | append_singleton us t ih =>
    rw [after?_append] at h
    obtain ⟨before, hbefore, hlast⟩ := Option.bind_eq_some_iff.mp h
    obtain ⟨m, hm, hafter⟩ := Option.bind_eq_some_iff.mp hlast
    obtain rfl := Option.some.inj hafter
    exact step before t m (ih hbefore) hm

theorem exists_start_of_advance (h : todo.advance t = some m) :
    ∃ skipped item rest m', todo = skipped ++ item :: rest ∧ skipped.all Item.optional = true ∧
      item.start t = some m' ∧ m.after = m'.after ++ rest := by
  induction todo generalizing m with
  | nil => cases h
  | cons first todo ih =>
    rw [advance] at h
    split at h
    · next m' hstart =>
      obtain rfl := Option.some.inj h
      exact ⟨[], first, todo, m', rfl, rfl, hstart, rfl⟩
    · next hnone =>
      split at h
      · next hoptional =>
        obtain ⟨m₀, hm₀, rfl⟩ := Option.map_eq_some_iff.mp h
        obtain ⟨skipped, item, rest, m', rfl, hskipped, hstart, hafter⟩ := ih hm₀
        refine ⟨first :: skipped, item, rest, m', rfl, ?_, hstart, hafter⟩
        rw [List.all_cons, hoptional, hskipped]
        rfl
      · cases h

theorem occurs_of_advance (htodo : todo.all Item.occurs = true) (h : todo.advance t = some m) :
    m.after.all Item.occurs = true := by
  obtain ⟨skipped, item, rest, m', rfl, -, hstart, hafter⟩ := exists_start_of_advance h
  rw [List.all_append, List.all_cons, Bool.and_eq_true, Bool.and_eq_true] at htodo
  rw [hafter, List.all_append, Item.occurs_of_start htodo.2.1 hstart, htodo.2.2]
  rfl

theorem occurs_of_after? (h : source.after? us = some todo) : todo.all Item.occurs = true :=
  of_after? (motive := fun todo => todo.all Item.occurs = true) rfl
    (fun _ _ _ => occurs_of_advance) h

end Expectation

/-- No product can begin behind a division sign, so that the two are never read as a comment that
is not closed. -/
theorem Grammar.not_viable_mul (us : List Token) :
    ¬ Viable (us ++ [.binary .div]) (.binary .mul) := by
  rintro ⟨vs, hvs⟩
  rw [List.append_assoc] at hvs
  obtain ⟨todo, htodo, hrest⟩ := Expectation.exists_after?_of_derivable hvs
  rw [List.singleton_append, Expectation.after?, Option.any_bind] at hrest
  obtain ⟨m, hm, hafter⟩ := (Option.any_eq_true _ _).mp hrest
  obtain ⟨skipped, item, rest, m', rfl, -, hstart, hm'⟩ := Expectation.exists_start_of_advance hm
  have hoccurs := Expectation.occurs_of_after? htodo
  rw [List.all_append, List.all_cons, Bool.and_eq_true, Bool.and_eq_true] at hoccurs
  obtain ⟨items, hitems⟩ := List.head?_eq_some_iff.mp (Item.head_after_div hoccurs.2.1 hstart)
  rw [Function.comp_apply, hm', hitems] at hafter
  cases hafter

end HeyVL
