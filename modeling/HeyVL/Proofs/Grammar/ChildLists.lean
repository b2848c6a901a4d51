import HeyVL.Proofs.Grammar.Expansion

namespace HeyVL

namespace Production

/-- The labels in the child lists of a production, where those of the hidden nonterminals are
given. -/
def labelsWith (inner : Hidden → List Label) : Production → List Label
  | empty => []
  | token t => [(none, .token t)]
  | symbol (.visible c) => [(none, .category c)]
  | symbol (.hidden h) => inner h
  | seq p q | choice p q => p.labelsWith inner ++ q.labelsWith inner
  | many p | prec _ _ p => p.labelsWith inner
  | field f p => (p.labelsWith inner).map fun label => (some f, label.2)

/-- The labels in the child lists of a production. No hidden nonterminal mentions another one. -/
def labels : Production → List Label :=
  labelsWith fun h => h.production.labelsWith fun _ => []

theorem labels_hidden (h : Hidden) :
    h.production.labels = h.production.labelsWith fun _ => [] := by
  cases h <;> rfl

theorem Expands.mem_labels {p : Production} {w : List Label} (h : Expands p w) :
    ∀ x ∈ w, x ∈ p.labels := by
  have hseq {p q : Production} {u v : List Label} (hu : ∀ x ∈ u, x ∈ p.labels)
      (hv : ∀ x ∈ v, x ∈ q.labels) : ∀ x ∈ u ++ v, x ∈ p.labels ++ q.labels := by
    intro x hx
    rcases List.mem_append.mp hx with hx | hx
    · exact List.mem_append_left _ (hu x hx)
    · exact List.mem_append_right _ (hv x hx)
  induction h with
  | empty | none => simp
  | token | visible => simp [labels, labelsWith]
  | @hidden h w _ ih =>
    intro x hx
    have hmem := ih x hx
    rw [labels_hidden] at hmem
    exact hmem
  | seq _ _ ihp ihq => exact hseq ihp ihq
  | this _ ih => exact fun x hx => List.mem_append_left _ (ih x hx)
  | other _ ih => exact fun x hx => List.mem_append_right _ (ih x hx)
  | again _ _ ihp ihq =>
    intro x hx
    rcases List.mem_append.mp hx with hx | hx
    · exact ihp x hx
    · exact ihq x hx
  | field _ ih =>
    intro x hx
    obtain ⟨y, hy, rfl⟩ := List.mem_map.mp hx
    exact List.mem_map_of_mem (ih y hy)
  | prec _ ih => exact ih

def isNullable : Production → Bool
  | empty | many _ => true
  | token _ | symbol _ => false
  | seq p q => p.isNullable && q.isNullable
  | choice p q => p.isNullable || q.isNullable
  | field _ p | prec _ _ p => p.isNullable

theorem isNullable_hidden (h : Hidden) : h.production.isNullable = false := by
  cases h <;> rfl

theorem Expands.isNullable {p : Production} (h : Expands p []) : p.isNullable = true := by
  generalize hw : ([] : List Label) = w at h
  induction h with
  | empty | none => rfl
  | token | visible => cases hw
  | hidden _ ih =>
    have hempty := ih hw
    rw [isNullable_hidden] at hempty
    cases hempty
  | seq _ _ ihp ihq =>
    obtain ⟨hu, hv⟩ := List.append_eq_nil_iff.mp hw.symm
    simp [Production.isNullable, ihp hu.symm, ihq hv.symm]
  | this _ ih => simp [Production.isNullable, ih hw]
  | other _ ih => simp [Production.isNullable, ih hw]
  | again => rfl
  | field _ ih => exact ih (List.map_eq_nil_iff.mp hw.symm).symm
  | prec _ ih => exact ih hw

end Production

namespace Category

open Production

theorem isNullable_production {c : Category} (h : c ≠ .sourceFile) :
    c.production.isNullable = false := by
  cases c
  case sourceFile => exact absurd rfl h
  all_goals rfl

theorem ne_sourceFile_of_mem_labels {c : Category} {x : Label} (h : x ∈ c.production.labels) :
    x.2 ≠ .category .sourceFile := by
  have hall : Category.all.all (fun c => c.production.labels.all
      fun x => x.2 != .category .sourceFile) = true := by decide
  have hc := List.all_eq_true.mp (List.all_eq_true.mp hall c c.mem_all) x h
  simpa using hc

end Category

end HeyVL
