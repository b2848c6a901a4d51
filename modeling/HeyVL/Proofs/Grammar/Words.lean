import HeyVL.Proofs.Grammar.Expansion

namespace HeyVL

namespace Production

def isCommentFree : Production → Bool
  | token t => t != .comment
  | seq p q | choice p q => p.isCommentFree && q.isCommentFree
  | many p | field _ p | prec _ _ p => p.isCommentFree
  | _ => true

theorem isCommentFree_nonterminal (n : Nonterminal) : n.production.isCommentFree = true := by
  cases n with
  | visible c => cases c <;> rfl
  | hidden h => cases h <;> rfl

theorem Generates.ne_comment {p : Production} {w : List Token} (h : Generates p w)
    (hp : p.isCommentFree = true) : ∀ t ∈ w, t ≠ .comment := by
  induction h with
  | empty | none => simp
  | token t => simpa [isCommentFree] using hp
  | symbol _ ih => exact ih (isCommentFree_nonterminal _)
  | seq _ _ ihp ihq =>
    simp only [isCommentFree, Bool.and_eq_true] at hp
    intro t ht
    rcases List.mem_append.mp ht with ht | ht
    · exact ihp hp.1 t ht
    · exact ihq hp.2 t ht
  | this _ ih =>
    simp only [isCommentFree, Bool.and_eq_true] at hp
    exact ih hp.1
  | other _ ih =>
    simp only [isCommentFree, Bool.and_eq_true] at hp
    exact ih hp.2
  | again _ _ ihp ihq =>
    intro t ht
    rcases List.mem_append.mp ht with ht | ht
    · exact ihp hp t ht
    · exact ihq hp t ht
  | field _ ih | prec _ ih => exact ih hp

/-- Whether a production has a word, where it is known of some nonterminals that they have one. -/
def isProductive (known : Nonterminal → Bool) : Production → Bool
  | symbol n => known n
  | seq p q => p.isProductive known && q.isProductive known
  | choice p q => p.isProductive known || q.isProductive known
  | field _ p | prec _ _ p => p.isProductive known
  | _ => true

/-- What is known of the nonterminals after some rounds. -/
def isKnownProductive : Nat → Nonterminal → Bool
  | 0, _ => false
  | n + 1, m => m.production.isProductive (isKnownProductive n)

theorem exists_generates_of_isProductive (known : Nonterminal → Bool)
    (hknown : ∀ n, known n = true → ∃ w, Generates (.symbol n) w) {p : Production}
    (hp : p.isProductive known = true) : ∃ w, Generates p w := by
  induction p with
  | empty => exact ⟨[], .empty⟩
  | token t => exact ⟨[t], .token t⟩
  | symbol n => exact hknown n hp
  | seq p q ihp ihq =>
    simp only [isProductive, Bool.and_eq_true] at hp
    obtain ⟨u, hu⟩ := ihp hp.1
    obtain ⟨v, hv⟩ := ihq hp.2
    exact ⟨u ++ v, .seq hu hv⟩
  | choice p q ihp ihq =>
    simp only [isProductive, Bool.or_eq_true] at hp
    rcases hp with hp | hq
    · obtain ⟨u, hu⟩ := ihp hp
      exact ⟨u, .this hu⟩
    · obtain ⟨v, hv⟩ := ihq hq
      exact ⟨v, .other hv⟩
  | many p => exact ⟨[], .none p⟩
  | field f p ih =>
    obtain ⟨u, hu⟩ := ih hp
    exact ⟨u, .field hu⟩
  | prec s n p ih =>
    obtain ⟨u, hu⟩ := ih hp
    exact ⟨u, .prec hu⟩

theorem exists_generates_of_isKnownProductive (k : Nat) (n : Nonterminal)
    (h : isKnownProductive k n = true) : ∃ w, Generates (.symbol n) w := by
  induction k generalizing n with
  | zero => cases h
  | succ k ih =>
    obtain ⟨w, hw⟩ := exists_generates_of_isProductive _ ih h
    exact ⟨w, .symbol hw⟩

theorem isKnownProductive_six (n : Nonterminal) : isKnownProductive 6 n = true := by
  cases n with
  | visible c => cases c <;> rfl
  | hidden h => cases h <;> rfl

theorem exists_generates (p : Production) : ∃ w, Generates p w := by
  refine exists_generates_of_isProductive (fun _ => true) (fun n _ =>
    exists_generates_of_isKnownProductive 6 n (isKnownProductive_six n)) ?_
  induction p with
  | seq p q ihp ihq => simp [isProductive, ihp, ihq]
  | choice p q ihp => simp [isProductive, ihp]
  | field f p ih => exact ih
  | prec s n p ih => exact ih
  | _ => rfl

end Production

theorem Grammar.Derivable.ne_comment {ts : List Token} (h : Derivable ts) :
    ∀ t ∈ ts, t ≠ .comment :=
  Production.Generates.ne_comment h rfl

end HeyVL
