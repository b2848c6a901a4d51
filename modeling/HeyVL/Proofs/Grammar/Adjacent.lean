import HeyVL.Proofs.Expectation.Phrase

namespace HeyVL

namespace Token

/-- The signs behind which an expression is due. The operators that also begin the branches of a
conditional are not among them. -/
def awaitsExpression : Token → Bool
  | binary .meet | binary .meetAscii | binary .join | binary .joinAscii => false
  | binary _ | unary _ | punctuation .assign | punctuation .bracketOpen => true
  | _ => false

def startsExpression : Token → Bool
  | identifier | string | integer | decimal | infinity | boolean | quantifier _ | unary _
  | punctuation .bracketOpen | punctuation .parenOpen | keyword .kwLet | keyword .kwIte => true
  | _ => false

/-- Whether an expression begins behind each sign that awaits one. -/
def settled : List Token → Bool
  | [] => true
  | t :: rest => (!t.awaitsExpression || rest.head?.any startsExpression) && settled rest

theorem settled_append {us vs : List Token} (hus : settled us = true) (hvs : settled vs = true) :
    settled (us ++ vs) = true := by
  induction us with
  | nil => exact hvs
  | cons t us ih =>
    rw [settled, Bool.and_eq_true] at hus
    rw [List.cons_append, settled, ih hus.2, Bool.and_true]
    cases us with
    | nil =>
      have ht : t.awaitsExpression = false := by simpa using hus.1
      rw [ht]
      rfl
    | cons x us => exact hus.1

theorem startsExpression_of_settled {us vs : List Token} {t x : Token}
    (h : settled (us ++ t :: x :: vs) = true) (ht : t.awaitsExpression = true) :
    x.startsExpression = true := by
  induction us with
  | nil =>
    rw [List.nil_append, settled, Bool.and_eq_true] at h
    simpa [ht] using h.1
  | cons y us ih =>
    rw [List.cons_append, settled, Bool.and_eq_true] at h
    exact ih h.2

end Token

namespace Production

variable {p : Production} {w : List Token}

def startsExpression : Production → Bool
  | token t => t.startsExpression
  | symbol (.hidden h) => h == .expression
  | symbol (.visible c) => Category.expressions.contains c
  | seq p _ => p.startsExpression
  | choice p q => p.startsExpression && q.startsExpression
  | field _ p | prec _ _ p => p.startsExpression
  | empty | many _ => false

theorem startsExpression_production {n : Nonterminal} (h : (symbol n).startsExpression = true) :
    n.production.startsExpression = true := by
  have htable : Nonterminal.all.all (fun n =>
      !(symbol n).startsExpression || n.production.startsExpression) = true := by
    decide
  simpa [h] using List.all_eq_true.mp htable n n.mem_all

theorem Generates.startsExpression (h : Generates p w) (hp : p.startsExpression = true) :
    ∃ t rest, w = t :: rest ∧ t.startsExpression = true := by
  induction h with
  | empty => cases hp
  | token t => exact ⟨t, [], rfl, hp⟩
  | symbol _ ih => exact ih (startsExpression_production hp)
  | seq _ _ ih =>
    obtain ⟨t, rest, rfl, ht⟩ := ih hp
    exact ⟨t, _, rfl, ht⟩
  | this _ ih => exact ih (Bool.and_eq_true _ _ ▸ hp).1
  | other _ ih => exact ih (Bool.and_eq_true _ _ ▸ hp).2
  | none => cases hp
  | again => cases hp
  | field _ ih => exact ih hp
  | prec _ ih => exact ih hp

def isToken : Production → Bool
  | token _ => true
  | choice p q => p.isToken && q.isToken
  | field _ p => p.isToken
  | _ => false

theorem Generates.exists_token (h : Generates p w) (hp : p.isToken = true) : ∃ t, w = [t] := by
  induction h with
  | token t => exact ⟨t, rfl⟩
  | this _ ih => exact ih (Bool.and_eq_true _ _ ▸ hp).1
  | other _ ih => exact ih (Bool.and_eq_true _ _ ▸ hp).2
  | field _ ih => exact ih hp
  | _ => cases hp

/-- Whether the productions of all signs that await an expression have one behind them. -/
def isSettled : Production → Bool
  | token t => !t.awaitsExpression
  | seq p q => (p.isSettled || p.isToken && q.startsExpression) && q.isSettled
  | choice p q => p.isSettled && q.isSettled
  | many p | field _ p | prec _ _ p => p.isSettled
  | empty | symbol _ => true

theorem isSettled_production (n : Nonterminal) : n.production.isSettled = true := by
  cases n with
  | visible c => cases c <;> rfl
  | hidden h => cases h <;> rfl

theorem Generates.settled (h : Generates p w) (hp : p.isSettled = true) :
    Token.settled w = true := by
  induction h with
  | empty | none => rfl
  | token t => simpa [Token.settled, isSettled] using hp
  | symbol _ ih => exact ih (isSettled_production _)
  | seq hu hv ihu ihv =>
    rw [isSettled, Bool.and_eq_true, Bool.or_eq_true, Bool.and_eq_true] at hp
    rcases hp.1 with hfirst | ⟨htoken, hstarts⟩
    · exact Token.settled_append (ihu hfirst) (ihv hp.2)
    · obtain ⟨t, rfl⟩ := hu.exists_token htoken
      obtain ⟨x, rest, rfl, hx⟩ := hv.startsExpression hstarts
      simp [Token.settled, hx, Bool.and_eq_true _ _ ▸ ihv hp.2]
  | this _ ih => exact ih (Bool.and_eq_true _ _ ▸ hp).1
  | other _ ih => exact ih (Bool.and_eq_true _ _ ▸ hp).2
  | again _ _ ihu ihv => exact Token.settled_append (ihu hp) (ihv hp)
  | field _ ih => exact ih hp
  | prec _ ih => exact ih hp

end Production

theorem Grammar.startsExpression_of_viable {us : List Token} {t x : Token}
    (h : Viable (us ++ [t]) x) (ht : t.awaitsExpression = true) : x.startsExpression = true := by
  obtain ⟨vs, hvs⟩ := h
  rw [List.append_assoc, List.singleton_append] at hvs
  exact Token.startsExpression_of_settled (hvs.settled rfl) ht

end HeyVL
