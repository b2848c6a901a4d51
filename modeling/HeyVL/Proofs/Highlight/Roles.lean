import HeyVL.Proofs.Highlight.Captures
import HeyVL.Proofs.Tree.Syntax
import HeyVL.Proofs.Token.Tables

namespace HeyVL

namespace Highlight

/-- The number and the name of the rule that tells what a token is wherever it stands. -/
def ofToken : Token → Option (Nat × String)
  | .keyword .kwPre | .keyword .kwPost => some (1, "keyword.directive")
  | .keyword .kwIf | .keyword .kwElse => some (3, "keyword.conditional")
  | .keyword .kwWhile => some (4, "keyword.repeat")
  | .keyword .kwLet | .keyword .kwIte => some (6, "function.builtin")
  | .keyword _ => some (0, "keyword")
  | .command _ => some (2, "keyword.statement")
  | .quantifier _ => some (5, "keyword.operator")
  | .string => some (18, "string")
  | .integer => some (19, "number")
  | .decimal => some (20, "number.float")
  | .boolean => some (21, "boolean")
  | .infinity => some (22, "constant.builtin")
  | .comment => some (23, "comment")
  | .binary .meetAscii | .binary .joinAscii => none
  | .binary _ | .unary _ => some (24, "operator")
  | .punctuation .assign | .punctuation .arrow | .punctuation .list => some (24, "operator")
  | .punctuation .parenOpen | .punctuation .parenClose | .punctuation .braceOpen
  | .punctuation .braceClose | .punctuation .bracketOpen | .punctuation .bracketClose =>
    some (25, "punctuation.bracket")
  | .punctuation .comma | .punctuation .colon | .punctuation .semicolon | .punctuation .dot =>
    some (26, "punctuation.delimiter")
  | .punctuation .atSign | .punctuation .trigger | .punctuation .computable => none
  | .identifier => some (27, "variable")

/-- The number and the name of the rule that tells what a child of a node is by its role there. A type
identifier covers what the identifier in it does. -/
def ofRole : Category → Option Field → Token → Option (Nat × String)
  | .procDeclaration, some .name, .identifier => some (7, "function")
  | .functionDeclaration, some .name, .identifier => some (8, "function")
  | .domainDeclaration, some .name, .identifier => some (9, "type.definition")
  | .axiomDeclaration, some .name, .identifier => some (10, "label")
  | .labelStatement, _, .identifier => some (11, "label")
  | .callExpression, some .function, .identifier => some (12, "function.call")
  | .parameter, some .name, .identifier => some (13, "variable.parameter")
  | .quantifierVariable, some .name, .identifier => some (14, "variable.parameter")
  | .annotationCalculus, _, .punctuation .atSign => some (15, "attribute")
  | .annotationCalculus, _, .identifier => some (15, "attribute")
  | .annotatedStatement, _, .punctuation .atSign => some (16, "attribute")
  | .annotatedStatement, some .name, .identifier => some (16, "attribute")
  | .typeIdentifier, _, .identifier => some (17, "type")
  | _, _, _ => none

def Pattern.category? : Pattern → Option Category
  | .anyOf _ => none
  | .node c | .inside c _ => some c

def rulesFor (c : Category) : List (Rule × Nat) :=
  rules.zipIdx.filter fun (r, _) => r.pattern.category? == some c

/-- Whether a child that its parent sees so is the part. -/
def Part.fits (p : Part) (x : Label) : Bool :=
  x.2 == .token p.token && (p.role.isNone || x.1 == p.role)

/-- Whether a child that its parent sees so is one of the parts of the pattern. -/
def Pattern.fits (p : Pattern) (x : Label) : Bool := p.parts.any fun q => q.fits x

variable {r : Rule} {p : Pattern} {ps : List Part} {c : Category} {role : Option Field} {t : Token}
  {ts : List Tree}

theorem eq_typeIdentifier_of_node (hr : r ∈ rules) (h : r.pattern = .node c) :
    c = .typeIdentifier := by
  have htable : rules.all (fun r => match r.pattern with
      | .node c => c == .typeIdentifier
      | _ => true) = true := by
    decide
  simpa [h] using List.all_eq_true.mp htable r hr

theorem exists_inside (hr : r ∈ rules) (h : r.pattern.category? = some c)
    (hc : c ≠ .typeIdentifier) : ∃ ps, r.pattern = .inside c ps := by
  cases hpattern : r.pattern with
  | anyOf tokens =>
    rw [hpattern] at h
    cases h
  | node c' =>
    rw [hpattern] at h
    obtain rfl := Option.some.inj h
    exact absurd (eq_typeIdentifier_of_node hr hpattern) hc
  | inside c' ps =>
    rw [hpattern] at h
    obtain rfl := Option.some.inj h
    exact ⟨ps, rfl⟩

theorem matchesAt_eq_nil {us : List Tree} (h : p.category? ≠ some c) :
    p.matchesAt (.node role c us) = [] := by
  have hkind {c' : Category} (hne : some c' ≠ some c) :
      (Tree.node role c us).kind ≠ .category c' := by
    intro heq
    exact hne (congrArg some (Kind.category.inj heq).symm)
  cases p with
  | anyOf tokens => rfl
  | node c' => rw [Pattern.matchesAt, if_neg (hkind h)]
  | inside c' ps => rw [Pattern.matchesAt, if_neg (hkind h)]

theorem filterMap_tokens (t : Token) :
    rules.zipIdx.filterMap (fun (r, n) =>
      if t ∈ r.pattern.tokens then some (n, r.capture) else none) = (ofToken t).toList := by
  have htable : Token.all.all (fun t => rules.zipIdx.filterMap (fun (r, n) =>
      if t ∈ r.pattern.tokens then some (n, r.capture) else none) == (ofToken t).toList) = true := by
    decide
  exact eq_of_beq (Token.forall_of_all htable t)

theorem not_fits (hr : r ∈ rules) (hidentifier : t ≠ .identifier)
    (hsign : t ≠ .punctuation .atSign) : r.pattern.fits (role, .token t) = false := by
  have htable : rules.all (fun r => r.pattern.parts.all fun q =>
      q.token == .identifier || q.token == .punctuation .atSign) = true := by
    decide
  have hparts := List.all_eq_true.mp (List.all_eq_true.mp htable r hr)
  rw [Pattern.fits, List.any_eq_false]
  intro q hq hfits
  have htoken : t = q.token := by
    rw [Part.fits, Bool.and_eq_true] at hfits
    simpa using hfits.1
  have := hparts q hq
  simp_all

theorem ofRole_eq_none (hidentifier : t ≠ .identifier) (hsign : t ≠ .punctuation .atSign) :
    ofRole c role t = none := by
  unfold ofRole
  split <;> first | rfl | contradiction

theorem lt_of_ofRole {a b : Nat × String} (ha : ofRole c role t = some a) (hb : ofToken t = some b) :
    a.1 < b.1 := by
  unfold ofRole at ha
  split at ha <;> simp only [ofToken, Option.some.injEq, reduceCtorEq] at ha hb <;> subst ha hb <;>
    decide

theorem ofToken_eq_none_iff :
    ofToken t = none ↔ t = .punctuation .atSign ∨ t ∈ [.binary .meetAscii, .binary .joinAscii,
      .punctuation .trigger, .punctuation .computable] := by
  have htable : Token.all.all (fun t => (ofToken t).isNone ==
      (t == .punctuation .atSign || [.binary .meetAscii, .binary .joinAscii, .punctuation .trigger,
        .punctuation .computable].contains t)) = true := by
    decide
  have ht := eq_of_beq (Token.forall_of_all htable t)
  rw [← Option.isNone_iff_eq_none, ht, Bool.or_eq_true, beq_iff_eq, List.contains_iff_mem]

theorem filterMap_rulesFor (hc : c ≠ .typeIdentifier) :
    (rulesFor c).filterMap (fun (r, n) =>
      if r.pattern.fits (role, .token t) then some (n, r.capture) else none) =
        (ofRole c role t).toList := by
  by_cases hidentifier : t = .identifier
  · subst hidentifier
    cases c <;> first | contradiction | rfl | (rcases role with _ | f; rfl; cases f <;> rfl)
  by_cases hsign : t = .punctuation .atSign
  · subst hsign
    cases c <;> first | rfl | (rcases role with _ | f; rfl; cases f <;> rfl)
  rw [ofRole_eq_none hidentifier hsign, Option.toList_none, List.filterMap_eq_nil_iff]
  rintro ⟨r, n⟩ hr
  have hmem : r ∈ rules := List.fst_mem_of_mem_zipIdx (List.mem_filter.mp hr).1
  simp [not_fits hmem hidentifier hsign]

namespace Part

theorem isMatch_eq (p : Part) (t : Tree) : p.isMatch t = p.fits t.label := rfl

theorem choices_filter {keep : Tree → Bool} (ts : List Tree)
    (h : ∀ p ∈ ps, ∀ t, p.isMatch t = true → keep t = true) : choices ps (ts.filter keep) = choices ps ts := by
  induction ts generalizing ps with
  | nil => rfl
  | cons t ts ih =>
    cases ps with
    | nil => cases ts.filter keep <;> simp [choices]
    | cons p ps =>
      have htail := ih fun q hq => h q (List.mem_cons_of_mem _ hq)
      cases hkeep : keep t with
      | true => rw [List.filter_cons_of_pos hkeep, choices, choices, htail, ih h]
      | false =>
        have hmatch : p.isMatch t = false := by
          by_contra hmatch
          simp [h p (by simp) t (by simpa using hmatch)] at hkeep
        rw [List.filter_cons_of_neg (by simp [hkeep]), choices, hmatch, ih h]
        rfl

theorem flatten_choices_singleton (q : Part) (ts : List Tree) :
    (choices [q] ts).flatten = ts.filter q.isMatch := by
  induction ts with
  | nil => rfl
  | cons t ts ih =>
    rw [choices, List.flatten_append, ih]
    cases hmatch : q.isMatch t with
    | true => simp [choices, hmatch]
    | false => simp [hmatch]

theorem flatten_choices_pair {a b : Part} {x y : Tree} (hx : a.isMatch x = true)
    (hy : b.isMatch y = true) : (choices [a, b] [x, y]).flatten = [x, y] := by
  simp [choices, hx, hy]

end Part

open Production

theorem labels_annotationCalculus {w : List Label}
    (h : Category.annotationCalculus.production.Expands w) :
    w = [(none, .token (.punctuation .atSign)), (none, .token .identifier)] := by
  obtain ⟨u, v, hu, hv, rfl⟩ := expands_seq_iff.mp h
  rw [expands_token_iff.mp hu, expands_token_iff.mp hv]
  rfl

theorem labels_annotatedStatement {w : List Label}
    (h : Category.annotatedStatement.production.Expands w) :
    ∃ rest, w = (none, .token (.punctuation .atSign)) :: (some .name, .token .identifier) :: rest ∧
      ∀ x ∈ rest, x.2 ∉ [.token (.punctuation .atSign), .token .identifier] := by
  obtain ⟨u, _, hu, hbehind, rfl⟩ := expands_inOrder_cons_iff.mp h
  obtain ⟨v, rest, hv, hrest, rfl⟩ := expands_inOrder_cons_iff.mp hbehind
  have hname : Expands (inRole (some .name) (.token .identifier)) v := hv
  rw [expands_token_iff.mp hu, expands_inRole_token_iff.mp hname]
  have htable : ∀ x ∈ (inOrder [maybe (node .annotationInputs), field .statement statement]).labels,
      x.2 ∉ [.token (.punctuation .atSign), .token .identifier] := by
    decide
  exact ⟨rest, rfl, fun x hx => htable x (hrest.mem_labels x hx)⟩

/-- Where a rule looks for a sign and a word, the children of the node that are one of them are one
sign and then one word. -/
theorem exists_pair {t : Tree} {q : Part} (hkind : t.kind = .category c)
    (hq : c = .annotationCalculus ∧ q = ⟨none, .identifier⟩ ∨ c = .annotatedStatement ∧ q = namePart)
    (expands : c.production.Expands (Tree.labels t.children)) :
    ∃ x y, t.children.filter (fun u => annotationSign.fits u.label || q.fits u.label) = [x, y] ∧
      annotationSign.isMatch x = true ∧ q.isMatch y = true := by
  have hlabels : ∃ role rest, Tree.labels t.children =
      (none, .token (.punctuation .atSign)) :: (role, .token .identifier) :: rest ∧
        q.fits (role, .token .identifier) = true ∧
        rest.filter (fun x => annotationSign.fits x || q.fits x) = [] := by
    rcases hq with ⟨rfl, rfl⟩ | ⟨rfl, rfl⟩
    · exact ⟨none, [], labels_annotationCalculus expands, rfl, rfl⟩
    · obtain ⟨rest, hlabels, hrest⟩ := labels_annotatedStatement expands
      refine ⟨some .name, rest, hlabels, rfl, List.filter_eq_nil_iff.mpr fun x hx => ?_⟩
      have := hrest x hx
      simp_all [Part.fits, annotationSign, namePart]
  obtain ⟨role, rest, hlabels, hrole, hrest⟩ := hlabels
  have hcomment : ∀ u : Tree, u.isComment = true →
      (annotationSign.fits u.label || q.fits u.label) = false := by
    intro u hu
    rw [Tree.isComment, beq_iff_eq] at hu
    rcases hq with ⟨-, rfl⟩ | ⟨-, rfl⟩ <;>
      simp [Part.fits, annotationSign, namePart, Tree.label, hu]
  -- Comments between the children are neither the sign nor the word.
  have hfilter : t.children.filter (fun u => annotationSign.fits u.label || q.fits u.label) =
      (t.children.filter fun u => !u.isComment).filter
        fun u => annotationSign.fits u.label || q.fits u.label := by
    rw [List.filter_filter]
    apply List.filter_congr
    intro u _
    cases hu : u.isComment with
    | true => simp [hcomment u hu]
    | false => simp
  have hmap : (t.children.filter fun u => annotationSign.fits u.label || q.fits u.label).map
      Tree.label = [(none, .token (.punctuation .atSign)), (role, .token .identifier)] := by
    rw [hfilter]
    calc
      _ = (Tree.labels t.children).filter fun x => annotationSign.fits x || q.fits x :=
        List.filter_map.symm
      _ = _ := by
        rw [hlabels, List.filter_cons_of_pos (by rfl), List.filter_cons_of_pos (by simp [hrole]),
          hrest]
  obtain ⟨x, ys, hx, hsign, hys⟩ := List.map_eq_cons_iff.mp hmap
  obtain ⟨y, rfl, hword⟩ := Tree.eq_singleton_of_labels hys
  refine ⟨x, y, hx, ?_, ?_⟩
  · rw [Part.isMatch_eq, hsign]
    rfl
  · rw [Part.isMatch_eq, hword, hrole]

/-- An inner pattern has one part, or it has the sign of an annotation and the name behind it. -/
def Pattern.isPlain : Pattern → Bool
  | .inside c ps => ps.length == 1 ||
      c == .annotationCalculus && ps == [annotationSign, ⟨none, .identifier⟩] ||
      c == .annotatedStatement && ps == [annotationSign, namePart]
  | _ => true

theorem flatten_matchesAt {t : Tree} (hr : r ∈ rules) (hpattern : r.pattern = .inside c ps)
    (hkind : t.kind = .category c) (expands : c.production.Expands (Tree.labels t.children)) :
    (r.pattern.matchesAt t).flatten = t.children.filter fun u => r.pattern.fits u.label := by
  have htable : rules.all (·.pattern.isPlain) = true := by decide
  have hrule := List.all_eq_true.mp htable r hr
  rw [hpattern, Pattern.isPlain] at hrule
  rw [hpattern, Pattern.matchesAt, if_pos hkind]
  have hpair : ∀ q, c = .annotationCalculus ∧ q = ⟨none, .identifier⟩ ∨
      c = .annotatedStatement ∧ q = namePart → ps = [annotationSign, q] →
        (Part.choices ps t.children).flatten =
          t.children.filter fun u => (Pattern.inside c ps).fits u.label := by
    rintro q hq rfl
    obtain ⟨x, y, hxy, hx, hy⟩ := exists_pair hkind hq expands
    have hfits : (fun u : Tree => (Pattern.inside c [annotationSign, q]).fits u.label) =
        fun u => annotationSign.fits u.label || q.fits u.label := by
      funext u
      simp [Pattern.fits, Pattern.parts]
    have hkeep : ∀ p ∈ [annotationSign, q], ∀ u, p.isMatch u = true →
        (annotationSign.fits u.label || q.fits u.label) = true := by
      intro p hp u hu
      rw [Part.isMatch_eq] at hu
      rcases List.mem_cons.mp hp with rfl | hp
      · simp [hu]
      · obtain rfl := List.mem_singleton.mp hp
        simp [hu]
    rw [hfits, hxy, ← Part.choices_filter t.children hkeep, hxy, Part.flatten_choices_pair hx hy]
  simp only [Bool.or_eq_true, Bool.and_eq_true, beq_iff_eq] at hrule
  rcases hrule with (hsingle | ⟨hc, hps⟩) | ⟨hc, hps⟩
  · obtain ⟨q, rfl⟩ := List.length_eq_one_iff.mp hsingle
    rw [Part.flatten_choices_singleton]
    apply List.filter_congr
    intro u _
    simp [Pattern.fits, Pattern.parts, Part.isMatch_eq]
  · exact hpair _ (.inl ⟨hc, rfl⟩) hps
  · exact hpair _ (.inr ⟨hc, rfl⟩) hps

end Highlight

end HeyVL
