import HeyVL.Proofs.Tree.Operators
import HeyVL.Tree.Comments

/-!
Comments in a tree. Deleting them gives back the tree in which they were placed, and since no
comment is placed behind the last child of a node other than the root, they change nothing about
the grouping of operators.
-/

namespace HeyVL

namespace Tree

mutual

/-- The tree without its comments. -/
def bare : Tree → Tree
  | leaf role lexeme => leaf role lexeme
  | node role category children => node role category (bareOfList children)

def bareOfList : List Tree → List Tree
  | [] => []
  | t :: rest => if t.isComment then bareOfList rest else t.bare :: bareOfList rest

end

mutual

/-- Whether no node ends with a comment. -/
def endsBare : Tree → Bool
  | leaf _ _ => true
  | node _ _ children => children.getLast?.all (fun t => !t.isComment) && endBare children

/-- Whether no node within the trees ends with a comment. -/
def endBare : List Tree → Bool
  | [] => true
  | t :: rest => t.endsBare && endBare rest

end

@[simp] theorem role_bare (t : Tree) : t.bare.role = t.role := by
  cases t <;> rfl

@[simp] theorem kind_bare (t : Tree) : t.bare.kind = t.kind := by
  cases t <;> rfl

theorem bareOfList_eq (ts : List Tree) :
    bareOfList ts = (ts.filter fun t => !t.isComment).map bare := by
  induction ts with
  | nil => rfl
  | cons t ts ih =>
    rw [bareOfList, List.filter_cons, ih]
    cases t.isComment <;> rfl

theorem labels_eq (ts : List Tree) : labels ts = (bareOfList ts).map label := by
  rw [labels, bareOfList_eq, List.map_map]
  apply List.map_congr_left
  intro t _
  show t.label = t.bare.label
  simp [label]

theorem endBare_eq (ts : List Tree) : endBare ts = ts.all endsBare := by
  induction ts with
  | nil => rfl
  | cons t ts ih => rw [endBare, List.all_cons, ih]

theorem isComment_placeIn (comment : Lexeme) (t : Tree) :
    (t.placeIn comment).isComment = t.isComment := by
  cases t <;> rfl

mutual

theorem bare_placeIn {comment : Lexeme} (h : comment.token = .comment) (t : Tree) :
    (t.placeIn comment).bare = t.bare := by
  cases t with
  | leaf role l => rfl
  | node role c children => rw [placeIn, bare, bare, bareOfList_placeAmong h children]

theorem bareOfList_placeAmong {comment : Lexeme} (h : comment.token = .comment) (ts : List Tree) :
    bareOfList (placeAmong comment ts) = bareOfList ts := by
  have hcomment : (leaf none comment).isComment = true := by simp [isComment, h]
  cases ts with
  | nil => simp [placeAmong, bareOfList, hcomment]
  | cons t rest =>
    rw [placeAmong]
    split
    · rw [bareOfList, bareOfList, bareOfList_placeAmong h rest]
    · split
      · rw [bareOfList, bareOfList, isComment_placeIn, bare_placeIn h t]
      · rw [bareOfList, if_pos hcomment]

end

theorem bareOfList_placeAll {cs : List Lexeme} (h : ∀ c ∈ cs, c.token = .comment)
    (ts : List Tree) : bareOfList (placeAll cs ts) = bareOfList ts := by
  induction cs generalizing ts with
  | nil => rfl
  | cons c cs ih =>
    have hrest := ih (fun x hx => h x (by simp [hx])) (placeAmong c ts)
    exact hrest.trans (bareOfList_placeAmong (h c (by simp)) ts)

theorem IsSyntax.bare_eq {t : Tree} (h : t.IsSyntax) : t.isComment = false ∧ t.bare = t := by
  induction h with
  | leaf role h => exact ⟨by simpa [isComment] using h, rfl⟩
  | @node role c ts _ _ _ ih =>
    refine ⟨rfl, congrArg (Tree.node role c) ?_⟩
    have hfilter : ts.filter (fun t => !t.isComment) = ts :=
      List.filter_eq_self.mpr fun t ht => by simp [(ih t ht).1]
    rw [bareOfList_eq, hfilter]
    calc ts.map bare = ts.map id := List.map_congr_left fun t ht => (ih t ht).2
      _ = ts := List.map_id ts

mutual

theorem isSyntax_of_mem_subtrees {t u : Tree} (h : t.bare.IsSyntax) (hu : u ∈ t.subtrees)
    (hcomment : u.isComment = false) : u.bare.IsSyntax := by
  cases t with
  | leaf role l =>
    obtain rfl := List.mem_singleton.mp hu
    exact h
  | node role c children =>
    rcases List.mem_cons.mp hu with rfl | hu
    · exact h
    · cases h with
      | node _ _ inner => exact isSyntax_of_mem_subtreesOfList inner hu hcomment

theorem isSyntax_of_mem_subtreesOfList {ts : List Tree} {u : Tree}
    (h : ∀ t ∈ bareOfList ts, t.IsSyntax) (hu : u ∈ subtreesOfList ts)
    (hcomment : u.isComment = false) : u.bare.IsSyntax := by
  cases ts with
  | nil => cases hu
  | cons t rest =>
    rw [bareOfList] at h
    rcases List.mem_append.mp hu with hu | hu
    · cases ht : t.isComment with
      | true =>
        cases t with
        | leaf role l =>
          obtain rfl := List.mem_singleton.mp hu
          rw [ht] at hcomment
          cases hcomment
        | node role c children => cases ht
      | false =>
        rw [ht] at h
        exact isSyntax_of_mem_subtrees (h t.bare (by simp)) hu hcomment
    · apply isSyntax_of_mem_subtreesOfList (fun v hv => h v ?_) hu hcomment
      split
      · exact hv
      · exact List.mem_cons_of_mem _ hv

end

mutual

theorem endsBare_of_mem_subtrees {t u : Tree} (h : t.endsBare = true) (hu : u ∈ t.subtrees) :
    u.endsBare = true := by
  cases t with
  | leaf role l =>
    obtain rfl := List.mem_singleton.mp hu
    exact h
  | node role c children =>
    rcases List.mem_cons.mp hu with rfl | hu
    · exact h
    · rw [endsBare, Bool.and_eq_true] at h
      exact endsBare_of_mem_subtreesOfList h.2 hu

theorem endsBare_of_mem_subtreesOfList {ts : List Tree} {u : Tree} (h : endBare ts = true)
    (hu : u ∈ subtreesOfList ts) : u.endsBare = true := by
  cases ts with
  | nil => cases hu
  | cons t rest =>
    rw [endBare, Bool.and_eq_true] at h
    rcases List.mem_append.mp hu with hu | hu
    · exact endsBare_of_mem_subtrees h.1 hu
    · exact endsBare_of_mem_subtreesOfList h.2 hu

end

theorem exists_cons_placeAmong (comment : Lexeme) (ts : List Tree) :
    ∃ u us, placeAmong comment ts = u :: us := by
  cases ts with
  | nil => exact ⟨_, _, rfl⟩
  | cons t rest =>
    rw [placeAmong]
    split
    · exact ⟨_, _, rfl⟩
    · split <;> exact ⟨_, _, rfl⟩

theorem all_getLast?_placeAmong {comment : Lexeme} {ts : List Tree}
    (hstop : comment.start < stopOfList ts)
    (h : ts.getLast?.all (fun t => !t.isComment) = true) :
    (placeAmong comment ts).getLast?.all (fun t => !t.isComment) = true := by
  induction ts with
  | nil => cases hstop
  | cons t rest ih =>
    rw [placeAmong]
    split
    · next hle =>
      cases rest with
      | nil => exact absurd hstop (Nat.not_lt_of_le hle)
      | cons u rest =>
        rw [List.getLast?_cons_cons] at h
        have hrest := ih hstop h
        obtain ⟨v, vs, hvs⟩ := exists_cons_placeAmong comment (u :: rest)
        rw [hvs] at hrest ⊢
        rwa [List.getLast?_cons_cons]
    · split
      · cases rest with
        | nil => simpa [isComment_placeIn] using h
        | cons u rest =>
          rw [List.getLast?_cons_cons] at h ⊢
          exact h
      · rwa [List.getLast?_cons_cons]

mutual

/-- A comment before the end of a tree is not placed behind the last child of any node of it. -/
theorem endsBare_placeIn {comment : Lexeme} {t : Tree} (h : t.endsBare = true)
    (hstop : comment.start < t.stop) : (t.placeIn comment).endsBare = true := by
  cases t with
  | leaf role l => rfl
  | node role c children =>
    rw [endsBare, Bool.and_eq_true] at h
    rw [placeIn, endsBare, endBare_placeAmong h.2, all_getLast?_placeAmong hstop h.1]
    rfl

theorem endBare_placeAmong {comment : Lexeme} {ts : List Tree} (h : endBare ts = true) :
    endBare (placeAmong comment ts) = true := by
  cases ts with
  | nil => rfl
  | cons t rest =>
    rw [endBare, Bool.and_eq_true] at h
    rw [placeAmong]
    split
    · rw [endBare, h.1, endBare_placeAmong h.2]
      rfl
    · next hstop =>
      split
      · rw [endBare, endsBare_placeIn h.1 (Nat.lt_of_not_le hstop), h.2]
        rfl
      · rw [endBare, endBare, h.1, h.2]
        rfl

end

theorem endBare_placeAll {cs : List Lexeme} {ts : List Tree} (h : endBare ts = true) :
    endBare (placeAll cs ts) = true := by
  induction cs generalizing ts with
  | nil => exact h
  | cons c cs ih => exact ih (endBare_placeAmong h)

theorem IsSyntax.endsBare {t : Tree} (h : t.IsSyntax) : t.endsBare = true := by
  induction h with
  | leaf => rfl
  | @node role c ts _ _ inner ih =>
    have hlast : ts.getLast?.all (fun t => !t.isComment) = true := by
      rw [Option.all_eq_true]
      intro t ht
      simp [(inner t (List.mem_of_getLast? ht)).bare_eq.1]
    have hinner : endBare ts = true := by
      rw [endBare_eq, List.all_eq_true]
      exact ih
    rw [Tree.endsBare, hlast, hinner]
    rfl

mutual

theorem mem_subtrees_placeIn {comment l : Lexeme} {r : Option Field} {t : Tree}
    (h : leaf r l ∈ (t.placeIn comment).subtrees) :
    leaf r l = leaf none comment ∨ leaf r l ∈ t.subtrees := by
  cases t with
  | leaf role x => exact .inr h
  | node role c children =>
    rcases List.mem_cons.mp h with h | h
    · cases h
    · exact (mem_subtreesOfList_placeAmong h).imp_right (List.mem_cons_of_mem _)

theorem mem_subtreesOfList_placeAmong {comment l : Lexeme} {r : Option Field} {ts : List Tree}
    (h : leaf r l ∈ subtreesOfList (placeAmong comment ts)) :
    leaf r l = leaf none comment ∨ leaf r l ∈ subtreesOfList ts := by
  cases ts with
  | nil => exact .inl (by simpa [placeAmong, subtreesOfList, subtrees] using h)
  | cons t rest =>
    rw [placeAmong] at h
    split at h
    · rcases List.mem_append.mp h with h | h
      · exact .inr (List.mem_append_left _ h)
      · exact (mem_subtreesOfList_placeAmong h).imp_right (List.mem_append_right _)
    · split at h
      · rcases List.mem_append.mp h with h | h
        · exact (mem_subtrees_placeIn h).imp_right (List.mem_append_left _)
        · exact .inr (List.mem_append_right _ h)
      · rcases List.mem_cons.mp h with h | h
        · exact .inl h
        · exact .inr h

end

theorem mem_subtreesOfList_placeAll {cs : List Lexeme} {l : Lexeme} {r : Option Field}
    {ts : List Tree} (h : leaf r l ∈ subtreesOfList (placeAll cs ts)) :
    r = none ∨ leaf r l ∈ subtreesOfList ts := by
  induction cs generalizing ts with
  | nil => exact .inr h
  | cons c cs ih =>
    rcases ih h with h | h
    · exact .inl h
    · rcases mem_subtreesOfList_placeAmong h with h | h
      · exact .inl (leaf.inj h).1
      · exact .inr h

theorem subtreesOfList_eq_flatMap (ts : List Tree) : subtreesOfList ts = ts.flatMap subtrees := by
  induction ts with
  | nil => rfl
  | cons t ts ih => rw [subtreesOfList, ih, List.flatMap_cons]

theorem IsSyntax.of_mem_subtrees {t u : Tree} (h : t.IsSyntax) (hu : u ∈ t.subtrees) :
    u.IsSyntax := by
  induction h with
  | leaf role h =>
    obtain rfl := List.mem_singleton.mp hu
    exact .leaf role h
  | @node role c ts expands grouped inner ih =>
    rcases List.mem_cons.mp hu with rfl | hu
    · exact .node expands grouped inner
    · rw [subtreesOfList_eq_flatMap] at hu
      obtain ⟨t, ht, hu⟩ := List.mem_flatMap.mp hu
      exact ih t ht hu

theorem level?_bare (t : Tree) : t.bare.level? = t.level? := by
  cases t with
  | leaf role l => rfl
  | node role c children =>
    by_cases hc : c = .binaryExpression
    · subst hc
      rw [bare, level?, level?]
      induction children with
      | nil => rfl
      | cons t rest ih =>
        cases t with
        | node role c children => exact ih
        | leaf role l =>
          obtain ⟨token, start, stop⟩ := l
          cases token
          case binary o => rfl
          all_goals exact ih
    · rw [bare, level?_eq_none hc, level?_eq_none hc]

theorem operands_bareOfList (ts : List Tree) :
    operands (bareOfList ts) = (operands ts).map bare := by
  induction ts with
  | nil => rfl
  | cons t rest ih =>
    cases t with
    | node role c children => exact congrArg ((node role c children).bare :: ·) ih
    | leaf role l =>
      obtain ⟨token, start, stop⟩ := l
      cases token
      case binary | unary | comment => exact ih
      all_goals exact congrArg (leaf role _ :: ·) ih

theorem exists_cons_bareOfList {t : Tree} {rest : List Tree}
    (hlast : (t :: rest).getLast?.all (fun t => !t.isComment) = true) :
    ∃ u us, bareOfList (t :: rest) = u :: us := by
  have hmem : (t :: rest).getLast (by simp) ∈ (t :: rest).filter fun t => !t.isComment :=
    List.mem_filter.mpr ⟨List.getLast_mem _, by
      simpa [List.getLast?_eq_some_getLast] using hlast⟩
  apply List.exists_cons_of_ne_nil
  rw [bareOfList_eq]
  intro hnil
  rw [List.map_eq_nil_iff.mp hnil] at hmem
  cases hmem

mutual

theorem isRightOpen_bare {t : Tree} (h : t.endsBare = true) :
    t.bare.isRightOpen = t.isRightOpen := by
  cases t with
  | leaf role l => rfl
  | node role c children =>
    rw [endsBare, Bool.and_eq_true] at h
    have hlast := lastIsRightOpen_bareOfList h.2 h.1
    cases c
    case unaryExpression | binaryExpression => exact hlast
    all_goals rfl

theorem lastIsRightOpen_bareOfList {ts : List Tree} (h : endBare ts = true)
    (hlast : ts.getLast?.all (fun t => !t.isComment) = true) :
    lastIsRightOpen (bareOfList ts) = lastIsRightOpen ts := by
  cases ts with
  | nil => rfl
  | cons t rest =>
    rw [endBare, Bool.and_eq_true] at h
    cases rest with
    | nil =>
      have ht : t.isComment = false := by simpa using hlast
      rw [bareOfList, ht]
      exact isRightOpen_bare h.1
    | cons u rest =>
      rw [List.getLast?_cons_cons] at hlast
      have hrest := lastIsRightOpen_bareOfList h.2 hlast
      obtain ⟨v, vs, hvs⟩ := exists_cons_bareOfList hlast
      rw [bareOfList]
      show _ = lastIsRightOpen (u :: rest)
      split
      · exact hrest
      · rw [hvs] at hrest ⊢
        exact hrest

end

theorem hasLevel_bare (t : Tree) (p : Nat → Bool) : t.bare.hasLevel p = t.hasLevel p := by
  rw [hasLevel, level?_bare, hasLevel]

theorem isGroupedAt_bare {t : Tree} (h : t.endsBare = true) :
    t.bare.isGroupedAt = t.isGroupedAt := by
  cases t with
  | leaf role l => rfl
  | node role c children =>
    rw [endsBare, Bool.and_eq_true, endBare_eq, List.all_eq_true] at h
    have hopen (u : Tree) (hu : u ∈ operands children) :
        u.bare.isRightOpen = u.isRightOpen :=
      isRightOpen_bare (h.2 u (List.mem_filter.mp hu).1)
    cases c
    case unaryExpression =>
      rw [bare, isGroupedAt, isGroupedAt, operands_bareOfList]
      rcases operands children with _ | ⟨x, _ | ⟨y, rest⟩⟩
      · rfl
      · simp [hasLevel_bare]
      · rfl
    case binaryExpression =>
      have hlevel := level?_bare (node role .binaryExpression children)
      rw [bare] at hlevel
      rw [bare, isGroupedAt, isGroupedAt, operands_bareOfList, hlevel]
      revert hopen
      rcases operands children with _ | ⟨x, _ | ⟨y, _ | ⟨z, rest⟩⟩⟩
      · intro _
        rfl
      · intro _
        cases (node role .binaryExpression children).level? <;> rfl
      · intro hopen
        cases (node role .binaryExpression children).level? with
        | none => rfl
        | some p => simp [hasLevel_bare, hopen x (by simp)]
      · intro _
        cases (node role .binaryExpression children).level? <;> rfl
    all_goals rfl

end Tree

end HeyVL
