import HeyVL.Proofs.Expectation.Words

namespace HeyVL

open Production

namespace Tree

variable {path inner outer : List Crumb} {k : Crumb} {xs ys : List Tree} {root root' t u x : Tree}
  {l : Lexeme} {role r : Option Field} {c : Category} {before after : List Tree}

theorem Calls.head?_leaves {call : Tree} (h : call.Calls l) : call.leaves.head? = some l := by
  obtain ⟨r, args, rfl⟩ := h
  rfl

theorem mem_leavesOfList_of_mem (ht : t ∈ xs) (hl : l ∈ t.leaves) : l ∈ leavesOfList xs := by
  rw [leavesOfList_eq_flatMap, List.mem_flatMap]
  exact ⟨t, ht, hl⟩

theorem mem_leavesOfList_of_mem_subtreesOfList (hu : u ∈ subtreesOfList xs) (hl : l ∈ u.leaves) :
    l ∈ leavesOfList xs := by
  obtain ⟨t, ht, hu⟩ := mem_subtreesOfList_iff.mp hu
  exact mem_leavesOfList_of_mem ht ((isInfix_leaves hu).subset hl)

theorem front_append (inner outer : List Crumb) :
    front (inner ++ outer) = front outer ++ front inner := by
  induction inner with
  | nil => simp [front]
  | cons k inner ih => rw [List.cons_append, front, ih, front, List.append_assoc]

theorem back_append (inner outer : List Crumb) :
    back (inner ++ outer) = back inner ++ back outer := by
  induction inner with
  | nil => rfl
  | cons k inner ih => rw [List.cons_append, back, ih, back, List.append_assoc]

theorem mem_front_of_crumb (h : path = inner ++ k :: outer) (hl : l ∈ leavesOfList k.before.reverse) :
    l ∈ front path := by
  rw [h, front_append, front]
  simp [hl]

theorem mem_back_of_crumb (h : path = inner ++ k :: outer) (hl : l ∈ leavesOfList k.after) :
    l ∈ back path := by
  rw [h, back_append, back]
  simp [hl]

theorem Beside.mem_leaves (h : Beside path u) (hl : l ∈ u.leaves) : l ∈ front path ∨ l ∈ back path := by
  obtain ⟨k, hk, hu⟩ := h
  obtain ⟨inner, outer, hpath⟩ := List.append_of_mem hk
  exact hu.imp
    (fun hu => mem_front_of_crumb hpath (mem_leavesOfList_of_mem_subtreesOfList hu hl))
    fun hu => mem_back_of_crumb hpath (mem_leavesOfList_of_mem_subtreesOfList hu hl)

theorem mem_subtrees_iff_of_fill (h : fill path xs = [root]) :
    u ∈ root.subtrees ↔ u ∈ subtreesOfList xs ∨ Beside path u ∨
      ∃ inner k outer, path = inner ++ k :: outer ∧ u = k.around (fill inner xs) := by
  rw [← mem_subtreesOfList_fill_iff, h, subtreesOfList_eq_flatMap, List.flatMap_singleton]

theorem mem_leaves_of_child (hx : x ∈ t.children) (hl : l ∈ x.leaves) : l ∈ t.leaves :=
  (isInfix_leaves (mem_subtrees_of_mem hx)).subset hl

section Inside

variable (hfill : fill path xs = [root])
  (hnodup : (front path ++ (leavesOfList xs ++ back path)).Nodup)
  (hl : l ∈ leavesOfList xs)

include hnodup hl

theorem notMem_path_of_inside : l ∉ front path ∧ l ∉ back path := by
  obtain ⟨-, hbehind, hfront⟩ := List.nodup_append.mp hnodup
  obtain ⟨-, -, hback⟩ := List.nodup_append.mp hbehind
  exact ⟨fun h => hfront l h l (by simp [hl]) rfl, fun h => hback l hl l h rfl⟩

theorem mem_of_leaf_child_inside (hpath : path = inner ++ k :: outer)
    (h : leaf r l ∈ (k.around (fill inner xs)).children) : leaf r l ∈ xs := by
  obtain ⟨hfront, hback⟩ := notMem_path_of_inside hnodup hl
  rcases mem_children_around_iff.mp h with h | h | h
  · exact absurd (mem_front_of_crumb hpath (mem_leavesOfList_of_mem h (by simp [leaves]))) hfront
  · cases inner with
    | nil => exact h
    | cons k' inner =>
      obtain ⟨role, c, hfill⟩ := exists_fill_cons k' inner
      obtain ⟨us, hus⟩ := hfill xs
      rw [hus, List.mem_singleton] at h
      cases h
  · exact absurd (mem_back_of_crumb hpath (mem_leavesOfList_of_mem h (by simp [leaves]))) hback

variable (htop : ∀ x ∈ xs, (∀ r, x ≠ leaf r l) ∧ ¬ x.Calls l)

include hfill htop

theorem mem_of_leaf_child (hu : u ∈ root.subtrees) (h : leaf r l ∈ u.children) :
    u ∈ subtreesOfList xs := by
  obtain ⟨hfront, hback⟩ := notMem_path_of_inside hnodup hl
  rcases (mem_subtrees_iff_of_fill hfill).mp hu with hu | hu | ⟨inner, k, outer, hpath, rfl⟩
  · exact hu
  · have hmem := hu.mem_leaves (mem_leaves_of_child h (l := l) (by simp [leaves]))
    exact absurd hmem (by simp [hfront, hback])
  · exact absurd rfl ((htop _ (mem_of_leaf_child_inside hnodup hl hpath h)).1 r)

theorem mem_of_call_child {call : Tree} (hu : u ∈ root.subtrees) (h : call ∈ u.children)
    (hcalls : call.Calls l) : u ∈ subtreesOfList xs := by
  obtain ⟨hfront, hback⟩ := notMem_path_of_inside hnodup hl
  rcases (mem_subtrees_iff_of_fill hfill).mp hu with hu | hu | ⟨inner, k, outer, hpath, rfl⟩
  · exact hu
  · have hmem := hu.mem_leaves (mem_leaves_of_child h hcalls.mem_leaves)
    exact absurd hmem (by simp [hfront, hback])
  · rcases mem_children_around_iff.mp h with h | h | h
    · exact absurd (mem_front_of_crumb hpath (mem_leavesOfList_of_mem h hcalls.mem_leaves)) hfront
    · -- The call is a node of the path, and the leaf is its first child.
      rcases List.eq_nil_or_concat' inner with rfl | ⟨inner, k', rfl⟩
      · exact absurd hcalls (htop call h).2
      · rw [fill_append, fill, fill, List.mem_singleton] at h
        have hchild : leaf (some .function) l ∈ (k'.around (fill inner xs)).children := by
          obtain ⟨role, args, hcall⟩ := hcalls
          rw [← h, hcall]
          exact List.mem_cons_self
        have hpath' : path = inner ++ k' :: (k :: outer) := by simp [hpath]
        exact absurd rfl ((htop _ (mem_of_leaf_child_inside hnodup hl hpath' hchild)).1 _)
    · exact absurd (mem_back_of_crumb hpath (mem_leavesOfList_of_mem h hcalls.mem_leaves)) hback

variable (hmem : ∀ role c ts, node role c ts ∈ subtreesOfList xs →
  ∃ role', node role' c ts ∈ root'.subtrees)

include hmem

theorem exists_parent_of_call {call : Tree} (hu : u ∈ root.subtrees) (h : call ∈ u.children)
    (hcalls : call.Calls l) : ∃ v ∈ root'.subtrees, call ∈ v.children ∧ v.kind = u.kind := by
  have hu := mem_of_call_child hfill hnodup hl htop hu h hcalls
  cases u with
  | leaf => cases h
  | node role c ts =>
    obtain ⟨role', hmem⟩ := hmem role c ts hu
    exact ⟨_, hmem, h, rfl⟩

theorem InExpression.of_inside (h : root.InExpression l) : root'.InExpression l := by
  cases h with
  | @alone role r c before after mem expands =>
    have hchild : leaf r l ∈ (node role c (before ++ leaf r l :: after)).children := by
      simp [children]
    obtain ⟨role', hmem⟩ := hmem _ _ _ (mem_of_leaf_child hfill hnodup hl htop mem hchild)
    exact .alone hmem expands
  | call mem child calls ne =>
    obtain ⟨v, hv, hchild, hkind⟩ := exists_parent_of_call hfill hnodup hl htop hmem mem child calls
    exact .call hv hchild calls (hkind ▸ ne)

theorem StartsStatement.of_inside (h : root.StartsStatement l) : root'.StartsStatement l := by
  cases h with
  | @assignment role r rest mem =>
    have hchild : leaf r l ∈ (node role .assignmentStatement (leaf r l :: rest)).children := by
      simp [children]
    obtain ⟨role', hmem⟩ := hmem _ _ _ (mem_of_leaf_child hfill hnodup hl htop mem hchild)
    exact .assignment hmem
  | call mem child calls eq =>
    obtain ⟨v, hv, hchild, hkind⟩ := exists_parent_of_call hfill hnodup hl htop hmem mem child calls
    exact .call hv hchild calls (hkind ▸ eq)

end Inside

section Behind

variable (hfill : fill (k :: path) xs = [root]) (hfill' : fill (k :: path) ys = [root'])
  (hnodup : (front (k :: path) ++ (leavesOfList xs ++ back (k :: path))).Nodup)
  (hl : l ∈ back (k :: path))
  (hne : path ≠ [] → leavesOfList k.before.reverse ++ leavesOfList xs ≠ [])

include hnodup hl

theorem notMem_before_of_behind : l ∉ front (k :: path) ∧ l ∉ leavesOfList xs := by
  obtain ⟨-, hbehind, hfront⟩ := List.nodup_append.mp hnodup
  obtain ⟨-, -, hback⟩ := List.nodup_append.mp hbehind
  exact ⟨fun h => hfront l h l (by simp [hl]) rfl, fun h => hback l h l hl rfl⟩

include hne

theorem not_head_of_behind {k' : Crumb} (hpath : k :: path = inner ++ k' :: outer)
    (hx : x ∈ fill inner xs) (hhead : x.leaves.head? = some l) : False := by
  obtain ⟨hfront, hplace⟩ := notMem_before_of_behind hnodup hl
  cases inner with
  | nil => exact hplace (mem_leavesOfList_of_mem hx (List.mem_of_mem_head? hhead))
  | cons i inner =>
    obtain ⟨rfl, hrest⟩ := List.cons.inj hpath
    have hrest : path = inner ++ k' :: outer := hrest
    have hne := hne (by simp [hrest])
    obtain ⟨role, c, hfill⟩ := exists_fill_cons k inner
    obtain ⟨us, hus⟩ := hfill xs
    have hleaves := leavesOfList_fill (k :: inner) xs
    rw [hus] at hx hleaves
    obtain rfl := List.mem_singleton.mp hx
    have hbegin : (front inner ++ (leavesOfList k.before.reverse ++ leavesOfList xs)) ≠ [] := by
      simpa using fun _ => by simpa using hne
    rw [leavesOfList_singleton, front, List.append_assoc, ← List.append_assoc _ (leavesOfList xs),
      ← List.append_assoc] at hleaves
    rw [hleaves, List.head?_append_of_ne_nil _ hbegin] at hhead
    rcases List.mem_append.mp (List.mem_of_mem_head? hhead) with hmem | hmem
    · refine hfront ?_
      rw [front, hrest, front_append]
      simp [hmem]
    · rcases List.mem_append.mp hmem with hmem | hmem
      · exact hfront (by simp [front, hmem])
      · exact hplace hmem

include hfill hfill'

/-- What has a child that begins with a leaf behind the place is beside the path, or it is on the path
and the child is behind. -/
theorem cases_of_behind (hu : node role c (before ++ x :: after) ∈ root.subtrees)
    (hhead : x.leaves.head? = some l) :
    node role c (before ++ x :: after) ∈ root'.subtrees ∨
      ∃ inner k' outer between, k :: path = inner ++ k' :: outer ∧ k'.role = role ∧
        k'.category = c ∧ before = k'.before.reverse ++ (fill inner xs ++ between) ∧
        k'.after = between ++ x :: after ∧ k'.around (fill inner ys) ∈ root'.subtrees := by
  obtain ⟨hfront, hplace⟩ := notMem_before_of_behind hnodup hl
  have hlx := List.mem_of_mem_head? hhead
  have hleaf : l ∈ (node role c (before ++ x :: after)).leaves :=
    mem_leaves_of_child (x := x) (by simp [children]) hlx
  rcases (mem_subtrees_iff_of_fill hfill).mp hu with hu | hu | ⟨inner, k', outer, hpath, heq⟩
  · exact absurd (mem_leavesOfList_of_mem_subtreesOfList hu hleaf) hplace
  · exact .inl ((mem_subtrees_iff_of_fill hfill').mpr (.inr (.inl hu)))
  · right
    obtain ⟨rfl, rfl, hchildren⟩ : role = k'.role ∧ c = k'.category ∧ before ++ x :: after =
        k'.before.reverse ++ (fill inner xs ++ k'.after) := by simpa [Crumb.around] using heq
    have hmem := (mem_subtrees_iff_of_fill hfill').mpr (.inr (.inr ⟨inner, k', outer, hpath, rfl⟩))
    rcases append_eq_append_cons hchildren.symm with ⟨zs, hbefore, -⟩ | ⟨zs, rfl, hrest⟩
    · refine absurd (mem_front_of_crumb hpath (mem_leavesOfList_of_mem (t := x) ?_ hlx)) hfront
      rw [hbefore]
      simp
    · rcases append_eq_append_cons hrest with ⟨zs', hin, -⟩ | ⟨between, rfl, hafter⟩
      · refine (not_head_of_behind hnodup hl hne hpath (x := x) ?_ hhead).elim
        rw [hin]
        simp
      · exact ⟨inner, k', outer, between, hpath, rfl, rfl, rfl, hafter, hmem⟩

/-- An identifier behind the place is in expression position whatever is in the place, if this is so
for those directly behind. -/
theorem InExpression.of_behind
    (hslot : ∀ between r after, k.after = between ++ leaf r l :: after →
      k.category.production.Expands ((k.before.reverse ++ (xs ++ between)).map label ++
        (r, .category .literal) :: after.map label) →
      k.category.production.Expands ((k.before.reverse ++ (ys ++ between)).map label ++
        (r, .category .literal) :: after.map label))
    (h : root.InExpression l) : root'.InExpression l := by
  cases h with
  | @alone role r c before after mem expands =>
    rcases cases_of_behind hfill hfill' hnodup hl hne mem rfl with
      hmem | ⟨inner, k', outer, between, hpath, rfl, rfl, rfl, hafter, hmem⟩
    · exact .alone hmem expands
    · have hnode : k'.around (fill inner ys) = node k'.role k'.category
          ((k'.before.reverse ++ (fill inner ys ++ between)) ++ leaf r l :: after) := by
        rw [Crumb.around, hafter]
        simp only [List.append_assoc]
      rw [hnode] at hmem
      refine .alone hmem ?_
      -- Directly around the place the children change; further out only what is within a child does.
      cases inner with
      | nil =>
        obtain ⟨rfl, -⟩ := List.cons.inj hpath
        exact hslot between r after hafter expands
      | cons i inner =>
        obtain ⟨role, c, hsame⟩ := exists_fill_cons i inner
        obtain ⟨us, hus⟩ := hsame xs
        obtain ⟨us', hus'⟩ := hsame ys
        rw [hus, List.map_append, List.map_append] at expands
        rw [hus', List.map_append, List.map_append]
        exact expands
  | @call parent call mem child calls ne =>
    cases parent with
    | leaf => cases child
    | node role c children =>
      obtain ⟨before, after, rfl⟩ := List.append_of_mem child
      rcases cases_of_behind hfill hfill' hnodup hl hne mem calls.head?_leaves with
        hmem | ⟨inner, k', outer, between, hpath, rfl, rfl, rfl, hafter, hmem⟩
      · exact .call hmem child calls ne
      · exact .call hmem (mem_children_around_iff.mpr (.inr (.inr (by simp [hafter])))) calls ne

theorem StartsStatement.of_behind (hroot : root.kind = .category .sourceFile)
    (h : root.StartsStatement l) : root'.StartsStatement l := by
  cases h with
  | @assignment role r rest mem =>
    rw [← List.nil_append (leaf r l :: rest)] at mem
    rcases cases_of_behind hfill hfill' hnodup hl hne mem rfl with
      hmem | ⟨inner, k', outer, between, hpath, -, hcategory, hnil, hafter, -⟩
    · exact .assignment hmem
    · -- The leaf would be the first child of a node that has the place before it.
      exfalso
      simp only [List.nil_eq, List.append_eq_nil_iff] at hnil
      obtain ⟨hbefore, hplace, -⟩ := hnil
      cases inner with
      | nil =>
        obtain ⟨rfl, rfl⟩ := List.cons.inj hpath
        cases path with
        | nil =>
          obtain rfl : k.around xs = root := List.singleton_inj.mp hfill
          obtain hkind := Kind.category.inj hroot
          rw [hcategory] at hkind
          cases hkind
        | cons =>
          have hplace : xs = [] := hplace
          exact hne (List.cons_ne_nil _ _) (by rw [hbefore, hplace]; rfl)
      | cons i inner =>
        obtain ⟨role, c, hsame⟩ := exists_fill_cons i inner
        obtain ⟨us, hus⟩ := hsame xs
        rw [hus] at hplace
        cases hplace
  | @call parent call mem child calls eq =>
    cases parent with
    | leaf => cases child
    | node role c children =>
      obtain ⟨before, after, rfl⟩ := List.append_of_mem child
      rcases cases_of_behind hfill hfill' hnodup hl hne mem calls.head?_leaves with
        hmem | ⟨inner, k', outer, between, hpath, rfl, rfl, rfl, hafter, hmem⟩
      · exact .call hmem child calls eq
      · exact .call hmem (mem_children_around_iff.mpr (.inr (.inr (by simp [hafter])))) calls eq

end Behind

end Tree

end HeyVL
