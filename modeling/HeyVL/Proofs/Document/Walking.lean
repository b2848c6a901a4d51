import HeyVL.Document.Walk
import HeyVL.Proofs.Document.Outline
import HeyVL.Proofs.Tree.Walking

namespace HeyVL

namespace Row

variable {rows : List Row} {i i' j n n' : Nat}

/-- The row at `j` is that of the child with number `n` of the node whose row is at `i`: what stands
between them is below the node, and `n` rows of it are children. -/
def IsChild (rows : List Row) (i n j : Nat) : Prop :=
  ∃ row between child rest, rows.drop i = row :: (between ++ child :: rest) ∧
    j = i + 1 + between.length ∧ child.depth = row.depth + 1 ∧
    (∀ r ∈ between, row.depth < r.depth) ∧
    between.countP (fun r => r.depth == row.depth + 1) = n

theorem IsChild.not_lt (h : IsChild rows i n j) (h' : IsChild rows i' n' j) : ¬ i < i' := by
  obtain ⟨row, between, child, rest, hdrop, hj, hchild, hdeeper, -⟩ := h
  obtain ⟨row', between', child', rest', hdrop', hj', hchild', -, -⟩ := h'
  intro hlt
  -- The later of two such rows would be between the earlier one and its child.
  obtain ⟨m, rfl⟩ : ∃ m, i' = i + (m + 1) := ⟨i' - i - 1, by omega⟩
  rw [← List.drop_drop, hdrop, List.drop_succ_cons,
    List.drop_append_of_le_length (by omega)] at hdrop'
  have hsplit : between.drop m ++ child :: rest = (row' :: between') ++ child' :: rest' := hdrop'
  have hlength : (between.drop m).length = (row' :: between').length := by
    rw [List.length_drop, List.length_cons]
    omega
  obtain ⟨hrow, htail⟩ := List.append_inj hsplit hlength
  obtain ⟨rfl, -⟩ := List.cons.inj htail
  have hmem : row' ∈ between := List.mem_of_mem_drop (hrow ▸ List.mem_cons_self)
  have hdepth := hdeeper row' hmem
  omega

theorem IsChild.inj (h : IsChild rows i n j) (h' : IsChild rows i' n' j) : i = i' ∧ n = n' := by
  have hle := h.not_lt h'
  have hge := h'.not_lt h
  obtain rfl : i = i' := by omega
  refine ⟨rfl, ?_⟩
  obtain ⟨row, between, child, rest, hdrop, rfl, -, -, rfl⟩ := h
  obtain ⟨row', between', child', rest', hdrop', hj, -, -, rfl⟩ := h'
  rw [hdrop] at hdrop'
  obtain ⟨rfl, hrows⟩ := List.cons.inj hdrop'
  obtain ⟨rfl, -⟩ := List.append_inj hrows (by omega)
  rfl

end Row

namespace Cursor

variable {c c' : Cursor} {p : Tree → Bool} {n : Nat} {s : Step} {k : Crumb}

/-- How many nodes precede the place in preorder. -/
def nodesBefore : List Crumb → Nat
  | [] => 0
  | k :: path => nodesBefore path + 1 + (Tree.subtreesOfList k.before.reverse).length

/-- The number of the row that the cursor is at. -/
def index (c : Cursor) : Nat := nodesBefore c.path

theorem index_of_path_eq_cons (h : c'.path = k :: c.path) :
    c'.index = c.index + 1 + (Tree.subtreesOfList k.before.reverse).length := by
  rw [index, h]
  rfl

theorem exists_child_of_path_eq_cons {path : List Crumb} (h : c.path = k :: path) :
    ∃ (b : Cursor) (n : Nat), b.path = path ∧ b.step? (.child n) = some c :=
  ⟨⟨k.around [c.focus], path⟩, k.before.length, rfl, child_eq_some_iff.mpr ⟨k, h, rfl, rfl⟩⟩

theorem fill_of_child (h : c.step? (.child n) = some c') :
    Tree.fill c'.path [c'.focus] = Tree.fill c.path [c.focus] := by
  obtain ⟨k, hpath, hfocus, -⟩ := child_eq_some_iff.mp h
  rw [hpath, Tree.fill, hfocus]

theorem fill_of_childWhere? (h : c.childWhere? p n = some c') :
    Tree.fill c'.path [c'.focus] = Tree.fill c.path [c.focus] := by
  obtain ⟨i, hi, -⟩ := childWhere?_eq_some_iff_child.mp h
  exact fill_of_child hi

theorem fill_of_precedes (h : c.Precedes p c') :
    Tree.fill c'.path [c'.focus] = Tree.fill c.path [c.focus] := by
  obtain ⟨b, i, j, -, hc, hc', -⟩ := precedes_iff_child.mp h
  rw [fill_of_child hc, fill_of_child hc']

theorem fill_of_step (h : c.step? s = some c') :
    Tree.fill c'.path [c'.focus] = Tree.fill c.path [c.focus] := by
  cases s with
  | child n => exact fill_of_child h
  | namedChild n => exact fill_of_childWhere? h
  | field f => exact fill_of_childWhere? h
  | parent =>
    obtain ⟨n, hn⟩ := parent_eq_some_iff_child.mp h
    exact (fill_of_child hn).symm
  | next => exact fill_of_precedes (nextWhere?_eq_some_iff.mp h).1
  | nextNamed => exact fill_of_precedes (nextWhere?_eq_some_iff.mp h).1
  | prev => exact (fill_of_precedes (prevWhere?_eq_some_iff.mp h).1).symm
  | prevNamed => exact (fill_of_precedes (prevWhere?_eq_some_iff.mp h).1).symm

end Cursor

namespace Walk

variable {d : Document} {c c' : Cursor}

/-- The cursor behind a list of requests. -/
def cursorAfter (d : Document) (c : Cursor) (requests : List Request) : Cursor :=
  requests.foldl (fun c r => (respond d c r).1) c

/-- The cursor is come to by a walk from the root. -/
def Reached (d : Document) (c : Cursor) : Prop :=
  ∃ requests, cursorAfter d (.ofTree d.root) requests = c

theorem respond_step (d : Document) (c : Cursor) (s : Option Cursor.Step) :
    respond d c (.step s) = ((s.bind c.step?).getD c,
      .visit ((s.bind c.step?).map fun c' => visitOf d c'.focus)) := by
  rw [respond]
  cases s.bind c.step? <;> rfl

theorem getElem?_replies (d : Document) (c : Cursor) (before : List Request) (r : Request)
    (after : List Request) :
    (replies d c (before ++ r :: after))[before.length]? =
      some (respond d (cursorAfter d c before) r).2 := by
  induction before generalizing c with
  | nil => rfl
  | cons r' before ih => exact ih (respond d c r').1

theorem fill_respond (d : Document) (c : Cursor) (r : Request) :
    Tree.fill (respond d c r).1.path [(respond d c r).1.focus] = Tree.fill c.path [c.focus] := by
  cases r with
  | text => rfl
  | fields => rfl
  | step s =>
    rw [respond_step]
    cases hs : s.bind c.step? with
    | none => rfl
    | some c' =>
      obtain ⟨s, -, hstep⟩ := Option.bind_eq_some_iff.mp hs
      exact Cursor.fill_of_step hstep

theorem fill_cursorAfter (d : Document) (c : Cursor) (requests : List Request) :
    Tree.fill (cursorAfter d c requests).path [(cursorAfter d c requests).focus] =
      Tree.fill c.path [c.focus] := by
  induction requests generalizing c with
  | nil => rfl
  | cons r requests ih => exact (ih (respond d c r).1).trans (fill_respond d c r)

theorem Reached.step {s : Cursor.Step} (h : Reached d c) (hs : c.step? s = some c') :
    Reached d c' := by
  obtain ⟨requests, rfl⟩ := h
  refine ⟨requests ++ [.step (some s)], ?_⟩
  have hlast : (respond d (cursorAfter d (.ofTree d.root) requests) (.step (some s))).1 = c' := by
    rw [respond_step, Option.bind_some, hs, Option.getD_some]
  rw [← hlast, cursorAfter, cursorAfter, List.foldl_append]
  rfl

theorem Reached.fill (h : Reached d c) : Tree.fill c.path [c.focus] = [d.root] := by
  obtain ⟨requests, rfl⟩ := h
  exact fill_cursorAfter d _ requests

end Walk

namespace Document

variable {d : Document} {place : Nat → Point} {depth n j : Nat} {ts : List Tree} {r : Row}
  {post between rest : List Row} {c c' : Cursor}

theorem countP_depth_rowsOfList (d : Document) (place : Nat → Point) (depth : Nat)
    (ts : List Tree) :
    (d.rowsOfList place depth ts).countP (fun r => r.depth == depth) = ts.length := by
  induction ts with
  | nil => rfl
  | cons t ts ih =>
    have hbelow :
        (d.rowsOfList place (depth + 1) t.children).countP (fun r => r.depth == depth) = 0 := by
      rw [List.countP_eq_zero]
      intro r hr heq
      have hle := le_depth_of_mem_rowsOfList hr
      have hdepth := beq_iff_eq.mp heq
      omega
    rw [rowsOfList, List.countP_append, ih, rows_eq, List.countP_cons_of_pos, hbelow,
      List.length_cons]
    · omega
    · exact beq_self_eq_true depth

/-- A row at the depth of some siblings, before anything that is not below their node, is the first
row of one of them. -/
theorem exists_split_rowsOfList
    (h : d.rowsOfList place depth ts ++ post = between ++ r :: rest) (hr : r.depth = depth)
    (hbetween : ∀ s ∈ between, depth ≤ s.depth) (hpost : ∀ s ∈ post.head?, s.depth < depth) :
    ∃ us t vs, ts = us ++ t :: vs ∧ between = d.rowsOfList place depth us := by
  induction ts generalizing between with
  | nil =>
    exfalso
    rw [rowsOfList, List.nil_append] at h
    rw [h] at hpost
    cases between with
    | nil => exact (hpost r rfl).ne hr
    | cons s between => exact (hpost s rfl).not_ge (hbetween s List.mem_cons_self)
  | cons t ts ih =>
    rw [rowsOfList, rows_eq, List.append_assoc, List.cons_append] at h
    cases between with
    | nil => exact ⟨[], t, ts, rfl, rfl⟩
    | cons s between =>
      obtain ⟨rfl, hrows⟩ := List.cons.inj h
      -- The rows below the first sibling are deeper, and so all of them are passed.
      obtain ⟨between', rfl, hrest⟩ : ∃ between',
          between = d.rowsOfList place (depth + 1) t.children ++ between' ∧
            d.rowsOfList place depth ts ++ post = between' ++ r :: rest := by
        rcases List.append_eq_append_iff.mp hrows with ⟨us, hus, hvs⟩ | ⟨us, hus, hvs⟩
        · exact ⟨us, hus, hvs⟩
        · cases us with
          | nil => exact ⟨[], by rw [hus, List.append_nil, List.append_nil], hvs.symm⟩
          | cons u us =>
            obtain ⟨rfl, -⟩ := List.cons.inj hvs
            have hmem : r ∈ d.rowsOfList place (depth + 1) t.children :=
              hus ▸ List.mem_append_right _ List.mem_cons_self
            have hle := le_depth_of_mem_rowsOfList hmem
            omega
      have hbetween' : ∀ s ∈ between', depth ≤ s.depth := fun s hs =>
        hbetween s (List.mem_cons_of_mem _ (List.mem_append_right _ hs))
      obtain ⟨us, u, vs, rfl, rfl⟩ := ih hrest hbetween'
      refine ⟨t :: us, u, vs, rfl, ?_⟩
      rw [rowsOfList, rows_eq, List.cons_append]

theorem exists_rowsOfList_fill (d : Document) (place : Nat → Point) (path : List Crumb)
    (ts : List Tree) :
    ∃ pre post, d.rowsOfList place 0 (Tree.fill path ts) =
        pre ++ (d.rowsOfList place path.length ts ++ post) ∧
      pre.length = Cursor.nodesBefore path ∧ ∀ r ∈ post.head?, r.depth ≤ path.length := by
  induction path generalizing ts with
  | nil => exact ⟨[], [], by simp [Tree.fill], rfl, by simp⟩
  | cons k path ih =>
    obtain ⟨pre, post, hrows, hlength, hpost⟩ := ih [k.around ts]
    have haround : d.rowsOfList place path.length [k.around ts] =
        d.rowOf place path.length (k.around ts) ::
          (d.rowsOfList place (path.length + 1) k.before.reverse ++
            (d.rowsOfList place (path.length + 1) ts ++
              d.rowsOfList place (path.length + 1) k.after)) := by
      rw [rowsOfList, rows_eq, rowsOfList, List.append_nil, Crumb.around, Tree.children,
        rowsOfList_append, rowsOfList_append]
    refine ⟨pre ++ d.rowOf place path.length (k.around ts) ::
        d.rowsOfList place (path.length + 1) k.before.reverse,
      d.rowsOfList place (path.length + 1) k.after ++ post, ?_, ?_, fun r hr => ?_⟩
    · rw [Tree.fill, hrows, haround, List.length_cons]
      simp only [List.append_assoc, List.cons_append]
    · rw [List.length_append, List.length_cons, hlength, length_rowsOfList, Cursor.nodesBefore]
      omega
    · rw [List.head?_append, Option.mem_def, Option.or_eq_some_iff] at hr
      rw [List.length_cons]
      rcases hr with hr | ⟨-, hr⟩
      · exact (depth_head?_rowsOfList hr).le
      · exact (hpost r hr).trans (Nat.le_succ _)

theorem exists_drop_outline (h : Tree.fill c.path [c.focus] = [d.root]) :
    ∃ post, d.outline.drop c.index = d.rowOf d.source.pointAt c.path.length c.focus ::
        (d.rowsOfList d.source.pointAt (c.path.length + 1) c.focus.children ++ post) ∧
      ∀ r ∈ post.head?, r.depth ≤ c.path.length := by
  obtain ⟨pre, post, hrows, hlength, hpost⟩ :=
    d.exists_rowsOfList_fill d.source.pointAt c.path [c.focus]
  have houtline :
      d.outline = pre ++ (d.rowsOfList d.source.pointAt c.path.length [c.focus] ++ post) := by
    rw [← hrows, h, outline_eq_rows, rowsOfList, rowsOfList, List.append_nil]
  refine ⟨post, ?_, hpost⟩
  rw [houtline, Cursor.index, ← hlength, List.drop_left, rowsOfList, rowsOfList, List.append_nil,
    rows_eq, List.cons_append]

theorem getElem?_outline_index (h : Tree.fill c.path [c.focus] = [d.root]) :
    d.outline[c.index]? = some (d.rowOf d.source.pointAt c.path.length c.focus) := by
  obtain ⟨post, hdrop, -⟩ := exists_drop_outline h
  rw [← List.head?_drop, hdrop, List.head?_cons]

theorem isChild_outline_iff (h : Tree.fill c.path [c.focus] = [d.root]) :
    Row.IsChild d.outline c.index n j ↔ ∃ c', c.step? (.child n) = some c' ∧ c'.index = j := by
  obtain ⟨post, hdrop, hpost⟩ := exists_drop_outline h
  constructor
  · rintro ⟨row, between, child, rest, hdrop', rfl, hchild, hdeeper, rfl⟩
    rw [hdrop] at hdrop'
    obtain ⟨rfl, hrows⟩ := List.cons.inj hdrop'
    obtain ⟨us, t, vs, hchildren, rfl⟩ := exists_split_rowsOfList hrows hchild hdeeper
      fun s hs => Nat.lt_succ_of_le (hpost s hs)
    have hn := d.countP_depth_rowsOfList d.source.pointAt (c.path.length + 1) us
    have hlt : us.length < c.focus.children.length := by
      rw [hchildren, List.length_append, List.length_cons]
      omega
    obtain ⟨c', hc'⟩ := Option.isSome_iff_exists.mp (Cursor.isSome_child_iff.mpr hlt)
    refine ⟨c', hn.symm ▸ hc', ?_⟩
    obtain ⟨k, hpath, hfocus, hlength⟩ := Cursor.child_eq_some_iff.mp hc'
    rw [hfocus, Crumb.around, Tree.children] at hchildren
    obtain ⟨hbefore, -⟩ := List.append_inj hchildren (by rw [List.length_reverse, hlength])
    rw [Cursor.index_of_path_eq_cons hpath, hbefore, length_rowsOfList]
  · rintro ⟨c', hc', rfl⟩
    obtain ⟨k, hpath, hfocus, rfl⟩ := Cursor.child_eq_some_iff.mp hc'
    have hrows : d.rowsOfList d.source.pointAt (c.path.length + 1) c.focus.children ++ post =
        d.rowsOfList d.source.pointAt (c.path.length + 1) k.before.reverse ++
          d.rowOf d.source.pointAt (c.path.length + 1) c'.focus ::
            (d.rowsOfList d.source.pointAt (c.path.length + 2) c'.focus.children ++
              (d.rowsOfList d.source.pointAt (c.path.length + 1) k.after ++ post)) := by
      rw [hfocus, Crumb.around, Tree.children, rowsOfList_append, rowsOfList_append, rowsOfList,
        rowsOfList, rows_eq]
      simp only [List.append_assoc, List.cons_append, List.nil_append]
    refine ⟨_, _, _, _, hdrop.trans (congrArg _ hrows), ?_, rfl, fun r hr => ?_, ?_⟩
    · rw [Cursor.index_of_path_eq_cons hpath, length_rowsOfList]
    · exact le_depth_of_mem_rowsOfList hr
    · exact (d.countP_depth_rowsOfList _ _ _).trans List.length_reverse

theorem eq_ofTree_of_path_eq_nil (h : Tree.fill c.path [c.focus] = [d.root]) (hpath : c.path = []) :
    c = .ofTree d.root := by
  obtain ⟨focus, path⟩ := c
  obtain rfl : path = [] := hpath
  obtain rfl : focus = d.root := List.singleton_inj.mp h
  rfl

theorem index_inj (h : Tree.fill c.path [c.focus] = [d.root])
    (h' : Tree.fill c'.path [c'.focus] = [d.root]) (hindex : c.index = c'.index) : c = c' := by
  have hlength : c.path.length = c'.path.length := by
    have hrow := getElem?_outline_index h
    rw [hindex, getElem?_outline_index h', Option.some_inj] at hrow
    exact (congrArg Row.depth hrow).symm
  induction hpath : c.path generalizing c c' with
  | nil =>
    have hpath' : c'.path = [] := by
      rw [← List.length_eq_zero_iff, ← hlength, hpath, List.length_nil]
    rw [eq_ofTree_of_path_eq_nil h hpath, eq_ofTree_of_path_eq_nil h' hpath']
  | cons k path ih =>
    -- The nodes above are at the same row, since a row is below one row only.
    obtain ⟨k', path', hpath'⟩ : ∃ k' path', c'.path = k' :: path' := by
      refine List.exists_cons_of_length_pos ?_
      rw [← hlength, hpath]
      exact Nat.succ_pos _
    obtain ⟨b, n, rfl, hb⟩ := Cursor.exists_child_of_path_eq_cons hpath
    obtain ⟨b', n', rfl, hb'⟩ := Cursor.exists_child_of_path_eq_cons hpath'
    have hfill := (Cursor.fill_of_child hb).symm.trans h
    have hfill' := (Cursor.fill_of_child hb').symm.trans h'
    obtain ⟨habove, rfl⟩ := ((isChild_outline_iff hfill).mpr ⟨c, hb, hindex⟩).inj
      ((isChild_outline_iff hfill').mpr ⟨c', hb', rfl⟩)
    rw [hpath, hpath', List.length_cons, List.length_cons, Nat.succ_inj] at hlength
    obtain rfl := ih hfill hfill' habove hlength rfl
    exact Option.some.inj (hb.symm.trans hb')

theorem exists_split_subtreesOfList {i : Nat} (h : i < (Tree.subtreesOfList ts).length) :
    ∃ us t vs m, ts = us ++ t :: vs ∧ m < t.subtrees.length ∧
      i = (Tree.subtreesOfList us).length + m := by
  induction ts generalizing i with
  | nil => cases h
  | cons t ts ih =>
    rw [Tree.subtreesOfList, List.length_append] at h
    by_cases hi : i < t.subtrees.length
    · exact ⟨[], t, ts, i, rfl, hi, (Nat.zero_add i).symm⟩
    · obtain ⟨us, u, vs, m, rfl, hm, hrest⟩ := @ih (i - t.subtrees.length) (by omega)
      refine ⟨t :: us, u, vs, m, rfl, hm, ?_⟩
      rw [Tree.subtreesOfList, List.length_append]
      omega

/-- The steps to the children with the given numbers, one below the other. -/
def descent (ns : List Nat) : List Walk.Request := ns.map fun n => .step (some (.child n))

theorem exists_descent (d : Document) (t : Tree) (path : List Crumb) {i : Nat}
    (h : i < t.subtrees.length) :
    ∃ ns, (Walk.cursorAfter d ⟨t, path⟩ (descent ns)).index = Cursor.nodesBefore path + i := by
  induction t using Tree.inductionOnChildren generalizing path i with
  | leaf role l =>
    obtain rfl : i = 0 := Nat.lt_one_iff.mp h
    exact ⟨[], rfl⟩
  | node role category ts ih =>
    cases i with
    | zero => exact ⟨[], rfl⟩
    | succ i =>
      rw [Tree.subtrees, List.length_cons, Nat.succ_lt_succ_iff] at h
      obtain ⟨us, t, vs, m, rfl, hm, rfl⟩ := exists_split_subtreesOfList h
      let k : Crumb := ⟨role, category, us.reverse, vs⟩
      obtain ⟨ns, hns⟩ := ih t (List.mem_append_right us List.mem_cons_self) (k :: path) hm
      have hchild : Cursor.step? ⟨.node role category (us ++ t :: vs), path⟩ (.child us.length) =
          some ⟨t, k :: path⟩ :=
        Cursor.child_eq_some_iff.mpr ⟨k, rfl, by simp [k, Crumb.around], by simp [k]⟩
      refine ⟨us.length :: ns, ?_⟩
      rw [descent, List.map_cons, Walk.cursorAfter, List.foldl_cons, Walk.respond_step,
        Option.bind_some, hchild, Option.getD_some]
      refine hns.trans ?_
      rw [Cursor.nodesBefore, List.reverse_reverse]
      omega

/-- A walk goes through the tree that the outline lists. -/
structure IsNavigable (d : Document) : Prop where
  /-- A request is answered at the cursor that those before it lead to. -/
  reply : ∀ before r after, (Walk.run d (before ++ r :: after))[before.length]? =
    some (Walk.respond d (Walk.cursorAfter d (.ofTree d.root) before) r).2
  /-- Without a node to go to, the cursor stays where it is. -/
  step : ∀ c s, Walk.respond d c (.step s) = ((s.bind c.step?).getD c,
    .visit ((s.bind c.step?).map fun c' => Walk.visitOf d c'.focus))
  /-- The counts that a walk tells are those of the children. -/
  counts : ∀ t, (Walk.visitOf d t).childCount = t.children.length ∧
    (Walk.visitOf d t).namedChildCount = t.children.countP Tree.named
  text : ∀ c, (Walk.respond d c .text).1 = c
  fields : ∀ c, ∃ roles, Walk.respond d c .fields = (c, .fields roles) ∧
    roles.map (Option.map Field.text) = c.fieldNames
  /-- The cursor is at a row, and that is what the walk tells about it. -/
  row : ∀ c, Walk.Reached d c → ∃ r, d.outline[c.index]? = some r ∧
    r.depth = c.path.length ∧ r.role = c.focus.role ∧ r.kind = (Walk.visitOf d c.focus).kind ∧
    (r.kind == .token .comment) = (Walk.visitOf d c.focus).isComment ∧
    r.start = (Walk.visitOf d c.focus).start ∧ r.stop = (Walk.visitOf d c.focus).stop
  /-- Different places are at different rows. -/
  index_inj : ∀ c c', Walk.Reached d c → Walk.Reached d c' → c.index = c'.index → c = c'
  /-- The children are the rows that the depths tell, in their order. -/
  child : ∀ c, Walk.Reached d c → ∀ n j, Row.IsChild d.outline c.index n j ↔
    ∃ c', c.step? (.child n) = some c' ∧ c'.index = j
  ordered : ∀ c, Walk.Reached d c → c.IsOrdered
  /-- There is nothing around the root and beside it. -/
  root : ∀ s ∈ [Cursor.Step.parent, .next, .prev, .nextNamed, .prevNamed],
    (Cursor.ofTree d.root).step? s = none
  /-- Every other node is a child of a node that a walk comes to. -/
  above : ∀ c, Walk.Reached d c → c = .ofTree d.root ∨
    ∃ b n, Walk.Reached d b ∧ b.step? (.child n) = some c
  /-- Every row is come to by steps to children alone. -/
  covered : ∀ i < d.outline.length,
    ∃ ns, (Walk.cursorAfter d (.ofTree d.root) (descent ns)).index = i

/-- Walks visit the nodes of the outline, whatever the document. -/
theorem isNavigable (d : Document) : d.IsNavigable where
  reply := Walk.getElem?_replies d _
  step := Walk.respond_step d
  counts _ := ⟨rfl, rfl⟩
  text _ := rfl
  fields c := ⟨c.focus.children.map Tree.role, rfl, rfl⟩
  row c h := ⟨_, getElem?_outline_index h.fill, rfl, rfl, rfl, rfl, rfl, rfl⟩
  index_inj _ _ h h' := d.index_inj h.fill h'.fill
  child _ h _ _ := isChild_outline_iff h.fill
  ordered c _ := c.isOrdered
  root s hs := by
    simp only [List.mem_cons, List.not_mem_nil, or_false] at hs
    rcases hs with rfl | rfl | rfl | rfl | rfl <;> rfl
  above c h := by
    cases hpath : c.path with
    | nil => exact .inl (eq_ofTree_of_path_eq_nil h.fill hpath)
    | cons k path =>
      obtain ⟨b, n, -, hb⟩ := Cursor.exists_child_of_path_eq_cons hpath
      exact .inr ⟨b, n, h.step (Cursor.parent_eq_some_iff_child.mpr ⟨n, hb⟩), hb⟩
  covered i h := by
    rw [outline_eq_rows, length_rows] at h
    obtain ⟨ns, hns⟩ := d.exists_descent d.root [] h
    exact ⟨ns, hns.trans (Nat.zero_add i)⟩

end Document

end HeyVL
