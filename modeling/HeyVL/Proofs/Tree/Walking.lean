import HeyVL.Proofs.Language.Symbols
import HeyVL.Proofs.Tree.Slots

namespace HeyVL

namespace Cursor

variable {p : Tree → Bool} {n i j : Nat} {b c c' : Cursor} {k : Crumb} {t : Tree}
  {before before' after ts : List Tree} {name : String}

theorem seek_eq_some_iff :
    seek p n before ts = some (before', t, after) ↔
      ∃ passed, ts = passed ++ t :: after ∧ before' = passed.reverse ++ before ∧ p t = true ∧
        passed.countP p = n := by
  constructor
  · intro h
    induction ts generalizing n before with
    | nil => cases h
    | cons u ts ih =>
      cases hu : p u with
      | false =>
        obtain ⟨passed, rfl, rfl, ht, hn⟩ := ih (by simpa [seek, hu] using h)
        exact ⟨u :: passed, rfl, by simp, ht, by simp [hu, hn]⟩
      | true =>
        cases n with
        | zero =>
          obtain ⟨rfl, rfl, rfl⟩ : before = before' ∧ u = t ∧ ts = after := by
            simpa [seek, hu] using h
          exact ⟨[], rfl, rfl, hu, rfl⟩
        | succ n =>
          obtain ⟨passed, rfl, rfl, ht, hn⟩ := ih (by simpa [seek, hu] using h)
          exact ⟨u :: passed, rfl, by simp, ht, by simp [hu, hn]⟩
  · rintro ⟨passed, rfl, rfl, ht, rfl⟩
    induction passed generalizing before with
    | nil => simp [seek, ht]
    | cons u passed ih => cases hu : p u <;> simp [seek, hu, ih]

theorem isSome_seek_iff : (seek p n before ts).isSome ↔ n < ts.countP p := by
  induction ts generalizing n before with
  | nil => simp [seek]
  | cons u ts ih =>
    cases hu : p u with
    | true =>
      cases n with
      | zero => simp [seek, hu]
      | succ n => simp [seek, hu, ih]
    | false => simp [seek, hu, ih]

theorem childWhere?_eq_some_iff :
    c.childWhere? p n = some c' ↔ ∃ k, c'.path = k :: c.path ∧ c.focus = k.around [c'.focus] ∧
      p c'.focus = true ∧ k.before.countP p = n := by
  obtain ⟨focus, path⟩ := c
  cases focus with
  | leaf role l => simp [childWhere?, Crumb.around]
  | node role category ts =>
    simp only [childWhere?, Option.map_eq_some_iff]
    constructor
    · rintro ⟨⟨before, t, after⟩, hseek, rfl⟩
      obtain ⟨passed, rfl, rfl, ht, hn⟩ := seek_eq_some_iff.mp hseek
      refine ⟨_, rfl, ?_, ht, ?_⟩
      · simp [Crumb.around]
      · simpa using hn
    · rintro ⟨k, hpath, hfocus, ht, hn⟩
      obtain ⟨rfl, rfl, rfl⟩ := Tree.node.inj hfocus
      refine ⟨(k.before, c'.focus, k.after), seek_eq_some_iff.mpr ⟨k.before.reverse, ?_⟩, ?_⟩
      · simpa [ht] using hn
      · rw [← hpath]

theorem isSome_childWhere?_iff : (c.childWhere? p n).isSome ↔ n < c.focus.children.countP p := by
  obtain ⟨focus, path⟩ := c
  cases focus with
  | leaf role l => simp [childWhere?, Tree.children]
  | node role category ts =>
    rw [childWhere?, Option.isSome_map, isSome_seek_iff, Tree.children]

theorem child_eq_some_iff :
    c.step? (.child n) = some c' ↔
      ∃ k, c'.path = k :: c.path ∧ c.focus = k.around [c'.focus] ∧ k.before.length = n := by
  simp [step?, childWhere?_eq_some_iff, List.countP_true]

theorem isSome_child_iff : (c.step? (.child n)).isSome ↔ n < c.focus.children.length := by
  rw [step?, isSome_childWhere?_iff, List.countP_true]

theorem parent_eq_some_iff :
    c'.step? .parent = some c ↔ ∃ k, c'.path = k :: c.path ∧ c.focus = k.around [c'.focus] := by
  cases hpath : c'.path with
  | nil => simp [step?, parent?, hpath]
  | cons k path =>
    have hparent : c'.step? .parent = some ⟨k.around [c'.focus], path⟩ := by
      rw [step?, parent?, hpath]
      rfl
    rw [hparent]
    constructor
    · intro h
      obtain rfl := Option.some.inj h
      exact ⟨k, rfl, rfl⟩
    · rintro ⟨k', hcons, hfocus⟩
      obtain ⟨rfl, rfl⟩ := List.cons.inj hcons
      rw [← hfocus]

theorem parent_eq_some_iff_child :
    c'.step? .parent = some c ↔ ∃ n, c.step? (.child n) = some c' := by
  simp only [parent_eq_some_iff, child_eq_some_iff]
  constructor
  · rintro ⟨k, hpath, hfocus⟩
    exact ⟨_, k, hpath, hfocus, rfl⟩
  · rintro ⟨n, k, hpath, hfocus, -⟩
    exact ⟨k, hpath, hfocus⟩

theorem child_inj (h : b.step? (.child i) = some c) (h' : c'.step? (.child j) = some c) :
    b = c' ∧ i = j := by
  constructor
  · have hb := parent_eq_some_iff_child.mpr ⟨i, h⟩
    rw [parent_eq_some_iff_child.mpr ⟨j, h'⟩] at hb
    exact (Option.some.inj hb).symm
  · obtain ⟨k, hpath, -, rfl⟩ := child_eq_some_iff.mp h
    obtain ⟨k', hpath', -, rfl⟩ := child_eq_some_iff.mp h'
    rw [hpath] at hpath'
    rw [(List.cons.inj hpath').1]

theorem getElem?_children_of_child (h : c.step? (.child n) = some c') :
    c.focus.children[n]? = some c'.focus := by
  obtain ⟨k, -, hfocus, rfl⟩ := child_eq_some_iff.mp h
  simp [hfocus, Crumb.around, Tree.children]

theorem childWhere?_eq_some_iff_child :
    c.childWhere? p n = some c' ↔ ∃ i, c.step? (.child i) = some c' ∧ p c'.focus = true ∧
      (c.focus.children.take i).countP p = n := by
  have htake {k : Crumb} (hfocus : c.focus = k.around [c'.focus]) :
      (c.focus.children.take k.before.length).countP p = k.before.countP p := by
    simp [hfocus, Crumb.around, Tree.children]
  simp only [childWhere?_eq_some_iff, child_eq_some_iff]
  constructor
  · rintro ⟨k, hpath, hfocus, ht, hn⟩
    exact ⟨_, ⟨k, hpath, hfocus, rfl⟩, ht, (htake hfocus).trans hn⟩
  · rintro ⟨_, ⟨k, hpath, hfocus, rfl⟩, ht, hn⟩
    exact ⟨k, hpath, hfocus, ht, (htake hfocus).symm.trans hn⟩

/-- The second cursor is at a later child of the same node, and no child between them satisfies
`p`. -/
def Precedes (p : Tree → Bool) (c c' : Cursor) : Prop :=
  ∃ role category before between after path,
    c.path = ⟨role, category, before, between ++ c'.focus :: after⟩ :: path ∧
      c'.path = ⟨role, category, between.reverse ++ c.focus :: before, after⟩ :: path ∧
        between.countP p = 0

theorem nextWhere?_eq_some_iff :
    c.nextWhere? p = some c' ↔ c.Precedes p c' ∧ p c'.focus = true := by
  obtain ⟨focus, _ | ⟨k, path⟩⟩ := c
  · simp [nextWhere?, Precedes]
  · simp only [nextWhere?, Option.map_eq_some_iff]
    constructor
    · rintro ⟨⟨before, t, after⟩, hseek, rfl⟩
      obtain ⟨passed, hafter, rfl, ht, hn⟩ := seek_eq_some_iff.mp hseek
      exact ⟨⟨k.role, k.category, k.before, passed, after, path, by rw [← hafter], rfl, hn⟩, ht⟩
    · rintro ⟨⟨role, category, before, between, after, path', hpath, hpath', hn⟩, ht⟩
      obtain ⟨rfl, rfl⟩ := List.cons.inj hpath
      refine ⟨_, seek_eq_some_iff.mpr ⟨between, rfl, rfl, ht, hn⟩, ?_⟩
      rw [← hpath']

theorem prevWhere?_eq_some_iff :
    c'.prevWhere? p = some c ↔ c.Precedes p c' ∧ p c.focus = true := by
  obtain ⟨focus, _ | ⟨k, path⟩⟩ := c'
  · simp [prevWhere?, Precedes]
  · simp only [prevWhere?, Option.map_eq_some_iff]
    constructor
    · rintro ⟨⟨after, t, before⟩, hseek, rfl⟩
      obtain ⟨passed, hbefore, rfl, ht, hn⟩ := seek_eq_some_iff.mp hseek
      refine ⟨⟨k.role, k.category, before, passed.reverse, k.after, path, rfl, ?_, ?_⟩, ht⟩
      · rw [List.reverse_reverse, ← hbefore]
      · rwa [List.countP_reverse]
    · rintro ⟨⟨role, category, before, between, after, path', hpath, hpath', hn⟩, ht⟩
      obtain ⟨rfl, rfl⟩ := List.cons.inj hpath'
      refine ⟨_, seek_eq_some_iff.mpr ⟨between.reverse, rfl, rfl, ht, ?_⟩, ?_⟩
      · rwa [List.countP_reverse]
      · rw [List.reverse_reverse, ← hpath]

theorem drop_take_of_split {α : Type} (xs ys zs : List α) (t u : α) :
    ((xs ++ t :: (ys ++ u :: zs)).take (xs.length + 1 + ys.length)).drop (xs.length + 1) = ys := by
  have hsplit : xs ++ t :: (ys ++ u :: zs) = (xs ++ [t]) ++ ys ++ u :: zs := by simp
  have hlength : (xs ++ [t]).length = xs.length + 1 := by simp
  rw [hsplit, ← hlength, ← List.length_append, List.take_left, List.drop_left]

theorem precedes_iff_child :
    c.Precedes p c' ↔ ∃ (b : Cursor) (i j : Nat), i < j ∧ b.step? (.child i) = some c ∧
      b.step? (.child j) = some c' ∧ ((b.focus.children.take j).drop (i + 1)).countP p = 0 := by
  simp only [child_eq_some_iff]
  constructor
  · rintro ⟨role, category, before, between, after, path, hpath, hpath', hn⟩
    let k : Crumb := ⟨role, category, before, between ++ c'.focus :: after⟩
    refine ⟨⟨k.around [c.focus], path⟩, before.length, before.length + 1 + between.length,
      by omega, ⟨k, hpath, rfl, rfl⟩, ⟨_, hpath', ?_, ?_⟩, ?_⟩
    · simp [k, Crumb.around]
    · simp
      omega
    · rw [Crumb.around, Tree.children, ← List.length_reverse, List.singleton_append,
        drop_take_of_split, hn]
  · rintro ⟨b, _, _, hlt, ⟨k, hpath, hfocus, rfl⟩, ⟨k', hpath', hfocus', rfl⟩, hn⟩
    rw [hfocus] at hfocus' hn
    obtain ⟨hrole, hcategory, hchildren⟩ := Tree.node.inj hfocus'
    -- The later node is among those behind the earlier one, since more nodes are before it.
    obtain ⟨between, hbefore, hafter⟩ : ∃ between,
        k'.before = between.reverse ++ c.focus :: k.before ∧
          k.after = between ++ c'.focus :: k'.after := by
      rcases List.append_eq_append_iff.mp hchildren with ⟨us, hus, hvs⟩ | ⟨us, hus, -⟩
      · cases us with
        | nil =>
          have hlength := congrArg List.length hus
          simp at hlength
          omega
        | cons u us =>
          obtain ⟨rfl, hafter⟩ := List.cons.inj hvs
          refine ⟨us, ?_, hafter⟩
          rw [← List.reverse_reverse k'.before, hus]
          simp
      · have hlength := congrArg List.length hus
        simp at hlength
        omega
    refine ⟨k.role, k.category, k.before, between, k'.after, b.path, ?_, ?_, ?_⟩
    · rw [hpath, ← hafter]
    · rw [hpath', hrole, hcategory, ← hbefore]
    · have hlength : k'.before.length = k.before.reverse.length + 1 + between.length := by
        simp [hbefore]
        omega
      rw [Crumb.around, Tree.children, hafter, hlength, ← List.length_reverse] at hn
      rwa [List.singleton_append, drop_take_of_split] at hn

theorem nextWhere?_eq_some_iff_child (h : b.step? (.child i) = some c) :
    c.nextWhere? p = some c' ↔ ∃ j, i < j ∧ b.step? (.child j) = some c' ∧ p c'.focus = true ∧
      ∀ t ∈ (b.focus.children.take j).drop (i + 1), p t = false := by
  rw [nextWhere?_eq_some_iff, precedes_iff_child]
  simp only [List.countP_eq_zero, Bool.not_eq_true]
  constructor
  · rintro ⟨⟨b', i', j, hlt, hc, hc', hbetween⟩, ht⟩
    obtain ⟨rfl, rfl⟩ := child_inj h hc
    exact ⟨j, hlt, hc', ht, hbetween⟩
  · rintro ⟨j, hlt, hc', ht, hbetween⟩
    exact ⟨⟨b, i, j, hlt, h, hc', hbetween⟩, ht⟩

theorem prevWhere?_eq_some_iff_child (h : b.step? (.child j) = some c) :
    c.prevWhere? p = some c' ↔ ∃ i, i < j ∧ b.step? (.child i) = some c' ∧ p c'.focus = true ∧
      ∀ t ∈ (b.focus.children.take j).drop (i + 1), p t = false := by
  rw [prevWhere?_eq_some_iff, precedes_iff_child]
  simp only [List.countP_eq_zero, Bool.not_eq_true]
  constructor
  · rintro ⟨⟨b', i, j', hlt, hc', hc, hbetween⟩, ht⟩
    obtain ⟨rfl, rfl⟩ := child_inj h hc
    exact ⟨i, hlt, hc', ht, hbetween⟩
  · rintro ⟨i, hlt, hc', ht, hbetween⟩
    exact ⟨⟨b, i, j, hlt, hc', h, hbetween⟩, ht⟩

theorem next_eq_child (h : b.step? (.child i) = some c) :
    c.step? .next = b.step? (.child (i + 1)) := by
  refine Option.ext fun c' => (nextWhere?_eq_some_iff_child h).trans ⟨?_, fun hc' => ?_⟩
  · rintro ⟨j, hlt, hc', -, hbetween⟩
    have hj : j < b.focus.children.length := isSome_child_iff.mp (hc' ▸ rfl)
    have hnil : (b.focus.children.take j).drop (i + 1) = [] :=
      List.eq_nil_iff_forall_not_mem.mpr fun t ht => Bool.noConfusion (hbetween t ht)
    have hlength := congrArg List.length hnil
    rw [List.length_drop, List.length_take, List.length_nil] at hlength
    obtain rfl : j = i + 1 := by omega
    exact hc'
  · refine ⟨i + 1, Nat.lt_succ_self i, hc', rfl, fun t ht => ?_⟩
    rw [List.drop_eq_nil_of_le (List.length_take_le _ _)] at ht
    cases ht

/-- The steps between siblings undo each other where they do not come to rest on other nodes. -/
theorem nextWhere?_eq_some_iff_prevWhere? (h : p c.focus = true) (h' : p c'.focus = true) :
    c.nextWhere? p = some c' ↔ c'.prevWhere? p = some c := by
  simp [nextWhere?_eq_some_iff, prevWhere?_eq_some_iff, h, h']

def fieldNames (c : Cursor) : List (Option String) :=
  (c.focus.children.map Tree.role).map (Option.map Field.text)

def toField? (c : Cursor) (name : String) : Option Cursor :=
  ((Field.ofText? name).map Step.field).bind c.step?

theorem role_eq_some_iff {f : Field} : t.role = some f ↔ t.role.map Field.text = some f.text := by
  constructor
  · intro h
    rw [h, Option.map_some]
  · intro h
    obtain ⟨g, hg, htext⟩ := Option.map_eq_some_iff.mp h
    rw [hg, Field.text_injective htext]

theorem countP_role (f : Field) (ts : List Tree) :
    ts.countP (fun t => t.role == some f) =
      ((ts.map Tree.role).map (Option.map Field.text)).count (some f.text) := by
  rw [List.count, List.countP_map, List.countP_map]
  refine List.countP_congr fun t _ => ?_
  rw [beq_iff_eq, role_eq_some_iff, Function.comp_apply, Function.comp_apply, beq_iff_eq]

theorem toField?_eq_some_iff :
    c.toField? name = some c' ↔ ∃ i, c.step? (.child i) = some c' ∧
      c.fieldNames[i]? = some (some name) ∧ some name ∉ c.fieldNames.take i := by
  have hname {i : Nat} (h : c.step? (.child i) = some c') :
      c.fieldNames[i]? = some (c'.focus.role.map Field.text) := by
    simp [fieldNames, getElem?_children_of_child h]
  have hcount (f : Field) (i : Nat) :
      (c.focus.children.take i).countP (fun t => t.role == some f) = 0 ↔
        some f.text ∉ c.fieldNames.take i := by
    rw [countP_role, List.count_eq_zero, fieldNames, List.map_take, List.map_take]
  constructor
  · intro h
    obtain ⟨s, hs, hc'⟩ := Option.bind_eq_some_iff.mp h
    obtain ⟨f, hf, rfl⟩ := Option.map_eq_some_iff.mp hs
    obtain rfl := Field.ofText?_eq_some_iff.mp hf
    obtain ⟨i, hi, hrole, hfirst⟩ := childWhere?_eq_some_iff_child.mp hc'
    refine ⟨i, hi, ?_, (hcount f i).mp hfirst⟩
    rw [hname hi, role_eq_some_iff.mp (beq_iff_eq.mp hrole)]
  · rintro ⟨i, hi, hentry, hfirst⟩
    rw [hname hi, Option.some_inj] at hentry
    obtain ⟨f, hf, rfl⟩ := Option.map_eq_some_iff.mp hentry
    rw [toField?, Field.ofText?_text, Option.map_some, Option.bind_some]
    exact childWhere?_eq_some_iff_child.mpr ⟨i, hi, beq_iff_eq.mpr hf, (hcount f i).mpr hfirst⟩

theorem toField?_eq_none_iff : c.toField? name = none ↔ some name ∉ c.fieldNames := by
  rw [← Option.not_isSome_iff_eq_none, not_iff_not]
  constructor
  · intro h
    obtain ⟨c', hc'⟩ := Option.isSome_iff_exists.mp h
    obtain ⟨i, -, hentry, -⟩ := toField?_eq_some_iff.mp hc'
    exact List.mem_of_getElem? hentry
  · intro h
    obtain ⟨role, -, hrole⟩ := List.mem_map.mp h
    obtain ⟨f, rfl, rfl⟩ := Option.map_eq_some_iff.mp hrole
    rw [toField?, Field.ofText?_text, Option.map_some, Option.bind_some, step?,
      isSome_childWhere?_iff, countP_role, List.count_pos_iff]
    exact h

/-- The steps lead through the children of the node in their order. -/
structure IsOrdered (c : Cursor) : Prop where
  child : ∀ n, (c.step? (.child n)).isSome ↔ n < c.focus.children.length
  parent : ∀ c', c'.step? .parent = some c ↔ ∃ n, c.step? (.child n) = some c'
  next : ∀ n c', c.step? (.child n) = some c' → c'.step? .next = c.step? (.child (n + 1))
  prev : ∀ c', c.step? .next = some c' ↔ c'.step? .prev = some c
  /-- The named children are counted without the others between them. -/
  namedChild : ∀ n c', c.step? (.namedChild n) = some c' ↔
    ∃ i, c.step? (.child i) = some c' ∧ c'.focus.named = true ∧
      (c.focus.children.take i).countP Tree.named = n
  namedChildCount : ∀ n, (c.step? (.namedChild n)).isSome ↔ n < c.focus.children.countP Tree.named
  nextNamed : ∀ i c', c.step? (.child i) = some c' → ∀ c'', c'.step? .nextNamed = some c'' ↔
    ∃ j, i < j ∧ c.step? (.child j) = some c'' ∧ c''.focus.named = true ∧
      ∀ t ∈ (c.focus.children.take j).drop (i + 1), t.named = false
  prevNamed : ∀ j c', c.step? (.child j) = some c' → ∀ c'', c'.step? .prevNamed = some c'' ↔
    ∃ i, i < j ∧ c.step? (.child i) = some c'' ∧ c''.focus.named = true ∧
      ∀ t ∈ (c.focus.children.take j).drop (i + 1), t.named = false
  /-- From a node that is not named, the step back leads past it. -/
  inverseNamed : ∀ c', c.focus.named = true → c'.focus.named = true →
    (c.step? .nextNamed = some c' ↔ c'.step? .prevNamed = some c)
  /-- Where a field has several children, the step leads to the first one. -/
  field : ∀ name c', c.toField? name = some c' ↔ ∃ i, c.step? (.child i) = some c' ∧
    c.fieldNames[i]? = some (some name) ∧ some name ∉ c.fieldNames.take i
  noField : ∀ name, c.toField? name = none ↔ some name ∉ c.fieldNames

theorem isOrdered (c : Cursor) : c.IsOrdered where
  child _ := isSome_child_iff
  parent _ := parent_eq_some_iff_child
  next _ _ := next_eq_child
  prev _ := nextWhere?_eq_some_iff_prevWhere? rfl rfl
  namedChild _ _ := childWhere?_eq_some_iff_child
  namedChildCount _ := isSome_childWhere?_iff
  nextNamed _ _ h _ := nextWhere?_eq_some_iff_child h
  prevNamed _ _ h _ := prevWhere?_eq_some_iff_child h
  inverseNamed _ := nextWhere?_eq_some_iff_prevWhere?
  field _ _ := toField?_eq_some_iff
  noField _ := toField?_eq_none_iff

end Cursor

end HeyVL
