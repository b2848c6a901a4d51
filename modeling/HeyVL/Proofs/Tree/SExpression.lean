import HeyVL.Proofs.Tree.Subtrees
import HeyVL.Tree.SExpression

/-!
Reading S-expressions. A text is read sign by sign into trees of names, where the nodes that are not
complete are kept on a stack. Main statement: the S-expression of a tree is read as its named nodes,
each with its role.
-/

namespace HeyVL

/-- A tree of names, some of which have a label. -/
inductive NameTree
  | node (label : Option String) (name : String) (children : List NameTree)
deriving Repr

/-- A node of a tree of names in a list of all its nodes. -/
structure NameEntry where
  depth : Nat
  label : Option String
  name : String
deriving DecidableEq, Repr

namespace NameTree

def label : NameTree → Option String
  | node label _ _ => label

/-- The text that stands before a child with the given label. -/
def labelText : Option String → String
  | none => ""
  | some label => label ++ ": "

mutual

/-- The S-expression of a node without its label. -/
def text : NameTree → String
  | node _ name children => "(" ++ name ++ textOfList children ++ ")"

def textOfList : List NameTree → String
  | [] => ""
  | t :: rest => " " ++ labelText t.label ++ t.text ++ textOfList rest

end

mutual

/-- The nodes in preorder, where the first has the given depth. -/
def entries (depth : Nat) : NameTree → List NameEntry
  | node label name children => ⟨depth, label, name⟩ :: entriesOfList (depth + 1) children

def entriesOfList (depth : Nat) : List NameTree → List NameEntry
  | [] => []
  | t :: rest => t.entries depth ++ entriesOfList depth rest

end

mutual

theorem le_depth_of_mem_entries {depth : Nat} {t : NameTree} {e : NameEntry}
    (h : e ∈ t.entries depth) : depth ≤ e.depth := by
  cases t with
  | node label name children =>
    rcases List.mem_cons.mp h with rfl | h
    · exact le_rfl
    · exact (Nat.le_succ depth).trans (le_depth_of_mem_entriesOfList h)

theorem le_depth_of_mem_entriesOfList {depth : Nat} {ts : List NameTree} {e : NameEntry}
    (h : e ∈ entriesOfList depth ts) : depth ≤ e.depth := by
  cases ts with
  | nil => cases h
  | cons t ts =>
    rcases List.mem_append.mp h with h | h
    · exact le_depth_of_mem_entries h
    · exact le_depth_of_mem_entriesOfList h

end

theorem takeWhile_entries (depth : Nat) (ts us : List NameTree) :
    (entriesOfList (depth + 1) ts ++ entriesOfList depth us).takeWhile (depth < ·.depth) =
      entriesOfList (depth + 1) ts := by
  have hbelow : ∀ e ∈ entriesOfList (depth + 1) ts, decide (depth < e.depth) = true :=
    fun e he => decide_eq_true (le_depth_of_mem_entriesOfList he)
  rw [List.takeWhile_append_of_pos hbelow]
  cases us with
  | nil => rw [entriesOfList, List.takeWhile_nil, List.append_nil]
  | cons u us =>
    cases u
    rw [entriesOfList, entries, List.cons_append, List.takeWhile_cons_of_neg (by simp),
      List.append_nil]

theorem entriesOfList_injective :
    ∀ {ts us : List NameTree} {depth : Nat}, entriesOfList depth ts = entriesOfList depth us →
      ts = us
  | [], [], _, _ => rfl
  | [], .node .. :: _, _, h => by simp [entriesOfList, entries] at h
  | .node .. :: _, [], _, h => by simp [entriesOfList, entries] at h
  | .node label name ts :: ts', .node label' name' us :: us', depth, h => by
    rw [entriesOfList, entriesOfList, entries, entries, List.cons_append, List.cons_append] at h
    obtain ⟨hfirst, hrest⟩ := List.cons.inj h
    have hbelow : entriesOfList (depth + 1) ts = entriesOfList (depth + 1) us := by
      have hwhile := congrArg (List.takeWhile (depth < ·.depth)) hrest
      rwa [takeWhile_entries, takeWhile_entries] at hwhile
    rw [hbelow] at hrest
    rw [entriesOfList_injective hbelow, entriesOfList_injective (List.append_cancel_left hrest),
      (NameEntry.mk.inj hfirst).2.1, (NameEntry.mk.inj hfirst).2.2]

theorem entries_injective {depth : Nat} {t u : NameTree} (h : t.entries depth = u.entries depth) :
    t = u := by
  have hlist : entriesOfList depth [t] = entriesOfList depth [u] := by
    rw [entriesOfList, entriesOfList, h]
    rfl
  exact List.singleton_inj.mp (entriesOfList_injective hlist)

end NameTree

namespace SExpression

/-- A node whose children are being read. -/
structure Frame where
  label : Option String
  name : String
  children : List NameTree

namespace Frame

def add (f : Frame) (ts : List NameTree) : Frame := { f with children := f.children ++ ts }

theorem add_nil (f : Frame) : f.add [] = f := by rw [add, List.append_nil]

theorem add_add (f : Frame) (ts us : List NameTree) : (f.add ts).add us = f.add (ts ++ us) := by
  rw [add, add, add, List.append_assoc]

def tree (f : Frame) : NameTree := .node f.label f.name f.children

end Frame

/-- What is read of a text: the letters since the last sign, the label of the node that comes next,
and the nodes that are not complete, innermost first. The last of these is no node of the text and
has all complete trees. -/
structure Reader where
  letters : List Char
  label : Option String
  frames : List Frame

namespace Reader

def start : Reader := ⟨[], none, [⟨none, "", []⟩]⟩

/-- Letters that are not a label name the innermost node. -/
def settle (r : Reader) : Reader :=
  match r.letters, r.frames with
  | c :: cs, f :: outer => ⟨[], r.label, { f with name := .ofList (c :: cs) } :: outer⟩
  | _, _ => r

def close (r : Reader) : Reader :=
  match r.frames with
  | f :: g :: outer => { r with frames := g.add [f.tree] :: outer }
  | _ => r

/-- Reads one more sign or letter. -/
def read (r : Reader) : Char → Reader
  | '(' => ⟨[], none, ⟨r.label, "", []⟩ :: r.frames⟩
  | ')' => r.settle.close
  | ':' => { r with letters := [], label := some (.ofList r.letters) }
  | ' ' => r.settle
  | c => { r with letters := r.letters ++ [c] }

end Reader

/-- The tree that a text tells, if it tells just one. -/
def decode (text : String) : Option NameTree :=
  match (text.toList.foldl Reader.read .start).frames with
  | [⟨_, _, [t]⟩] => some t
  | _ => none

/-- A text of letters only. -/
def IsPlain (text : String) : Prop :=
  text.toList ≠ [] ∧ ∀ c ∈ text.toList, c ∉ ['(', ')', ':', ' ']

-- A text is taken as its letters, as reading them from its bytes would take longer.
theorem isPlain_ofList {cs : List Char} (hne : cs ≠ [])
    (h : (cs.all fun c => c ∉ ['(', ')', ':', ' ']) = true) : IsPlain (.ofList cs) := by
  rw [IsPlain, String.toList_ofList]
  exact ⟨hne, fun c hc => of_decide_eq_true (List.all_eq_true.mp h c hc)⟩

/-- A tree whose names and labels are plain. -/
inductive HasPlainNames : NameTree → Prop
  | node {label : Option String} {name : String} {children : List NameTree}
      (hlabel : ∀ text ∈ label, IsPlain text) (hname : IsPlain name)
      (inner : ∀ t ∈ children, HasPlainNames t) : HasPlainNames (.node label name children)

namespace Reader

variable {text : String} {f : Frame} {outer : List Frame} {label : Option String} {t : NameTree}
  {ts : List NameTree}

theorem read_letter {c : Char} (hc : c ∉ ['(', ')', ':', ' ']) (r : Reader) :
    r.read c = { r with letters := r.letters ++ [c] } := by
  simp only [List.mem_cons, List.not_mem_nil, or_false, not_or] at hc
  obtain ⟨hopen, hclose, hlabel, hblank⟩ := hc
  rw [read] <;> assumption

theorem foldl_letters {cs : List Char} (h : ∀ c ∈ cs, c ∉ ['(', ')', ':', ' ']) (r : Reader) :
    cs.foldl read r = { r with letters := r.letters ++ cs } := by
  induction cs generalizing r with
  | nil => rw [List.foldl_nil, List.append_nil]
  | cons c cs ih =>
    rw [List.foldl_cons, read_letter (h c List.mem_cons_self),
      ih fun c hc => h c (List.mem_cons_of_mem _ hc)]
    simp only [List.append_assoc, List.singleton_append]

theorem settle_name (h : IsPlain text) :
    settle ⟨text.toList, label, f :: outer⟩ = ⟨[], label, { f with name := text } :: outer⟩ := by
  obtain ⟨c, cs, htext⟩ := List.exists_cons_of_ne_nil h.1
  rw [htext]
  show (⟨[], label, { f with name := .ofList (c :: cs) } :: outer⟩ : Reader) = _
  rw [← htext, String.ofList_toList]

theorem foldl_labelText (h : ∀ text ∈ label, IsPlain text) (frames : List Frame) :
    (NameTree.labelText label).toList.foldl read ⟨[], none, frames⟩ = ⟨[], label, frames⟩ := by
  cases label with
  | none => rfl
  | some text =>
    rw [NameTree.labelText, String.toList_append, List.foldl_append, foldl_letters (h text rfl).2,
      List.nil_append]
    show (⟨[], some (.ofList text.toList), frames⟩ : Reader) = _
    rw [String.ofList_toList]

/-- Children are read one after the other. The first of them is behind the name of the node around
them, which is settled by the blank before it or by the end of the node. -/
theorem settle_foldl_textOfList
    (hlabel : ∀ t ∈ ts, ∀ text ∈ t.label, IsPlain text)
    (h : ∀ t ∈ ts, ∀ f outer,
      t.text.toList.foldl read ⟨[], t.label, f :: outer⟩ = ⟨[], none, f.add [t] :: outer⟩)
    (r : Reader) (f : Frame) (outer : List Frame) (hr : settle r = ⟨[], none, f :: outer⟩) :
    settle ((NameTree.textOfList ts).toList.foldl read r) = ⟨[], none, f.add ts :: outer⟩ := by
  induction ts generalizing r f with
  | nil => rwa [Frame.add_nil]
  | cons t ts ih =>
    have hrest := ih (fun u hu => hlabel u (List.mem_cons_of_mem _ hu))
      (fun u hu => h u (List.mem_cons_of_mem _ hu)) ⟨[], none, f.add [t] :: outer⟩ _ rfl
    have hblank : read r ' ' = ⟨[], none, f :: outer⟩ := hr
    have hstep : (NameTree.textOfList (t :: ts)).toList.foldl read r =
        (NameTree.textOfList ts).toList.foldl read (t.text.toList.foldl read
          ((NameTree.labelText t.label).toList.foldl read (read r ' '))) := by
      simp only [NameTree.textOfList, String.toList_append, List.foldl_append]
      rfl
    rw [hstep, hblank, foldl_labelText (hlabel t List.mem_cons_self), h t List.mem_cons_self, hrest,
      Frame.add_add, List.singleton_append]

theorem foldl_text (ht : HasPlainNames t) (f : Frame) (outer : List Frame) :
    t.text.toList.foldl read ⟨[], t.label, f :: outer⟩ = ⟨[], none, f.add [t] :: outer⟩ := by
  induction ht generalizing f outer with
  | @node label name ts hlabel hname inner ih =>
    have hlabels : ∀ t ∈ ts, ∀ text ∈ t.label, IsPlain text := by
      intro t ht
      cases inner t ht with
      | node hlabel => exact hlabel
    have hstep : (NameTree.node label name ts).text.toList.foldl read ⟨[], label, f :: outer⟩ =
        read ((NameTree.textOfList ts).toList.foldl read
          (name.toList.foldl read ⟨[], none, ⟨label, "", []⟩ :: f :: outer⟩)) ')' := by
      simp only [NameTree.text, String.toList_append, List.foldl_append]
      rfl
    have hclose (r : Reader) : read r ')' = r.settle.close := rfl
    rw [NameTree.label, hstep, foldl_letters hname.2, List.nil_append, hclose,
      settle_foldl_textOfList hlabels ih _ _ _ (settle_name hname)]
    rfl

end Reader

theorem decode_text {t : NameTree} (h : HasPlainNames t) (hlabel : t.label = none) :
    decode t.text = some t := by
  have hread := Reader.foldl_text h ⟨none, "", []⟩ []
  rw [hlabel] at hread
  rw [decode, Reader.start, hread]
  rfl

end SExpression

open SExpression

theorem Field.isPlain_text (f : Field) : IsPlain f.text := by
  cases f <;> exact isPlain_ofList (by decide) (by decide)

theorem Category.isPlain_name (c : Category) : IsPlain c.name := by
  cases c <;> exact isPlain_ofList (by decide) (by decide)

theorem Token.isPlain_name {t : Token} (h : t.named = true) : IsPlain t.name := by
  cases t
  case keyword | command | quantifier | binary | unary | punctuation => cases h
  all_goals exact isPlain_ofList (by decide) (by decide)

namespace Tree

variable {t : Tree}

mutual

/-- The names of the named nodes of a tree, labelled with their roles. -/
def names : Tree → NameTree
  | leaf role lexeme => .node (role.map Field.text) lexeme.token.name []
  | node role category children =>
    .node (role.map Field.text) category.name (namesOfList children)

def namesOfList : List Tree → List NameTree
  | [] => []
  | t :: rest => if t.named then t.names :: namesOfList rest else namesOfList rest

end

theorem namesOfList_eq (ts : List Tree) : namesOfList ts = (ts.filter named).map names := by
  induction ts with
  | nil => rfl
  | cons t ts ih =>
    rw [namesOfList, List.filter_cons]
    split
    · rw [List.map_cons, ih]
    · exact ih

theorem label_names (t : Tree) : t.names.label = t.role.map Field.text := by
  cases t <;> rfl

theorem hasPlainNames_names (h : t.named = true) : HasPlainNames t.names := by
  have hlabel (role : Option Field) : ∀ text ∈ role.map Field.text, IsPlain text := by
    intro text htext
    obtain ⟨f, -, rfl⟩ := Option.map_eq_some_iff.mp htext
    exact f.isPlain_text
  induction t using inductionOnChildren with
  | leaf role l => exact .node (hlabel role) (Token.isPlain_name h) (by simp)
  | node role c ts ih =>
    refine .node (hlabel role) c.isPlain_name fun u hu => ?_
    rw [namesOfList_eq] at hu
    obtain ⟨t, ht, rfl⟩ := List.mem_map.mp hu
    exact ih t (List.mem_filter.mp ht).1 (List.mem_filter.mp ht).2

theorem sexp_eq_text (t : Tree) : t.sexp = t.names.text := by
  have hlabel (role : Option Field) :
      roleLabel role = NameTree.labelText (role.map Field.text) := by
    cases role <;> rfl
  induction t using inductionOnChildren with
  | leaf role l => rw [sexp, names, NameTree.text, NameTree.textOfList, String.append_empty]
  | node role c ts ih =>
    have hlist : sexpOfList ts = NameTree.textOfList (namesOfList ts) := by
      induction ts with
      | nil => rfl
      | cons t ts ihts =>
        have hrest := ihts fun u hu => ih u (List.mem_cons_of_mem _ hu)
        rw [sexpOfList, namesOfList, hrest]
        split
        · rw [NameTree.textOfList, label_names, ih t List.mem_cons_self, hlabel]
        · rfl
    rw [sexp, names, NameTree.text, hlist]

theorem decode_sexp (h : t.named = true) (hrole : t.role = none) :
    decode t.sexp = some t.names := by
  rw [sexp_eq_text]
  refine decode_text (hasPlainNames_names h) ?_
  rw [label_names, hrole, Option.map_none]

end Tree

end HeyVL
