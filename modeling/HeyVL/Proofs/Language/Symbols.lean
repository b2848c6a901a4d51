import HeyVL.Language.Symbol
import HeyVL.Tree.Basic
import Mathlib.Data.List.Nodup

namespace HeyVL

namespace Symbol

variable {s : Symbol} {id : Nat}

theorem mem_table_token (t : Token) : token t ∈ table := by
  refine List.mem_cons_of_mem _ (List.mem_append_left _ (List.mem_append_left _ ?_))
  exact List.mem_map_of_mem t.mem_all

theorem mem_table_category (c : Category) : nonterminal (.visible c) ∈ table := by
  refine List.mem_cons_of_mem _ (List.mem_append_left _ (List.mem_append_right _ ?_))
  exact List.mem_map_of_mem (Nonterminal.mem_all (.visible c))

theorem ofId?_eq_some_iff : ofId? id = some s ↔
    table[id]? = some s ∨ id = errorId ∧ s = error ∨ id = errorRepeatId ∧ s = errorRepeat := by
  have herror : table[errorId]? = none := by decide
  have hrepeat : table[errorRepeatId]? = none := by decide
  have hne : errorRepeatId ≠ errorId := by decide
  rw [ofId?]
  by_cases hid : id = errorId
  · rw [hid, if_pos rfl, herror, Option.some_inj]
    simp only [reduceCtorEq, true_and, hne.symm, false_and, or_false, false_or, eq_comm]
  · rw [if_neg hid]
    by_cases hid' : id = errorRepeatId
    · rw [hid', if_pos rfl, hrepeat, Option.some_inj]
      simp only [reduceCtorEq, true_and, hne, false_and, false_or, eq_comm]
    · rw [if_neg hid']
      simp only [hid, hid', false_and, or_false]

/-- The bytes of a text as the digits of a number. Many texts are told apart faster by their codes. -/
def code (text : String) : Nat := (Bytes.ofText text).foldl (fun n b => 256 * n + b.toNat) 0

theorem nodup_names (named : Bool) :
    ((table.filter fun s => s.visible && s.named == named).map name).Nodup := by
  have hcodes : ∀ named, ((table.filter fun s => s.visible && s.named == named).map
      (code ∘ name)).Nodup := by
    decide +kernel
  refine List.Nodup.of_map code ?_
  rw [List.map_map]
  exact hcodes named

theorem not_isPrefixOf_error_ofList {c : Char} {cs : List Char} (hc : c ≠ 'E') :
    (String.ofList (c :: cs)).toList.isPrefixOf error.name.toList = false := by
  have herror : error.name.toList = ['E', 'R', 'R', 'O', 'R'] := rfl
  rw [String.toList_ofList, herror, List.isPrefixOf, beq_eq_false_iff_ne.mpr hc, Bool.false_and]

/-- Only the error symbol is found by a beginning of its name. -/
theorem not_isPrefixOf_error (hs : s.visible = true) (hne : s ≠ error) :
    s.name.toList.isPrefixOf error.name.toList = false := by
  cases s with
  | endOfSource | repetition | errorRepeat => cases hs
  | error => exact absurd rfl hne
  | nonterminal n =>
    cases n with
    | hidden => cases hs
    | visible c => cases c <;> exact not_isPrefixOf_error_ofList (by decide)
  | token t =>
    cases t with
    | keyword x | command x | quantifier x | binary x | unary x | punctuation x =>
      cases x <;> exact not_isPrefixOf_error_ofList (by decide)
    | _ => exact not_isPrefixOf_error_ofList (by decide)

theorem idOf_of_ofId? (h : ofId? id = some s) (hs : s.visible = true) :
    idOf s.name s.named = id := by
  rcases ofId?_eq_some_iff.mp h with h | ⟨rfl, rfl⟩ | ⟨rfl, rfl⟩
  · obtain ⟨hid, hget⟩ := List.getElem?_eq_some_iff.mp h
    have hne : s ≠ error := by
      rintro rfl
      exact absurd (List.mem_of_getElem? h) (by decide)
    have hfirst : table.findIdx? (fun s' =>
        s'.visible && s'.named == s.named && s'.name == s.name) = some id := by
      refine List.findIdx?_eq_some_iff_getElem.mpr ⟨hid, by simp [hget, hs], fun n hn => ?_⟩
      have hnames := List.pairwise_filter.mp (List.pairwise_map.mp (nodup_names s.named))
      have hapart := List.pairwise_iff_getElem.mp hnames n id (Nat.lt_trans hn hid) hid hn
      rw [hget] at hapart
      simpa [hs] using hapart
    rw [idOf, not_isPrefixOf_error hs hne, if_neg Bool.false_ne_true, hfirst, Option.getD_some]
  · rfl
  · cases hs

theorem exists_ofId?_of_mem (h : s ∈ table) : ∃ id, ofId? id = some s := by
  obtain ⟨id, hid⟩ := List.mem_iff_getElem?.mp h
  exact ⟨id, ofId?_eq_some_iff.mpr (.inl hid)⟩

end Symbol

namespace Kind

variable {k : Kind}

/-- The symbol whose nodes are of the kind. -/
def symbol : Kind → Symbol
  | token t => .token t
  | category c => .nonterminal (.visible c)

theorem name_symbol (k : Kind) : k.symbol.name = k.name := by cases k <;> rfl

theorem named_symbol (k : Kind) : k.symbol.named = k.named := by cases k <;> rfl

theorem visible_symbol (k : Kind) : k.symbol.visible = true := by cases k <;> rfl

theorem symbol_mem_table (k : Kind) : k.symbol ∈ Symbol.table := by
  cases k with
  | token t => exact Symbol.mem_table_token t
  | category c => exact Symbol.mem_table_category c

theorem ofId?_idOf (k : Kind) : Symbol.ofId? (Symbol.idOf k.name k.named) = some k.symbol := by
  obtain ⟨id, hid⟩ := Symbol.exists_ofId?_of_mem k.symbol_mem_table
  have hidOf := Symbol.idOf_of_ofId? hid k.visible_symbol
  rw [name_symbol, named_symbol] at hidOf
  rw [hidOf, hid]

/-- The one entry for the nodes of a kind is where its name and namedness are looked up. -/
theorem entry_iff {id : Nat} :
    (∃ s, Symbol.ofId? id = some s ∧ s.visible = true ∧ s.name = k.name ∧ s.named = k.named) ↔
      id = Symbol.idOf k.name k.named := by
  constructor
  · rintro ⟨s, hs, hvisible, hname, hnamed⟩
    rw [← hname, ← hnamed, Symbol.idOf_of_ofId? hs hvisible]
  · rintro rfl
    exact ⟨k.symbol, k.ofId?_idOf, k.visible_symbol, k.name_symbol, k.named_symbol⟩

theorem name_ne_of_hidden {id : Nat} {s : Symbol} (h : Symbol.ofId? id = some s)
    (hs : s.visible = false) : s.name ≠ k.name := by
  have htable : (Symbol.errorRepeat :: Symbol.table).all (fun s => s.visible ||
      Token.all.all (fun t => s.name != t.name) &&
        Category.all.all (fun c => s.name != c.name)) = true := by
    decide +kernel
  have hmem : s ∈ Symbol.errorRepeat :: Symbol.table := by
    rcases Symbol.ofId?_eq_some_iff.mp h with h | ⟨-, rfl⟩ | ⟨-, rfl⟩
    · exact List.mem_cons_of_mem _ (List.mem_of_getElem? h)
    · cases hs
    · exact List.mem_cons_self
  have hall := List.all_eq_true.mp htable s hmem
  rw [hs, Bool.false_or, Bool.and_eq_true, List.all_eq_true, List.all_eq_true] at hall
  cases k with
  | token t => exact bne_iff_ne.mp (hall.1 t t.mem_all)
  | category c => exact bne_iff_ne.mp (hall.2 c c.mem_all)

theorem name_ne_error : k.name ≠ Symbol.error.name := by
  have herror (named : Bool) : Symbol.idOf Symbol.error.name named = Symbol.errorId := by
    cases named <;> rfl
  intro h
  have hsymbol := k.ofId?_idOf
  rw [h, herror] at hsymbol
  have hk : k.symbol = .error := (Option.some.inj hsymbol).symm
  cases k <;> cases hk

end Kind

namespace Field

theorem ofText?_text (f : Field) : ofText? f.text = some f := by
  have hall : (all.all fun f => ofText? f.text == some f) = true := by decide +kernel
  simpa using List.all_eq_true.mp hall f f.mem_all

theorem text_injective {f g : Field} (h : f.text = g.text) : f = g := by
  have hfound := ofText?_text f
  rw [h, ofText?_text] at hfound
  exact (Option.some.inj hfound).symm

theorem ofText?_eq_some_iff {f : Field} {name : String} :
    ofText? name = some f ↔ f.text = name := by
  constructor
  · intro h
    simpa using List.find?_some h
  · rintro rfl
    exact ofText?_text f

theorem ofId?_eq_some_iff {f : Field} {id : Nat} : ofId? id = some f ↔ id = f.id := by
  have hnodup : all.Nodup := by decide
  have hlt : all.idxOf f < all.length := List.idxOf_lt_length_of_mem f.mem_all
  cases id with
  | zero => simp [ofId?, Field.id]
  | succ n =>
    rw [ofId?, Field.id, Nat.succ_inj]
    constructor
    · intro h
      obtain ⟨hn, rfl⟩ := List.getElem?_eq_some_iff.mp h
      exact (hnodup.idxOf_getElem n hn).symm
    · rintro rfl
      rw [List.getElem?_eq_getElem hlt, List.getElem_idxOf]

/-- A field has one entry in the table, at its number. -/
theorem entry_iff {f : Field} {id : Nat} : (ofId? id).map text = some f.text ↔ id = f.id := by
  have htext : (ofId? id).map text = some f.text ↔ ofId? id = some f := by
    cases ofId? id with
    | none => simp
    | some g => simpa using ⟨text_injective, congrArg text⟩
  rw [htext, ofId?_eq_some_iff]

end Field

end HeyVL
