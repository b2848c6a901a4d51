import HeyVL.Grammar.Description
import HeyVL.Grammar.Generator
import HeyVL.Proofs.Grammar.Reached
import HeyVL.Proofs.Json.Reading

namespace HeyVL

namespace Json

section Lookup

variable {α : Type} {entries : List (String × α)} {key : String} {p : String → Bool}

theorem lookup_cons_eq (entries : List (String × α)) (key k : String) (value : α) :
    ((key, value) :: entries).lookup k = if k = key then some value else entries.lookup k := by
  rw [List.lookup_cons]
  by_cases hk : k = key
  · rw [if_pos hk, hk, beq_self_eq_true]
  · rw [if_neg hk, beq_eq_false_iff_ne.mpr hk]

theorem lookup_insert (entries : List (String × α)) (key k : String) (value : α) :
    (insert entries key value).lookup k = if k = key then some value else entries.lookup k := by
  induction entries with
  | nil => exact lookup_cons_eq [] key k value
  | cons e entries ih =>
    obtain ⟨key', v⟩ := e
    rw [insert]
    by_cases hkey : key' = key
    · rw [hkey, if_pos (beq_self_eq_true key), lookup_cons_eq, lookup_cons_eq]
      by_cases hk : k = key <;> simp [hk]
    · rw [if_neg (by simpa using hkey), lookup_cons_eq, lookup_cons_eq, ih]
      by_cases hk : k = key'
      · rw [hk, if_pos rfl, if_neg hkey, if_pos rfl]
      · rw [if_neg hk, if_neg hk]

theorem find?_eq (entries : List (String × α)) (key : String) :
    find? entries key = (entries.reverse.find? fun e => e.1 == key).map Prod.snd := by
  rw [find?, distinct, List.foldl_eq_foldr_reverse]
  induction entries.reverse with
  | nil => rfl
  | cons e entries ih =>
    rw [List.foldr_cons, lookup_insert, ih, List.find?_cons]
    by_cases hkey : key = e.1
    · rw [if_pos hkey, hkey, beq_self_eq_true]
      rfl
    · rw [if_neg hkey, beq_eq_false_iff_ne.mpr (Ne.symm hkey)]

theorem beq_and_eq_beq (hkey : p key = true) (e : String × α) : (e.1 == key && p e.1) = (e.1 == key) := by
  by_cases he : e.1 = key
  · simp [he, hkey]
  · simp [he]

theorem find?_filter (hkey : p key = true) :
    find? (entries.filter fun e => p e.1) key = find? entries key := by
  have hsame : (fun e : String × α => decide (p e.1 = true ∧ (e.1 == key) = true)) = fun e => e.1 == key := by
    funext e
    rw [Bool.decide_and, Bool.decide_eq_true, Bool.decide_eq_true, Bool.and_comm]
    exact beq_and_eq_beq hkey e
  rw [find?_eq, find?_eq, ← List.filter_reverse, List.find?_filter, hsame]

theorem isRepeated_filter (hkey : p key = true) :
    isRepeated (entries.filter fun e => p e.1) key = isRepeated entries key := by
  have hsame : (fun e : String × α => e.1 == key && p e.1) = fun e => e.1 == key :=
    funext (beq_and_eq_beq hkey)
  rw [isRepeated, isRepeated, List.countP_filter, hsame]

end Lookup

theorem notMem_intercalate {α : Type} {a : α} {sep : List α} {xs : List (List α)} (hsep : a ∉ sep)
    (hxs : ∀ x ∈ xs, a ∉ x) : a ∉ sep.intercalate xs := by
  induction xs with
  | nil => simp
  | cons x xs ih =>
    have hx := hxs x List.mem_cons_self
    have hrest := ih fun y hy => hxs y (List.mem_cons_of_mem _ hy)
    cases xs with
    | nil => rwa [List.intercalate_singleton]
    | cons y ys =>
      rw [List.intercalate_cons_cons, List.mem_append, List.mem_append]
      exact not_or.mpr ⟨not_or.mpr ⟨hx, hsep⟩, hrest⟩

theorem newline_notMem_writeString (s : String) : '\n' ∉ (writeString s).toList := by
  have hdigit : ∀ n < 16, hexDigit n ≠ '\n' := by decide
  have hchar (c : Char) : '\n' ∉ writeChar c := by
    rw [writeChar]
    split
    · next h => rcases h with rfl | rfl <;> decide
    · split
      · next hcontrol =>
        have hlt := Token.toNat_lt_of_control hcontrol
        have hhigh := hdigit (c.toNat / 16) (by omega)
        have hlow := hdigit (c.toNat % 16) (by omega)
        simp [hhigh.symm, hlow.symm]
      · next hcontrol =>
        rw [List.mem_singleton]
        rintro rfl
        exact hcontrol (by decide)
  rw [writeString, String.toList_ofList]
  simp [hchar]

theorem newline_notMem_write_array {items : List Json} (h : ∀ v ∈ items, '\n' ∉ v.write.toList) :
    '\n' ∉ (write (.array items)).toList := by
  have hitems : '\n' ∉ separator.intercalate (items.map fun v => v.write.toList) := by
    refine notMem_intercalate (by decide) fun x hx => ?_
    obtain ⟨v, hv, rfl⟩ := List.mem_map.mp hx
    exact h v hv
  rw [toList_write_array]
  simp [hitems]

theorem newline_notMem_write_object {entries : List (String × Json)}
    (h : ∀ e ∈ entries, '\n' ∉ e.2.write.toList) : '\n' ∉ (write (.object entries)).toList := by
  have hentries : '\n' ∉ separator.intercalate (entries.map writeEntry) := by
    refine notMem_intercalate (by decide) fun x hx => ?_
    obtain ⟨e, he, rfl⟩ := List.mem_map.mp hx
    rw [writeEntry, String.toList_append, String.toList_append, List.mem_append, List.mem_append]
    exact not_or.mpr ⟨not_or.mpr ⟨newline_notMem_writeString e.1, by decide⟩, h e he⟩
  rw [toList_write_object]
  simp [hentries]

theorem newline_notMem_write {skipping : Bool} {n : Nat} {v : Json}
    (h : v.isReadable skipping n = true) : '\n' ∉ v.write.toList := by
  have hscalar {v : Json} (h : v.isReadable skipping 0 = true) : '\n' ∉ v.write.toList := by
    cases v with
    | null => decide
    | bool b => cases b <;> decide
    | number literal =>
      intro hmem
      have hbare := Token.isBare_of_isNumber (Bool.and_eq_true_iff.mp h).1 _ hmem
      cases hbare
    | string s => exact newline_notMem_writeString s
    | array | object => cases h
  induction n generalizing v with
  | zero => exact hscalar h
  | succ n ih =>
    cases v with
    | array items => exact newline_notMem_write_array fun v hv => ih (List.all_eq_true.mp h v hv)
    | object entries => exact newline_notMem_write_object fun e he => ih (List.all_eq_true.mp h e he)
    | null | bool | number | string => exact hscalar h

end Json

namespace Grammar

variable {cs : List Char}

theorem withoutComments_of_notMem (h : '\n' ∉ cs) : withoutComments false cs = cs := by
  induction cs with
  | nil => rw [withoutComments]; rfl
  | cons c cs ih =>
    obtain ⟨hc, hcs⟩ := not_or.mp fun hmem => h (List.mem_cons.mpr hmem)
    rw [withoutComments, if_neg Bool.false_ne_true, beq_eq_false_iff_ne.mpr (Ne.symm hc), ih hcs]

theorem withoutComments_cons {c : Char} (hwhite : isWhite c = false) (hslash : c ≠ '/')
    (h : '\n' ∉ c :: cs) : withoutComments true (c :: cs) = c :: cs := by
  obtain ⟨hc, hcs⟩ := not_or.mp fun hmem => h (List.mem_cons.mpr hmem)
  have hnone : afterComment? (c :: cs) = none := by
    rw [afterComment?, List.dropWhile_cons_of_neg (by simp [hwhite])]
    split
    · next heq =>
      cases heq
      exact absurd rfl hslash
    · rfl
  rw [withoutComments, if_pos rfl]
  split
  · next heq =>
    rw [hnone] at heq
    cases heq
  · rw [beq_eq_false_iff_ne.mpr (Ne.symm hc), withoutComments_of_notMem hcs]

variable {entries : List (String × Json)}

theorem Description.ofJson?_filter (entries : List (String × Json)) :
    Description.ofJson? (.object (entries.filter fun e => knownKeys.contains e.1)) =
      Description.ofJson? (.object entries) := by
  have hfind (key : String) (hkey : knownKeys.contains key = true) :
      Json.find? (entries.filter fun e => knownKeys.contains e.1) key = Json.find? entries key :=
    Json.find?_filter hkey
  have hrepeated : knownKeys.any (Json.isRepeated (entries.filter fun e => knownKeys.contains e.1)) =
      knownKeys.any (Json.isRepeated entries) := by
    rw [Bool.eq_iff_iff, List.any_eq_true, List.any_eq_true]
    refine exists_congr fun key => and_congr_right fun hkey => ?_
    rw [Json.isRepeated_filter (p := knownKeys.contains) (List.contains_iff_mem.mpr hkey)]
  simp (disch := decide) only [Description.ofJson?, hrepeated, Rule.stringAt?, Rule.optionalStringAt?,
    Description.listAt?, hfind]

/-- The generator looks at the entries of a description that mean something, and at the form of the
others. -/
theorem generate?_write (h : ∀ e ∈ entries, ∃ n, e.2.isReadable (!knownKeys.contains e.1) n = true ∧
      (knownKeys.contains e.1 = false ∨ n < Json.Reader.maxDepth)) :
    generate? (Json.write (.object entries)) =
      (Description.ofJson? (.object entries)).bind fun d => if d.isValid then some d.name else none := by
  have hnewline : '\n' ∉ (Json.write (.object entries)).toList := by
    refine Json.newline_notMem_write_object fun e he => ?_
    obtain ⟨n, hreadable, -⟩ := h e he
    exact Json.newline_notMem_write hreadable
  have hcomments : withoutComments true (Json.write (.object entries)).toList =
      (Json.write (.object entries)).toList := by
    rw [Json.toList_write_object] at hnewline ⊢
    exact withoutComments_cons rfl (by decide) hnewline
  have hread : Json.ofText? (!knownKeys.contains ·) (Json.write (.object entries)).toList =
      some (.object (entries.filter fun e => knownKeys.contains e.1)) := by
    rw [Json.ofText?_write_object fun e he => ?_]
    · simp
    · obtain ⟨n, hreadable, hdepth⟩ := h e he
      exact ⟨n, hreadable, hdepth.imp_left fun hkey => by rw [hkey]; rfl⟩
  rw [generate?, hcomments, hread, ← Description.ofJson?_filter entries]
  rfl

theorem exists_entries : ∃ entries, description = .object entries ∧
    entries.all (fun e => e.2.isReadable (!knownKeys.contains e.1) 100) = true :=
  ⟨_, rfl, by decide +kernel⟩

theorem isConsistent_description : (Description.ofJson? description).any (fun d =>
    d.name == languageName && d.precedences.isEmpty && d.reached 7 == d.rules.map Prod.fst &&
      d.isConsistent) = true := by
  decide +kernel

/-- A parser can be generated from the description of HeyVL. -/
theorem generate?_text : generate? text = some languageName := by
  obtain ⟨entries, hentries, hreadable⟩ := exists_entries
  obtain ⟨d, hd, hconsistent⟩ := (Option.any_eq_true _ _).mp isConsistent_description
  simp only [Bool.and_eq_true, beq_iff_eq, List.isEmpty_iff] at hconsistent
  obtain ⟨⟨⟨hname, hprecedences⟩, hreached⟩, hconsistent⟩ := hconsistent
  have hreaches : ∀ name ∈ d.rules.map Prod.fst, d.Reaches name ∨ d.word = some name :=
    fun name hmem => .inl (.of_mem_reached (hreached ▸ hmem))
  have hvalid : d.isValid = true := by
    rw [Description.isValid, Description.withoutUnused_eq_self hreaches, hprecedences, hconsistent]
    rfl
  rw [text, hentries, generate?_write fun e he =>
    ⟨100, List.all_eq_true.mp hreadable e he, .inr (by decide)⟩, ← hentries, hd, Option.bind_some,
    if_pos hvalid, hname]

end Grammar

end HeyVL
