import HeyVL.Json.Reader
import HeyVL.Proofs.Json.Tokens

/-!
Reading what is written. Every value is read back whose numbers are small enough and which is not
nested too deep, but for the entries of the outermost object that are ignored. These may be of any
size and depth.
-/

namespace HeyVL

namespace Json

open Token (isBare)

/-- Whether a value has no more than the given depth and nothing but number literals for numbers. Where
it is not skipped its numbers have to be in range. -/
def isReadable (skipping : Bool) : Nat → Json → Bool
  | _, number literal =>
    Token.isNumber literal.toList && (skipping || Reader.isInRange (.number literal))
  | 0, array _ => false
  | 0, object _ => false
  | n + 1, array items => items.all (isReadable skipping n)
  | n + 1, object entries => entries.all fun e => isReadable skipping n e.2
  | _, _ => true

/-- What is between the values of a container. -/
def separator : List Char := [',', ' ']

def writeEntry (e : String × Json) : List Char := (writeString e.1 ++ ": " ++ e.2.write).toList

theorem writeItems_eq (items : List Json) : writeItems items = items.map write := by
  induction items with
  | nil => rfl
  | cons v items ih => rw [writeItems, ih, List.map_cons]

theorem writeEntries_eq (entries : List (String × Json)) :
    writeEntries entries = entries.map fun e => writeString e.1 ++ ": " ++ e.2.write := by
  induction entries with
  | nil => rfl
  | cons e entries ih => rw [writeEntries, ih, List.map_cons]

theorem toList_write_array (items : List Json) : (write (.array items)).toList =
    '[' :: (separator.intercalate (items.map fun v => v.write.toList) ++ [']']) := by
  rw [write, writeItems_eq, String.toList_append, String.toList_append, String.toList_intercalate,
    List.map_map]
  rfl

theorem toList_write_object (entries : List (String × Json)) : (write (.object entries)).toList =
    '\x7b' :: (separator.intercalate (entries.map writeEntry) ++ ['\x7d']) := by
  rw [write, writeEntries_eq, String.toList_append, String.toList_append, String.toList_intercalate,
    List.map_map]
  rfl

namespace Reader

variable {ignored : String → Bool} {frames : List Frame} {r : Reader} {t : Token} {v : Json}
  {cs cs' : List Char} {items : List Json} {entries : List (String × Json)} {n : Nat}

/-- The reader behind the tokens of a text. -/
def run (ignored : String → Bool) (r : Reader) (cs : List Char) : Option Reader :=
  (Token.ofText? cs).bind fun ts => ts.foldlM (step ignored) r

theorem run_of_token (h : Token.ofText? cs = (Token.ofText? cs').map (t :: ·)) :
    run ignored r cs = (step ignored r t).bind fun r => run ignored r cs' := by
  rw [run, h]
  cases hcs' : Token.ofText? cs' with
  | none => cases step ignored r t <;> simp [run, hcs']
  | some ts => cases hstep : step ignored r t <;> simp [run, hcs', hstep]

theorem isSkipping_array (done : List Json) :
    isSkipping ignored (.array done :: frames) = isSkipping ignored frames := by
  cases frames <;> rfl

theorem isSkipping_object (done : List (String × Json)) (key : String) :
    isSkipping ignored (.object done key :: frames) = isSkipping ignored (.object [] key :: frames) := by
  cases frames <;> rfl

theorem isSkipping_cons (f : Frame) (h : frames ≠ []) :
    isSkipping ignored (f :: frames) = isSkipping ignored frames := by
  obtain ⟨g, frames, rfl⟩ := List.exists_cons_of_ne_nil h
  rfl

/-- What is kept of a value that is read within the frames. -/
def keep (ignored : String → Bool) (frames : List Frame) : Json → Json
  | array items => array (items.filter fun _ => !isSkipping ignored frames)
  | object entries => object (entries.filter fun e => !isSkipping ignored (.object [] e.1 :: frames))
  | v => v

theorem keep_eq_self (hframes : frames ≠ []) (h : isSkipping ignored frames = false) (v : Json) :
    keep ignored frames v = v := by
  cases v with
  | array items => simp [keep, h]
  | object entries => simp [keep, isSkipping_cons _ hframes, h]
  | _ => rfl

/-- A value is next, within the frames. -/
inductive Awaits : List Frame → Reader → Prop
  | value (frames : List Frame) : Awaits frames ⟨frames, .value⟩
  | arrayStart (frames : List Frame) : Awaits (.array [] :: frames) ⟨frames, .arrayStart⟩

theorem Awaits.step_eq (h : Awaits frames r) (ht : t ≠ .bracketClose) :
    step ignored r t = startValue (isSkipping ignored frames) frames t := by
  cases h with
  | value => rfl
  | arrayStart frames =>
    rw [isSkipping_array]
    cases t <;> first | rfl | exact absurd rfl ht

/-- The text of the value is read as one value, whatever is behind it. -/
def Reads (ignored : String → Bool) (frames : List Frame) (v : Json) : Prop :=
  ∀ r cs, Awaits frames r → (∀ c ∈ cs.head?, isBare c = false) →
    run ignored r (v.write.toList ++ cs) = run ignored ⟨frames, .complete (keep ignored frames v)⟩ cs

theorem Awaits.run_eq (h : Awaits frames r) (ht : t ≠ .bracketClose)
    (hcs : Token.ofText? cs = (Token.ofText? cs').map (t :: ·)) :
    run ignored r cs =
      (startValue (isSkipping ignored frames) frames t).bind fun r => run ignored r cs' := by
  rw [run_of_token hcs, h.step_eq ht]

theorem reads_bare (hvalue : Token.bare? v.write.toList = some v) (hne : v.write.toList ≠ [])
    (hbare : ∀ c ∈ v.write.toList, isBare c = true)
    (hrange : (isSkipping ignored frames || isInRange v) = true) (hkeep : keep ignored frames v = v) :
    Reads ignored frames v := by
  intro r cs h hcs
  rw [h.run_eq (by rintro ⟨⟩) (Token.ofText?_bare hvalue hne hbare hcs), startValue, if_pos hrange, hkeep]
  rfl

theorem reads_of_scalar (hv : v.isReadable (isSkipping ignored frames) 0 = true) :
    Reads ignored frames v := by
  cases v with
  | null => exact reads_bare rfl (by decide) (List.all_eq_true.mp (by decide)) (Bool.or_true _) rfl
  | bool b =>
    cases b <;> exact reads_bare rfl (by decide) (List.all_eq_true.mp (by decide)) (Bool.or_true _) rfl
  | number literal =>
    obtain ⟨hnumber, hrange⟩ := Bool.and_eq_true_iff.mp hv
    refine reads_bare ?_ ?_ (Token.isBare_of_isNumber hnumber) hrange rfl
    · rw [write, Token.bare?_of_isNumber hnumber, String.ofList_toList]
    · intro hnil
      rw [write] at hnil
      rw [hnil] at hnumber
      cases hnumber
  | string s =>
    intro r cs h _
    rw [write, h.run_eq (by rintro ⟨⟩) (Token.ofText?_writeString s cs)]
    cases isSkipping ignored frames <;> rfl
  | array items => cases hv
  | object entries => cases hv

theorem add_keep_item (done : List Json) (v : Json) :
    add (isSkipping ignored (.array done :: frames)) done (keep ignored (.array done :: frames) v) =
      done ++ [v].filter fun _ => !isSkipping ignored frames := by
  cases h : isSkipping ignored frames with
  | true => simp [add, isSkipping_array, h]
  | false =>
    rw [keep_eq_self (List.cons_ne_nil _ _) (by rw [isSkipping_array, h]), isSkipping_array, h]
    rfl

theorem add_keep_entry (done : List (String × Json)) (e : String × Json) :
    add (isSkipping ignored (.object done e.1 :: frames)) done
        (e.1, keep ignored (.object done e.1 :: frames) e.2) =
      done ++ [e].filter fun e => !isSkipping ignored (.object [] e.1 :: frames) := by
  rw [isSkipping_object]
  cases h : isSkipping ignored (.object [] e.1 :: frames) with
  | true => simp [add, h]
  | false =>
    rw [keep_eq_self (List.cons_ne_nil _ _) (by rw [isSkipping_object, h])]
    simp [add, h]

theorem run_blank (r : Reader) (cs : List Char) : run ignored r (' ' :: cs) = run ignored r cs := by
  rw [run, Token.ofText?_blank, run]

theorem run_item_comma (done : List Json) (v : Json) (cs : List Char) :
    run ignored ⟨.array done :: frames, .complete (keep ignored (.array done :: frames) v)⟩
        (separator ++ cs) =
      run ignored ⟨.array (done ++ [v].filter fun _ => !isSkipping ignored frames) :: frames, .value⟩
        cs := by
  rw [← add_keep_item, separator, List.cons_append, run_of_token (Token.ofText?_punctuation rfl _)]
  exact run_blank _ cs

theorem run_item_close (done : List Json) (v : Json) (cs : List Char) :
    run ignored ⟨.array done :: frames, .complete (keep ignored (.array done :: frames) v)⟩ (']' :: cs) =
      run ignored ⟨frames, .complete (.array (done ++ [v].filter fun _ => !isSkipping ignored frames))⟩
        cs := by
  rw [← add_keep_item, run_of_token (Token.ofText?_punctuation rfl _)]
  rfl

theorem run_items (hv : ∀ v' ∈ v :: items, ∀ done, Reads ignored (.array done :: frames) v')
    (done : List Json) (h : Awaits (.array done :: frames) r) (cs : List Char) :
    run ignored r (separator.intercalate ((v :: items).map fun v => v.write.toList) ++ ']' :: cs) =
      run ignored ⟨frames, .complete (.array (done ++ (v :: items).filter
        fun _ => !isSkipping ignored frames))⟩ cs := by
  induction items generalizing v done r with
  | nil =>
    rw [List.map_singleton, List.intercalate_singleton,
      hv v List.mem_cons_self done r _ h (by rintro c ⟨⟩; rfl), run_item_close]
  | cons w items ih =>
    have hrest := ih (fun v' hv' => hv v' (List.mem_cons_of_mem _ hv'))
      (done ++ [v].filter fun _ => !isSkipping ignored frames) (.value _)
    rw [List.map_cons] at hrest
    rw [List.map_cons, List.map_cons, List.intercalate_cons_cons, List.append_assoc, List.append_assoc,
      hv v List.mem_cons_self done r _ h (by rintro c ⟨⟩; rfl), run_item_comma, hrest, List.append_assoc,
      ← List.filter_append, List.singleton_append]

/-- A key is next in an object of which some entries are read. -/
inductive AwaitsKey : List Frame → List (String × Json) → Reader → Prop
  | key (frames : List Frame) (done : List (String × Json)) : AwaitsKey frames done ⟨frames, .key done⟩
  | objectStart (frames : List Frame) : AwaitsKey frames [] ⟨frames, .objectStart⟩

theorem AwaitsKey.run_eq {done : List (String × Json)} (h : AwaitsKey frames done r)
    {e : String × Json} (he : Reads ignored (.object done e.1 :: frames) e.2)
    (hcs : ∀ c ∈ cs.head?, isBare c = false) :
    run ignored r (writeEntry e ++ cs) =
      run ignored ⟨.object done e.1 :: frames,
        .complete (keep ignored (.object done e.1 :: frames) e.2)⟩ cs := by
  have htext : textOf? (isSkipping ignored frames) (some e.1) = some e.1 := by
    cases isSkipping ignored frames <;> rfl
  have hstep : step ignored r (.string (some e.1)) = some ⟨frames, .colon done e.1⟩ := by
    cases h with
    | key => exact congrArg (Option.map fun key => (⟨frames, .colon done key⟩ : Reader)) htext
    | objectStart => exact congrArg (Option.map fun key => (⟨frames, .colon [] key⟩ : Reader)) htext
  rw [writeEntry, String.toList_append, String.toList_append, List.append_assoc, List.append_assoc,
    run_of_token (Token.ofText?_writeString _ _), hstep, Option.bind_some]
  show run ignored _ (':' :: ' ' :: _) = _
  rw [run_of_token (Token.ofText?_punctuation rfl _)]
  exact (run_blank _ _).trans (he _ cs (.value _) hcs)

theorem run_entry_comma (done : List (String × Json)) (e : String × Json) (cs : List Char) :
    run ignored ⟨.object done e.1 :: frames,
        .complete (keep ignored (.object done e.1 :: frames) e.2)⟩ (separator ++ cs) =
      run ignored ⟨frames, .key (done ++ [e].filter
        fun e => !isSkipping ignored (.object [] e.1 :: frames))⟩ cs := by
  rw [← add_keep_entry, separator, List.cons_append, run_of_token (Token.ofText?_punctuation rfl _)]
  exact run_blank _ cs

theorem run_entry_close (done : List (String × Json)) (e : String × Json) (cs : List Char) :
    run ignored ⟨.object done e.1 :: frames,
        .complete (keep ignored (.object done e.1 :: frames) e.2)⟩ ('\x7d' :: cs) =
      run ignored ⟨frames, .complete (.object (done ++ [e].filter
        fun e => !isSkipping ignored (.object [] e.1 :: frames)))⟩ cs := by
  rw [← add_keep_entry, run_of_token (Token.ofText?_punctuation rfl _)]
  rfl

theorem run_entries {e : String × Json}
    (he : ∀ e' ∈ e :: entries, ∀ done, Reads ignored (.object done e'.1 :: frames) e'.2)
    {done : List (String × Json)} (h : AwaitsKey frames done r) (cs : List Char) :
    run ignored r (separator.intercalate ((e :: entries).map writeEntry) ++ '\x7d' :: cs) =
      run ignored ⟨frames, .complete (.object (done ++ (e :: entries).filter
        fun e => !isSkipping ignored (.object [] e.1 :: frames)))⟩ cs := by
  induction entries generalizing e done r with
  | nil =>
    rw [List.map_singleton, List.intercalate_singleton,
      h.run_eq (he e List.mem_cons_self done) (by rintro c ⟨⟩; rfl), run_entry_close]
  | cons e' entries ih =>
    have hrest := ih (fun e' he' => he e' (List.mem_cons_of_mem _ he')) (.key frames (done ++ [e].filter
      fun e => !isSkipping ignored (.object [] e.1 :: frames)))
    rw [List.map_cons] at hrest
    rw [List.map_cons, List.map_cons, List.intercalate_cons_cons, List.append_assoc, List.append_assoc,
      h.run_eq (he e List.mem_cons_self done) (by rintro c ⟨⟩; rfl), run_entry_comma, hrest,
      List.append_assoc, ← List.filter_append, List.singleton_append]

theorem reads_array (hopen : (isSkipping ignored frames || frames.length < maxDepth) = true)
    (h : ∀ v ∈ items, ∀ done, Reads ignored (.array done :: frames) v) :
    Reads ignored frames (.array items) := by
  intro r cs hr _
  rw [toList_write_array, List.cons_append, List.append_assoc, List.singleton_append,
    hr.run_eq (by rintro ⟨⟩) (Token.ofText?_punctuation rfl _), startValue, if_pos (by simpa using hopen),
    Option.bind_some]
  cases items with
  | nil =>
    rw [List.map_nil, List.intercalate_nil, List.nil_append, run_of_token (Token.ofText?_punctuation rfl _)]
    rfl
  | cons v items => exact run_items h [] (.arrayStart frames) cs

theorem reads_object (hopen : (isSkipping ignored frames || frames.length < maxDepth) = true)
    (h : ∀ e ∈ entries, ∀ done, Reads ignored (.object done e.1 :: frames) e.2) :
    Reads ignored frames (.object entries) := by
  intro r cs hr _
  rw [toList_write_object, List.cons_append, List.append_assoc, List.singleton_append,
    hr.run_eq (by rintro ⟨⟩) (Token.ofText?_punctuation rfl _), startValue, if_pos (by simpa using hopen),
    Option.bind_some]
  cases entries with
  | nil =>
    rw [List.map_nil, List.intercalate_nil, List.nil_append, run_of_token (Token.ofText?_punctuation rfl _)]
    rfl
  | cons e entries => exact run_entries h (.objectStart frames) cs

theorem reads_of_isReadable (hframes : frames ≠ [])
    (hv : v.isReadable (isSkipping ignored frames) n = true)
    (hdepth : isSkipping ignored frames = true ∨ frames.length + n ≤ maxDepth) :
    Reads ignored frames v := by
  induction n generalizing frames v with
  | zero => exact reads_of_scalar hv
  | succ n ih =>
    have hopen : (isSkipping ignored frames || frames.length < maxDepth) = true := by
      rw [Bool.or_eq_true, decide_eq_true_eq]
      exact hdepth.imp_right (by omega)
    have hinner (f : Frame) (v : Json) (hv : v.isReadable (isSkipping ignored frames) n = true) :
        Reads ignored (f :: frames) v := by
      have hskipping : isSkipping ignored (f :: frames) = isSkipping ignored frames :=
        isSkipping_cons f hframes
      refine ih (List.cons_ne_nil _ _) (by rwa [hskipping]) ?_
      rw [hskipping, List.length_cons]
      exact hdepth.imp_right (by omega)
    cases v with
    | array items =>
      exact reads_array hopen fun v hv' done => hinner _ v (List.all_eq_true.mp hv v hv')
    | object entries =>
      exact reads_object hopen fun e he done => hinner _ e.2 (List.all_eq_true.mp hv e he)
    | null | bool | number | string => exact reads_of_scalar hv

theorem ofText?_eq (h : Reads ignored [] v) :
    ofText? ignored v.write.toList = some (keep ignored [] v) := by
  have hrun := h _ [] (.value []) (by rintro c ⟨⟩)
  rw [List.append_nil] at hrun
  have hread : ofText? ignored v.write.toList = (run ignored ⟨[], .value⟩ v.write.toList).bind result? := by
    rw [ofText?, run]
    cases Token.ofText? v.write.toList <;> rfl
  rw [hread, hrun, run, Token.ofText?]
  rfl

end Reader

/-- An object is read back without the ignored entries, of which only the form matters. -/
theorem ofText?_write_object {ignored : String → Bool} {entries : List (String × Json)}
    (h : ∀ e ∈ entries, ∃ n, e.2.isReadable (ignored e.1) n = true ∧
      (ignored e.1 = true ∨ n < Reader.maxDepth)) :
    ofText? ignored (write (.object entries)).toList =
      some (.object (entries.filter fun e => !ignored e.1)) := by
  refine Reader.ofText?_eq (Reader.reads_object rfl fun e he done => ?_)
  obtain ⟨n, hreadable, hdepth⟩ := h e he
  refine Reader.reads_of_isReadable (List.cons_ne_nil _ _) hreadable (hdepth.imp_right fun hlt => ?_)
  rw [List.length_singleton]
  omega

theorem ofText?_write {v : Json} (h : v.isReadable false Reader.maxDepth = true) :
    ofText? (fun _ => false) v.write.toList = some v := by
  cases v with
  | object entries =>
    rw [ofText?_write_object fun e he => ⟨126, List.all_eq_true.mp h e he, .inr (by decide)⟩]
    simp
  | array items =>
    have hitems : Reader.Reads (fun _ => false) [] (.array items) :=
      Reader.reads_array rfl fun v hv done => Reader.reads_of_isReadable (List.cons_ne_nil _ _)
        (List.all_eq_true.mp h v hv) (.inr (Nat.le_refl Reader.maxDepth))
    rw [Reader.ofText?_eq hitems]
    simp [Reader.keep, Reader.isSkipping]
  | null | bool | number | string => exact Reader.ofText?_eq (Reader.reads_of_scalar h)

end Json

end HeyVL
