import HeyVL.Json.Printer
import HeyVL.Json.Token
import Mathlib.Data.List.TakeWhile

namespace HeyVL

namespace Json

namespace Token

variable {c : Char} {cs word : List Char} {t : Token} {v : Json}

theorem hexDigit?_hexDigit : ∀ n < 16, hexDigit? (hexDigit n) = some n := by decide

/-- How a character is written in a string: by its number, if it is a control character. -/
def Part.ofChar (c : Char) : Part := if c < ' ' then .unit c.toNat else .char c

theorem toNat_lt_of_control (h : c < ' ') : c.toNat < 32 := h

theorem hex4?_of_control (h : c < ' ') :
    hex4? '0' '0' (hexDigit (c.toNat / 16)) (hexDigit (c.toNat % 16)) = some c.toNat := by
  have hlt := toNat_lt_of_control h
  have hzero : hexDigit? '0' = some 0 := rfl
  rw [hex4?, hzero, hexDigit?_hexDigit _ (by omega), hexDigit?_hexDigit _ (by omega)]
  simp only [Option.bind_eq_bind, Option.bind_some, Option.pure_def, Option.some_inj]
  omega

theorem parts?_writeChar (c : Char) (cs : List Char) :
    parts? (writeChar c ++ cs) = (parts? cs).map fun x => (Part.ofChar c :: x.1, x.2) := by
  rw [writeChar, Part.ofChar]
  split
  · next h =>
    have hprintable : ¬ c < ' ' := by rcases h with rfl | rfl <;> decide
    rw [if_neg hprintable]
    rcases h with rfl | rfl <;> cases h : parts? cs <;> simp [parts?, escape?, h]
  · next h =>
    split
    · next hcontrol =>
      rw [List.cons_append, List.cons_append, List.cons_append, List.cons_append, List.cons_append,
        List.cons_append, List.nil_append, parts?, hex4?_of_control hcontrol]
      cases parts? cs <;> rfl
    · next hcontrol =>
      obtain ⟨hquote, hbackslash⟩ := not_or.mp h
      rw [List.singleton_append, parts?.eq_def]
      cases hcs : parts? cs <;> simp_all

theorem parts?_flatMap_writeChar (s cs : List Char) :
    parts? (s.flatMap writeChar ++ '"' :: cs) = some (s.map Part.ofChar, cs) := by
  induction s with
  | nil => rw [List.flatMap_nil, List.nil_append, parts?]; rfl
  | cons c s ih =>
    rw [List.flatMap_cons, List.append_assoc, parts?_writeChar, ih]
    rfl

theorem join?_unit {n : Nat} (h : n < 0xD800 ∨ 0xE000 ≤ n) (parts : List Part) :
    join? (.unit n :: parts) = (join? parts).map (Char.ofNat n :: ·) := by
  rw [join?.eq_def]
  exact if_pos h

theorem join?_map_ofChar (s : List Char) : join? (s.map Part.ofChar) = some s := by
  induction s with
  | nil => rfl
  | cons c s ih =>
    rw [List.map_cons, Part.ofChar]
    split
    · next hcontrol =>
      have hlt := toNat_lt_of_control hcontrol
      rw [join?_unit (.inl (by omega)), ih, Char.ofNat_toNat]
      rfl
    · rw [join?, ih]
      rfl

theorem ofText?_blank (cs : List Char) : ofText? (' ' :: cs) = ofText? cs := by
  rw [ofText?]
  rfl

theorem ofText?_quote {parts : List Part} {after : List Char} (h : parts? cs = some (parts, after)) :
    ofText? ('"' :: cs) = (ofText? after).map (.string ((join? parts).map String.ofList) :: ·) := by
  rw [ofText?, if_neg (by decide), if_pos rfl]
  split
  · next hnone =>
    rw [h] at hnone
    cases hnone
  · next hsome =>
    rw [h] at hsome
    cases hsome
    rfl

theorem ofText?_writeString (s : String) (cs : List Char) :
    ofText? ((writeString s).toList ++ cs) = (ofText? cs).map (.string (some s) :: ·) := by
  have hparts := parts?_flatMap_writeChar s.toList cs
  rw [writeString, String.toList_ofList, List.append_assoc, List.cons_append, List.singleton_append,
    ofText?_quote hparts, join?_map_ofChar, Option.map_some, String.ofList_toList]

theorem ofText?_punctuation (h : punctuation? c = some t) (cs : List Char) :
    ofText? (c :: cs) = (ofText? cs).map (t :: ·) := by
  rw [ofText?]
  unfold punctuation? at h
  split at h <;> cases h <;> rfl

theorem isBare_of_isDigit (h : c.isDigit = true) : isBare c = true := by
  simp [isBare, Char.isAlphanum, h]

theorem not_isBlank_of_isBare (h : isBare c = true) : isBlank c = false ∧ c ≠ '"' := by
  have hblank : isBlank c = true → isBare c = false := by
    simp only [isBlank, Bool.or_eq_true, beq_iff_eq]
    rintro (((rfl | rfl) | rfl) | rfl) <;> rfl
  refine ⟨Bool.eq_false_iff.mpr fun hc => ?_, ?_⟩
  · rw [hblank hc] at h
    cases h
  · rintro rfl
    cases h

theorem ofText?_bare (hvalue : bare? word = some v) (hne : word ≠ []) (hword : ∀ c ∈ word, isBare c = true)
    (hcs : ∀ c ∈ cs.head?, isBare c = false) :
    ofText? (word ++ cs) = (ofText? cs).map (.scalar v :: ·) := by
  obtain ⟨c, rest, rfl⟩ := List.exists_cons_of_ne_nil hne
  have hc := hword c List.mem_cons_self
  have hrest : ∀ c ∈ rest, isBare c = true := fun c hc => hword c (List.mem_cons_of_mem _ hc)
  obtain ⟨hblank, hquote⟩ := not_isBlank_of_isBare hc
  have htake : (rest ++ cs).takeWhile isBare = rest := by
    rw [List.takeWhile_append_of_pos hrest]
    cases cs with
    | nil => simp
    | cons c cs => simp [hcs c rfl]
  have hdrop : (rest ++ cs).dropWhile isBare = cs := by
    rw [List.dropWhile_append_of_pos hrest]
    cases cs with
    | nil => rfl
    | cons c cs => simp [hcs c rfl]
  rw [List.cons_append, ofText?, if_neg (by simp [hblank]), if_neg hquote, if_pos hc]
  simp only [htake, hdrop, hvalue, Option.bind_some]

theorem isBare_of_isExponent (h : isExponent cs = true) : ∀ c ∈ cs, isBare c = true := by
  cases cs with
  | nil => simp
  | cons e cs =>
    obtain ⟨he, hcs⟩ := Bool.and_eq_true_iff.mp h
    have hexponent : isBare e = true := by
      rcases Bool.or_eq_true_iff.mp he with he | he <;> rw [beq_iff_eq.mp he] <;> rfl
    have hdigits {cs : List Char} (h : (!cs.isEmpty && cs.all Char.isDigit) = true) :
        ∀ c ∈ cs, isBare c = true := fun c hc =>
      isBare_of_isDigit (List.all_eq_true.mp (Bool.and_eq_true_iff.mp h).2 c hc)
    refine List.forall_mem_cons.mpr ⟨hexponent, ?_⟩
    split at hcs
    · exact List.forall_mem_cons.mpr ⟨rfl, hdigits hcs⟩
    · exact List.forall_mem_cons.mpr ⟨rfl, hdigits hcs⟩
    · exact hdigits hcs

theorem isBare_takeWhile_isDigit (cs : List Char) :
    ∀ c ∈ cs.takeWhile Char.isDigit, isBare c = true := fun _ hc =>
  isBare_of_isDigit (List.mem_takeWhile_imp hc)

theorem isBare_of_dropWhile_isDigit (h : ∀ c ∈ cs.dropWhile Char.isDigit, isBare c = true) :
    ∀ c ∈ cs, isBare c = true := by
  rw [← List.takeWhile_append_dropWhile (p := Char.isDigit) (l := cs)]
  exact List.forall_mem_append.mpr ⟨isBare_takeWhile_isDigit cs, h⟩

theorem isBare_of_isNumber (h : isNumber cs = true) : ∀ c ∈ cs, isBare c = true := by
  have hwhole {cs : List Char} (h : isExponent (cs.dropWhile Char.isDigit) = true) :
      ∀ c ∈ cs, isBare c = true := isBare_of_dropWhile_isDigit (isBare_of_isExponent h)
  have hfraction {cs fraction : List Char} (hrest : cs.dropWhile Char.isDigit = '.' :: fraction)
      (h : (fraction.head?.any Char.isDigit && isExponent (fraction.dropWhile Char.isDigit)) = true) :
      ∀ c ∈ cs, isBare c = true := by
    refine isBare_of_dropWhile_isDigit ?_
    rw [hrest]
    exact List.forall_mem_cons.mpr ⟨rfl, hwhole (Bool.and_eq_true_iff.mp h).2⟩
  unfold isNumber at h
  split at h
  · obtain ⟨-, h⟩ := Bool.and_eq_true_iff.mp h
    refine List.forall_mem_cons.mpr ⟨rfl, ?_⟩
    split at h
    · next hrest => exact hfraction hrest h
    · exact hwhole h
  · obtain ⟨-, h⟩ := Bool.and_eq_true_iff.mp h
    split at h
    · next hrest => exact hfraction hrest h
    · exact hwhole h

theorem bare?_of_isNumber (h : isNumber cs = true) : bare? cs = some (.number (String.ofList cs)) := by
  have hne (word : List Char) (hword : isNumber word = false) : String.ofList cs ≠ String.ofList word := by
    intro heq
    rw [String.ofList_injective heq, hword] at h
    cases h
  unfold bare?
  split
  · next heq => exact absurd heq (hne ['n', 'u', 'l', 'l'] rfl)
  · next heq => exact absurd heq (hne ['t', 'r', 'u', 'e'] rfl)
  · next heq => exact absurd heq (hne ['f', 'a', 'l', 's', 'e'] rfl)
  · rw [if_pos h]

end Token

end Json

end HeyVL
