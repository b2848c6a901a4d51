import HeyVL.Token.Pattern

namespace HeyVL

open Bytes

def Bytes.every : List UInt8 := (List.range 256).map .ofNat

theorem Bytes.mem_every (b : UInt8) : b ∈ every :=
  List.mem_map.mpr ⟨b.toNat, List.mem_range.mpr b.toNat_lt, UInt8.ofNat_toNat⟩

namespace Token

variable {t u : Token} {s : String} {b : UInt8}

theorem forall_of_all {p : Token → Bool} (h : all.all p = true) (t : Token) : p t = true :=
  List.all_eq_true.mp h t t.mem_all

/-- The spellings of a token that has only finitely many. -/
def texts : Token → List String
  | infinity => ["∞", "\\infty"]
  | boolean => ["true", "false"]
  | t => t.fixedText?.toList

/-- A byte that a text of the token can begin with. -/
def begins : Token → UInt8 → Bool
  | identifier, b => isWordStart b
  | decimal, b | integer, b => isDigit b
  | string, b => b == 34
  | comment, b => b == 47
  | t, b => t.texts.any fun s => (ofText s).head? == some b

/-- The tokens with infinitely many spellings. -/
def isClass : Token → Bool
  | identifier | decimal | integer | string | comment => true
  | _ => false

/-- The literals that begin with a digit. -/
def isNumber (t : Token) : Bool := t == decimal || t == integer

theorem begins_eq (hclass : t.isClass = false) :
    t.begins b = t.texts.any fun s => (ofText s).head? == some b := by
  cases t
  case identifier | decimal | integer | string | comment => cases hclass
  all_goals rfl

theorem spelling_table : all.all (fun t => t.texts.all fun s =>
    ((ofText s).head?.any fun b => !isWordStart b ||
      t.isReserved && wordLength (ofText s) == some (ofText s).length) &&
    ((ofText s).all fun b => !isSpace b && b != 0xEF) &&
    all.all fun u => u.matchLength (ofText s) != some (ofText s).length || u == t ||
      u == identifier && t.isReserved) = true := by
  decide +kernel

theorem spelling_of_mem (hs : s ∈ t.texts) :
    ((ofText s).head?.any fun b => !isWordStart b ||
      t.isReserved && wordLength (ofText s) == some (ofText s).length) = true ∧
    (∀ b ∈ ofText s, isSpace b = false ∧ b ≠ 0xEF) ∧
    ∀ u : Token, u.matchLength (ofText s) = some (ofText s).length →
      u = t ∨ u = identifier ∧ t.isReserved = true := by
  have hall := forall_of_all spelling_table t
  have hspelling := List.all_eq_true.mp hall s hs
  simp only [Bool.and_eq_true, List.all_eq_true] at hspelling
  obtain ⟨⟨hhead, hspace⟩, honce⟩ := hspelling
  refine ⟨hhead, fun b hb => by simpa using hspace b hb, fun u hu => ?_⟩
  simpa [hu] using honce u u.mem_all

theorem exists_head_of_mem (hs : s ∈ t.texts) :
    ∃ b w, ofText s = b :: w ∧ (isWordStart b = true →
      t.isReserved = true ∧ wordLength (ofText s) = some (ofText s).length) := by
  obtain ⟨b, hb, hword⟩ := (Option.any_eq_true _ _).mp (spelling_of_mem hs).1
  obtain ⟨w, hw⟩ := List.head?_eq_some_iff.mp hb
  refine ⟨b, w, hw, fun hstart => ?_⟩
  simpa [hstart] using hword

theorem class_table : all.all (fun t => !t.isClass || every.all fun b =>
    !t.begins b || (!isSpace b && b != 0xEF) && (!isWordStart b || t == identifier) &&
      all.all fun u => !u.isClass || !u.begins b || u == t || t.isNumber && u.isNumber) = true := by
  decide +kernel

theorem class_of_begins (hclass : t.isClass = true) (hb : t.begins b = true) :
    (isSpace b = false ∧ b ≠ 0xEF) ∧ (isWordStart b = true → t = identifier) ∧
      ∀ u : Token, u.isClass = true → u.begins b = true →
        u = t ∨ t.isNumber = true ∧ u.isNumber = true := by
  have hall := forall_of_all class_table t
  rw [hclass, Bool.not_true, Bool.false_or] at hall
  have hbyte := List.all_eq_true.mp hall b (mem_every b)
  simp only [hb, Bool.not_true, Bool.false_or, Bool.and_eq_true, List.all_eq_true] at hbyte
  obtain ⟨⟨hspace, hword⟩, happart⟩ := hbyte
  refine ⟨by simpa using hspace, fun hstart => by simpa [hstart] using hword,
    fun u hu hub => ?_⟩
  simpa [hu, hub] using happart u u.mem_all

theorem not_isSpace_of_begins (h : t.begins b = true) : isSpace b = false ∧ b ≠ 0xEF := by
  cases hclass : t.isClass with
  | true => exact (class_of_begins hclass h).1
  | false =>
    rw [begins_eq hclass] at h
    obtain ⟨s, hs, hb⟩ := List.any_eq_true.mp h
    exact (spelling_of_mem hs).2.1 b (List.mem_of_mem_head? (by simpa using hb))

theorem eq_string_of_begins (h : t.begins 34 = true) : t = string := by
  have hall : all.all (fun t => !t.begins 34 || t == string) = true := by decide
  simpa [h] using forall_of_all hall t

end Token

end HeyVL
