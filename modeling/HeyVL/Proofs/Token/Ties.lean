import HeyVL.Proofs.Token.Taking

namespace HeyVL

open Bytes

namespace Token

variable {bytes : Bytes} {t : Token} {k n : Nat}

/-- No comment and no viable token is longer at the head of the bytes. -/
structure IsLongest (viable : Token → Prop) (bytes : Bytes) (t : Token) (n : Nat) : Prop where
  is_viable : t = .comment ∨ viable t
  length : t.matchLength bytes = some n
  longest : ∀ u m, u = .comment ∨ viable u → u.matchLength bytes = some m → m ≤ n

/-- The token that an identifier-shaped run is when the reserved words are tried in the given
order. -/
def ofWordIn? (order : List Token) (viable : Token → Bool) (word : Bytes) : Option Token :=
  (order.find? fun t => t.isReserved && t.matchLength word == some word.length && viable t).or
    (if viable identifier then some identifier else none)

/-- The comment and the viable tokens at the head of the bytes, tried in the given order. -/
def candidatesIn (order : List Token) (viable : Token → Bool) (bytes : Bytes) :
    List (Token × Nat) :=
  (order.filter fun t => t = comment || viable t).filterMap fun t =>
    (t.matchLength bytes).map fun n => (t, n)

/-- The token at the head of the bytes when all tokens are tried in the given order: of candidates
with the same length the first one wins. -/
def nextIn? (order : List Token) (viable : Token → Bool) (bytes : Bytes) : Option (Token × Nat) :=
  bytes.wordLength.elim ((candidatesIn order viable bytes).maxOn? Prod.snd) fun n =>
    (ofWordIn? order viable (bytes.take n)).map fun t => (t, n)

theorem find?_eq_of_unique {α : Type} {p : α → Bool} {xs ys : List α} (hxs : ∀ x, x ∈ xs)
    (hys : ∀ x, x ∈ ys) (hp : ∀ x y, p x = true → p y = true → x = y) :
    xs.find? p = ys.find? p := by
  cases hx : xs.find? p with
  | none =>
    rw [eq_comm, List.find?_eq_none]
    exact fun y _ => List.find?_eq_none.mp hx y (hxs y)
  | some x =>
    have hpx := List.find?_some hx
    obtain ⟨y, hy⟩ := Option.isSome_iff_exists.mp (List.find?_isSome.mpr ⟨x, hys x, hpx⟩)
    rw [hy, hp x y hpx (List.find?_some hy)]

/-- Of what is nowhere as great as another one, the greatest does not depend on the order. -/
theorem maxOn?_eq_of_injOn {α : Type} {f : α → Nat} {xs ys : List α}
    (hmem : ∀ x, x ∈ xs ↔ x ∈ ys) (hf : ∀ x ∈ xs, ∀ y ∈ xs, f x = f y → x = y) :
    xs.maxOn? f = ys.maxOn? f := by
  have hle {zs : List α} {x y : α} (hx : x ∈ zs) (hy : zs.maxOn? f = some y) : f x ≤ f y := by
    have hle := List.le_apply_get_maxOn?_of_mem (f := f) hx
    simpa only [hy, Option.get_some] using hle
  cases hx : xs.maxOn? f with
  | none =>
    cases hy : ys.maxOn? f with
    | none => rfl
    | some y =>
      have hsome := List.isSome_maxOn?_of_mem (f := f) ((hmem y).mpr (List.maxOn?_mem hy))
      rw [hx] at hsome
      cases hsome
  | some x =>
    have hmemx := List.maxOn?_mem hx
    obtain ⟨y, hy⟩ := Option.isSome_iff_exists.mp
      (List.isSome_maxOn?_of_mem (f := f) ((hmem x).mp hmemx))
    have hmemy := (hmem y).mpr (List.maxOn?_mem hy)
    rw [hy, hf x hmemx y hmemy (Nat.le_antisymm (hle ((hmem x).mp hmemx) hy) (hle hmemy hx))]

theorem eq_of_isReserved {u : Token} (ht : t.isReserved = true) (hu : u.isReserved = true)
    (htext : t.matchLength bytes = some n) (hutext : u.matchLength bytes = some n) : t = u := by
  rcases eq_of_matches (matchLength_eq_some_iff.mp htext).1 (matchLength_eq_some_iff.mp hutext).1
    with h | ⟨rfl, -⟩ | ⟨rfl, -⟩
  · exact h.symm
  · cases hu
  · cases ht

theorem eq_of_wordLength_eq_none {u : Token} (h : bytes.wordLength = none)
    (ht : t.matchLength bytes = some n) (hu : u.matchLength bytes = some n) : t = u := by
  have hword : identifier.matchLength bytes ≠ some n := by
    show bytes.wordLength ≠ some n
    rw [h]
    exact nofun
  rcases eq_of_matches (matchLength_eq_some_iff.mp ht).1 (matchLength_eq_some_iff.mp hu).1
    with h | ⟨rfl, -⟩ | ⟨rfl, -⟩
  · exact h.symm
  · exact absurd hu hword
  · exact absurd ht hword

theorem mem_candidatesIn_iff {order : List Token} (horder : ∀ t, t ∈ order)
    {viable : Token → Bool} {x : Token × Nat} :
    x ∈ candidatesIn order viable bytes ↔ x ∈ candidates viable bytes := by
  obtain ⟨t, n⟩ := x
  rw [mem_candidates_iff, candidatesIn]
  simp only [List.mem_filterMap, List.mem_filter, horder, true_and, Option.map_eq_some_iff,
    Bool.or_eq_true, decide_eq_true_eq]
  constructor
  · rintro ⟨u, hu, m, hm, heq⟩
    obtain ⟨rfl, rfl⟩ := Prod.mk.inj heq
    exact ⟨hu, hm⟩
  · rintro ⟨ht, hn⟩
    exact ⟨t, ht, n, hn, rfl⟩

theorem ofWordIn?_eq_ofWord? {order : List Token} (horder : ∀ t, t ∈ order)
    (viable : Token → Bool) (word : Bytes) :
    ofWordIn? order viable word = ofWord? viable word := by
  have hfind := find?_eq_of_unique horder mem_all
    (p := fun t => t.isReserved && t.matchLength word == some word.length && viable t)
    fun t u ht hu => by
      simp only [Bool.and_eq_true, beq_iff_eq] at ht hu
      exact eq_of_isReserved ht.1.1 hu.1.1 ht.1.2 hu.1.2
  rw [ofWordIn?, hfind, ofWord?]
  cases all.find? fun t => t.isReserved && t.matchLength word == some word.length && viable t with
  | none => rfl
  | some t => rfl

theorem nextIn?_eq_next? {order : List Token} (horder : ∀ t, t ∈ order) (viable : Token → Bool)
    (bytes : Bytes) : nextIn? order viable bytes = next? viable bytes := by
  rw [nextIn?, next?]
  split
  · next k hk => rw [hk, Option.elim_some, ofWordIn?_eq_ofWord? horder]
  · next hnone =>
    rw [hnone, Option.elim_none]
    refine maxOn?_eq_of_injOn (fun x => mem_candidatesIn_iff horder) ?_
    rintro ⟨t, n⟩ ht ⟨u, m⟩ hu (rfl : n = m)
    rw [mem_candidatesIn_iff horder, mem_candidates_iff] at ht hu
    rw [eq_of_wordLength_eq_none hnone ht.2 hu.2]

theorem taken_iff_isLongest {viable : Token → Prop} (h : bytes.wordLength = none) :
    Taken viable bytes t n ↔ IsLongest viable bytes t n := by
  have hword : ∀ m, ¬ identifier.Matches bytes m := matchLength_eq_none_iff.mp h
  have hstands {u : Token} {m : Nat} (hu : u = comment ∨ viable u) (hm : u.Matches bytes m) :
      Stands viable bytes u m := ⟨hu, hm, fun k hk => absurd hk (hword k)⟩
  constructor
  · intro ht
    refine ⟨ht.stands.is_viable, matchLength_eq_some_iff.mpr ⟨ht.stands.text, fun m hm => ?_⟩,
      fun u m hu hm => ?_⟩
    · exact ht.longest t m (hstands ht.stands.is_viable hm)
    · exact ht.longest u m (hstands hu (matchLength_eq_some_iff.mp hm).1)
  · intro ht
    have htext := (matchLength_eq_some_iff.mp ht.length).1
    refine ⟨hstands ht.is_viable htext, fun u m hu => ?_, ?_⟩
    · cases hlength : u.matchLength bytes with
      | none => exact absurd hu.text (matchLength_eq_none_iff.mp hlength m)
      | some k =>
        have hle : m ≤ k := (matchLength_eq_some_iff.mp hlength).2 hu.text
        exact hle.trans (ht.longest u k hu.is_viable hlength)
    · rintro rfl
      exact absurd htext (hword n)

theorem IsLongest.taken_of_isReserved {viable : Token → Prop} (ht : IsLongest viable bytes t n)
    (hreserved : t.isReserved = true) (hidentifier : identifier.matchLength bytes = some n) :
    Taken viable bytes t n := by
  have hrun := (matchLength_eq_some_iff.mp hidentifier).2
  refine ⟨⟨ht.is_viable, (matchLength_eq_some_iff.mp ht.length).1, fun m hm => hrun hm⟩,
    fun u m hu => (hu.eq_wordLength hidentifier).1.le, ?_⟩
  rintro rfl
  cases hreserved

/-- Nothing is left to choose at the head of the bytes: the tokens alone decide which one is
taken. -/
structure IsUntied (viable : Token → Bool) (bytes : Bytes) : Prop where
  /-- Two tokens of the greatest length are a reserved word and the identifier. -/
  tie : ∀ t u n, IsLongest (fun t => viable t = true) bytes t n →
    IsLongest (fun t => viable t = true) bytes u n →
      u = t ∨ u = .identifier ∧ t.isReserved = true ∨ t = .identifier ∧ u.isReserved = true
  /-- Of these the reserved word is taken, and both are the identifier-shaped run. -/
  reserved : ∀ t n, IsLongest (fun t => viable t = true) bytes .identifier n →
    IsLongest (fun t => viable t = true) bytes t n → t.isReserved = true →
      bytes.wordLength = some n ∧ next? viable bytes = some (t, n)
  /-- Elsewhere the only token of the greatest length is taken. -/
  longest : bytes.wordLength = none → ∀ t n,
    next? viable bytes = some (t, n) ↔ IsLongest (fun t => viable t = true) bytes t n
  /-- What is taken does not depend on the order in which the tokens are tried. -/
  order : ∀ order : List Token, (∀ t, t ∈ order) →
    nextIn? order viable bytes = next? viable bytes
  /-- Where an identifier-shaped run begins, what is taken is the whole run. -/
  whole : ∀ k, bytes.wordLength = some k → ∀ t n, next? viable bytes = some (t, n) →
    n = k ∧ (t.isReserved = true ∨ t = .identifier)

theorem isUntied (viable : Token → Bool) (bytes : Bytes) : IsUntied viable bytes where
  tie t u n ht hu :=
    eq_of_matches (matchLength_eq_some_iff.mp ht.length).1 (matchLength_eq_some_iff.mp hu.length).1
  reserved t n hidentifier ht hreserved :=
    ⟨hidentifier.length, next?_eq_some_iff.mpr (ht.taken_of_isReserved hreserved hidentifier.length)⟩
  longest hnone t n := by rw [next?_eq_some_iff, taken_iff_isLongest hnone]
  order order horder := nextIn?_eq_next? horder viable bytes
  whole k hk t n hnext := (next?_eq_some_iff.mp hnext).stands.eq_wordLength hk

/-- Nothing stands where a run begins that neither the identifier nor a viable reserved word
takes. -/
theorem not_stands_of_word {viable : Token → Prop} (hk : bytes.wordLength = some k)
    (hidentifier : ¬ viable .identifier)
    (hreserved : ∀ t, t.isReserved = true → viable t → t.matchLength bytes ≠ some k) (t : Token)
    (n : Nat) : ¬ Stands viable bytes t n := by
  intro hstands
  obtain ⟨rfl, ht⟩ := hstands.eq_wordLength hk
  have hviable : viable t := by
    rcases hstands.is_viable with rfl | hviable
    · rcases ht with h | h <;> cases h
    · exact hviable
  rcases ht with ht | rfl
  · apply hreserved t ht hviable
    rw [matchLength_eq_some_iff]
    refine ⟨hstands.text, fun m hm => ?_⟩
    obtain ⟨b, rest, rfl, hb, -⟩ := wordLength_eq_some_iff.mp hk
    exact (isGreatest_identifier.mp hk).2 (isReserved_or_eq_identifier hb hm).2
  · exact hidentifier hviable

end Token

end HeyVL
