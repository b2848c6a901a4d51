import HeyVL.Grammar.Validity
import Mathlib.Data.List.Basic

namespace HeyVL

namespace Grammar

namespace Description

/-- The names of rules that can be reached: the first one, those that an extra or an external token
mentions, and those that a rule mentions that can be reached. -/
inductive Reaches (d : Description) : String → Prop
  | start {name : String} (hstart : d.start? = some name) : Reaches d name
  | lexical {name : String} {rule : Rule} (hrule : rule ∈ d.extras ++ d.externals)
      (hmentions : name ∈ rule.mentions) (hname : name ∈ d.rules.map Prod.fst) : Reaches d name
  | mention {name name' : String} {rule : Rule} (h : Reaches d name') (hrule : (name', rule) ∈ d.rules)
      (hmentions : name ∈ rule.mentions) (hname : name ∈ d.rules.map Prod.fst) : Reaches d name

variable {d : Description} {name : String} {m n : Nat}

theorem mem_names_of_start? (h : d.start? = some name) : name ∈ d.rules.map Prod.fst := by
  obtain ⟨entry, hentry, rfl⟩ := Option.map_eq_some_iff.mp h
  exact List.mem_map_of_mem (List.mem_of_head? hentry)

theorem mem_reached_zero_iff : name ∈ d.reached 0 ↔ d.start? = some name ∨
    ∃ rule ∈ d.extras ++ d.externals, name ∈ rule.mentions ∧ name ∈ d.rules.map Prod.fst := by
  simp only [reached, List.mem_filter, Bool.or_eq_true, beq_iff_eq, List.any_eq_true,
    List.contains_iff_mem]
  constructor
  · rintro ⟨hname, hstart | ⟨rule, hrule, hmentions⟩⟩
    · exact .inl hstart
    · exact .inr ⟨rule, hrule, hmentions, hname⟩
  · rintro (hstart | ⟨rule, hrule, hmentions, hname⟩)
    · exact ⟨mem_names_of_start? hstart, .inl hstart⟩
    · exact ⟨hname, .inr ⟨rule, hrule, hmentions⟩⟩

theorem mem_reached_succ_iff : name ∈ d.reached (n + 1) ↔ name ∈ d.rules.map Prod.fst ∧
    (name ∈ d.reached n ∨
      ∃ name' rule, (name', rule) ∈ d.rules ∧ name' ∈ d.reached n ∧ name ∈ rule.mentions) := by
  simp only [reached, List.mem_filter, Bool.or_eq_true, List.contains_iff_mem, List.mem_flatMap,
    Prod.exists, and_assoc]

theorem mem_names_of_mem_reached (h : name ∈ d.reached n) : name ∈ d.rules.map Prod.fst := by
  cases n with
  | zero => exact (List.mem_filter.mp h).1
  | succ n => exact (List.mem_filter.mp h).1

theorem mem_reached_succ (h : name ∈ d.reached n) : name ∈ d.reached (n + 1) :=
  mem_reached_succ_iff.mpr ⟨mem_names_of_mem_reached h, .inl h⟩

theorem mem_reached_of_le (hle : m ≤ n) (h : name ∈ d.reached m) : name ∈ d.reached n := by
  induction hle with
  | refl => exact h
  | step _ ih => exact mem_reached_succ ih

theorem filter_mem_filter {α : Type} [DecidableEq α] (p : α → Bool) (l : List α) :
    l.filter (· ∈ l.filter p) = l.filter p :=
  List.filter_congr fun a ha => by simp [ha]

theorem reached_eq_filter (d : Description) (n : Nat) :
    d.reached n = (d.rules.map Prod.fst).filter (· ∈ d.reached n) := by
  cases n with
  | zero => exact (filter_mem_filter _ _).symm
  | succ n => exact (filter_mem_filter _ _).symm

theorem reached_sublist_succ (d : Description) (n : Nat) :
    (d.reached n).Sublist (d.reached (n + 1)) := by
  rw [reached_eq_filter d n, reached_eq_filter d (n + 1)]
  refine List.monotone_filter_right _ fun name h => ?_
  exact decide_eq_true (mem_reached_succ (of_decide_eq_true h))

theorem reached_eq_of_eq_succ (h : d.reached (n + 1) = d.reached n) (hle : n ≤ m) :
    d.reached m = d.reached n := by
  induction hle with
  | refl => rfl
  | @step m _ ih => rw [← h, reached, reached, ih]

/-- A round that finds nothing is the last that is needed, and each of those before it finds a rule. -/
theorem reached_succ_length (d : Description) :
    d.reached (d.rules.length + 1) = d.reached d.rules.length := by
  by_contra hne
  have hgrow : ∀ n ≤ d.rules.length + 1, n ≤ (d.reached n).length := by
    intro n hn
    induction n with
    | zero => exact Nat.zero_le _
    | succ n ih =>
      have hlt : (d.reached n).length < (d.reached (n + 1)).length := by
        refine Nat.lt_of_le_of_ne (reached_sublist_succ d n).length_le fun hlength => hne ?_
        have hsame := ((reached_sublist_succ d n).eq_of_length hlength).symm
        rw [reached_eq_of_eq_succ hsame (Nat.le_of_succ_le hn),
          reached_eq_of_eq_succ hsame (Nat.le_of_succ_le_succ hn)]
      exact Nat.lt_of_le_of_lt (ih (Nat.le_of_succ_le hn)) hlt
  have hlength : (d.reached (d.rules.length + 1)).length ≤ d.rules.length := by
    rw [reached_eq_filter]
    simpa using List.length_filter_le (· ∈ d.reached (d.rules.length + 1)) (d.rules.map Prod.fst)
  exact absurd (hgrow _ (Nat.le_refl _)) (Nat.not_le_of_lt (Nat.lt_succ_of_le hlength))

theorem Reaches.of_mem_reached (h : name ∈ d.reached n) : d.Reaches name := by
  induction n generalizing name with
  | zero =>
    rcases mem_reached_zero_iff.mp h with hstart | ⟨rule, hrule, hmentions, hname⟩
    · exact .start hstart
    · exact .lexical hrule hmentions hname
  | succ n ih =>
    obtain ⟨hname, hknown | ⟨name', rule, hrule, hname', hmentions⟩⟩ := mem_reached_succ_iff.mp h
    · exact ih hknown
    · exact .mention (ih hname') hrule hmentions hname

theorem mem_reached_iff : name ∈ d.reached d.rules.length ↔ d.Reaches name := by
  refine ⟨.of_mem_reached, fun h => ?_⟩
  induction h with
  | start hstart => exact mem_reached_of_le (Nat.zero_le _) (mem_reached_zero_iff.mpr (.inl hstart))
  | lexical hrule hmentions hname =>
    exact mem_reached_of_le (Nat.zero_le _)
      (mem_reached_zero_iff.mpr (.inr ⟨_, hrule, hmentions, hname⟩))
  | mention _ hrule hmentions hname ih =>
    rw [← reached_succ_length]
    exact mem_reached_succ_iff.mpr ⟨hname, .inr ⟨_, _, hrule, ih, hmentions⟩⟩

theorem mem_kept_iff :
    name ∈ d.kept ↔ name ∈ d.rules.map Prod.fst ∧ (d.Reaches name ∨ d.word = some name) := by
  rw [kept, List.mem_filter, Bool.or_eq_true, List.contains_iff_mem, mem_reached_iff, beq_iff_eq]

theorem rules_withoutUnused (d : Description) :
    d.withoutUnused.rules = d.rules.filter fun entry => d.kept.contains entry.1 := rfl

theorem mem_rules_withoutUnused_iff {entry : String × Rule} :
    entry ∈ d.withoutUnused.rules ↔ entry ∈ d.rules ∧ (d.Reaches entry.1 ∨ d.word = some entry.1) := by
  rw [rules_withoutUnused, List.mem_filter, List.contains_iff_mem, mem_kept_iff]
  constructor
  · exact fun ⟨hentry, _, hreaches⟩ => ⟨hentry, hreaches⟩
  · exact fun ⟨hentry, hreaches⟩ => ⟨hentry, List.mem_map_of_mem hentry, hreaches⟩

theorem mem_names_withoutUnused_iff : name ∈ d.withoutUnused.rules.map Prod.fst ↔
    name ∈ d.rules.map Prod.fst ∧ (d.Reaches name ∨ d.word = some name) := by
  simp only [List.mem_map, mem_rules_withoutUnused_iff]
  constructor
  · rintro ⟨entry, ⟨hentry, hreaches⟩, rfl⟩
    exact ⟨⟨entry, hentry, rfl⟩, hreaches⟩
  · rintro ⟨⟨entry, hentry, rfl⟩, hreaches⟩
    exact ⟨entry, ⟨hentry, hreaches⟩, rfl⟩

theorem start?_withoutUnused (d : Description) : d.withoutUnused.start? = d.start? := by
  cases hrules : d.rules with
  | nil => rw [start?, start?, rules_withoutUnused, hrules, List.filter_nil]
  | cons entry rest =>
    have hstart : d.start? = some entry.1 := by rw [start?, hrules]; rfl
    have hkept : d.kept.contains entry.1 = true :=
      List.contains_iff_mem.mpr (mem_kept_iff.mpr ⟨mem_names_of_start? hstart, .inl (.start hstart)⟩)
    rw [hstart, start?, rules_withoutUnused, hrules, List.filter_cons, if_pos hkept]
    rfl

theorem Reaches.withoutUnused (h : d.Reaches name) : d.withoutUnused.Reaches name := by
  induction h with
  | start hstart => exact .start (start?_withoutUnused d ▸ hstart)
  | lexical hrule hmentions hname =>
    exact .lexical hrule hmentions
      (mem_names_withoutUnused_iff.mpr ⟨hname, .inl (.lexical hrule hmentions hname)⟩)
  | mention h hrule hmentions hname ih =>
    exact .mention ih (mem_rules_withoutUnused_iff.mpr ⟨hrule, .inl h⟩) hmentions
      (mem_names_withoutUnused_iff.mpr ⟨hname, .inl (.mention h hrule hmentions hname)⟩)

theorem withoutUnused_eq_self
    (h : ∀ name ∈ d.rules.map Prod.fst, d.Reaches name ∨ d.word = some name) :
    d.withoutUnused = d := by
  have hkept {name : String} (hname : name ∈ d.rules.map Prod.fst) : d.kept.contains name = true :=
    List.contains_iff_mem.mpr (mem_kept_iff.mpr ⟨hname, h name hname⟩)
  have hrules : d.rules.filter (fun entry => d.kept.contains entry.1) = d.rules :=
    List.filter_eq_self.mpr fun entry hentry => hkept (List.mem_map_of_mem hentry)
  have hremoved : (d.rules.map Prod.fst).filter (!d.kept.contains ·) = [] :=
    List.filter_eq_nil_iff.mpr fun name hname => by rw [hkept hname]; exact Bool.false_ne_true
  have hall {α : Type} (l : List α) : (l.all fun _ => true) = true := by simp
  rw [withoutUnused, hrules, hremoved]
  simp only [List.contains_nil, Bool.not_false, hall, List.filter_true]

theorem withoutUnused_withoutUnused (d : Description) :
    d.withoutUnused.withoutUnused = d.withoutUnused := by
  refine withoutUnused_eq_self fun name hname => ?_
  rcases (mem_names_withoutUnused_iff.mp hname).2 with hreaches | hword
  · exact .inl hreaches.withoutUnused
  · exact .inr hword

end Description

end Grammar

end HeyVL
