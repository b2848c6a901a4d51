import HeyVL.Highlight.Capture
import HeyVL.Proofs.Tree.Moving

namespace HeyVL

open Token

namespace Capture

variable {a b c : Capture} {f g : Nat → Nat}

/-- The capture at another place: `f` moves starts and `g` moves ends. -/
def moved (f g : Nat → Nat) (c : Capture) : Capture := { c with start := f c.start, stop := g c.stop }

theorem le_iff :
    le a b = true ↔ a.start < b.start ∨ a.start = b.start ∧
      (a.stop < b.stop ∨ a.stop = b.stop ∧ a.rule ≤ b.rule) := by
  simp [le]

theorem le_trans (hab : le a b = true) (hbc : le b c = true) : le a c = true := by
  rw [le_iff] at *
  omega

theorem le_total (a b : Capture) : (le a b || le b a) = true := by
  rw [Bool.or_eq_true, le_iff, le_iff]
  omega

end Capture

namespace Highlight

variable {f g : Nat → Nat} {t u : Tree} {ts us : List Tree} {r : Rule} {p : Pattern}

namespace Part

theorem choices_moved (f g : Nat → Nat) (ps : List Part) (ts : List Tree) :
    choices ps (ts.map (Tree.moved f g)) = (choices ps ts).map (List.map (Tree.moved f g)) := by
  induction ts generalizing ps with
  | nil => cases ps <;> rfl
  | cons t ts ih =>
    cases ps with
    | nil => rfl
    | cons p ps =>
      have hmatch : p.isMatch (t.moved f g) = p.isMatch t := by
        rw [isMatch, Tree.kind_moved, Tree.role_moved, isMatch]
      rw [List.map_cons, choices, choices, hmatch, ih ps, ih (p :: ps), List.map_append]
      cases p.isMatch t with
      | true => simp
      | false => rfl

theorem isMatch_bare (p : Part) (t : Tree) : p.isMatch t.bare = p.isMatch t := by
  rw [isMatch, Tree.kind_bare, Tree.role_bare, isMatch]

theorem choices_bareOfList {ps : List Part} (hps : ∀ p ∈ ps, p.token ≠ .comment) (ts : List Tree) :
    choices ps (Tree.bareOfList ts) = (choices ps ts).map (List.map Tree.bare) := by
  induction ts generalizing ps with
  | nil => cases ps <;> rfl
  | cons t ts ih =>
    cases ps with
    | nil => simp [choices]
    | cons p ps =>
      have hrest := ih hps
      rw [Tree.bareOfList]
      cases hcomment : t.isComment with
      | true =>
        have hmatch : p.isMatch t = false := by
          have htoken := hps p (by simp)
          rw [Tree.isComment, beq_iff_eq] at hcomment
          simp [isMatch, hcomment, htoken.symm]
        rw [choices, hmatch]
        exact hrest
      | false =>
        have htail := ih fun q hq => hps q (List.mem_cons_of_mem _ hq)
        show choices (p :: ps) (t.bare :: Tree.bareOfList ts) = _
        rw [choices, choices, isMatch_bare, hrest, htail, List.map_append]
        cases p.isMatch t with
        | true => simp
        | false => rfl

theorem isMatch_of_mem_choices {ps : List Part} (hus : us ∈ choices ps ts) (hu : u ∈ us) :
    u ∈ ts ∧ ∃ p ∈ ps, p.isMatch u = true := by
  induction ts generalizing ps us with
  | nil =>
    cases ps with
    | nil =>
      obtain rfl := List.mem_singleton.mp hus
      cases hu
    | cons p ps => cases hus
  | cons t ts ih =>
    cases ps with
    | nil =>
      obtain rfl := List.mem_singleton.mp hus
      cases hu
    | cons p ps =>
      rw [choices, List.mem_append] at hus
      rcases hus with hus | hus
      · split at hus
        · next hmatch =>
          obtain ⟨vs, hvs, rfl⟩ := List.mem_map.mp hus
          rcases List.mem_cons.mp hu with rfl | hu
          · exact ⟨by simp, p, by simp, hmatch⟩
          · obtain ⟨hts, q, hq, hmatch⟩ := ih hvs hu
            exact ⟨by simp [hts], q, by simp [hq], hmatch⟩
        · cases hus
      · obtain ⟨hts, q, hq, hmatch⟩ := ih hus hu
        exact ⟨by simp [hts], q, hq, hmatch⟩

end Part

namespace Pattern

def tokens : Pattern → List Token
  | .anyOf tokens => tokens
  | _ => []

def parts : Pattern → List Part
  | .inside _ parts => parts
  | _ => []

theorem matchesAt_moved (f g : Nat → Nat) (p : Pattern) (t : Tree) :
    p.matchesAt (t.moved f g) = (p.matchesAt t).map (List.map (Tree.moved f g)) := by
  cases p with
  | anyOf tokens =>
    cases t with
    | leaf role l =>
      simp only [matchesAt, Tree.moved, Lexeme.moved]
      split <;> rfl
    | node => rfl
  | node c =>
    rw [matchesAt, matchesAt, Tree.kind_moved]
    split <;> rfl
  | inside c parts =>
    rw [matchesAt, matchesAt, Tree.kind_moved, Tree.children_moved, Part.choices_moved]
    split <;> rfl

theorem matchesAt_bare (hp : ∀ q ∈ p.parts, q.token ≠ .comment) (t : Tree) :
    p.matchesAt t.bare = (p.matchesAt t).map (List.map Tree.bare) := by
  cases p with
  | anyOf tokens =>
    cases t with
    | leaf role l =>
      simp only [matchesAt, Tree.bare]
      split <;> rfl
    | node => rfl
  | node c =>
    rw [matchesAt, matchesAt, Tree.kind_bare]
    split <;> rfl
  | inside c parts =>
    cases t with
    | leaf => rfl
    | node role c' ts =>
      have hparts : ∀ q ∈ parts, q.token ≠ .comment := hp
      rw [matchesAt, matchesAt, Tree.kind_bare, Tree.bare, Tree.children, Tree.children,
        Part.choices_bareOfList hparts]
      split <;> rfl

/-- What a pattern describes at a node is the node or a child of it, and it is a leaf unless the
pattern asks for its category. -/
theorem mem_matchesAt (hus : us ∈ p.matchesAt t) (hu : u ∈ us) :
    (u = t ∨ u ∈ t.children) ∧ ∀ c, u.kind = .category c → p = .node c := by
  cases p with
  | anyOf tokens =>
    cases t with
    | leaf role l =>
      rw [matchesAt] at hus
      split at hus
      · obtain rfl := List.mem_singleton.mp hus
        obtain rfl := List.mem_singleton.mp hu
        exact ⟨.inl rfl, fun c hc => by cases hc⟩
      · cases hus
    | node => cases hus
  | node c =>
    rw [matchesAt] at hus
    split at hus
    · next hkind =>
      obtain rfl := List.mem_singleton.mp hus
      obtain rfl := List.mem_singleton.mp hu
      exact ⟨.inl rfl, fun c' hc' => by rw [Kind.category.inj (hkind.symm.trans hc')]⟩
    · cases hus
  | inside c parts =>
    rw [matchesAt] at hus
    split at hus
    · obtain ⟨hmem, q, -, hmatch⟩ := Part.isMatch_of_mem_choices hus hu
      refine ⟨.inr hmem, fun c' hc' => ?_⟩
      rw [Part.isMatch, hc'] at hmatch
      cases hmatch
    · cases hus

end Pattern

theorem ne_comment_of_mem_parts (hr : r ∈ rules) : ∀ q ∈ r.pattern.parts, q.token ≠ .comment := by
  have hall : rules.all (fun r => r.pattern.parts.all fun q => q.token != .comment) = true := by
    decide
  intro q hq
  simpa using List.all_eq_true.mp (List.all_eq_true.mp hall r hr) q hq

theorem kind_ne_sourceFile_of_mem (hr : r ∈ rules) (hus : us ∈ r.pattern.matchesAt t)
    (hu : u ∈ us) : u.kind ≠ .category .sourceFile := by
  have hall : rules.all (fun r => r.pattern != .node .sourceFile) = true := by decide
  intro hkind
  have hpattern := (Pattern.mem_matchesAt hus hu).2 _ hkind
  simpa [hpattern] using List.all_eq_true.mp hall r hr

theorem isComment_of_mem_matchesAt (hr : r ∈ rules) (hus : us ∈ r.pattern.matchesAt t) :
    t.isComment = (r.capture == "comment") := by
  have hall : rules.all (fun r => r.pattern == .anyOf [.comment] && r.capture == "comment" ||
      r.capture != "comment" && !r.pattern.tokens.contains .comment) = true := by decide
  have hrule := List.all_eq_true.mp hall r hr
  rw [Bool.or_eq_true, Bool.and_eq_true, Bool.and_eq_true] at hrule
  rcases hrule with ⟨hpattern, hcapture⟩ | ⟨hcapture, htokens⟩
  · rw [eq_of_beq hpattern] at hus
    rw [hcapture]
    cases t with
    | leaf role l =>
      rw [Pattern.matchesAt] at hus
      split at hus
      · next htoken => simpa [Tree.isComment] using htoken
      · cases hus
    | node => cases hus
  · rw [bne, Bool.not_eq_true'] at hcapture
    rw [hcapture]
    cases t with
    | leaf role l =>
      cases hp : r.pattern with
      | anyOf tokens =>
        rw [hp, Pattern.tokens] at htokens
        rw [hp, Pattern.matchesAt] at hus
        split at hus
        · next hmem =>
          have hne : l.token ≠ .comment := by
            rintro heq
            rw [heq] at hmem
            simp [hmem] at htokens
          simpa [Tree.isComment] using hne
        · cases hus
      | node c =>
        rw [hp] at hus
        cases hus
      | inside c parts =>
        rw [hp] at hus
        cases hus
    | node => rfl

end Highlight

end HeyVL
