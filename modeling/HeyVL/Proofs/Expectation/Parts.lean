import HeyVL.Proofs.Expectation.Follow
import HeyVL.Proofs.Token.Tables

namespace HeyVL

open Production

/-- The role and the kinds of an item that is one node. -/
def Item.node? : Item → Option (Option Field × List Kind)
  | .declaration => some (none, [.category .procDeclaration, .category .domainDeclaration])
  | .specification => some (none, [.category .preCondition, .category .postCondition])
  | .domainItem => some (none, [.category .functionDeclaration, .category .axiomDeclaration])
  | .parameters role => some (role, [.category .parameterList])
  | .parameter => some (none, [.category .parameter])
  | .type role => some (role, [.category .typeIdentifier, .category .listType])
  | .block role => some (role, [.category .block])
  | .statement role => some (role, Category.statements.map .category)
  | .annotationInputs => some (none, [.category .annotationInputs])
  | .expression role => some (role, Kind.expressions)
  | .quantifierVariable => some (some .variableList, [.category .quantifierVariable])
  | .trigger => some (none, [.category .quantifierTrigger])
  | _ => none

/-- The tree is read wherever a node of its kind in its role is expected. -/
def Tree.IsRead (t : Tree) : Prop :=
  ∀ (item : Item) (kinds : List Kind), item.node? = some (t.role, kinds) → t.kind ∈ kinds →
    Expectation.Reads [item] [t]

theorem Item.expands_phrase_iff {item : Item} {role : Option Field} {kinds : List Kind}
    (h : item.node? = some (role, kinds)) {w : List Label} :
    Expands item.phrase w ↔ ∃ k ∈ kinds, w = [(role, k)] := by
  cases item <;> cases h
  case declaration | specification | domainItem => exact expands_hidden_kinds_iff rfl
  case parameters | block => exact expands_inRole_of_kinds _ fun w => expands_node_iff
  case parameter | annotationInputs | trigger => exact expands_node_iff
  case type | statement | expression =>
    exact expands_inRole_of_kinds _ fun w => expands_hidden_kinds_iff rfl
  case quantifierVariable =>
    exact expands_inRole_of_kinds (some .variableList) fun w => expands_node_iff

theorem Tree.IsRead.reads (item : Item) {role : Option Field} {kinds : List Kind}
    {ts : List Tree} (hitem : item.node? = some (role, kinds)) (htrees : ∀ t ∈ ts, t.IsRead)
    (h : Expands item.phrase (ts.map label)) : Expectation.Reads [item] ts := by
  obtain ⟨k, hk, hts⟩ := (Item.expands_phrase_iff hitem).mp h
  obtain ⟨t, rfl, ht⟩ := eq_singleton_of_labels hts
  obtain ⟨rfl, rfl⟩ := Prod.mk.inj ht
  exact htrees t (by simp) item kinds hitem hk

namespace Expectation

variable {item : Item} {items : Expectation} {ts : List Tree}

theorem reads_leaf (role : Option Field) {token : Token} {l : Lexeme} (hl : l.token = token) :
    Reads [.leaf role token] [.leaf role l] := by
  intro rest children outer ls _
  subst hl
  have hstart : (Item.leaf role l.token).start l.token = some ⟨[], role, []⟩ := by
    simp [Item.start]
  exact build?_shift hstart

theorem reads_maybe (hitem : Reads [item] ts) (hoptional : item.optional = false) :
    Reads [.maybe item] ts := by
  have hmore : Reads ([item] ++ []) (ts ++ []) := by simpa using hitem
  have hread : Reads [.maybe item] (ts ++ []) := by
    refine reads_unfold hitem hmore hoptional (fun t m hm => ?_) fun t ht => ?_
    · simpa [Item.start, Move.followedBy] using hm
    · simp only [Item.continues, Bool.or_eq_false_iff] at ht
      simpa [continues] using ht.2
  simpa using hread

theorem reads_many {parts : List (List Tree)} (hparts : ∀ us ∈ parts, Reads [item] us)
    (hoptional : item.optional = false)
    (hdisjoint : ∀ t, item.continues t = true → item.start t = none) :
    Reads [.many item] parts.flatten := by
  induction parts with
  | nil =>
    refine reads_nothing rfl rfl fun t ht => ?_
    simp only [Item.continues, Bool.or_eq_false_iff, Option.isSome_eq_false_iff,
      Option.isNone_iff_eq_none] at ht
    simp [Item.start, ht.1]
  | cons us parts ih =>
    have hus := hparts us (by simp)
    have hmore := ih fun vs hvs => hparts vs (by simp [hvs])
    refine reads_unfold hus (reads_cons hus hmore fun t ht => ?_) hoptional (fun t m hm => ?_)
      fun t ht => ?_
    · simp [expects, advance, Item.start, Item.optional, hdisjoint t ht]
    · simp [Item.start, hm]
    · have hitem : item.continues t = false := by
        simp only [Item.continues, Bool.or_eq_false_iff] at ht
        exact ht.2
      simp [continues, ht, hitem]

theorem reads_more {r : Option Field} {parts : List (Lexeme × List Tree)}
    (hparts : ∀ part ∈ parts, part.1.token = .punctuation .comma ∧ Reads [item] part.2)
    (hcomma : item.continues (.punctuation .comma) = false) :
    Reads [.more r item] (parts.flatMap fun part => .leaf r part.1 :: part.2) := by
  induction parts with
  | nil =>
    refine reads_nothing rfl rfl fun t ht => ?_
    simp only [Item.continues, Bool.or_eq_false_iff, beq_eq_false_iff_ne] at ht
    simp [Item.start, ht.1]
  | cons part parts ih =>
    obtain ⟨hpart, hus⟩ := hparts part (by simp)
    have hmore := ih fun x hx => hparts x (by simp [hx])
    have hleaf := reads_leaf r hpart
    have hitem := reads_cons hus hmore fun t ht => by
      have hne : t ≠ .punctuation .comma := by
        rintro rfl
        rw [hcomma] at ht
        cases ht
      simp [expects, advance, Item.start, Item.optional, hne]
    have hall := reads_cons hleaf hitem fun t ht => by cases ht
    have hread : Reads [.more r item] ([.leaf r part.1] ++ (part.2 ++
        parts.flatMap fun part => .leaf r part.1 :: part.2)) := by
      refine reads_unfold hleaf hall rfl (fun t m hm => ?_) fun t ht => ?_
      · simp only [Item.start] at hm ⊢
        split at hm <;> cases hm
        simp [*, Move.followedBy]
      · have hitem : item.continues t = false := by
          simp only [Item.continues, Bool.or_eq_false_iff] at ht
          exact ht.2
        have hcomma' : (Item.leaf r (.punctuation .comma)).continues t = false := rfl
        simp [continues, ht, hitem, hcomma']
    exact hread

theorem reads_series (hoptional : item.optional = false) {first : List Tree}
    (hfirst : Reads [item] first) {parts : List (Lexeme × List Tree)}
    (hparts : ∀ part ∈ parts, part.1.token = .punctuation .comma ∧ Reads [item] part.2)
    (hcomma : item.continues (.punctuation .comma) = false) :
    Reads [.series item] (first ++ parts.flatMap fun part => .leaf none part.1 :: part.2) := by
  have hmore := reads_more (r := none) hparts hcomma
  have hall := reads_cons hfirst hmore fun t ht => by
    have hne : t ≠ .punctuation .comma := by
      rintro rfl
      rw [hcomma] at ht
      cases ht
    simp [expects, advance, Item.start, Item.optional, hne]
  refine reads_unfold hfirst hall hoptional (fun t m hm => ?_) fun t ht => ?_
  · simp [Item.start, hm]
  · simp only [Item.continues, Bool.or_eq_false_iff] at ht
    simp [continues, Item.continues, ht]

theorem reads_token {token : Token} {role : Option Field} {l : Lexeme}
    (hl : l.token = token) (hitems : Reads items ts)
    (hstart : item.start token = some ⟨[], role, items⟩)
    (hcontinues : ∀ t, item.continues t = false → items.continues t = false) :
    Reads [item] (.leaf role l :: ts) := by
  intro rest children outer ls hls
  subst hl
  have hread := hitems rest (children ++ [.leaf role l]) outer ls fun x hx =>
    hcontinues x.token (by simpa [continues] using hls x hx)
  rw [List.append_assoc] at hread
  exact (build?_shift hstart).trans hread

theorem split_of_expands_separated {p : Production} (role : Option Field) {us : List Tree}
    (h : Expands (.many (.seq (inRole role (.mark .comma)) p)) (us.map Tree.label)) :
    ∃ parts : List (Lexeme × List Tree),
      (∀ part ∈ parts, part.1.token = .punctuation .comma ∧
        Expands p (part.2.map Tree.label)) ∧
      us = parts.flatMap fun part => .leaf role part.1 :: part.2 := by
  obtain ⟨parts, hparts, rfl⟩ := split_of_expands_many h
  clear h
  induction parts with
  | nil => exact ⟨[], by simp, rfl⟩
  | cons vs parts ih =>
    obtain ⟨xs, ys, rfl, hxs, hys⟩ := split_of_expands_seq (hparts vs (by simp))
    obtain ⟨l, hl, rfl⟩ := eq_leaf_of_expands role hxs
    obtain ⟨more, hmore, heq⟩ := ih fun x hx => hparts x (by simp [hx])
    refine ⟨(l, ys) :: more, ?_, by simp [heq]⟩
    intro part hpart
    rcases List.mem_cons.mp hpart with rfl | hpart
    · exact ⟨hl, hys⟩
    · exact hmore part hpart

end Expectation

open Expectation

theorem Item.eq_leaf_of_expands_direction {ts : List Tree}
    (h : Expands Item.direction.phrase (ts.map Tree.label)) :
    ∃ l : Lexeme, (l.token = .keyword .kwProc ∨ l.token = .keyword .kwCoproc) ∧
      ts = [.leaf (some .direction) l] := by
  obtain ⟨w, hw, hts⟩ := expands_field_iff.mp h
  have hlabel : ∃ k, (k = .kwProc ∨ k = .kwCoproc) ∧
      ts.map Tree.label = [(some .direction, .token (.keyword k))] := by
    rcases expands_choice_iff.mp hw with hw | hw
    · obtain rfl := expands_token_iff.mp hw
      exact ⟨_, .inl rfl, hts.symm⟩
    · obtain rfl := expands_token_iff.mp hw
      exact ⟨_, .inr rfl, hts.symm⟩
  obtain ⟨k, hk, hts⟩ := hlabel
  obtain ⟨t, rfl, ht⟩ := Tree.eq_singleton_of_labels hts
  obtain ⟨l, hl, rfl⟩ := Tree.eq_leaf_of_label ht
  refine ⟨l, hk.imp (fun hk => ?_) fun hk => ?_, rfl⟩
  · rw [hl, hk]
  · rw [hl, hk]

/-- The trees of a whole phrase are read where the phrase is expected. -/
theorem Item.reads {item : Item} (hregular : item.isRegular = true) {ts : List Tree}
    (htrees : ∀ t ∈ ts, t.IsRead) (h : Expands item.phrase (ts.map Tree.label)) :
    Expectation.Reads [item] ts := by
  induction item generalizing ts with
  | leaf role token =>
    obtain ⟨l, hl, rfl⟩ := eq_leaf_of_expands role h
    exact reads_leaf role hl
  | maybe item ih =>
    simp only [isRegular, Bool.and_eq_true, Bool.not_eq_true'] at hregular
    rcases expands_choice_iff.mp h with h | h
    · exact reads_maybe (ih hregular.1 htrees h) hregular.2
    · obtain rfl := List.map_eq_nil_iff.mp (expands_empty_iff.mp h)
      refine reads_nothing rfl rfl fun t ht => ?_
      simp only [continues, Bool.or_eq_false_iff, Option.isSome_eq_false_iff,
        Option.isNone_iff_eq_none] at ht
      exact ht.1
  | many item ih =>
    simp only [isRegular, Bool.and_eq_true, Bool.not_eq_true'] at hregular
    obtain ⟨⟨hitem, hoptional⟩, hdisjoint⟩ := hregular
    obtain ⟨parts, hparts, rfl⟩ := split_of_expands_many h
    refine reads_many (fun us hus => ih hitem (fun t ht => htrees t ?_) (hparts us hus))
      hoptional fun t ht => ?_
    · exact List.mem_flatten.mpr ⟨us, hus, ht⟩
    · have := Token.forall_of_all hdisjoint t
      simpa [ht] using this
  | more role item ih =>
    simp only [isRegular, Bool.and_eq_true, Bool.not_eq_true'] at hregular
    obtain ⟨parts, hparts, rfl⟩ := split_of_expands_separated role h
    refine reads_more (fun part hpart => ⟨(hparts part hpart).1,
      ih hregular.1 (fun t ht => htrees t ?_) (hparts part hpart).2⟩) hregular.2
    exact List.mem_flatMap.mpr ⟨part, hpart, by simp [ht]⟩
  | series item ih =>
    simp only [isRegular, Bool.and_eq_true, Bool.not_eq_true'] at hregular
    obtain ⟨⟨hitem, hoptional⟩, hcomma⟩ := hregular
    rcases expands_choice_iff.mp h with h | h
    · obtain ⟨first, us, rfl, hfirst, hus⟩ := split_of_expands_seq h
      obtain ⟨parts, hparts, rfl⟩ := split_of_expands_separated none hus
      refine reads_series hoptional (ih hitem (fun t ht => htrees t (by simp [ht])) hfirst)
        (fun part hpart => ⟨(hparts part hpart).1,
          ih hitem (fun t ht => htrees t ?_) (hparts part hpart).2⟩) hcomma
      exact List.mem_append_right _ (List.mem_flatMap.mpr ⟨part, hpart, by simp [ht]⟩)
    · obtain rfl := List.map_eq_nil_iff.mp (expands_empty_iff.mp h)
      refine reads_nothing rfl rfl fun t ht => ?_
      simp only [continues, Bool.or_eq_false_iff, Option.isSome_eq_false_iff,
        Option.isNone_iff_eq_none] at ht
      simp [start, ht.1.1]
  | direction =>
    obtain ⟨l, hl, rfl⟩ := eq_leaf_of_expands_direction h
    rcases hl with hl | hl
    · exact reads_token hl reads_nil rfl fun _ _ => rfl
    · exact reads_token hl reads_nil rfl fun _ _ => rfl
  | functionBody =>
    rcases expands_choice_iff.mp h with h | h
    · obtain ⟨us, vs, rfl, hus, hvs⟩ := split_of_expands_seq h
      obtain ⟨l, hl, rfl⟩ := eq_leaf_of_expands none hus
      have hbody := Tree.IsRead.reads (.expression (some .body)) rfl
        (fun t ht => htrees t (by simp [ht])) hvs
      refine reads_token hl hbody rfl fun t ht => ?_
      simp only [continues, Bool.or_eq_false_iff] at ht
      simp [Expectation.continues, continues, ht]
    · rcases expands_choice_iff.mp h with h | h
      · obtain ⟨l, hl, rfl⟩ := eq_leaf_of_expands none h
        exact reads_token hl reads_nil rfl fun _ _ => rfl
      · obtain rfl := List.map_eq_nil_iff.mp (expands_empty_iff.mp h)
        refine reads_nothing rfl rfl fun t ht => ?_
        simp only [continues, Bool.or_eq_false_iff, beq_eq_false_iff_ne] at ht
        simp only [start]
        split
        · exact absurd rfl ht.1.2
        · exact absurd rfl ht.2
        · rfl
  | blockStatement =>
    obtain ⟨us, vs, rfl, hus, hvs⟩ := split_of_expands_seq h
    have hstatement := Tree.IsRead.reads (.statement none) rfl
      (fun t ht => htrees t (by simp [ht])) hus
    have hend : Expectation.Reads [.maybe (mark .semicolon)] vs := by
      rcases expands_choice_iff.mp hvs with hvs | hvs
      · obtain ⟨l, hl, rfl⟩ := eq_leaf_of_expands none hvs
        exact reads_maybe (reads_leaf none hl) rfl
      · obtain rfl := List.map_eq_nil_iff.mp (expands_empty_iff.mp hvs)
        refine reads_nothing rfl rfl fun t ht => ?_
        simpa [continues, start, mark] using ht
    have hdisjoint : Token.all.all (fun t => !((Item.statement none).continues t &&
        expects [.maybe (mark .semicolon)] t)) = true := by decide
    have hall := reads_cons hstatement hend fun t ht => by
      simpa [ht] using Token.forall_of_all hdisjoint t
    -- The item is one with the statement and the semicolon behind each other.
    refine reads_unfold hstatement hall rfl (fun t m hm => ?_) fun t ht => ?_
    · have hm : startStatement none t = some m := hm
      simp [start, hm]
    · simp only [continues, Bool.or_eq_false_iff, beq_eq_false_iff_ne] at ht
      simp [Expectation.continues, continues, mark, start, ht]
  | initializer =>
    obtain ⟨us, vs, rfl, hus, hvs⟩ := split_of_expands_seq h
    obtain ⟨l, hl, rfl⟩ := eq_leaf_of_expands none hus
    have hvalue := Tree.IsRead.reads (.expression (some .value)) rfl
      (fun t ht => htrees t (by simp [ht])) hvs
    refine reads_token hl hvalue rfl fun t ht => ?_
    simpa [Expectation.continues, continues] using ht
  | leave | nameTail | ifTail | operand | callTail | operators => cases hregular
  | _ => exact Tree.IsRead.reads _ rfl htrees h

end HeyVL
