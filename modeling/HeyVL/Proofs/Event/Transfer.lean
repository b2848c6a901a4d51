import HeyVL.Proofs.Event.Places
import HeyVL.Proofs.Tree.Moving
import HeyVL.Proofs.Token.Transfer

/-!
Cutting the same bytes in another place. Behind other tokens, and before other bytes, a text is cut into
the same lexemes if they are viable there and no identifier among them is a reserved word there.
-/

namespace HeyVL

open Token Grammar Lexeme

theorem Item.start_integer {item : Item} (h : item.occurs = true) :
    item.start .integer = item.start .decimal := by
  induction item with
  | leaf role t => cases t <;> first | rfl | cases h
  | maybe item ih => exact ih (occurs_of_maybe h)
  | many item ih => rw [start, start, ih (occurs_of_many h)]
  | series item ih => rw [start, start, ih (occurs_of_series h).1]
  | _ => rfl

theorem Grammar.viable_integer_iff {us : List Token} : Viable us .integer ↔ Viable us .decimal := by
  have hexpects {todo : Expectation} (h : todo.all Item.occurs = true) :
      todo.expects .integer = todo.expects .decimal := by
    induction todo with
    | nil => rfl
    | cons item rest ih =>
      rw [List.all_cons, Bool.and_eq_true] at h
      rw [Expectation.expects_cons, Expectation.expects_cons, Item.start_integer h.1, ih h.2]
  have hviable {todo : Expectation} (h : Expectation.source.after? us = some todo) :
      Viable us .integer ↔ Viable us .decimal := by
    rw [← Expectation.expects_iff_viable h, ← Expectation.expects_iff_viable h,
      hexpects (Expectation.occurs_of_after? h)]
  constructor
  · rintro ⟨after, h⟩
    obtain ⟨todo, htodo, -⟩ := Expectation.exists_after?_of_derivable h
    exact (hviable htodo).mp ⟨after, h⟩
  · rintro ⟨after, h⟩
    obtain ⟨todo, htodo, -⟩ := Expectation.exists_after?_of_derivable h
    exact (hviable htodo).mpr ⟨after, h⟩

namespace Lexeme

/-- Where an offset is when the text from `offset` on is moved to `offset'`. -/
def carry (offset offset' n : Nat) : Nat := offset' + (n - offset)

/-- The lexemes of a text that is moved so. -/
def carried (offset offset' : Nat) (ls : List Lexeme) : List Lexeme :=
  ls.map (Lexeme.moved (carry offset offset') (carry offset offset'))

theorem carried_add {offset offset' n : Nat} {ls : List Lexeme}
    (h : ∀ l ∈ ls, offset + n ≤ l.start ∧ l.start ≤ l.stop) :
    carried (offset + n) (offset' + n) ls = carried offset offset' ls := by
  refine List.map_congr_left fun l hl => ?_
  obtain ⟨hstart, hstop⟩ := h l hl
  have hcarry {k : Nat} (hk : offset + n ≤ k) :
      carry (offset + n) (offset' + n) k = carry offset offset' k := by
    simp only [carry]
    omega
  rw [Lexeme.moved, Lexeme.moved, hcarry hstart, hcarry (hstart.trans hstop)]

theorem tokensOf_carried (offset offset' : Nat) (ls : List Lexeme) :
    tokensOf (carried offset offset' ls) = tokensOf ls := tokensOf_map_moved _ _ ls

theorem carried_self {offset : Nat} {ls : List Lexeme}
    (h : ∀ l ∈ ls, offset ≤ l.start ∧ l.start ≤ l.stop) : carried offset offset ls = ls := by
  refine (List.map_congr_left fun l hl => ?_).trans (List.map_id ls)
  obtain ⟨hstart, hstop⟩ := h l hl
  have hcarry {n : Nat} (hn : offset ≤ n) : carry offset offset n = n := by
    rw [carry]
    omega
  rw [Lexeme.moved, hcarry hstart, hcarry (hstart.trans hstop)]
  rfl

theorem InOrder.carried {offset stop : Nat} {ls : List Lexeme} (h : InOrder ls) (offset' : Nat)
    (hls : ∀ l ∈ ls, offset ≤ l.start ∧ l.stop ≤ stop) :
    InOrder (carried offset offset' ls) ∧
      ∀ l ∈ carried offset offset' ls, offset' ≤ l.start ∧ l.stop ≤ offset' + (stop - offset) := by
  have hmono : StrictMonoOn (carry offset offset') {n | offset ≤ n} := by
    intro m hm n hn hlt
    have hm' : offset ≤ m := hm
    rw [carry, carry]
    omega
  have hat : AreAt {n | offset ≤ n} ls := fun l hl =>
    ⟨(hls l hl).1, (hls l hl).1.trans (h.nonempty l hl).le⟩
  refine ⟨h.map_moved hmono hat, fun l hl => ?_⟩
  obtain ⟨m, hm, rfl⟩ := List.mem_map.mp hl
  obtain ⟨hstart, hstop⟩ := hls m hm
  constructor
  · exact Nat.le_add_right _ _
  · show offset' + (m.stop - offset) ≤ offset' + (stop - offset)
    omega

/-- The last of the lexemes that are no comments, if there are any, is a parenthesis or an opening
brace. -/
def Closed (ls : List Lexeme) : Prop :=
  ∀ l ∈ (significant ls).getLast?, ∃ p b, (p, b) ∈ signs ∧ l.token = .punctuation p

end Lexeme

namespace Lexes

variable {before before' : List Token} {offset offset' n : Nat} {bytes u v v₀ : Bytes} {t : Token}
  {ls ms : List Lexeme}

theorem mayFollow (h : Lexes (before ++ [t]) offset bytes ls []) (ht : t.awaitsExpression = true) :
    ∀ b ∈ bytes.head?, MayFollow b := by
  intro b hb
  obtain ⟨rest, rfl⟩ := List.head?_eq_some_iff.mp hb
  cases h with
  | space hspace => exact .inl hspace
  | @lexeme _ _ n x _ _ ls hx h =>
    obtain ⟨_, _, heq, hbegins, -⟩ := exists_begins hx.stands.text
    obtain ⟨rfl, -⟩ := List.cons.inj heq
    exact .inr ⟨x, hx.stands.is_viable.imp id fun hviable => startsExpression_of_viable hviable ht,
      hbegins⟩

/-- The first lexeme is taken behind other tokens and before other bytes. A comment is, whatever these
bytes are, unless it ends with its line. -/
theorem taken_of_transfer (ht : Taken (Viable before) (u ++ v₀) t n)
    (h : Lexes (before ++ tokensOf [⟨t, offset, offset + n⟩]) (offset + n) ((u ++ v₀).drop n) ls [])
    (hn : n ≤ u.length) (hv : v = v₀ ∨ (∀ b ∈ v.head?, Bytes.isBreak b = true) ∨ t = .comment)
    (hline : t = .comment → n = u.length → (∀ b ∈ v₀.head?, b = 10) → ∀ b ∈ v.head?, b = 10)
    (hviable : t = .comment ∨ Viable before' t)
    (hwords : t = .identifier → ∀ w : Token, w.isReserved = true → Viable before' w →
      Viable before w) : Taken (Viable before') (u ++ v) t n := by
  have hdrop : (u ++ v₀).drop n = u.drop n ++ v₀ := List.drop_append_of_le_length hn
  rw [hdrop] at h
  -- The extent of a comment depends on the bytes behind it, that of another token on what is viable.
  by_cases hcomment : t = .comment
  · subst hcomment
    have hsplit (x : Bytes) : u ++ x = u.take n ++ (u.drop n ++ x) := by
      rw [← List.append_assoc, List.take_append_drop]
    have hlength : (u.take n).length = n := by
      rw [List.length_take]
      omega
    have hmem : u.take n ∈ Token.comment.language := by
      have htext := ht.stands.text.2
      rwa [List.take_append_of_le_length hn] at htext
    have htaken : Taken (Viable before) (u.take n ++ (u.drop n ++ v₀)) .comment (u.take n).length := by
      rwa [← hsplit, hlength]
    have hends (hbegin : [47, 47] <+: u.take n) : ∀ b ∈ (u.drop n ++ v).head?, b = 10 := by
      have hold : ∀ b ∈ (u.drop n ++ v₀).head?, b = 10 := fun b hb =>
        (htaken.head_of_line hbegin b hb).resolve_right fun hzero => h.ne_zero (hzero ▸ hb)
      cases hrest : u.drop n with
      | nil =>
        rw [hrest, List.nil_append] at hold
        have hend : n = u.length := le_antisymm hn (List.drop_eq_nil_iff.mp hrest)
        exact hline rfl hend hold
      | cons b x =>
        rw [hrest] at hold
        exact hold
    have hnew : Taken (Viable before') (u.take n ++ (u.drop n ++ v)) .comment (u.take n).length :=
      taken_comment hmem hends
    rwa [← hsplit, hlength] at hnew
  · have htokens : tokensOf [⟨t, offset, offset + n⟩] = [t] := by
      simp [tokensOf, significant, hcomment]
    rw [htokens] at h
    have hnew : Taken (Viable before') (u ++ v₀) t n := by
      refine ht.of_viable hviable viable_integer_iff (fun hat u hu => not_viable_wordSign hat hu) ?_
        hwords
      intro hawaits
      rw [hdrop]
      exact h.mayFollow hawaits
    rcases hv with rfl | hv | hv
    · exact hnew
    · refine hnew.of_append_break hv hn hcomment fun hdiv hstar => ?_
      subst hdiv
      apply h.not_star_of_div
      rw [List.head?_append, hstar]
      rfl
    · exact absurd hv hcomment

/-- A text is cut into the same lexemes behind other tokens and before other bytes. -/
theorem transfer (h : Lexes before offset (u ++ v₀) (ls ++ ms) [])
    (hls : ∀ l ∈ ls, l.stop ≤ offset + u.length) (hms : ∀ m ∈ ms, offset + u.length ≤ m.start)
    (hv : v = v₀ ∨ (∀ b ∈ v.head?, Bytes.isBreak b = true) ∨ ∀ l ∈ ls, l.token = .comment)
    (hline : (∃ l ∈ ls, l.token = .comment ∧ l.stop = offset + u.length) →
      (∀ b ∈ v₀.head?, b = 10) → ∀ b ∈ v.head?, b = 10)
    (hviable : ∀ us l vs, ls = us ++ l :: vs →
      l.token = .comment ∨ Viable (before' ++ tokensOf us) l.token)
    (hwords : ∀ us l vs, ls = us ++ l :: vs → l.token = .identifier →
      ∀ w : Token, w.isReserved = true → Viable (before' ++ tokensOf us) w →
        Viable (before ++ tokensOf us) w) :
    Lexes before' offset' (u ++ v) (carried offset offset' ls) v := by
  -- The induction is on the old cut, of which only the part over `u` is carried: where `u` is used up the new
  -- cut stops, and `v` is left.
  generalize hbytes : u ++ v₀ = bytes at h
  generalize hks : ls ++ ms = ks at h
  generalize hrest : ([] : Bytes) = rest at h
  induction h generalizing u ls before' offset' with
  | stop before offset bytes =>
    obtain ⟨rfl, rfl⟩ := List.append_eq_nil_iff.mp hks
    obtain ⟨rfl, rfl⟩ := List.append_eq_nil_iff.mp (hbytes.trans hrest.symm)
    exact .stop _ _ _
  | @space before offset b bytes rest ks hb h ih =>
    have hplaces : ∀ l ∈ ls, offset + 1 ≤ l.start ∧ l.start ≤ l.stop := by
      intro l hl
      have hmem : l ∈ ks := by simp [← hks, hl]
      exact ⟨(h.within l hmem).1, (h.inOrder.nonempty l hmem).le⟩
    cases u with
    | nil =>
      obtain rfl : ls = [] := List.eq_nil_iff_forall_not_mem.mpr fun l hl => by
        have hstop := hls l hl
        obtain ⟨hstart, hle⟩ := hplaces l hl
        simp only [List.length_nil, Nat.add_zero] at hstop
        omega
      exact .stop _ _ _
    | cons a u =>
      obtain ⟨rfl, rfl⟩ := List.cons.inj hbytes
      have hlength : offset + 1 + u.length = offset + (a :: u).length := by
        rw [List.length_cons]
        omega
      rw [← carried_add hplaces]
      exact .space hb (ih (by rwa [hlength]) (by rwa [hlength]) hv (by rwa [hlength]) hviable hwords rfl
        hks hrest)
  | @lexeme before offset n t bytes rest ks ht h ih =>
    cases ls with
    | nil =>
      rw [List.nil_append] at hks
      have hstart : offset + u.length ≤ offset := hms ⟨t, offset, offset + n⟩ (by simp [hks])
      obtain rfl : u = [] := List.length_eq_zero_iff.mp (by omega)
      exact .stop _ _ _
    | cons l ls =>
      obtain ⟨rfl, rfl⟩ := List.cons.inj hks
      subst hbytes hrest
      have hstop : offset + n ≤ offset + u.length := hls _ List.mem_cons_self
      have hn : n ≤ u.length := by omega
      have hdrop (x : Bytes) : (u ++ x).drop n = u.drop n ++ x := List.drop_append_of_le_length hn
      have hlength : offset + n + (u.drop n).length = offset + u.length := by
        rw [List.length_drop]
        omega
      have hplaces : ∀ l ∈ ls, offset + n ≤ l.start ∧ l.start ≤ l.stop := fun l hl =>
        ⟨(h.within l (by simp [hl])).1, (h.inOrder.nonempty l (by simp [hl])).le⟩
      have hcarried : carried offset offset' (⟨t, offset, offset + n⟩ :: ls) =
          ⟨t, offset', offset' + n⟩ :: carried (offset + n) (offset' + n) ls := by
        rw [carried_add hplaces]
        simp [carried, Lexeme.moved, carry]
      have hmoved : tokensOf [⟨t, offset', offset' + n⟩] = tokensOf [⟨t, offset, offset + n⟩] :=
        tokensOf_map_moved (fun _ => offset') (fun _ => offset' + n) [⟨t, offset, offset + n⟩]
      have htokens (us : List Lexeme) : tokensOf (⟨t, offset, offset + n⟩ :: us) =
          tokensOf [⟨t, offset, offset + n⟩] ++ tokensOf us := by
        rw [← List.singleton_append, tokensOf_append]
      have htaken : Taken (Viable before') (u ++ v) t n := by
        refine taken_of_transfer ht h hn (hv.imp_right (.imp_right fun h => h _ List.mem_cons_self))
          (fun hcomment hend => ?_) ?_ ?_
        · exact hline ⟨_, List.mem_cons_self, hcomment, by simp [hend]⟩
        · simpa using hviable [] _ ls rfl
        · simpa using hwords [] _ ls rfl
      rw [hcarried]
      refine .lexeme htaken ?_
      rw [hdrop, hmoved]
      refine ih (fun k hk => hlength ▸ hls k (List.mem_cons_of_mem _ hk)) (by rwa [hlength])
        (hv.imp_right (.imp_right fun h k hk => h k (List.mem_cons_of_mem _ hk))) ?_ ?_ ?_
        (hdrop v₀).symm rfl rfl
      · rintro ⟨k, hk, hcomment, hend⟩
        exact hline ⟨k, List.mem_cons_of_mem _ hk, hcomment, hlength ▸ hend⟩
      · intro us k vs hsplit
        rw [List.append_assoc, ← htokens]
        exact hviable (_ :: us) k vs (by rw [hsplit]; rfl)
      · intro us k vs hsplit
        rw [List.append_assoc, List.append_assoc, ← htokens]
        exact hwords (_ :: us) k vs (by rw [hsplit]; rfl)

theorem before_other (h : Lexes before offset (u ++ v₀) (ls ++ ms) [])
    (hls : ∀ l ∈ ls, l.stop ≤ offset + u.length) (hms : ∀ m ∈ ms, offset + u.length ≤ m.start)
    (hv : v = v₀ ∨ (∀ b ∈ v.head?, Bytes.isBreak b = true) ∨ ∀ l ∈ ls, l.token = .comment)
    (hline : (∃ l ∈ ls, l.token = .comment ∧ l.stop = offset + u.length) →
      (∀ b ∈ v₀.head?, b = 10) → ∀ b ∈ v.head?, b = 10) :
    Lexes before offset (u ++ v) ls v := by
  have hself : carried offset offset ls = ls := carried_self fun l hl =>
    ⟨(h.within l (by simp [hl])).1, (h.inOrder.nonempty l (by simp [hl])).le⟩
  rw [← hself]
  refine h.transfer hls hms hv hline (fun us l vs hsplit => ?_) fun _ _ _ _ _ _ _ => id
  rw [hsplit, List.append_assoc, List.cons_append] at h
  exact h.exists_taken.1.stands.is_viable

theorem exists_sign {p : Punctuation} {b : UInt8} {start stop : Nat} (hp : (p, b) ∈ signs)
    (h : Lexes before offset bytes (ls ++ ⟨.punctuation p, start, stop⟩ :: ms) []) :
    ∃ u v, bytes = u ++ b :: v ∧ start = offset + u.length ∧ stop = start + 1 ∧
      Viable (before ++ tokensOf ls) (.punctuation p) ∧
      Lexes (before ++ tokensOf ls ++ [.punctuation p]) stop v ms [] := by
  obtain ⟨htaken, hbehind⟩ := h.exists_taken
  have hle := (h.within _ (List.mem_append_right _ List.mem_cons_self)).1
  obtain ⟨hlength, v, hv⟩ := (matches_sign_iff hp).mp htaken.stands.text
  have hstart : start - offset ≤ bytes.length := by
    have hlt := List.drop_eq_nil_iff.not.mp (hv ▸ List.cons_ne_nil b v)
    dsimp only at hlt
    omega
  have hstop : stop - offset = (start - offset) + 1 := by
    dsimp only at hle hlength
    omega
  rw [tokensOf_append, ← List.append_assoc] at hbehind
  dsimp only at hle hlength hv hbehind
  rw [hstop, ← List.drop_drop, hv] at hbehind
  refine ⟨bytes.take (start - offset), v, ?_, ?_, by omega,
    htaken.stands.is_viable.resolve_left Token.noConfusion, hbehind⟩
  · rw [← hv, List.take_append_drop]
  · rw [List.length_take, Nat.min_eq_left hstart]
    omega

/-- A text that ends with comments, or with a sign and comments, is cut into the same lexemes before any
bytes. -/
theorem before_any (h : Lexes before offset (u ++ v₀) (ls ++ ms) [])
    (hls : ∀ l ∈ ls, l.stop ≤ offset + u.length) (hms : ∀ m ∈ ms, offset + u.length ≤ m.start)
    (hclosed : Closed ls)
    (hline : (∃ l ∈ ls, l.token = .comment ∧ l.stop = offset + u.length) →
      (∀ b ∈ v₀.head?, b = 10) → ∀ b ∈ v.head?, b = 10) :
    Lexes before offset (u ++ v) ls v := by
  have hcomments {cs : List Lexeme} (hcs : significant cs = []) : ∀ c ∈ cs, c.token = .comment := by
    intro c hc
    by_contra htoken
    exact List.ne_nil_of_mem (mem_significant_iff.mpr ⟨hc, htoken⟩) hcs
  rcases List.eq_nil_or_concat' (significant ls) with hnone | ⟨us, l, hsignificant⟩
  · exact h.before_other hls hms (.inr (.inr (hcomments hnone))) hline
  · obtain ⟨p, b, hp, hl⟩ := hclosed l (by simp [hsignificant])
    obtain ⟨us, cs, rfl, -, hcs⟩ := exists_split_of_significant hsignificant
    obtain ⟨t, start, stop⟩ := l
    obtain rfl : t = .punctuation p := hl
    have horder := h.inOrder
    rw [List.append_assoc, List.cons_append] at h horder
    have hstop : stop ≤ offset + u.length := hls ⟨.punctuation p, start, stop⟩ (by simp)
    obtain ⟨x, y, hbytes, rfl, rfl, hviable, hbehind⟩ := exists_sign hp h
    -- The sign is in the text.
    obtain ⟨z, rfl, rfl⟩ : ∃ z, u = x ++ b :: z ∧ y = z ++ v₀ := by
      rcases List.append_eq_append_iff.mp hbytes with ⟨z, rfl, -⟩ | ⟨z, rfl, hz⟩
      · rw [List.length_append] at hstop
        omega
      · cases z with
        | nil =>
          rw [List.append_nil] at hstop
          omega
        | cons c z =>
          obtain ⟨rfl, rfl⟩ := List.cons.inj hz
          exact ⟨z, rfl, rfl⟩
    have hlength : offset + (x ++ b :: z).length = offset + x.length + 1 + z.length := by
      rw [List.length_append, List.length_cons]
      omega
    rw [hlength] at hls hms hline
    rw [List.append_assoc, List.cons_append] at h ⊢
    obtain ⟨-, hrest, hbefore⟩ := inOrder_append_iff.mp horder
    have hfront : Lexes before offset (x ++ b :: (z ++ v)) us (b :: (z ++ v)) := by
      refine h.before_other (fun k hk => hbefore k hk _ List.mem_cons_self) (fun m hm => ?_)
        (.inr (.inl fun c hc => ?_)) fun _ h => h
      · have hle := (inOrder_cons_iff.mp hrest).2.2
        rcases List.mem_cons.mp hm with rfl | hm
        · exact Nat.le_refl _
        · exact (Nat.le_succ _).trans (hle m hm)
      · cases hc
        exact isBreak_of_sign hp
    refine hfront.append ?_
    rw [List.length_append, Nat.add_sub_cancel]
    exact .lexeme (taken_sign hp hviable)
      (hbehind.before_other (fun c hc => hls c (by simp [hc])) hms (.inr (.inr (hcomments hcs)))
        fun hlast => hline (hlast.imp fun c hc => ⟨by simp [hc.1], hc.2⟩))

end Lexes

end HeyVL
