/-
  Regular expressions that do not see past a character, such as the end of a line.

  * `Blind`: no class has the character, and every test takes it for the end of the text;
  * `ends_within`: then what stands behind the character changes no match, and neither does what
    stands before it;
  * `sub_append_cons`: a substitution works on both sides of it by themselves;
  * `infix_sub_iff`: what is left of a text are the texts between its matches.
-/
import TracciaRuntime.Text.Pieces

namespace Text

/-- The position in a longer text. -/
def Pos.within (before : Option Char) (after : List Char) (p : Pos) : Pos :=
  ⟨p.prev.or before, p.rest ++ after⟩

namespace Regex
variable {r : Regex} {p q : Pos} {f : Char → Bool} {n : Nat} {b : Char} {before prev : Option Char}
  {after s t text : List Char}

/-- The expression does not see past the character. -/
def Blind (b : Char) : Regex → Prop
  | eps => True
  | char f => f b = false
  | look f => ∀ o, f o (some b) = f o none ∧ f (some b) o = f none o
  | seq r s | alt r s => r.Blind b ∧ s.Blind b
  | rep r _ _ => r.Blind b ∧ r.Proper

/-- Such an expression does not read the character. -/
theorem Blind.not_accepts (hr : r.Blind b) : ¬r.Accepts b := by
  induction r with
  | eps | look _ => exact id
  | char f => exact fun h => Bool.false_ne_true (hr.symm.trans h)
  | seq r s ihr ihs | alt r s ihr ihs => exact fun h => h.elim (ihr hr.1) (ihs hr.2)
  | rep r _ _ ih => exact ih hr.1

/-- At the end of the text no turn is taken. -/
theorem Proper.upTo_nil (hr : Proper r) (hp : p.rest = []) : upTo (ends r) n p = [p] := by
  have hnil : ends r p = [] := by
    rw [List.eq_nil_iff_forall_not_mem]
    intro q hq
    have := hr.rest_lt hq
    rw [hp] at this
    cases this
  cases n <;> simp [upTo, hnil]

/-- More turns than there are characters are not taken. -/
theorem Proper.upTo_congr (hr : Proper r) {k : Nat} (hn : p.rest.length ≤ n)
    (hk : p.rest.length ≤ k) : upTo (ends r) n p = upTo (ends r) k p := by
  induction n generalizing k p with
  | zero =>
    have hp := List.length_eq_zero_iff.1 (Nat.le_zero.1 hn)
    rw [hr.upTo_nil hp, hr.upTo_nil hp]
  | succ n ih =>
    cases k with
    | zero =>
      have hp := List.length_eq_zero_iff.1 (Nat.le_zero.1 hk)
      rw [hr.upTo_nil hp, hr.upTo_nil hp]
    | succ k =>
      rw [upTo, upTo]
      congr 1
      refine List.flatMap_congr fun q hq => ?_
      have := hr.rest_lt hq
      exact ih (by omega) (by omega)

section
variable {step step' : Pos → List Pos} {g : Pos → Pos}

theorem times_map (h : ∀ p, step (g p) = (step p).map g) (n : Nat) (p : Pos) :
    times step n (g p) = (times step n p).map g := by
  induction n generalizing p with
  | zero => rfl
  | succ n ih =>
    rw [times, times, h, List.flatMap_map, List.map_flatMap]
    exact List.flatMap_congr fun q _ => ih q

theorem upTo_map (h : ∀ p, step (g p) = (step p).map g) (n : Nat) (p : Pos) :
    upTo step n (g p) = (upTo step n p).map g := by
  induction n generalizing p with
  | zero => rfl
  | succ n ih =>
    rw [upTo, upTo, h, List.flatMap_map, List.map_append, List.map_flatMap]
    congr 1
    exact List.flatMap_congr fun q _ => ih q

end

/-- **What an expression reads** does not depend on what stands around the characters that it does
    not see past. -/
theorem ends_within (hr : r.Blind b) (hbefore : ∀ c ∈ before, c = b)
    (hafter : ∀ c ∈ after.head?, c = b) (p : Pos) :
    ends r (p.within before after) = (ends r p).map (Pos.within before after) := by
  induction r generalizing p with
  | eps => rfl
  | char f =>
    obtain ⟨prev, rest⟩ := p
    cases rest with
    | nil =>
      cases after with
      | nil => rfl
      | cons c after =>
        obtain rfl := hafter c rfl
        simp [ends, Pos.within, show f c = false from hr]
    | cons c rest =>
      simp only [ends, Pos.within, List.cons_append]
      split_ifs <;> rfl
  | look f =>
    obtain ⟨prev, rest⟩ := p
    have hprev : ∀ o, f (prev.or before) o = f prev o := by
      intro o
      cases prev with
      | some c => rfl
      | none =>
        cases before with
        | none => rfl
        | some c =>
          obtain rfl := hbefore c rfl
          exact (hr o).2
    have hnext : ∀ o, f o (rest ++ after).head? = f o rest.head? := by
      intro o
      cases rest with
      | cons c rest => rfl
      | nil =>
        cases after with
        | nil => rfl
        | cons c after =>
          obtain rfl := hafter c rfl
          exact (hr o).1
    simp only [ends, Pos.within, hprev, hnext]
    split_ifs <;> rfl
  | seq r s ihr ihs =>
    rw [ends, ends, ihr hr.1, List.flatMap_map, List.map_flatMap]
    exact List.flatMap_congr fun q _ => ihs hr.2 q
  | alt r s ihr ihs => rw [ends, ends, ihr hr.1, ihs hr.2, List.map_append]
  | rep r least most ih =>
    rw [ends, ends, times_map (ih hr.1), List.flatMap_map, List.map_flatMap]
    refine List.flatMap_congr fun q _ => ?_
    rw [← upTo_map (ih hr.1)]
    cases most with
    | some m => rfl
    | none =>
      rw [Option.elim_none, Option.elim_none, upTo_map (ih hr.1), upTo_map (ih hr.1)]
      congr 1
      exact hr.2.upTo_congr (by simp [Pos.within]) (Nat.le_refl _)

theorem ends_within_ne (hr : r.Blind b) (hbefore : ∀ c ∈ before, c = b)
    (hafter : ∀ c ∈ after.head?, c = b) :
    ends r ⟨prev.or before, s ++ after⟩ ≠ [] ↔ ends r ⟨prev, s⟩ ≠ [] := by
  have h : ends r (Pos.within before after ⟨prev, s⟩) = _ := ends_within hr hbefore hafter _
  rw [Pos.within] at h
  rw [h, ne_eq, List.map_eq_nil_iff]

/-- Behind the character the text begins anew. -/
theorem occurs_some (hr : r.Blind b) : Occurs r (some b) t ↔ Occurs r none t := by
  have h : ∀ t, ends r ⟨some b, t⟩ ≠ [] ↔ ends r ⟨none, t⟩ ≠ [] := by
    intro t
    have := @ends_within_ne r b (some b) none [] t hr (by simp) (by simp)
    rwa [List.append_nil] at this
  cases t with
  | nil => rw [occurs_nil, occurs_nil, h]
  | cons c t => rw [occurs_cons, occurs_cons, h]

/-- **A match** lies on one side of the character. -/
theorem occurs_append_cons (hr : r.Blind b) :
    Occurs r prev (s ++ b :: t) ↔ Occurs r prev s ∨ Occurs r none t := by
  have h : ∀ prev s, ends r ⟨prev, s ++ b :: t⟩ ≠ [] ↔ ends r ⟨prev, s⟩ ≠ [] := by
    intro prev s
    have := @ends_within_ne r b none prev (b :: t) s hr (by simp) (by simp)
    rwa [Option.or_none] at this
  induction s generalizing prev with
  | nil =>
    rw [List.nil_append, occurs_cons, occurs_nil]
    exact or_congr (h prev []) (occurs_some hr)
  | cons c s ih =>
    rw [List.cons_append, occurs_cons, occurs_cons, or_assoc]
    exact or_congr (h prev (c :: s)) ih

/-- What stands before the text does not matter. -/
theorem pieces_or (hr : r.Blind b) (hbefore : ∀ c ∈ before, c = b) (n : Nat) :
    pieces r n (prev.or before) text = pieces r n prev text := by
  cases text with
  | nil => cases n <;> rfl
  | cons c cs =>
    cases n with
    | succ n => rfl
    | zero =>
      have h : ends r (Pos.within before [] ⟨prev, c :: cs⟩) = _ := ends_within hr hbefore (by simp) _
      rw [Pos.within, List.append_nil] at h
      rw [pieces, pieces, h, List.head?_map]
      cases (ends r ⟨prev, c :: cs⟩).head? with
      | none => rfl
      | some q => simp [Pos.within, between]

/-- **A text is cut** on both sides of the character by itself. -/
theorem pieces_append_cons (hr : r.Blind b) (hn : n ≤ s.length) :
    pieces r n prev (s ++ b :: t) = pieces r n prev s ++ .inl b :: pieces r 0 none t := by
  have hpast : pieces r 0 (some b) t = pieces r 0 none t :=
    @pieces_or _ _ (some b) none _ hr (by simp) 0
  induction s generalizing n prev with
  | nil =>
    obtain rfl := Nat.le_zero.1 hn
    have h : ends r (Pos.within none (b :: t) ⟨prev, []⟩) = _ :=
      ends_within hr (by simp) (by simp) _
    rw [Pos.within, Option.or_none] at h
    rw [List.nil_append, pieces, List.nil_append, pieces, show ends r ⟨prev, b :: t⟩ = _ from h,
      List.head?_map, hpast]
    cases (ends r ⟨prev, []⟩).head? with
    | none => rfl
    | some q =>
      dsimp only [Option.map_some, Pos.within]
      exact if_neg (by rw [List.length_append, List.length_cons]; omega)
  | cons c cs ih =>
    cases n with
    | succ n => exact ih (Nat.le_of_succ_le_succ hn)
    | zero =>
      have h : ends r (Pos.within none (b :: t) ⟨prev, c :: cs⟩) = _ :=
        ends_within hr (by simp) (by simp) _
      rw [Pos.within, Option.or_none] at h
      rw [List.cons_append, pieces, pieces, show ends r ⟨prev, c :: (cs ++ b :: t)⟩ = _ from h,
        List.head?_map]
      cases (ends r ⟨prev, c :: cs⟩).head? with
      | none => exact congrArg (.inl c :: ·) (ih (Nat.zero_le _))
      | some q =>
        have hlen : (cs ++ b :: t).length - (q.rest ++ b :: t).length =
            cs.length - q.rest.length := by
          rw [List.length_append, List.length_append]
          omega
        have hle : (q.rest ++ b :: t).length ≤ (cs ++ b :: t).length ↔
            q.rest.length ≤ cs.length := by
          rw [List.length_append, List.length_append]
          omega
        dsimp only [Option.map_some, Pos.within]
        rw [hlen]
        simp only [hle]
        split_ifs with h'
        · have hbetween : between ⟨prev, c :: (cs ++ b :: t)⟩ ⟨q.prev.or none, q.rest ++ b :: t⟩ =
              between ⟨prev, c :: cs⟩ q := by
            simp only [between, List.length_cons, List.length_append]
            rw [← List.cons_append, List.take_append_of_le_length (by
              rw [List.length_cons]
              omega)]
            congr 1
            omega
          rw [hbetween, ih (by omega)]
          rfl
        · exact congrArg (.inl c :: ·) (ih (Nat.zero_le _))

/-- **A substitution** works on both sides of the character by itself. -/
theorem sub_append_cons (hr : r.Blind b) {g : List Char → List Char} :
    sub r g (s ++ b :: t) = sub r g s ++ b :: sub r g t := by
  rw [sub, pieces_append_cons hr (Nat.zero_le _), List.flatMap_append, List.flatMap_cons]
  rfl

/-! ## What is left -/

/-- The texts between the matches are parts of the text. -/
theorem infix_of_mem_split (hr : r.Proper) (h : s ∈ split r text) : s <:+: text := by
  refine pieces_induct (P := fun _ text ps => ∀ s ∈ gaps ps, s <:+: text) hr
    (fun prev text _ s hs => ?_) (fun prev s m t ps _ _ ih s' hs' => ?_) none text s h
  · rw [gaps_map_inl, List.mem_singleton] at hs
    exact hs ▸ List.infix_rfl
  · rw [gaps_append, List.mem_cons] at hs'
    rcases hs' with rfl | hs'
    · exact (List.prefix_append _ _).isInfix
    · exact (ih s' hs').trans ((List.suffix_append _ _).trans (List.suffix_append _ _)).isInfix

/-- **What a substitution leaves of a text**, and another change leaves of that, is left of the
    texts between the matches. -/
theorem infix_sub_iff {b' : Char} {label w : List Char} {F : List Char → List Char}
    (hr : r.Proper) (hF : ∀ s t, F (s ++ b :: (label ++ b' :: t)) = F s ++ b :: (label ++ b' :: F t))
    (hb : b ∉ w) (hb' : b' ∉ w) (hlabel : ¬w <:+: label) :
    w <:+: F (sub r (fun _ => b :: (label ++ [b'])) text) ↔ ∃ s ∈ split r text, w <:+: F s := by
  refine pieces_induct (P := fun _ _ ps =>
    w <:+: F (join (fun _ => b :: (label ++ [b'])) ps) ↔ ∃ s ∈ gaps ps, w <:+: F s)
    hr (fun prev text _ => ?_) (fun prev s m t ps _ _ ih => ?_) none text
  · rw [join_map_inl, gaps_map_inl]
    simp
  · rw [join_append_inr, List.cons_append, List.append_assoc, List.singleton_append, hF,
      gaps_append]
    simp only [List.mem_cons, exists_eq_or_imp, ← ih]
    constructor
    · intro h
      rcases infix_append_cons hb h with h | h
      · exact .inl h
      · exact .inr ((infix_append_cons hb' h).resolve_left hlabel)
    · rintro (h | h)
      · exact h.trans (List.prefix_append _ _).isInfix
      · refine h.trans (List.IsSuffix.isInfix ?_)
        exact (List.suffix_cons _ _).trans ((List.suffix_append _ _).trans
          ((List.suffix_cons _ _).trans (List.suffix_append _ _)))

end Regex

end Text
