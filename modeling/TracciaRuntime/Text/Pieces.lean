/-
  What is left between the matches of a regular expression.

  * `Skips`: no match starts in a word; `pieces_append`, `pieces_match`: how a text is cut;
  * `pieces_induct`: induction over the matches of a text, from left to right;
  * `sub_append`, `sub_match`, `split_append`: what a substitution and a split do at each of them;
  * `append_eq_append_cons`: a word that avoids a character lies on one side of it;
  * `Delimited.occurs_sub`: what is found after a substitution by a marked label was there before.
-/
import TracciaRuntime.Text.Regex

namespace Text

/-- A word that avoids a character lies before it or behind it. -/
theorem append_eq_append_cons {α : Type} {x w y s t : List α} {b : α} (hb : b ∉ w)
    (h : x ++ (w ++ y) = s ++ b :: t) :
    (∃ y', s = x ++ (w ++ y') ∧ y = y' ++ b :: t) ∨ ∃ x', x = s ++ b :: x' ∧ t = x' ++ (w ++ y) := by
  rcases List.append_eq_append_iff.1 h with ⟨a, rfl, ha⟩ | ⟨a, rfl, ha⟩
  · rcases List.append_eq_append_iff.1 ha with ⟨a', rfl, ha'⟩ | ⟨a', rfl, ha'⟩
    · exact .inl ⟨a', rfl, ha'⟩
    · cases a' with
      | nil => exact .inl ⟨[], by simp, by simpa using ha'.symm⟩
      | cons c a' =>
        obtain ⟨rfl, -⟩ := List.cons.inj ha'
        simp at hb
  · cases a with
    | nil =>
      cases w with
      | nil => exact .inl ⟨[], by simp, by simpa using ha.symm⟩
      | cons c w =>
        obtain ⟨rfl, -⟩ := List.cons.inj ha
        simp at hb
    | cons c a =>
      obtain ⟨rfl, ht⟩ := List.cons.inj ha
      exact .inr ⟨a, rfl, ht⟩

/-- So does a word of a text that is cut by some characters. -/
theorem infix_append_cons {α : Type} {w s t : List α} {b : α} (hb : b ∉ w)
    (h : w <:+: s ++ b :: t) : w <:+: s ∨ w <:+: t := by
  obtain ⟨x, y, h⟩ := h
  rw [List.append_assoc] at h
  rcases append_eq_append_cons hb h with ⟨y', rfl, -⟩ | ⟨x', -, rfl⟩
  · exact .inl ⟨x, y', List.append_assoc ..⟩
  · exact .inr ⟨x', y, List.append_assoc ..⟩

namespace Regex
variable {r : Regex} {p q : Pos} {prev : Option Char} {s t m text : List Char}
  {f : List Char → List Char}

/-- `re.subn`. -/
def subn (r : Regex) (f : List Char → List Char) (text : List Char) : List Char × Nat :=
  (sub r f text, (pieces r 0 none text).countP Sum.isRight)

/-- The texts before, between and behind the matches. -/
def gaps (ps : List (Char ⊕ List Char)) : List (List Char) :=
  (ps.splitOnP Sum.isRight).map fun ps => ps.filterMap Sum.getLeft?

/-- `re.split`. -/
def split (r : Regex) (text : List Char) : List (List Char) := gaps (pieces r 0 none text)

/-- The expression does not match the empty word. -/
def Proper (r : Regex) : Prop := ∀ p q w, q ∈ ends r p → p.Reads w q → w ≠ []

/-- No match starts in the word `s` if `t` follows it. -/
def Skips (r : Regex) (prev : Option Char) (s t : List Char) : Prop :=
  ∀ u v, s = u ++ v → v ≠ [] → ends r ⟨u.getLast?.or prev, v ++ t⟩ = []

/-- The word `m` is the match where it starts. -/
def Matches (r : Regex) (prev : Option Char) (m t : List Char) : Prop :=
  m ≠ [] ∧ (ends r ⟨prev, m ++ t⟩).head? = some ⟨m.getLast?.or prev, t⟩

theorem proper_char {f : Char → Bool} : Proper (char f) := by
  rintro p q w hq hw rfl
  obtain ⟨c, -, hc⟩ := mem_ends_char.1 hq
  have := hc.word_unique hw
  cases this

theorem Proper.rest_lt (hr : Proper r) (hq : q ∈ ends r p) : q.rest.length < p.rest.length := by
  obtain ⟨w, hw⟩ := ends_reads hq
  have := List.length_pos_of_ne_nil (hr _ _ _ hq hw)
  rw [hw.rest_length]
  omega

theorem proper_iff : Proper r ↔ ∀ p, ∀ q ∈ ends r p, q.rest.length < p.rest.length := by
  refine ⟨fun hr p q hq => hr.rest_lt hq, fun h p q w hq hw hnil => ?_⟩
  have := h p q hq
  rw [hw.rest_length, hnil, List.length_nil] at this
  omega

theorem rest_le (hq : q ∈ ends r p) : q.rest.length ≤ p.rest.length := by
  obtain ⟨w, hw⟩ := ends_reads hq
  rw [hw.rest_length]
  omega

theorem proper_seq {r' : Regex} (h : Proper r ∨ Proper r') : Proper (seq r r') := by
  rw [proper_iff]
  intro p q hq
  obtain ⟨m, hm, hq⟩ := mem_ends_seq.1 hq
  rcases h with h | h
  · exact Nat.lt_of_le_of_lt (rest_le hq) (h.rest_lt hm)
  · exact Nat.lt_of_lt_of_le (h.rest_lt hq) (rest_le hm)

theorem skips_nil : Skips r prev [] t := by
  intro u v h hv
  exact absurd (List.append_eq_nil_iff.1 h.symm).2 hv

theorem skips_cons {c : Char} :
    Skips r prev (c :: s) t ↔ ends r ⟨prev, c :: s ++ t⟩ = [] ∧ Skips r (some c) s t := by
  constructor
  · refine fun h => ⟨h [] (c :: s) rfl (List.cons_ne_nil _ _), fun u v hs hv => ?_⟩
    have := h (c :: u) v (by rw [hs]; rfl) hv
    rwa [← List.singleton_append, List.getLast?_append, Option.or_assoc] at this
  · rintro ⟨hc, h⟩ u v hs hv
    cases u with
    | nil =>
      cases hs
      exact hc
    | cons d u =>
      obtain ⟨rfl, hs'⟩ := List.cons.inj hs
      rw [← List.singleton_append, List.getLast?_append, Option.or_assoc]
      exact h u v hs' hv

theorem occurs_append {u v : List Char} (h : ends r ⟨u.getLast?.or prev, v⟩ ≠ []) :
    Occurs r prev (u ++ v) :=
  ⟨u, _, ⟨rfl, rfl⟩, h⟩

/-- The match lies behind a word in which none starts. -/
theorem Occurs.append (h : Occurs r (s.getLast?.or prev) t) : Occurs r prev (s ++ t) := by
  obtain ⟨u, p, hu, hp⟩ := h
  exact ⟨s ++ u, p, Pos.Reads.trans ⟨rfl, rfl⟩ hu, hp⟩

theorem Matches.occurs (h : Matches r prev m t) : Occurs r prev (m ++ t) :=
  ⟨[], _, Pos.reads_nil.2 rfl, fun hn => by simp [Matches, hn] at h⟩

/-! ## Cutting -/

/-- The characters of a word in which no match starts are pieces of their own. -/
theorem pieces_append (h : Skips r prev s t) :
    pieces r 0 prev (s ++ t) = s.map .inl ++ pieces r 0 (s.getLast?.or prev) t := by
  induction s generalizing prev with
  | nil => rfl
  | cons c s ih =>
    obtain ⟨hc, h⟩ := skips_cons.1 h
    rw [List.cons_append, pieces, show ends r ⟨prev, c :: (s ++ t)⟩ = [] from hc, List.head?_nil]
    dsimp only
    rw [ih h, List.map_cons, List.cons_append, ← List.singleton_append (l := s),
      List.getLast?_append, Option.or_assoc]
    rfl

theorem pieces_skip : pieces r m.length prev (m ++ t) = pieces r 0 (m.getLast?.or prev) t := by
  induction m generalizing prev with
  | nil => rfl
  | cons c m ih =>
    rw [List.length_cons, List.cons_append, pieces, ih, ← List.singleton_append (l := m),
      List.getLast?_append, Option.or_assoc]
    rfl

/-- A match is a piece. -/
theorem pieces_match (h : Matches r prev m t) :
    pieces r 0 prev (m ++ t) = .inr m :: pieces r 0 (m.getLast?.or prev) t := by
  obtain ⟨hm, h⟩ := h
  cases m with
  | nil => exact absurd rfl hm
  | cons c m =>
    rw [List.cons_append, pieces, show (ends r ⟨prev, c :: (m ++ t)⟩).head? = _ from h]
    have hlen : (m ++ t).length - t.length = m.length := by
      rw [List.length_append, Nat.add_sub_cancel]
    have hbetween : between ⟨prev, c :: (m ++ t)⟩ ⟨(c :: m).getLast?.or prev, t⟩ = c :: m :=
      Pos.Reads.between ⟨rfl, rfl⟩
    dsimp only
    rw [if_pos (by rw [List.length_append]; omega), hbetween, hlen, pieces_skip,
      ← List.singleton_append (l := m), List.getLast?_append, Option.or_assoc]
    rfl

/-- **A text** has no match, or a first one. -/
theorem exists_match (hr : Proper r) (prev : Option Char) (text : List Char) :
    ¬Occurs r prev text ∨ ∃ s m t, text = s ++ (m ++ t) ∧ Skips r prev s (m ++ t) ∧
      Matches r (s.getLast?.or prev) m t := by
  induction text generalizing prev with
  | nil =>
    refine .inl ?_
    rw [occurs_nil, not_not, List.eq_nil_iff_forall_not_mem]
    intro q hq
    obtain ⟨w, hw⟩ := ends_reads hq
    exact hr _ _ _ hq hw (List.append_eq_nil_iff.1 hw.1.symm).1
  | cons c cs ih =>
    cases h : (ends r ⟨prev, c :: cs⟩).head? with
    | some q =>
      obtain ⟨w, hw⟩ := ends_reads (List.mem_of_mem_head? h)
      have hne := hr _ _ _ (List.mem_of_mem_head? h) hw
      obtain ⟨hrest, hprev⟩ := hw
      obtain ⟨b, t⟩ := q
      cases hprev
      refine .inr ⟨[], w, t, hrest, skips_nil, hne, ?_⟩
      exact hrest ▸ h
    | none =>
      have hnil := List.head?_eq_none_iff.1 h
      rcases ih (some c) with hn | ⟨s, m, t, rfl, hs, hm⟩
      · refine .inl ?_
        rw [occurs_cons]
        exact not_or.2 ⟨not_not.2 hnil, hn⟩
      · refine .inr ⟨c :: s, m, t, rfl, skips_cons.2 ⟨hnil, hs⟩, ?_⟩
        rwa [← List.singleton_append, List.getLast?_append, Option.or_assoc]

/-- **Induction over the matches** of a text. -/
theorem pieces_induct {P : Option Char → List Char → List (Char ⊕ List Char) → Prop}
    (hr : Proper r) (clear : ∀ prev text, ¬Occurs r prev text → P prev text (text.map .inl))
    (step : ∀ prev s m t ps, Skips r prev s (m ++ t) → Matches r (s.getLast?.or prev) m t →
      P (m.getLast?.or (s.getLast?.or prev)) t ps →
      P prev (s ++ (m ++ t)) (s.map .inl ++ .inr m :: ps)) (prev : Option Char)
    (text : List Char) : P prev text (pieces r 0 prev text) := by
  induction h : text.length using Nat.strongRecOn generalizing prev text with
  | _ n ih =>
    rcases exists_match hr prev text with hn | ⟨s, m, t, rfl, hs, hm⟩
    · rw [pieces_of_not_occurs hn]
      exact clear prev text hn
    · rw [pieces_append hs, pieces_match hm]
      refine step prev s m t _ hs hm (ih t.length ?_ _ t rfl)
      have := List.length_pos_of_ne_nil hm.1
      rw [← h, List.length_append, List.length_append]
      omega

/-! ## Substituting -/

/-- What a substitution makes of some pieces. -/
def join (f : List Char → List Char) (ps : List (Char ⊕ List Char)) : List Char :=
  ps.flatMap fun x => x.elim ([·]) f

theorem sub_eq : sub r f text = join f (pieces r 0 none text) := rfl

@[simp] theorem join_map_inl : join f (s.map .inl) = s := by
  rw [join, List.flatMap_map]
  simp

@[simp] theorem join_append_inr {ps : List (Char ⊕ List Char)} :
    join f (s.map .inl ++ .inr m :: ps) = s ++ (f m ++ join f ps) := by
  rw [join, List.flatMap_append, List.flatMap_cons]
  exact congrArg (· ++ _) join_map_inl

theorem filterMap_map_inl : (s.map (.inl : Char → Char ⊕ List Char)).filterMap Sum.getLeft? = s := by
  rw [List.filterMap_map]
  exact List.filterMap_some

theorem gaps_map_inl : gaps (s.map .inl) = [s] := by
  rw [gaps, List.splitOnP_eq_singleton (by simp), List.map_singleton, filterMap_map_inl]

theorem gaps_append {m : List Char} {ps : List (Char ⊕ List Char)} :
    gaps (s.map .inl ++ .inr m :: ps) = s :: gaps ps := by
  rw [gaps, List.splitOnP_append_cons_of_forall_mem (by simp) _ rfl, List.map_cons,
    filterMap_map_inl]
  rfl

/-- **Nothing is counted** exactly if nothing matches. -/
theorem subn_eq_zero (hr : Proper r) : (subn r f text).2 = 0 ↔ ¬Occurs r none text := by
  refine pieces_induct (P := fun prev text ps => ps.countP Sum.isRight = 0 ↔ ¬Occurs r prev text)
    hr (fun prev text h => ?_) (fun prev s m t ps hs hm ih => ?_) none text
  · refine iff_of_true ?_ h
    rw [List.countP_map, List.countP_eq_zero]
    simp
  · refine iff_of_false ?_ (not_not.2 hm.occurs.append)
    rw [List.countP_append, List.countP_cons_of_pos rfl]
    omega

/-! ## Labels -/

/-- The expression finds certain words, if they are not next to a character of a class: they
    begin and end with one. -/
structure Delimited (f : Char → Bool) (r : Regex) (W : List Char → Prop) : Prop where
  proper : Proper r
  head : ∀ w, W w → ∃ c ∈ w.head?, f c = true
  last : ∀ w, W w → ∃ c ∈ w.getLast?, f c = true
  ends_ne : ∀ prev w t, W w → (∀ c ∈ prev, f c = false) → (∀ c ∈ t.head?, f c = false) →
    ends r ⟨prev, w ++ t⟩ ≠ []
  exists_word : ∀ prev text, Occurs r prev text → ∃ x w y, text = x ++ (w ++ y) ∧ W w ∧
    (∀ c ∈ x.getLast?.or prev, f c = false) ∧ ∀ c ∈ y.head?, f c = false
  apart : ∀ prev m t, Matches r prev m t →
    (∀ c ∈ prev, f c = false) ∧ ∀ c ∈ t.head?, f c = false

/-- Where no character is of the class, nothing is found. -/
theorem Delimited.not_occurs {g : Char → Bool} {W : List Char → Prop} (hd : Delimited g r W)
    (h : ∀ c ∈ text, g c = false) : ¬Occurs r prev text := by
  intro hocc
  obtain ⟨x, w, y, rfl, hw, -⟩ := hd.exists_word _ _ hocc
  obtain ⟨c, hc, hg⟩ := hd.head w hw
  have := h c (by
    rw [List.mem_append, List.mem_append]
    exact .inr (.inl (List.mem_of_mem_head? hc)))
  rw [hg] at this
  cases this

section
variable {g : Char → Bool} {r' : Regex} {W W' : List Char → Prop} {x w y : List Char}
  {prev' : Option Char}

/-- The character before a word of the text is not of the class. -/
theorem Delimited.before (hd : Delimited g r W) (hw : W w)
    (hguard : (∃ c ∈ prev, g c = true) → ∀ c ∈ (x ++ (w ++ y)).head?, g c = false)
    (hx : ∀ c ∈ x.getLast?.or prev', g c = false) : ∀ c ∈ x.getLast?.or prev, g c = false := by
  cases x with
  | nil =>
    intro c hc
    obtain ⟨c', hc', hg⟩ := hd.head w hw
    by_contra hn
    have := hguard ⟨c, hc, by simpa using hn⟩ c' (by
      rw [List.nil_append, List.head?_append, Option.mem_def, Option.mem_def.1 hc']
      rfl)
    rw [hg] at this
    cases this
  | cons d x =>
    rw [List.getLast?_cons] at hx ⊢
    exact hx

/-- The character behind a word that ends before a match is not of the class. -/
theorem Delimited.behind (hd : Delimited g r W) (hd' : Delimited g r' W') (hw : W w)
    (hm : Matches r' ((x ++ (w ++ y)).getLast?.or prev) m t)
    (hy : ∀ c ∈ (y ++ s).head?, g c = false) : ∀ c ∈ (y ++ (m ++ t)).head?, g c = false := by
  cases y with
  | nil =>
    obtain ⟨c, hc, hg⟩ := hd.last w hw
    have := (hd'.apart _ _ _ hm).1 c (by
      rw [List.append_nil, List.getLast?_append, Option.mem_def, Option.mem_def.1 hc]
      rfl)
    rw [hg] at this
    cases this
  | cons d y => exact hy

/-- **What is found after a substitution** by a label was there before, and it was not what the
    substitution replaces. -/
theorem Delimited.occurs_sub {b b' : Char} {label : List Char} (hd : Delimited g r W)
    (hd' : Delimited g r' W') (hb : ∀ w, W w → b ∉ w ∧ b' ∉ w) (hg : g b' = false)
    (hlabel : ∀ c ∈ label, g c = false)
    (h : Occurs r none (sub r' (fun _ => b :: (label ++ [b'])) text)) :
    Occurs r none text ∧ r ≠ r' := by
  -- the label ends with a character that is not of the class, whatever the match ends with
  refine pieces_induct
    (P := fun prev text ps => ((∃ c ∈ prev, g c = true) → ∀ c ∈ text.head?, g c = false) →
      ∀ prev', (∀ c ∈ prev', g c = false) →
        Occurs r prev' (join (fun _ => b :: (label ++ [b'])) ps) → Occurs r prev text ∧ r ≠ r')
    hd'.proper (fun prev text hn hguard prev' hprev' h => ?_)
    (fun prev s m t ps hs hm ih hguard prev' hprev' h => ?_) none text (by simp) none (by simp) h
  · rw [join_map_inl] at h
    obtain ⟨x, w, y, rfl, hw, hx, hy⟩ := hd.exists_word _ _ h
    have hocc : Occurs r prev (x ++ (w ++ y)) :=
      occurs_append (hd.ends_ne _ w y hw (hd.before hw hguard hx) hy)
    exact ⟨hocc, fun he => hn (he ▸ hocc)⟩
  · rw [join_append_inr, List.cons_append, List.append_assoc, List.singleton_append] at h
    obtain ⟨x, w, y, hout, hw, hx, hy⟩ := hd.exists_word _ _ h
    rcases append_eq_append_cons (hb w hw).1 hout.symm with ⟨y', rfl, rfl⟩ | ⟨x', rfl, hrest⟩
    · -- before the match
      have hends : ends r ⟨x.getLast?.or prev, (w ++ y') ++ (m ++ t)⟩ ≠ [] := by
        rw [List.append_assoc]
        refine hd.ends_ne _ w _ hw (hd.before (y := y' ++ (m ++ t)) hw ?_ hx)
          (hd.behind hd' hw hm hy)
        simpa only [List.append_assoc] using hguard
      refine ⟨?_, fun he => ?_⟩
      · rw [List.append_assoc]
        exact occurs_append hends
      · refine hends (he ▸ hs x (w ++ y') rfl fun hnil => ?_)
        obtain ⟨c, hc, -⟩ := hd.head w hw
        rw [(List.append_eq_nil_iff.1 hnil).1] at hc
        cases hc
    · rcases append_eq_append_cons (hb w hw).2 hrest.symm with ⟨y', rfl, -⟩ | ⟨x', rfl, hjoin⟩
      · -- in the label
        obtain ⟨c, hc, hgc⟩ := hd.head w hw
        have := hlabel c (by
          rw [List.mem_append, List.mem_append]
          exact .inr (.inl (List.mem_of_mem_head? hc)))
        rw [hgc] at this
        cases this
      · -- behind the match
        have hlast : ∀ c ∈ x'.getLast?.or (some b'), g c = false := by
          cases x' with
          | nil => rintro c ⟨⟩; exact hg
          | cons d x' => simpa [List.getLast?_cons] using hx
        obtain ⟨hocc, hne⟩ := ih (fun _ => (hd'.apart _ _ _ hm).2) (some b')
          (by rintro c ⟨⟩; exact hg)
          (hjoin ▸ occurs_append (hd.ends_ne _ w y hw hlast hy))
        exact ⟨hocc.append.append, hne⟩

end

end Regex

end Text
