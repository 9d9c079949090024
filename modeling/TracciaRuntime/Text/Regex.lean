/-
  Regular expressions, as a backtracking matcher reads them.

  A position in a text is the character before it, if there is one, and the text that follows.
  `ends r p` lists where the matches from a position end, in the order in which the matcher tries
  them: the first one is the match.

  * `Reads p w q`: the word `w` leads from one position to another;
  * `find`: the leftmost match; `find_eq_none`: there is none if no position starts one;
  * `pieces`: the text cut into its matches and the characters between them, for `findall` and
    `sub` of an expression that does not match the empty word.
-/
import Mathlib.Data.List.Basic

namespace Text

/-- A position in a text. -/
structure Pos where
  prev : Option Char
  rest : List Char
  deriving DecidableEq

/-- Regular expressions; `look` is a test of the characters on both sides, and a repetition takes
    as many turns as it can. -/
inductive Regex where
  | eps
  | char (f : Char → Bool)
  | look (f : Option Char → Option Char → Bool)
  | seq (r s : Regex)
  | alt (r s : Regex)
  | rep (r : Regex) (least : Nat) (most : Option Nat)

namespace Regex

/-- Exactly `n` turns. -/
def times (step : Pos → List Pos) : Nat → Pos → List Pos
  | 0, p => [p]
  | n + 1, p => (step p).flatMap (times step n)

/-- At most `n` turns, the more the better. -/
def upTo (step : Pos → List Pos) : Nat → Pos → List Pos
  | 0, p => [p]
  | n + 1, p => (step p).flatMap (upTo step n) ++ [p]

def ends : Regex → Pos → List Pos
  | eps, p => [p]
  | char f, p => match p.rest with
    | [] => []
    | c :: cs => if f c then [⟨some c, cs⟩] else []
  | look f, p => if f p.prev p.rest.head? then [p] else []
  | seq r s, p => (ends r p).flatMap (ends s)
  | alt r s, p => ends r p ++ ends s p
  | rep r least most, p =>
    (times (ends r) least p).flatMap fun q =>
      upTo (ends r) (most.elim q.rest.length (· - least)) q

/-- The word itself. -/
def word (w : List Char) : Regex := w.foldr (fun c r => seq (char (· = c)) r) eps

/-- What a character is compared by if case is ignored: the Kelvin sign, the long s and the `i`
    with and without a dot are letters of ASCII too. -/
def fold (c : Char) : Char :=
  if c = '\u212A' then 'k'
  else if c = '\u017F' then 's'
  else if c = '\u0130' ∨ c = '\u0131' then 'i'
  else c.toLower

/-- The word in lower case, if case is ignored. -/
def foldedWord (w : List Char) : Regex := w.foldr (fun c r => seq (char (fold · = c)) r) eps

/-- One of some expressions. -/
def anyOf : List Regex → Regex
  | [] => char fun _ => false
  | [r] => r
  | r :: rs => alt r (anyOf rs)

def star (r : Regex) : Regex := rep r 0 none

def plus (r : Regex) : Regex := rep r 1 none

def opt (r : Regex) : Regex := alt r eps

/-! ## Searching -/

/-- The leftmost match, as the positions where it starts and ends. -/
def find (r : Regex) : Option Char → List Char → Option (Pos × Pos)
  | prev, [] => ((ends r ⟨prev, []⟩).head?).map fun q => (⟨prev, []⟩, q)
  | prev, c :: cs => match (ends r ⟨prev, c :: cs⟩).head? with
    | some q => some (⟨prev, c :: cs⟩, q)
    | none => find r (some c) cs

/-- `re.search(r, text) is not None`. -/
def search (r : Regex) (text : List Char) : Bool := (find r none text).isSome

/-- The word between two positions. -/
def between (p q : Pos) : List Char := p.rest.take (p.rest.length - q.rest.length)

/-- The matches of a text, and the characters between them; the next `skip` characters belong to
    the last match. -/
def pieces (r : Regex) : (skip : Nat) → Option Char → List Char → List (Char ⊕ List Char)
  | _, _, [] => []
  | skip + 1, _, c :: cs => pieces r skip (some c) cs
  | 0, prev, c :: cs => match (ends r ⟨prev, c :: cs⟩).head? with
    | none => .inl c :: pieces r 0 (some c) cs
    | some q =>
      if q.rest.length ≤ cs.length then
        .inr (between ⟨prev, c :: cs⟩ q) :: pieces r (cs.length - q.rest.length) (some c) cs
      else .inl c :: pieces r 0 (some c) cs

/-- The words that `re.findall` finds. -/
def findall (r : Regex) (text : List Char) : List (List Char) :=
  (pieces r 0 none text).filterMap Sum.getRight?

/-- `re.sub`, with the replacement of each match. -/
def sub (r : Regex) (f : List Char → List Char) (text : List Char) : List Char :=
  (pieces r 0 none text).flatMap fun x => x.elim ([·]) f

end Regex

/-! ## Words between positions -/

/-- The word leads from the one position to the other. -/
def Pos.Reads (p : Pos) (w : List Char) (q : Pos) : Prop :=
  p.rest = w ++ q.rest ∧ q.prev = w.getLast?.or p.prev

namespace Pos
variable {p q q' : Pos} {w w' : List Char} {c : Char} {cs : List Char}

@[simp] theorem reads_nil : p.Reads [] q ↔ q = p := by
  obtain ⟨b, s⟩ := p
  obtain ⟨b', s'⟩ := q
  simp only [Reads, List.nil_append, List.getLast?_nil, Option.none_or, mk.injEq]
  exact ⟨fun h => ⟨h.2, h.1.symm⟩, fun h => ⟨h.2.symm, h.1⟩⟩

theorem Reads.trans (h : p.Reads w q) (h' : q.Reads w' q') : p.Reads (w ++ w') q' := by
  refine ⟨by rw [h.1, h'.1, List.append_assoc], ?_⟩
  rw [h'.2, h.2, List.getLast?_append, Option.or_assoc]

theorem reads_singleton : p.Reads [c] q ↔ p.rest = c :: q.rest ∧ q.prev = some c := Iff.rfl

theorem reads_cons : p.Reads (c :: w) q ↔ ∃ cs, p.rest = c :: cs ∧ Reads ⟨some c, cs⟩ w q := by
  constructor
  · rintro ⟨hrest, hprev⟩
    refine ⟨w ++ q.rest, hrest, rfl, ?_⟩
    rw [hprev, ← List.singleton_append, List.getLast?_append, Option.or_assoc]
    rfl
  · rintro ⟨cs, hrest, h⟩
    exact Reads.trans (reads_singleton.2 ⟨hrest, rfl⟩) h

theorem reads_append : p.Reads (w ++ w') q ↔ ∃ m, p.Reads w m ∧ m.Reads w' q := by
  constructor
  · rintro ⟨hrest, hprev⟩
    refine ⟨⟨w.getLast?.or p.prev, w' ++ q.rest⟩, ⟨by rw [hrest, List.append_assoc], rfl⟩, rfl, ?_⟩
    rw [hprev, List.getLast?_append, Option.or_assoc]
  · rintro ⟨m, h, h'⟩
    exact h.trans h'

theorem Reads.rest_length (h : p.Reads w q) : p.rest.length = w.length + q.rest.length := by
  rw [h.1, List.length_append]

theorem Reads.between (h : p.Reads w q) : Regex.between p q = w := by
  unfold Regex.between
  rw [h.1, List.length_append, Nat.add_sub_cancel, List.take_left]

theorem Reads.unique (h : p.Reads w q) (h' : p.Reads w q') : q' = q := by
  obtain ⟨b, s⟩ := q
  obtain ⟨b', s'⟩ := q'
  rw [mk.injEq]
  exact ⟨h'.2.trans h.2.symm, List.append_cancel_left (h'.1.symm.trans h.1)⟩

theorem Reads.word_unique (h : p.Reads w q) (h' : p.Reads w' q) : w' = w :=
  List.append_cancel_right (h'.1.symm.trans h.1)

end Pos

namespace Regex
variable {r s : Regex} {p q : Pos} {f : Char → Bool} {n least : Nat} {most : Option Nat}
  {text : List Char}

/-! ## What expressions match -/

@[simp] theorem mem_ends_eps : q ∈ ends eps p ↔ q = p := List.mem_singleton

@[simp] theorem mem_ends_char : q ∈ ends (char f) p ↔ ∃ c, f c = true ∧ p.Reads [c] q := by
  obtain ⟨b, s⟩ := p
  obtain ⟨b', s'⟩ := q
  unfold ends
  cases s with
  | nil => simp [Pos.reads_singleton]
  | cons c cs =>
    dsimp only
    split_ifs with h
    · simp only [List.mem_singleton, Pos.mk.injEq, Pos.reads_singleton, List.cons.injEq]
      constructor
      · rintro ⟨rfl, rfl⟩
        exact ⟨c, h, ⟨rfl, rfl⟩, rfl⟩
      · rintro ⟨c', -, ⟨rfl, rfl⟩, rfl⟩
        exact ⟨rfl, rfl⟩
    · simp only [List.not_mem_nil, false_iff, Pos.reads_singleton, List.cons.injEq]
      rintro ⟨c', hc', ⟨rfl, -⟩, -⟩
      exact h hc'

@[simp] theorem mem_ends_look {f : Option Char → Option Char → Bool} :
    q ∈ ends (look f) p ↔ f p.prev p.rest.head? = true ∧ q = p := by
  unfold ends
  split_ifs with h <;> simp [h]

@[simp] theorem mem_ends_seq : q ∈ ends (seq r s) p ↔ ∃ m ∈ ends r p, q ∈ ends s m :=
  List.mem_flatMap

@[simp] theorem mem_ends_alt : q ∈ ends (alt r s) p ↔ q ∈ ends r p ∨ q ∈ ends s p :=
  List.mem_append

@[simp] theorem mem_ends_word {w : List Char} : q ∈ ends (word w) p ↔ p.Reads w q := by
  induction w generalizing p with
  | nil => rw [Pos.reads_nil]; exact mem_ends_eps
  | cons c w ih =>
    change q ∈ ends (seq (char (· = c)) (word w)) p ↔ _
    rw [mem_ends_seq, Pos.reads_cons]
    simp only [mem_ends_char, decide_eq_true_eq, ih]
    constructor
    · rintro ⟨m, ⟨c', rfl, hm, hprev⟩, h⟩
      obtain ⟨b, s⟩ := m
      cases hprev
      exact ⟨s, hm, h⟩
    · rintro ⟨cs, hcs, h⟩
      exact ⟨⟨some c, cs⟩, ⟨c, rfl, hcs, rfl⟩, h⟩

theorem mem_ends_foldedWord {w : List Char} :
    q ∈ ends (foldedWord w) p ↔ ∃ w', p.Reads w' q ∧ w'.map fold = w := by
  induction w generalizing p with
  | nil =>
    simp only [List.map_eq_nil_iff, exists_eq_right, Pos.reads_nil]
    exact mem_ends_eps
  | cons c w ih =>
    change q ∈ ends (seq (char (fold · = c)) (foldedWord w)) p ↔ _
    simp only [mem_ends_seq, mem_ends_char, decide_eq_true_eq, ih]
    constructor
    · rintro ⟨m, ⟨c', rfl, hm⟩, w', hw', rfl⟩
      exact ⟨c' :: w', hm.trans hw', rfl⟩
    · rintro ⟨w', hw', he⟩
      obtain ⟨c', w', rfl, rfl, rfl⟩ := List.map_eq_cons_iff.1 he
      obtain ⟨m, hm, hw'⟩ := Pos.reads_append.1 (show p.Reads ([c'] ++ w') q from hw')
      exact ⟨m, ⟨c', rfl, hm⟩, w', hw', rfl⟩

theorem mem_ends_anyOf {rs : List Regex} : q ∈ ends (anyOf rs) p ↔ ∃ r ∈ rs, q ∈ ends r p := by
  induction rs with
  | nil => simp [anyOf]
  | cons r rs ih =>
    cases rs with
    | nil => simp [anyOf]
    | cons r' rs =>
      rw [anyOf, mem_ends_alt, ih]
      · simp only [List.mem_cons, exists_eq_or_imp]
      · exact List.cons_ne_nil _ _

theorem mem_ends_rep : q ∈ ends (rep r least most) p ↔
    ∃ m ∈ times (ends r) least p, q ∈ upTo (ends r) (most.elim m.rest.length (· - least)) m :=
  List.mem_flatMap

theorem mem_times_char :
    q ∈ times (ends (char f)) n p ↔ ∃ w, p.Reads w q ∧ (∀ c ∈ w, f c = true) ∧ w.length = n := by
  induction n generalizing p with
  | zero =>
    simp only [times, List.mem_singleton, List.length_eq_zero_iff]
    constructor
    · rintro rfl
      exact ⟨[], by simp⟩
    · rintro ⟨w, h, -, rfl⟩
      exact Pos.reads_nil.1 h
  | succ n ih =>
    simp only [times, List.mem_flatMap, mem_ends_char, ih]
    constructor
    · rintro ⟨m, ⟨c, hc, hm⟩, w, hw, hall, rfl⟩
      exact ⟨c :: w, hm.trans hw, by simpa using ⟨hc, hall⟩, rfl⟩
    · rintro ⟨w, hw, hall, hlen⟩
      obtain ⟨c, w, rfl⟩ := List.exists_cons_of_length_eq_add_one hlen
      obtain ⟨cs, hrest, hw⟩ := Pos.reads_cons.1 hw
      obtain ⟨hc, hall⟩ := List.forall_mem_cons.1 hall
      exact ⟨⟨some c, cs⟩, ⟨c, hc, hrest, rfl⟩, w, hw, hall, Nat.succ.inj hlen⟩

theorem mem_upTo_char :
    q ∈ upTo (ends (char f)) n p ↔ ∃ w, p.Reads w q ∧ (∀ c ∈ w, f c = true) ∧ w.length ≤ n := by
  induction n generalizing p with
  | zero =>
    simp only [upTo, List.mem_singleton, Nat.le_zero, List.length_eq_zero_iff]
    constructor
    · rintro rfl
      exact ⟨[], by simp⟩
    · rintro ⟨w, h, -, rfl⟩
      exact Pos.reads_nil.1 h
  | succ n ih =>
    simp only [upTo, List.mem_append, List.mem_flatMap, mem_ends_char, ih, List.mem_singleton]
    constructor
    · rintro (⟨m, ⟨c, hc, hm⟩, w, hw, hall, hlen⟩ | rfl)
      · exact ⟨c :: w, hm.trans hw, by simpa using ⟨hc, hall⟩, Nat.succ_le_succ hlen⟩
      · exact ⟨[], by simp⟩
    · rintro ⟨w, hw, hall, hlen⟩
      cases w with
      | nil => exact .inr (Pos.reads_nil.1 hw)
      | cons c w =>
        obtain ⟨cs, hrest, hw⟩ := Pos.reads_cons.1 hw
        obtain ⟨hc, hall⟩ := List.forall_mem_cons.1 hall
        exact .inl ⟨⟨some c, cs⟩, ⟨c, hc, hrest, rfl⟩, w, hw, hall, Nat.le_of_succ_le_succ hlen⟩

/-- **A repetition of a class** reads the words of the class of an allowed length. -/
theorem mem_ends_rep_char :
    q ∈ ends (rep (char f) least most) p ↔ ∃ w, p.Reads w q ∧ (∀ c ∈ w, f c = true) ∧
      least ≤ w.length ∧ ∀ m, most = some m → w.length ≤ max least m := by
  simp only [mem_ends_rep, mem_times_char, mem_upTo_char]
  constructor
  · rintro ⟨m, ⟨w, hw, hall, rfl⟩, w', hw', hall', hlen⟩
    refine ⟨w ++ w', hw.trans hw', fun c hc => ?_, by simp, ?_⟩
    · exact (List.mem_append.1 hc).elim (hall c) (hall' c)
    · rintro k rfl
      rw [List.length_append]
      simp only [Option.elim_some] at hlen
      omega
  · rintro ⟨w, hw, hall, hleast, hmost⟩
    have hsplit := List.take_append_drop least w
    have hread : p.Reads (w.take least) ⟨(w.take least).getLast?.or p.prev, w.drop least ++ q.rest⟩ := by
      refine ⟨?_, rfl⟩
      rw [← List.append_assoc, hsplit, hw.1]
    refine ⟨_, ⟨w.take least, hread, fun c hc => hall c (List.mem_of_mem_take hc),
      by rw [List.length_take]; omega⟩, w.drop least, ⟨rfl, ?_⟩,
      fun c hc => hall c (List.mem_of_mem_drop hc), ?_⟩
    · rw [hw.2, ← Option.or_assoc, ← List.getLast?_append, hsplit]
    · rw [List.length_drop]
      cases most with
      | none =>
        simp only [Option.elim_none, List.length_append, List.length_drop]
        omega
      | some m =>
        have := hmost m rfl
        simp only [Option.elim_some]
        omega

/-! ## Searching -/

/-- A match starts somewhere in the text, whose character before is `prev`. -/
def Occurs (r : Regex) (prev : Option Char) (text : List Char) : Prop :=
  ∃ u p, Pos.Reads ⟨prev, text⟩ u p ∧ ends r p ≠ []

theorem occurs_nil {prev : Option Char} : Occurs r prev [] ↔ ends r ⟨prev, []⟩ ≠ [] := by
  constructor
  · rintro ⟨u, p, h, hp⟩
    obtain ⟨rfl, -⟩ := List.append_eq_nil_iff.1 h.1.symm
    rwa [Pos.reads_nil.1 h] at hp
  · exact fun h => ⟨[], _, Pos.reads_nil.2 rfl, h⟩

theorem occurs_cons {prev : Option Char} {c : Char} {cs : List Char} :
    Occurs r prev (c :: cs) ↔ ends r ⟨prev, c :: cs⟩ ≠ [] ∨ Occurs r (some c) cs := by
  constructor
  · rintro ⟨u, p, h, hp⟩
    cases u with
    | nil =>
      rw [Pos.reads_nil.1 h] at hp
      exact .inl hp
    | cons c' u =>
      obtain ⟨cs', hcs, h⟩ := Pos.reads_cons.1 h
      cases hcs
      exact .inr ⟨u, p, h, hp⟩
  · rintro (h | ⟨u, p, h, hp⟩)
    · exact ⟨[], _, Pos.reads_nil.2 rfl, h⟩
    · exact ⟨c :: u, p, Pos.reads_cons.2 ⟨cs, rfl, h⟩, hp⟩

/-- **A search finds a match** exactly if there is one. -/
theorem find_isSome {prev : Option Char} : (find r prev text).isSome = true ↔ Occurs r prev text := by
  induction text generalizing prev with
  | nil =>
    rw [occurs_nil, find, Option.isSome_map, List.isSome_head?]
  | cons c cs ih =>
    rw [occurs_cons, find, ← ih]
    cases h : ends r ⟨prev, c :: cs⟩ with
    | nil => simp
    | cons q qs => simp

theorem search_iff : search r text = true ↔ Occurs r none text := find_isSome

/-! ## Pieces -/

/-- The pieces are matches. -/
theorem exists_of_mem_pieces {skip : Nat} {prev : Option Char} {w : List Char}
    (h : .inr w ∈ pieces r skip prev text) :
    ∃ u p q, Pos.Reads ⟨prev, text⟩ u p ∧ (ends r p).head? = some q ∧ between p q = w := by
  induction text generalizing skip prev with
  | nil => cases skip <;> cases h
  | cons c cs ih =>
    have later : ∀ k, .inr w ∈ pieces r k (some c) cs → ∃ u p q,
        Pos.Reads ⟨prev, c :: cs⟩ u p ∧ (ends r p).head? = some q ∧ between p q = w := by
      intro k hk
      obtain ⟨u, p, q, hu, hq⟩ := ih hk
      exact ⟨c :: u, p, q, Pos.reads_cons.2 ⟨cs, rfl, hu⟩, hq⟩
    cases skip with
    | succ skip => exact later skip h
    | zero =>
      rw [pieces] at h
      split at h
      · exact later 0 ((List.mem_cons.1 h).resolve_left Sum.inr_ne_inl)
      · rename_i q hq
        split at h
        · rcases List.mem_cons.1 h with hw | h
          · exact ⟨[], _, q, Pos.reads_nil.2 rfl, hq, (Sum.inr.inj hw).symm⟩
          · exact later _ h
        · exact later 0 ((List.mem_cons.1 h).resolve_left Sum.inr_ne_inl)

/-- No match starts inside another one. -/
def Isolated (r : Regex) : Prop :=
  ∀ p q w u m, q ∈ ends r p → p.Reads w q → p.Reads u m → u ≠ [] → u.length < w.length →
    ends r m = []

/-- The characters that the expression may read. -/
def Accepts (c : Char) : Regex → Prop
  | eps | look _ => False
  | char f => f c = true
  | seq r s | alt r s => r.Accepts c ∨ s.Accepts c
  | rep r _ _ => r.Accepts c

/-- **What is read** consists of these characters. -/
theorem ends_accepts (h : q ∈ ends r p) : ∃ w, p.Reads w q ∧ ∀ c ∈ w, r.Accepts c := by
  induction r generalizing p q with
  | eps => exact ⟨[], Pos.reads_nil.2 (mem_ends_eps.1 h), by simp⟩
  | char f =>
    obtain ⟨c, hc, hread⟩ := mem_ends_char.1 h
    exact ⟨[c], hread, fun c' hc' => List.mem_singleton.1 hc' ▸ hc⟩
  | look f => exact ⟨[], Pos.reads_nil.2 (mem_ends_look.1 h).2, by simp⟩
  | seq r s ihr ihs =>
    obtain ⟨p', hp', hq⟩ := mem_ends_seq.1 h
    obtain ⟨w, hw, hall⟩ := ihr hp'
    obtain ⟨w', hw', hall'⟩ := ihs hq
    exact ⟨w ++ w', hw.trans hw', fun c hc =>
      (List.mem_append.1 hc).imp (hall c) (hall' c)⟩
  | alt r s ihr ihs =>
    rcases mem_ends_alt.1 h with h | h
    · obtain ⟨w, hw, hall⟩ := ihr h
      exact ⟨w, hw, fun c hc => .inl (hall c hc)⟩
    · obtain ⟨w, hw, hall⟩ := ihs h
      exact ⟨w, hw, fun c hc => .inr (hall c hc)⟩
  | rep r least most ih =>
    have happend : ∀ {p p' q w}, p' ∈ ends r p → p'.Reads w q → (∀ c ∈ w, r.Accepts c) →
        ∃ w, p.Reads w q ∧ ∀ c ∈ w, r.Accepts c := by
      intro p p' q w' hp' hw' hall'
      obtain ⟨w, hw, hall⟩ := ih hp'
      exact ⟨w ++ w', hw.trans hw', fun c hc => (List.mem_append.1 hc).elim (hall c) (hall' c)⟩
    have htimes : ∀ n p q, q ∈ times (ends r) n p → ∃ w, p.Reads w q ∧ ∀ c ∈ w, r.Accepts c := by
      intro n
      induction n with
      | zero => exact fun p q h => ⟨[], Pos.reads_nil.2 (List.mem_singleton.1 h), by simp⟩
      | succ n ihn =>
        intro p q h
        obtain ⟨p', hp', hq⟩ := List.mem_flatMap.1 h
        obtain ⟨w, hw, hall⟩ := ihn p' q hq
        exact happend hp' hw hall
    have hupTo : ∀ n p q, q ∈ upTo (ends r) n p → ∃ w, p.Reads w q ∧ ∀ c ∈ w, r.Accepts c := by
      intro n
      induction n with
      | zero => exact fun p q h => ⟨[], Pos.reads_nil.2 (List.mem_singleton.1 h), by simp⟩
      | succ n ihn =>
        intro p q h
        rcases List.mem_append.1 h with h | h
        · obtain ⟨p', hp', hq⟩ := List.mem_flatMap.1 h
          obtain ⟨w, hw, hall⟩ := ihn p' q hq
          exact happend hp' hw hall
        · exact ⟨[], Pos.reads_nil.2 (List.mem_singleton.1 h), by simp⟩
    obtain ⟨p', hp', hq⟩ := mem_ends_rep.1 h
    obtain ⟨w, hw, hall⟩ := htimes _ _ _ hp'
    obtain ⟨w', hw', hall'⟩ := hupTo _ _ _ hq
    exact ⟨w ++ w', hw.trans hw', fun c hc => (List.mem_append.1 hc).elim (hall c) (hall' c)⟩

theorem ends_reads (h : q ∈ ends r p) : ∃ w, p.Reads w q := by
  obtain ⟨w, hw, -⟩ := ends_accepts h
  exact ⟨w, hw⟩

/-- **Every match is a piece**, if none starts inside another. -/
theorem mem_pieces (hr : Isolated r) {skip : Nat} {prev : Option Char} {u : List Char}
    (hu : Pos.Reads ⟨prev, text⟩ u p) (hskip : skip ≤ u.length) (hq : (ends r p).head? = some q)
    (hlt : q.rest.length < p.rest.length) : .inr (between p q) ∈ pieces r skip prev text := by
  induction text generalizing skip prev u with
  | nil =>
    have := hu.rest_length
    simp only [List.length_nil] at this
    omega
  | cons c cs ih =>
    cases u with
    | nil =>
      rw [Pos.reads_nil.1 hu] at hq hlt ⊢
      rw [List.length_nil, Nat.le_zero] at hskip
      rw [hskip, pieces, hq]
      dsimp only
      rw [if_pos (Nat.le_of_lt_succ hlt)]
      exact List.mem_cons_self
    | cons c' u =>
      obtain ⟨cs', hcs, hu'⟩ := Pos.reads_cons.1 hu
      cases hcs
      cases skip with
      | succ skip => exact ih hu' (Nat.le_of_succ_le_succ hskip)
      | zero =>
        rw [pieces]
        split
        · exact List.mem_cons_of_mem _ (ih hu' (Nat.zero_le _))
        · rename_i q₀ hq₀
          split
          · rename_i hle
            refine List.mem_cons_of_mem _ (ih hu' ?_)
            have hmem := List.mem_of_mem_head? hq₀
            obtain ⟨w, hw⟩ := ends_reads hmem
            have hlen := hw.rest_length
            rw [List.length_cons] at hlen
            by_contra hn
            rw [hr _ _ _ _ _ hmem hw hu (List.cons_ne_nil _ _) (by
              rw [List.length_cons]
              omega)] at hq
            cases hq
          · exact List.mem_cons_of_mem _ (ih hu' (Nat.zero_le _))

/-- **A text without a match** is one piece for each character. -/
theorem pieces_of_not_occurs {prev : Option Char} (h : ¬Occurs r prev text) :
    pieces r 0 prev text = text.map .inl := by
  induction text generalizing prev with
  | nil => rfl
  | cons c cs ih =>
    rw [occurs_cons, not_or, not_not] at h
    rw [pieces, h.1, List.map_cons, ← ih h.2]
    rfl

theorem sub_of_not_occurs {g : List Char → List Char} (h : ¬Occurs r none text) :
    sub r g text = text := by
  rw [sub, pieces_of_not_occurs h, List.flatMap_map]
  simp

/-- **A substitution changes a text** exactly if there is a match, if every match is one of a word
    that the replacement does not begin like. -/
theorem sub_eq_self {g : List Char → List Char}
    (hword : ∀ p q w, q ∈ ends r p → p.Reads w q → w ≠ [])
    (hg : ∀ p q w t, q ∈ ends r p → p.Reads w q → g w ++ t ≠ p.rest) :
    sub r g text = text ↔ ¬Occurs r none text := by
  refine ⟨fun h => ?_, sub_of_not_occurs⟩
  unfold sub at h
  generalize (none : Option Char) = prev at h ⊢
  induction text generalizing prev with
  | nil =>
    rw [occurs_nil, not_not, List.eq_nil_iff_forall_not_mem]
    intro q hq
    obtain ⟨w, hw⟩ := ends_reads hq
    exact hword _ _ _ hq hw (List.append_eq_nil_iff.1 hw.1.symm).1
  | cons c cs ih =>
    rw [pieces] at h
    split at h
    · rename_i hhead
      rw [occurs_cons, not_or, not_not]
      refine ⟨List.head?_eq_none_iff.1 hhead, ih _ ?_⟩
      exact (List.cons.inj h).2
    · rename_i q hhead
      have hq := List.mem_of_mem_head? hhead
      obtain ⟨w, hw⟩ := ends_reads hq
      have hlen := hw.rest_length
      have hpos := List.length_pos_of_ne_nil (hword _ _ _ hq hw)
      rw [List.length_cons] at hlen
      rw [if_pos (by omega), List.flatMap_cons, hw.between] at h
      exact absurd h (hg _ _ _ _ hq hw)

end Regex

end Text
