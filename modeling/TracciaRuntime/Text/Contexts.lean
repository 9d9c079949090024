/-
  What an expression matches between the text before it and the text after it.

  * `Unicode`: what is asked of the Unicode database; what lies beyond ASCII is left open;
  * `ReadsIn r a w b`: in `a ++ w ++ b` the expression reads the word `w`;
  * `StandsAlone u a w b`: the word has a boundary on both sides there;
  * `search_iff_readsIn`: a search succeeds if the text has a word that the expression reads.
-/
import TracciaRuntime.Text.Regex

namespace Text

structure Unicode where
  /-- `str.isalnum` -/
  alnum : Char → Bool
  /-- `\d` -/
  decimal : Char → Bool
  /-- the category `Cf` -/
  format : Char → Bool
  /-- the normal form `NFKC` -/
  nfkc : List Char → List Char
  alnum_ascii : ∀ c, c.toNat < 128 → alnum c = c.isAlphanum
  decimal_ascii : ∀ c, c.toNat < 128 → decimal c = c.isDigit
  format_ascii : ∀ c, c.toNat < 128 → format c = false
  nfkc_ascii : ∀ cs, (∀ c ∈ cs, c.toNat < 128) → nfkc cs = cs

namespace Unicode
variable (u : Unicode)

/-- `\w`. -/
def isWord (c : Char) : Bool := u.alnum c || c = '_'

/-- Nothing but ASCII. -/
def ascii : Unicode where
  alnum := Char.isAlphanum
  decimal := Char.isDigit
  format _ := false
  nfkc := id
  alnum_ascii _ _ := rfl
  decimal_ascii _ _ := rfl
  format_ascii _ _ := rfl
  nfkc_ascii _ _ := rfl

end Unicode

/-- `\b`. -/
def wordBoundary (u : Unicode) : Regex :=
  .look fun prev next => prev.any u.isWord != next.any u.isWord

/-- One of the characters belongs to a word and the other does not. -/
def Parts (u : Unicode) (prev next : Option Char) : Prop := prev.any u.isWord ≠ next.any u.isWord

/-- The word begins and ends at boundaries between these two parts of a text. -/
def StandsAlone (u : Unicode) (a w b : List Char) : Prop :=
  Parts u a.getLast? (w ++ b).head? ∧ Parts u (a ++ w).getLast? b.head?

namespace Regex
variable {r s : Regex} {u : Unicode} {f : Char → Bool} {a w b v text : List Char} {q : Pos}

/-- The expression reads the word between two parts of a text. -/
def ReadsIn (r : Regex) (a w b : List Char) : Prop :=
  ⟨(a ++ w).getLast?, b⟩ ∈ ends r ⟨a.getLast?, w ++ b⟩

theorem reads_between : Pos.Reads ⟨a.getLast?, w ++ b⟩ w ⟨(a ++ w).getLast?, b⟩ :=
  ⟨rfl, List.getLast?_append⟩

/-- A word that leads to the end of `w` is `w`. -/
theorem reads_between_iff :
    Pos.Reads ⟨a.getLast?, w ++ b⟩ v ⟨(a ++ w).getLast?, b⟩ ↔ v = w :=
  ⟨reads_between.word_unique, fun h => h ▸ reads_between⟩

/-- **The positions after a match.** -/
theorem mem_ends_iff : q ∈ ends r ⟨a.getLast?, text⟩ ↔
    ∃ w b, text = w ++ b ∧ q = ⟨(a ++ w).getLast?, b⟩ ∧ ReadsIn r a w b := by
  constructor
  · intro hq
    obtain ⟨w, hw⟩ := ends_reads hq
    obtain ⟨b, t⟩ := q
    have hrest : text = w ++ t := hw.1
    have hprev : b = (a ++ w).getLast? := by rw [List.getLast?_append]; exact hw.2
    subst hrest hprev
    exact ⟨w, t, rfl, rfl, hq⟩
  · rintro ⟨w, b, rfl, rfl, h⟩
    exact h

@[simp] theorem readsIn_eps : ReadsIn eps a w b ↔ w = [] := by
  rw [ReadsIn, mem_ends_eps, ← Pos.reads_nil, reads_between_iff, eq_comm]

@[simp] theorem readsIn_char : ReadsIn (char f) a w b ↔ ∃ c, f c = true ∧ w = [c] := by
  simp only [ReadsIn, mem_ends_char, reads_between_iff, eq_comm]

@[simp] theorem readsIn_boundary :
    ReadsIn (wordBoundary u) a w b ↔ w = [] ∧ Parts u a.getLast? b.head? := by
  rw [ReadsIn, wordBoundary, mem_ends_look, ← Pos.reads_nil, reads_between_iff, bne_iff_ne,
    and_comm, eq_comm]
  refine and_congr_right fun hw => ?_
  subst hw
  exact Iff.rfl

@[simp] theorem readsIn_seq : ReadsIn (seq r s) a w b ↔
    ∃ x y, w = x ++ y ∧ ReadsIn r a x (y ++ b) ∧ ReadsIn s (a ++ x) y b := by
  rw [ReadsIn, mem_ends_seq]
  constructor
  · rintro ⟨m, hm, hq⟩
    obtain ⟨x, t, ht, rfl, hx⟩ := mem_ends_iff.1 hm
    obtain ⟨y, b', rfl, hb, hy⟩ := mem_ends_iff.1 hq
    obtain rfl : b = b' := (Pos.mk.inj hb).2
    rw [← List.append_assoc] at ht
    exact ⟨x, y, List.append_cancel_right ht, hx, hy⟩
  · rintro ⟨x, y, rfl, hx, hy⟩
    refine ⟨_, mem_ends_iff.2 ⟨x, y ++ b, List.append_assoc x y b, rfl, hx⟩, ?_⟩
    exact mem_ends_iff.2 ⟨y, b, rfl, by rw [List.append_assoc], hy⟩

@[simp] theorem readsIn_alt : ReadsIn (alt r s) a w b ↔ ReadsIn r a w b ∨ ReadsIn s a w b :=
  mem_ends_alt

@[simp] theorem readsIn_word : ReadsIn (word v) a w b ↔ w = v := by
  rw [ReadsIn, mem_ends_word, reads_between_iff, eq_comm]

@[simp] theorem readsIn_star : ReadsIn (star (char f)) a w b ↔ ∀ c ∈ w, f c = true := by
  rw [ReadsIn, star, mem_ends_rep_char]
  constructor
  · rintro ⟨v, hv, hall, -⟩
    exact reads_between_iff.1 hv ▸ hall
  · exact fun hall => ⟨w, reads_between, hall, Nat.zero_le _, nofun⟩

@[simp] theorem readsIn_anyOf {rs : List Regex} :
    ReadsIn (anyOf rs) a w b ↔ ∃ r ∈ rs, ReadsIn r a w b :=
  mem_ends_anyOf

/-- **A word between boundaries** is read where it stands. -/
theorem readsIn_standing : ReadsIn (seq (wordBoundary u) (seq (word v) (wordBoundary u))) a w b ↔
    w = v ∧ StandsAlone u a v b := by
  simp only [readsIn_seq, readsIn_boundary, readsIn_word, StandsAlone]
  constructor
  · rintro ⟨x, y, rfl, ⟨rfl, h⟩, x', y', rfl, rfl, rfl, h'⟩
    rw [List.append_nil] at h h'
    exact ⟨List.append_nil _, h, h'⟩
  · rintro ⟨rfl, h, h'⟩
    refine ⟨[], w, rfl, ⟨rfl, h⟩, w, [], (List.append_nil w).symm, rfl, rfl, ?_⟩
    rwa [List.append_nil]

/-- **A search succeeds** exactly if the text has a word that the expression reads. -/
theorem search_iff_readsIn :
    search r text = true ↔ ∃ a w b, text = a ++ w ++ b ∧ ReadsIn r a w b := by
  rw [search_iff]
  constructor
  · rintro ⟨a, p, ha, hp⟩
    obtain ⟨prev, t⟩ := p
    have htext : text = a ++ t := ha.1
    have hprev : prev = a.getLast? := ha.2.trans (Option.or_none)
    subst hprev
    obtain ⟨q, hq⟩ := List.exists_mem_of_ne_nil _ hp
    obtain ⟨w, b, rfl, -, hw⟩ := mem_ends_iff.1 hq
    exact ⟨a, w, b, by rw [htext, List.append_assoc], hw⟩
  · rintro ⟨a, w, b, rfl, h⟩
    refine ⟨a, ⟨a.getLast?, w ++ b⟩, ⟨List.append_assoc a w b, ?_⟩, List.ne_nil_of_mem h⟩
    exact (Option.or_none).symm

end Regex

end Text
