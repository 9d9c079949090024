/-
  The languages of regular expressions without tests.

  * `Denotes`: the expression reads the words of a language, wherever it stands;
  * `Denotes.occurs_iff`: it occurs in the texts with such a word.
-/
import TracciaRuntime.Text.Regex
import Mathlib.Computability.Language

namespace Text

namespace Regex
variable {r s : Regex} {p q : Pos} {f : Char → Bool} {l m : Language Char} {w : List Char}

/-- What the expression reads from any position are the words of the language. -/
def Denotes (r : Regex) (l : Language Char) : Prop :=
  ∀ p q, q ∈ ends r p ↔ ∃ w ∈ l, p.Reads w q

/-- One character of a class. -/
def Single (f : Char → Bool) : Language Char := {w | ∃ c, f c = true ∧ w = [c]}

/-- The characters of a class, at least one. -/
def Many (f : Char → Bool) : Language Char := {w | (∀ c ∈ w, f c = true) ∧ w ≠ []}

/-- The word, if case is ignored. -/
def Folded (w : List Char) : Language Char := {w' | w'.map fold = w}

/-- A character that is a letter if case is ignored is one of these. -/
theorem fold_range {c : Char} (h : ('a' ≤ fold c && fold c ≤ 'z') = true) :
    (65 ≤ c.toNat ∧ c.toNat ≤ 90) ∨ (97 ≤ c.toNat ∧ c.toNat ≤ 122) ∨ c.toNat = 0x212A ∨
      c.toNat = 0x17F ∨ c.toNat = 0x130 ∨ c.toNat = 0x131 := by
  rw [Bool.and_eq_true, decide_eq_true_eq, decide_eq_true_eq] at h
  obtain ⟨hle, hge⟩ := h
  unfold fold at hle hge
  split_ifs at hle hge with h₁ h₂ h₃
  · subst h₁
    decide
  · subst h₂
    decide
  · rcases h₃ with rfl | rfl <;> decide
  · unfold Char.toLower at hle hge
    split at hle <;> rename_i hupper
    · have hA : 'A'.toNat ≤ c.toNat := hupper.1
      have hZ : c.toNat ≤ 'Z'.toNat := hupper.2
      exact .inl ⟨hA, hZ⟩
    · have ha : 'a'.toNat ≤ c.toNat := hle
      have hz : c.toNat ≤ 'z'.toNat := by
        rw [dif_neg hupper] at hge
        exact hge
      exact .inr (.inl ⟨ha, hz⟩)

theorem denotes_eps : Denotes eps 1 := by
  intro p q
  rw [mem_ends_eps]
  simp [Language.mem_one]

theorem denotes_char : Denotes (char f) (Single f) := by
  intro p q
  rw [mem_ends_char]
  constructor
  · rintro ⟨c, hc, h⟩
    exact ⟨[c], ⟨c, hc, rfl⟩, h⟩
  · rintro ⟨w, ⟨c, hc, rfl⟩, h⟩
    exact ⟨c, hc, h⟩

theorem denotes_word : Denotes (word w) {w} := by
  intro p q
  rw [mem_ends_word]
  constructor
  · exact fun h => ⟨w, rfl, h⟩
  · rintro ⟨w', rfl, h⟩
    exact h

theorem denotes_foldedWord : Denotes (foldedWord w) (Folded w) := by
  intro p q
  rw [mem_ends_foldedWord]
  exact exists_congr fun w' => and_comm

theorem denotes_rep {least : Nat} {most : Option Nat} :
    Denotes (rep (char f) least most) {w | (∀ c ∈ w, f c = true) ∧ least ≤ w.length ∧
      ∀ k, most = some k → w.length ≤ max least k} := by
  intro p q
  rw [mem_ends_rep_char]
  exact exists_congr fun w => and_comm

theorem Denotes.seq (hr : Denotes r l) (hs : Denotes s m) : Denotes (seq r s) (l * m) := by
  intro p q
  simp only [mem_ends_seq, hr p, hs _ q, Language.mem_mul]
  constructor
  · rintro ⟨p', ⟨w, hw, h⟩, w', hw', h'⟩
    exact ⟨w ++ w', ⟨w, hw, w', hw', rfl⟩, h.trans h'⟩
  · rintro ⟨-, ⟨w, hw, w', hw', rfl⟩, h⟩
    obtain ⟨p', h, h'⟩ := Pos.reads_append.1 h
    exact ⟨p', ⟨w, hw, h⟩, w', hw', h'⟩

theorem Denotes.alt (hr : Denotes r l) (hs : Denotes s m) : Denotes (alt r s) (l + m) := by
  intro p q
  simp only [mem_ends_alt, hr p q, hs p q, Language.mem_add, or_and_right, exists_or]

theorem Denotes.opt (hr : Denotes r l) : Denotes (opt r) (l + 1) := hr.alt denotes_eps

theorem Denotes.congr (hr : Denotes r l) (h : l = m) : Denotes r m := h ▸ hr

theorem denotes_star : Denotes (star (char f)) {w | ∀ c ∈ w, f c = true} :=
  denotes_rep.congr (Set.ext fun w => by simp)

theorem denotes_plus : Denotes (plus (char f)) (Many f) := by
  refine denotes_rep.congr (Set.ext fun w => and_congr_right fun _ => ?_)
  rw [← List.length_pos_iff]
  simp [Nat.succ_le_iff]

/-- The expression finds a word of its language. -/
theorem Denotes.ends_ne (hr : Denotes r l) {prev : Option Char} {t : List Char} (hw : w ∈ l) :
    ends r ⟨prev, w ++ t⟩ ≠ [] :=
  List.ne_nil_of_mem ((hr _ ⟨w.getLast?.or prev, t⟩).2 ⟨w, hw, rfl, rfl⟩)

theorem Denotes.exists_word (hr : Denotes r l) (h : ends r p ≠ []) :
    ∃ w ∈ l, ∃ t, p.rest = w ++ t := by
  obtain ⟨q, hq⟩ := List.exists_mem_of_ne_nil _ h
  obtain ⟨w, hw, hread⟩ := (hr p q).1 hq
  exact ⟨w, hw, q.rest, hread.1⟩

/-- **An expression without tests** occurs in the texts with a word of its language. -/
theorem Denotes.occurs_iff (hr : Denotes r l) {prev : Option Char} {text : List Char} :
    Occurs r prev text ↔ ∃ w ∈ l, w <:+: text := by
  constructor
  · rintro ⟨u, p, hu, hp⟩
    obtain ⟨w, hw, t, ht⟩ := hr.exists_word hp
    refine ⟨w, hw, u, t, ?_⟩
    rw [List.append_assoc, ← ht, ← hu.1]
  · rintro ⟨w, hw, u, t, rfl⟩
    rw [List.append_assoc]
    exact ⟨u, ⟨u.getLast?.or prev, w ++ t⟩, ⟨rfl, rfl⟩, hr.ends_ne hw⟩

theorem ends_seq_ne : ends (seq r s) p ≠ [] ↔ ∃ q ∈ ends r p, ends s q ≠ [] := by
  rw [ends, ne_eq, List.flatMap_eq_nil_iff]
  push Not
  rfl

/-- One turn is enough. -/
theorem ends_plus_ne : ends (plus r) p ≠ [] ↔ ends r p ≠ [] := by
  constructor
  · intro h hnil
    obtain ⟨q, hq⟩ := List.exists_mem_of_ne_nil _ h
    obtain ⟨m, hm, -⟩ := mem_ends_rep.1 hq
    rw [times, hnil] at hm
    cases hm
  · intro h
    obtain ⟨q, hq⟩ := List.exists_mem_of_ne_nil _ h
    refine List.ne_nil_of_mem (mem_ends_rep.2 ⟨q, ?_, ?_⟩ : q ∈ _)
    · exact List.mem_flatMap.2 ⟨q, hq, List.mem_singleton.2 rfl⟩
    · cases h : Option.elim none q.rest.length (· - 1) with
      | zero => exact List.mem_singleton.2 rfl
      | succ n => exact List.mem_append.2 (.inr (List.mem_singleton.2 rfl))

/-- A word of the language consists of these characters. -/
theorem Denotes.accepts (hr : Denotes r l) (hw : w ∈ l) {c : Char} (hc : c ∈ w) : r.Accepts c := by
  obtain ⟨w', hw', hall⟩ := ends_accepts ((hr ⟨none, w⟩ ⟨w.getLast?, []⟩).2
    ⟨w, hw, by simp, by simp⟩)
  rw [hw'.word_unique (show Pos.Reads _ w _ from ⟨by simp, by simp⟩)] at hc
  exact hall c hc

end Regex

end Text
