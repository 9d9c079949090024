/-
  Numbered marks in a text: the numerals that follow a `$`.

  The marks of a text that is put together from pieces are those of its
  pieces, as long as no piece continues the numeral that ends the one before.
-/
import Mathlib.Data.List.TakeWhile
import Mathlib.Data.Nat.Digits.Defs

namespace Text

/-- The numerals that follow a `$`, in order. -/
def marks : List Char → List (List Char)
  | [] => []
  | c :: cs => if c = '$' then cs.takeWhile Char.isDigit :: marks cs else marks cs

/-- A decimal numeral. -/
def numeral (n : Nat) : List Char := (toString n).toList

variable {a b : List Char}

/-- The text does not continue a numeral. -/
def Breaks (b : List Char) : Prop := ∀ c ∈ b.head?, c.isDigit = false

theorem breaks_append (ha : a ≠ []) (h : Breaks a) : Breaks (a ++ b) := by
  obtain ⟨c, cs, rfl⟩ := List.exists_cons_of_ne_nil ha
  exact h

instance : Decidable (Breaks b) :=
  match b with
  | [] => isTrue fun _ h => nomatch h
  | c :: _ => decidable_of_iff (c.isDigit = false) ⟨fun h _ hd => Option.some.inj hd ▸ h, fun h => h c rfl⟩

theorem marks_append_quiet (h : '$' ∉ a) : marks (a ++ b) = marks b := by
  induction a with
  | nil => rfl
  | cons c a ih =>
    rw [List.mem_cons, not_or] at h
    rw [List.cons_append, marks, if_neg (Ne.symm h.1), ih h.2]

theorem marks_quiet (h : '$' ∉ a) : marks a = [] := by
  rw [← List.append_nil a, marks_append_quiet h]; rfl

theorem takeWhile_append_breaks (hb : Breaks b) :
    (a ++ b).takeWhile Char.isDigit = a.takeWhile Char.isDigit := by
  induction a with
  | nil =>
    cases b with
    | nil => rfl
    | cons c b => simp [hb c rfl]
  | cons c a ih => simp only [List.cons_append, List.takeWhile_cons, ih]

/-- **The marks of two pieces.** -/
theorem marks_append (hb : Breaks b) : marks (a ++ b) = marks a ++ marks b := by
  induction a with
  | nil => rfl
  | cons c a ih =>
    simp only [List.cons_append, marks, takeWhile_append_breaks hb, ih]
    split <;> rfl

theorem isDigit_of_mem_numeral {n : Nat} {c : Char} (h : c ∈ numeral n) : c.isDigit = true := by
  rw [numeral, Nat.toString_eq_repr, Nat.toList_repr] at h
  exact Nat.isDigit_of_mem_toDigits (by decide) (by decide) h

/-- Decimal numerals are different for different numbers. -/
theorem toString_injective {m n : Nat} (h : toString m = toString n) : m = n := by
  have hd : Nat.toDigits 10 m = Nat.toDigits 10 n := by
    simpa only [Nat.toList_repr] using congrArg String.toList (show m.repr = n.repr from h)
  rw [← Nat.ofDigitChars_ten_toDigits (n := m), hd, Nat.ofDigitChars_ten_toDigits]

theorem numeral_quiet (n : Nat) : '$' ∉ numeral n :=
  fun h => absurd (isDigit_of_mem_numeral h) (by decide)

/-- A mark before a text that does not continue it. -/
theorem marks_mark {n : Nat} (hb : Breaks b) :
    marks ('$' :: (numeral n ++ b)) = numeral n :: marks b := by
  rw [marks, if_pos rfl, marks_append_quiet (numeral_quiet n), takeWhile_append_breaks hb]
  congr 1
  exact List.takeWhile_eq_self_iff.2 fun c hc => isDigit_of_mem_numeral hc

/-- The marks of a list of pieces with a separator. -/
theorem marks_intercalate {sep : List Char} {pieces : List (List Char)} (hs : sep ≠ [])
    (hq : '$' ∉ sep) (hb : Breaks sep) : marks (sep.intercalate pieces) = pieces.flatMap marks := by
  induction pieces with
  | nil => rfl
  | cons piece pieces ih =>
    cases pieces with
    | nil => simp
    | cons next rest =>
      rw [List.intercalate_cons_cons, List.append_assoc, marks_append, marks_append_quiet hq, ih]
      · rfl
      · exact breaks_append hs hb

end Text
