/-
  The lines of a text.

  * `splitlines_joinLines`: lines without breaks can be read off their join;
  * `dropWhile_joinLines`, `trim_joinLines`: stripping a text takes away its blank lines at both
    ends, if no line begins or ends with a space;
  * `joinLines_eq`: the places behind a newline are the beginnings of lines.
-/
import TracciaRuntime.Py.Dict

namespace Py

/-- The characters that `str.splitlines` splits at. -/
def isLineBreak (c : Char) : Bool :=
  c ∈ ['\n', '\r', '\x0b', '\x0c', '\x1c', '\x1d', '\x1e', '\u0085', '\u2028', '\u2029']

/-- One more character in the first line. -/
def consLine (c : Char) : List (List Char) → List (List Char)
  | [] => [[c]]
  | l :: ls => (c :: l) :: ls

/-- `s.splitlines()`. -/
def splitlines : List Char → List (List Char)
  | [] => []
  | c :: cs =>
    -- the two characters of a `\r\n` are one break
    if c = '\r' ∧ cs.head? = some '\n' then splitlines cs
    else if isLineBreak c then [] :: splitlines cs
    else consLine c (splitlines cs)

/-- `"\n".join(lines)`. -/
def joinLines (ls : List (List Char)) : List Char := ['\n'].intercalate ls

/-- `s.strip()`. -/
def trim (s : List Char) : List Char :=
  ((s.dropWhile isSpace).reverse.dropWhile isSpace).reverse

variable {l s t : List Char} {ls ls' : List (List Char)}

/-! ## Joining and splitting -/

theorem joinLines_cons (h : ls ≠ []) : joinLines (l :: ls) = l ++ '\n' :: joinLines ls := by
  rw [joinLines, List.intercalate_cons_of_ne_nil h, List.append_assoc]
  rfl

theorem joinLines_append (h : ls ≠ []) (h' : ls' ≠ []) :
    joinLines (ls ++ ls') = joinLines ls ++ '\n' :: joinLines ls' := by
  induction ls with
  | nil => exact absurd rfl h
  | cons l ls ih =>
    cases ls with
    | nil =>
      rw [List.cons_append, List.nil_append, joinLines_cons h']
      simp [joinLines]
    | cons l' ls =>
      rw [List.cons_append, joinLines_cons (by simp), ih (List.cons_ne_nil _ _),
        joinLines_cons (List.cons_ne_nil _ _), List.append_assoc]
      rfl

theorem joinLines_reverse : (joinLines ls).reverse = joinLines (ls.reverse.map List.reverse) := by
  induction ls with
  | nil => rfl
  | cons l ls ih =>
    cases ls with
    | nil => simp [joinLines]
    | cons l' ls =>
      rw [joinLines_cons (List.cons_ne_nil _ _), List.reverse_append, List.reverse_cons, ih,
        List.reverse_cons (a := l), List.map_append, joinLines_append (by simp) (by simp),
        List.append_assoc]
      simp [joinLines]

theorem splitlines_of_forall (h : ∀ c ∈ l, isLineBreak c = false) (hl : l ≠ []) :
    splitlines l = [l] := by
  induction l with
  | nil => exact absurd rfl hl
  | cons c l ih =>
    obtain ⟨hc, h⟩ := List.forall_mem_cons.1 h
    rw [splitlines, if_neg (by rintro ⟨rfl, -⟩; exact absurd hc (by decide)), hc, if_neg (by simp)]
    cases l with
    | nil => rfl
    | cons c' l => rw [ih h (List.cons_ne_nil _ _)]; rfl

theorem splitlines_append (h : ∀ c ∈ l, isLineBreak c = false) :
    splitlines (l ++ '\n' :: t) = l :: splitlines t := by
  induction l with
  | nil => rfl
  | cons c l ih =>
    obtain ⟨hc, h⟩ := List.forall_mem_cons.1 h
    rw [List.cons_append, splitlines, if_neg (by rintro ⟨rfl, -⟩; exact absurd hc (by decide)), hc,
      if_neg (by simp), ih h]
    rfl

/-- **Lines without breaks** can be read off their join, if the last one is not blank. -/
theorem splitlines_joinLines (h : ∀ l ∈ ls, ∀ c ∈ l, isLineBreak c = false)
    (hlast : ls.getLast? ≠ some []) : splitlines (joinLines ls) = ls := by
  induction ls with
  | nil => rfl
  | cons l ls ih =>
    obtain ⟨hl, h⟩ := List.forall_mem_cons.1 h
    cases ls with
    | nil =>
      rw [joinLines, List.intercalate_singleton]
      exact splitlines_of_forall hl (by simpa using hlast)
    | cons l' ls =>
      rw [joinLines_cons (List.cons_ne_nil _ _), splitlines_append hl, ih h (by simpa using hlast)]

/-- **Behind a newline** a line begins. -/
theorem joinLines_eq (h : ∀ l ∈ ls, '\n' ∉ l) : joinLines ls = s ++ '\n' :: t ↔
    ∃ ls₁ ls₂, ls = ls₁ ++ ls₂ ∧ ls₁ ≠ [] ∧ ls₂ ≠ [] ∧ joinLines ls₁ = s ∧ joinLines ls₂ = t := by
  constructor
  · intro heq
    induction ls generalizing s with
    | nil => exact absurd heq.symm (by simp [joinLines])
    | cons l ls ih =>
      obtain ⟨hl, h⟩ := List.forall_mem_cons.1 h
      cases ls with
      | nil =>
        rw [joinLines, List.intercalate_singleton] at heq
        exact absurd (by rw [heq]; simp) hl
      | cons l' ls =>
        rw [joinLines_cons (List.cons_ne_nil _ _)] at heq
        rcases List.append_eq_append_iff.1 heq with ⟨a, rfl, ha⟩ | ⟨a, rfl, ha⟩
        · cases a with
          | nil =>
            refine ⟨[l], l' :: ls, rfl, List.cons_ne_nil _ _, List.cons_ne_nil _ _, ?_,
              (List.cons.inj ha).2⟩
            simp [joinLines]
          | cons c a =>
            obtain ⟨rfl, htail⟩ := List.cons.inj ha
            obtain ⟨ls₁, ls₂, hls, hne, hne', rfl, rfl⟩ := ih h htail
            refine ⟨l :: ls₁, ls₂, by rw [hls]; rfl, List.cons_ne_nil _ _, hne', ?_, rfl⟩
            exact joinLines_cons hne
        · cases a with
          | nil =>
            refine ⟨[s ++ []], l' :: ls, rfl, List.cons_ne_nil _ _, List.cons_ne_nil _ _, ?_,
              (List.cons.inj ha).2.symm⟩
            simp [joinLines]
          | cons c a =>
            obtain ⟨rfl, -⟩ := List.cons.inj ha
            exact absurd (by simp) hl
  · rintro ⟨ls₁, ls₂, rfl, hne, hne', rfl, rfl⟩
    exact joinLines_append hne hne'

/-! ## Stripping -/

/-- Without the blank lines at both ends. -/
def trimLines (ls : List (List Char)) : List (List Char) :=
  ((ls.dropWhile (· = [])).reverse.dropWhile (· = [])).reverse

theorem dropWhile_append_of_head {p : Char → Bool} (hl : l ≠ []) (h : ∀ c ∈ l.head?, p c = false) :
    (l ++ t).dropWhile p = l ++ t := by
  cases l with
  | nil => exact absurd rfl hl
  | cons c l => exact List.dropWhile_cons_of_neg (by simp [h c rfl])

/-- **Blank lines** are what stripping takes away on the left. -/
theorem dropWhile_joinLines (h : ∀ l ∈ ls, ∀ c ∈ l.head?, isSpace c = false) :
    (joinLines ls).dropWhile isSpace = joinLines (ls.dropWhile (· = [])) := by
  induction ls with
  | nil => rfl
  | cons l ls ih =>
    obtain ⟨hl, h⟩ := List.forall_mem_cons.1 h
    by_cases hnil : l = []
    · rw [List.dropWhile_cons_of_pos (by simpa using hnil), ← ih h, hnil]
      cases ls with
      | nil => rfl
      | cons l' ls =>
        rw [joinLines_cons (List.cons_ne_nil _ _), List.nil_append,
          List.dropWhile_cons_of_pos (by decide)]
    · rw [List.dropWhile_cons_of_neg (by simpa using hnil)]
      cases ls with
      | nil =>
        rw [joinLines, List.intercalate_singleton, ← l.append_nil]
        exact dropWhile_append_of_head hnil hl
      | cons l' ls =>
        rw [joinLines_cons (List.cons_ne_nil _ _)]
        exact dropWhile_append_of_head hnil hl

/-- **Stripping a text** takes away its blank lines at both ends. -/
theorem trim_joinLines (h : ∀ l ∈ ls, ∀ c ∈ l.head?, isSpace c = false)
    (h' : ∀ l ∈ ls, ∀ c ∈ l.getLast?, isSpace c = false) :
    trim (joinLines ls) = joinLines (trimLines ls) := by
  have hrev : ∀ l ∈ (ls.dropWhile (· = [])).reverse.map List.reverse,
      ∀ c ∈ l.head?, isSpace c = false := by
    intro l hl c hc
    obtain ⟨l', hl', rfl⟩ := List.mem_map.1 hl
    rw [List.head?_reverse] at hc
    exact h' l' ((List.dropWhile_suffix _).subset (List.mem_reverse.1 hl')) c hc
  rw [trim, dropWhile_joinLines h, joinLines_reverse, dropWhile_joinLines hrev, joinLines_reverse,
    trimLines]
  have hblank : (fun l : List Char => decide (l = [])) ∘ List.reverse = fun l => decide (l = []) := by
    funext l
    simp
  rw [List.dropWhile_map, hblank, ← List.map_reverse, List.map_map]
  simp

end Py
