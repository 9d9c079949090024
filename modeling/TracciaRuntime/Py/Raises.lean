/-
  Which errors a function can raise, step by step.
-/
import TracciaRuntime.Py.Result

namespace Py

variable {ε α β σ : Type} {P : ε → Prop}

/-- An error of this kind is raised. -/
def Raises (P : ε → Prop) (x : Except ε α) : Prop := ∃ e, P e ∧ x = .error e

@[simp] theorem not_raises_ok {a : α} : ¬Raises P (.ok a : Except ε α) :=
  fun ⟨_, _, h⟩ => nomatch h

@[simp] theorem not_raises_pure {a : α} : ¬Raises P (pure a : Except ε α) :=
  not_raises_ok

@[simp] theorem raises_error {e : ε} : Raises P (.error e : Except ε α) ↔ P e := by
  constructor
  · rintro ⟨e', he, h⟩
    cases h
    exact he
  · exact fun he => ⟨e, he, rfl⟩

theorem raises_bind {x : Except ε α} {f : α → Except ε β} :
    Raises P (x >>= f) ↔ Raises P x ∨ ∃ a, x = .ok a ∧ Raises P (f a) := by
  cases x with
  | error e =>
    change Raises P (.error e) ↔ _
    simp
  | ok a =>
    change Raises P (f a) ↔ _
    simp

theorem not_raises_bind {x : Except ε α} {f : α → Except ε β} (hx : ¬Raises P x)
    (hf : ∀ a, x = .ok a → ¬Raises P (f a)) : ¬Raises P (x >>= f) := by
  rw [raises_bind]
  rintro (h | ⟨a, ha, h⟩)
  · exact hx h
  · exact hf a ha h

@[simp] theorem raises_require {condition : Prop} [Decidable condition] {e : ε} :
    Raises P (require condition e) ↔ ¬condition ∧ P e := by
  unfold require
  split_ifs with h <;> simp [h]

theorem not_raises_mapM {f : α → Except ε β} {l : List α} (h : ∀ a ∈ l, ¬Raises P (f a)) :
    ¬Raises P (l.mapM f) := by
  rintro ⟨e, he, hl⟩
  obtain ⟨pre, a, post, r, rfl, -, ha⟩ := mapM_eq_error.1 hl
  exact h a (by simp) ⟨e, he, ha⟩

theorem not_raises_forM {f : α → Except ε PUnit} {l : List α} (h : ∀ a ∈ l, ¬Raises P (f a)) :
    ¬Raises P (l.forM f) := by
  induction l with
  | nil => exact not_raises_ok
  | cons a l ih =>
    obtain ⟨ha, hl⟩ := List.forall_mem_cons.1 h
    exact not_raises_bind ha fun _ _ => ih hl

theorem not_raises_foldlM {f : σ → α → Except ε σ} {l : List α} {s : σ}
    (h : ∀ a ∈ l, ∀ s, ¬Raises P (f s a)) : ¬Raises P (l.foldlM f s) := by
  induction l generalizing s with
  | nil => exact not_raises_ok
  | cons a l ih =>
    obtain ⟨ha, hl⟩ := List.forall_mem_cons.1 h
    rw [List.foldlM_cons]
    exact not_raises_bind (ha s) fun _ _ => ih hl

theorem raises_ok_bind {a : α} {f : α → Except ε β} : Raises P (.ok a >>= f) ↔ Raises P (f a) :=
  Iff.rfl

theorem raises_bind_of_not {x : Except ε α} {f : α → Except ε β} (hx : ¬Raises P x) :
    Raises P (x >>= f) ↔ ∃ a, x = .ok a ∧ Raises P (f a) := by
  rw [raises_bind, or_iff_right hx]

theorem exists_mapM {f : α → Except ε β} {l : List α} (h : ∀ a ∈ l, ∃ b, f a = .ok b) :
    ∃ r, l.mapM f = .ok r := by
  induction l with
  | nil => exact ⟨[], rfl⟩
  | cons a l ih =>
    obtain ⟨⟨b, hb⟩, hl⟩ := List.forall_mem_cons.1 h
    obtain ⟨r, hr⟩ := ih hl
    exact ⟨b :: r, mapM_eq_ok.2 (.cons hb (mapM_eq_ok.1 hr))⟩

/-- A loop whose turns all succeed. -/
theorem exists_foldlM {f : σ → α → Except ε σ} {l : List α} {s : σ}
    (h : ∀ a ∈ l, ∀ s, ∃ s', f s a = .ok s') : ∃ s', l.foldlM f s = .ok s' := by
  induction l generalizing s with
  | nil => exact ⟨s, rfl⟩
  | cons a l ih =>
    obtain ⟨ha, hl⟩ := List.forall_mem_cons.1 h
    obtain ⟨s₁, h₁⟩ := ha s
    rw [List.foldlM_cons, h₁]
    exact ih hl

end Py
