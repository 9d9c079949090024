/-
  Loops of functions that can raise, as list operations in `Except`: what it means
  that they return.
-/
import Mathlib.Data.List.Forall2

namespace Py

variable {ε α β σ : Type}

theorem bind_eq_ok {x : Except ε α} {f : α → Except ε β} {b : β} :
    x >>= f = .ok b ↔ ∃ a, x = .ok a ∧ f a = .ok b := by
  cases x with
  | error e =>
    constructor
    · intro h; cases h
    · rintro ⟨a, h, -⟩; cases h
  | ok a =>
    refine ⟨fun h => ⟨a, rfl, h⟩, ?_⟩
    rintro ⟨a', h, hf⟩; cases h; exact hf

theorem bind_eq_error {x : Except ε α} {f : α → Except ε β} {e : ε} :
    x >>= f = .error e ↔ x = .error e ∨ ∃ a, x = .ok a ∧ f a = .error e := by
  cases x with
  | error e' =>
    constructor
    · intro h; cases h; exact .inl rfl
    · rintro (h | ⟨a, h, -⟩)
      · cases h; rfl
      · cases h
  | ok a =>
    constructor
    · exact fun h => .inr ⟨a, rfl, h⟩
    · rintro (h | ⟨a', h, hf⟩)
      · cases h
      · cases h; exact hf

theorem exists_ok {x : Except ε α} (h : x.isOk = true) : ∃ a, x = .ok a := by
  cases x with
  | error e => cases h
  | ok a => exact ⟨a, rfl⟩

theorem map_eq_ok {x : Except ε α} {f : α → β} {b : β} :
    x.map f = .ok b ↔ ∃ a, x = .ok a ∧ f a = b := by
  cases x with
  | error e =>
    constructor
    · intro h; cases h
    · rintro ⟨a, h, -⟩; cases h
  | ok a =>
    constructor
    · intro h; cases h; exact ⟨a, rfl, rfl⟩
    · rintro ⟨a', h, rfl⟩; cases h; rfl

theorem mapError_eq_ok {ε' : Type} {x : Except ε α} {f : ε → ε'} {a : α} :
    x.mapError f = .ok a ↔ x = .ok a := by
  cases x with
  | error e => exact ⟨nofun, nofun⟩
  | ok b => exact ⟨fun h => by cases h; rfl, fun h => by cases h; rfl⟩

/-- A value that may be missing. -/
theorem elim_eq_ok {x : Option α} {e : ε} {a : α} :
    x.elim (.error e) Except.ok = .ok a ↔ x = some a := by
  cases x with
  | none => exact ⟨nofun, nofun⟩
  | some b => simp

theorem elim_eq_error {x : Option α} {e e' : ε} :
    x.elim (.error e) Except.ok = .error e' ↔ x = none ∧ e = e' := by
  cases x with
  | none => simp
  | some b => simp

/-- `if not condition: raise`. -/
def require (condition : Prop) [Decidable condition] (e : ε) : Except ε Unit :=
  if condition then .ok () else .error e

@[simp] theorem require_eq_ok {condition : Prop} [Decidable condition] {e : ε} {u : Unit} :
    require condition e = .ok u ↔ condition := by
  unfold require
  split <;> simp_all

/-- `[f(a) for a in l]`. -/
theorem mapM_eq_ok {f : α → Except ε β} {l : List α} {r : List β} :
    l.mapM f = .ok r ↔ List.Forall₂ (fun a b => f a = .ok b) l r := by
  induction l generalizing r with
  | nil =>
    rw [List.mapM_nil, List.forall₂_nil_left_iff]
    exact ⟨fun h => by cases h; rfl, fun h => by rw [h]; rfl⟩
  | cons a l ih =>
    rw [List.mapM_cons, bind_eq_ok, List.forall₂_cons_left_iff]
    constructor
    · rintro ⟨b, hb, h⟩
      obtain ⟨bs, hbs, h⟩ := bind_eq_ok.1 h
      cases h
      exact ⟨b, bs, hb, ih.1 hbs, rfl⟩
    · rintro ⟨b, bs, hb, hbs, rfl⟩
      exact ⟨b, hb, bind_eq_ok.2 ⟨bs, ih.2 hbs, rfl⟩⟩

theorem mapM_congr {f f' : α → Except ε β} {l : List α} (h : ∀ a ∈ l, f a = f' a) :
    l.mapM f = l.mapM f' := by
  induction l with
  | nil => rfl
  | cons a l ih =>
    rw [List.mapM_cons, List.mapM_cons, h a List.mem_cons_self,
      ih fun b hb => h b (List.mem_cons_of_mem _ hb)]

/-- What the results show is what their sources show. -/
theorem map_of_mapM {γ : Type} {f : α → Except ε β} {l : List α} {r : List β} {g : β → γ}
    {g' : α → γ} (h : l.mapM f = .ok r) (hg : ∀ a ∈ l, ∀ b, f a = .ok b → g b = g' a) :
    r.map g = l.map g' := by
  have hl := mapM_eq_ok.1 h
  clear h
  induction hl with
  | nil => rfl
  | cons hab _ ih =>
    rw [List.map_cons, List.map_cons, hg _ List.mem_cons_self _ hab,
      ih fun a ha => hg a (List.mem_cons_of_mem _ ha)]

theorem mapM_eq_error {f : α → Except ε β} {l : List α} {e : ε} :
    l.mapM f = .error e ↔ ∃ pre a post r, l = pre ++ a :: post ∧ pre.mapM f = .ok r ∧
      f a = .error e := by
  induction l with
  | nil =>
    constructor
    · intro h; cases h
    · rintro ⟨pre, a, post, r, h, -⟩
      exact absurd h.symm (List.append_ne_nil_of_right_ne_nil _ (List.cons_ne_nil _ _))
  | cons a l ih =>
    rw [List.mapM_cons, bind_eq_error]
    constructor
    · rintro (h | ⟨b, hb, h⟩)
      · exact ⟨[], a, l, [], rfl, rfl, h⟩
      · rcases bind_eq_error.1 h with h | ⟨bs, -, h⟩
        · obtain ⟨pre, a', post, r, rfl, hpre, ha'⟩ := ih.1 h
          refine ⟨a :: pre, a', post, b :: r, rfl, ?_, ha'⟩
          rw [List.mapM_cons, hb]
          exact bind_eq_ok.2 ⟨b, rfl, bind_eq_ok.2 ⟨r, hpre, rfl⟩⟩
        · cases h
    · rintro ⟨pre, a', post, r, hl, hpre, ha'⟩
      cases pre with
      | nil => cases hl; exact .inl ha'
      | cons a₀ pre =>
        cases hl
        rw [List.mapM_cons] at hpre
        obtain ⟨b, hb, hpre⟩ := bind_eq_ok.1 hpre
        obtain ⟨bs, hbs, -⟩ := bind_eq_ok.1 hpre
        exact .inr ⟨b, hb, bind_eq_error.2 (.inl (ih.2 ⟨pre, a', post, bs, rfl, hbs, ha'⟩))⟩

theorem mapM_singleton {f : α → Except ε β} {a : α} {r : List β} (h : [a].mapM f = .ok r) :
    ∃ b, f a = .ok b ∧ r = [b] := by
  obtain ⟨b, bs, hb, hbs, rfl⟩ := List.forall₂_cons_left_iff.1 (mapM_eq_ok.1 h)
  exact ⟨b, hb, by rw [List.forall₂_nil_left_iff.1 hbs]⟩

theorem exists_of_mem_left {R : α → β → Prop} {l : List α} {r : List β}
    (h : List.Forall₂ R l r) {a : α} (ha : a ∈ l) : ∃ b ∈ r, R a b := by
  induction h with
  | nil => cases ha
  | cons hab _ ih =>
    rcases List.mem_cons.1 ha with rfl | ha
    · exact ⟨_, List.mem_cons_self, hab⟩
    · obtain ⟨b, hb, hR⟩ := ih ha
      exact ⟨b, List.mem_cons_of_mem _ hb, hR⟩

theorem exists_of_mem_right {R : α → β → Prop} {l : List α} {r : List β}
    (h : List.Forall₂ R l r) {b : β} (hb : b ∈ r) : ∃ a ∈ l, R a b :=
  exists_of_mem_left h.flip hb

/-- `for a in l: f(a)`. -/
theorem forM_eq_ok {f : α → Except ε PUnit} {l : List α} {u : PUnit} :
    l.forM f = .ok u ↔ ∀ a ∈ l, f a = .ok () := by
  induction l with
  | nil => exact ⟨fun _ => List.forall_mem_nil _, fun _ => rfl⟩
  | cons a l ih =>
    change (f a >>= fun _ => l.forM f) = _ ↔ _
    rw [bind_eq_ok, List.forall_mem_cons]
    constructor
    · rintro ⟨_, ha, hl⟩; exact ⟨ha, ih.1 hl⟩
    · rintro ⟨ha, hl⟩; exact ⟨(), ha, ih.2 hl⟩

/-- A loop that keeps an invariant between its state and the items it has seen. -/
theorem foldlM_invariant {f : σ → α → Except ε σ} {I : List α → σ → Prop} {l : List α} {s s' : σ}
    (init : I [] s)
    (step : ∀ seen s a s', a ∈ l → I seen s → f s a = .ok s' → I (seen ++ [a]) s')
    (h : l.foldlM f s = .ok s') : I l s' := by
  suffices H : ∀ rest seen s, rest ⊆ l → I seen s → List.foldlM f s rest = .ok s' →
      I (seen ++ rest) s' from H l [] s (List.Subset.refl l) init h
  intro rest
  induction rest with
  | nil =>
    intro seen s _ hI h
    cases h
    rw [List.append_nil]; exact hI
  | cons a rest ih =>
    intro seen s hsub hI h
    rw [List.foldlM_cons, bind_eq_ok] at h
    obtain ⟨s₁, h₁, h⟩ := h
    obtain ⟨ha, hrest⟩ := List.cons_subset.1 hsub
    have hI' := ih (seen ++ [a]) s₁ hrest (step seen s a s₁ ha hI h₁) h
    rwa [List.append_assoc, List.singleton_append] at hI'

/-- Two loops in step over related items. -/
theorem foldlM_lockstep {α' σ' : Type} {f : σ → α → Except ε σ} {f' : σ' → α' → Except ε σ'}
    {R : α → α' → Prop} {I : σ → σ' → Prop} {l : List α} {l' : List α'} {s s₁ : σ} {s' s₁' : σ'}
    (hl : List.Forall₂ R l l') (init : I s s')
    (step : ∀ s s' a a' t t', R a a' → I s s' → f s a = .ok t → f' s' a' = .ok t' → I t t')
    (h : l.foldlM f s = .ok s₁) (h' : l'.foldlM f' s' = .ok s₁') : I s₁ s₁' := by
  induction hl generalizing s s' with
  | nil => cases h; cases h'; exact init
  | cons hab _ ih =>
    rw [List.foldlM_cons, bind_eq_ok] at h h'
    obtain ⟨t, ht, h⟩ := h
    obtain ⟨t', ht', h'⟩ := h'
    exact ih (step _ _ _ _ _ _ hab init ht ht') h h'

end Py
