/-
  Machines whose moves are named: `step s a` is the state after the move `a`, if it can be made
  in `s`.

  * `Steps step P`: the runs whose moves `P` allows, and what they keep (`Steps.keeps`);
  * `play`: a run by the list of its moves, so that a run can be computed; `Along`: each of them
    is allowed where it is made.
-/
import Mathlib.Logic.Relation

namespace Machine

variable {S A : Type} {step : S → A → Option S} {P Q : S → A → Prop} {s s' : S}

/-- A move that is allowed. -/
def Moves (step : S → A → Option S) (P : S → A → Prop) (s s' : S) : Prop :=
  ∃ a, P s a ∧ step s a = some s'

abbrev Steps (step : S → A → Option S) (P : S → A → Prop) : S → S → Prop :=
  Relation.ReflTransGen (Moves step P)

/-- Everything is allowed. -/
def anything : S → A → Prop := fun _ _ => True

theorem Steps.keeps (h : Steps step P s s') {I : S → Prop} (hs : I s)
    (hI : ∀ s a s', I s → P s a → step s a = some s' → I s') : I s' := by
  induction h with
  | refl => exact hs
  | tail _ hm ih =>
    obtain ⟨a, ha, hstep⟩ := hm
    exact hI _ a _ ih ha hstep

theorem Steps.mono (h : Steps step P s s') (hPQ : ∀ s a, P s a → Q s a) : Steps step Q s s' :=
  Relation.ReflTransGen.mono (fun _ _ ⟨a, ha, hs⟩ => ⟨a, hPQ _ a ha, hs⟩) _ _ h

theorem Steps.free (h : Steps step P s s') : Steps step anything s s' := h.mono fun _ _ _ => trivial

def play (step : S → A → Option S) (s : S) : List A → Option S
  | [] => some s
  | a :: l => (step s a).bind fun s => play step s l

def Along (step : S → A → Option S) (P : S → A → Prop) (s : S) : List A → Prop
  | [] => True
  | a :: l => P s a ∧ ∀ s', step s a = some s' → Along step P s' l

theorem along_cons {a : A} {l : List A} (h : step s a = some s') :
    Along step P s (a :: l) ↔ P s a ∧ Along step P s' l := by
  constructor
  · rintro ⟨ha, hl⟩
    exact ⟨ha, hl s' h⟩
  · rintro ⟨ha, hl⟩
    refine ⟨ha, fun s₁ h₁ => ?_⟩
    rw [h] at h₁
    cases h₁
    exact hl

theorem Along.and {l : List A} (hP : Along step P s l) (hQ : ∀ a ∈ l, ∀ s, Q s a) :
    Along step (fun s a => P s a ∧ Q s a) s l := by
  induction l generalizing s with
  | nil => trivial
  | cons a l ih =>
    exact ⟨⟨hP.1, hQ a List.mem_cons_self s⟩, fun s' hs =>
      ih (hP.2 s' hs) fun b hb => hQ b (List.mem_cons_of_mem _ hb)⟩

instance Along.decidable [h : ∀ s a, Decidable (P s a)] :
    (l : List A) → (s : S) → Decidable (Along step P s l)
  | [], _ => .isTrue trivial
  | a :: l, s =>
    have : ∀ s', Decidable (Along step P s' l) := Along.decidable l
    inferInstanceAs (Decidable (P s a ∧ ∀ s' ∈ step s a, Along step P s' l))

theorem steps_of_along {l : List A} (hl : Along step P s l) (h : play step s l = some s') :
    Steps step P s s' := by
  induction l generalizing s with
  | nil => cases h; exact .refl
  | cons a l ih =>
    obtain ⟨s₁, h₁, h⟩ := Option.bind_eq_some_iff.1 h
    exact .head ⟨a, hl.1, h₁⟩ (ih (hl.2 s₁ h₁) h)

theorem steps_of_play {l : List A} (hl : ∀ a ∈ l, ∀ s, P s a) (h : play step s l = some s') :
    Steps step P s s' := by
  induction l generalizing s with
  | nil => cases h; exact .refl
  | cons a l ih =>
    obtain ⟨s₁, h₁, h⟩ := Option.bind_eq_some_iff.1 h
    exact .head ⟨a, hl a List.mem_cons_self s, h₁⟩
      (ih (fun b hb => hl b (List.mem_cons_of_mem _ hb)) h)

theorem play_append {l l' : List A} :
    play step s (l ++ l') = (play step s l).bind fun s => play step s l' := by
  induction l generalizing s with
  | nil => rfl
  | cons a l ih =>
    simp only [List.cons_append, play, Option.bind_assoc, ih]

end Machine
