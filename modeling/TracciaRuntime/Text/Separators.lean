/-
  Words joined by separators that the words may contain.

  A separator `c w c`, in which `c` occurs at its ends only, can overlap itself or a
  neighbouring word by one `c`.

  * `join_eq`: two pairs of words with the same join are equal, or one of the
    first words goes on as the other and the separator do;
  * `exists_join_eq`: in that case there are second words with which the joins are
    the same;
  * `infix_at`: an occurrence of the separator does not go across a `c`;
  * `intercalate_injective`: texts without the separator can be read off their join.
-/
import Mathlib.Data.List.Infix
import Mathlib.Data.List.Basic

namespace Text

variable {α : Type} {c : α} {w a a' b b' : List α}

/-- The word between two `c`. -/
def fence (c : α) (w : List α) : List α := c :: w ++ [c]

theorem prefix_total {x y x' y' : List α} (h : x ++ y = x' ++ y') : x <+: x' ∨ x' <+: x :=
  List.prefix_or_prefix_of_prefix (List.prefix_append x y) (h ▸ List.prefix_append x' y')

/-- A `c` inside the separator is its first or its last letter. -/
theorem fence_prefix {x y z : List α} (hc : c ∉ w) (hx : x ≠ [])
    (h : fence c w ++ y = x ++ c :: z) : fence c w <+: x ++ [c] := by
  obtain ⟨d, x, rfl⟩ := List.exists_cons_of_ne_nil hx
  unfold fence at h ⊢
  simp only [List.cons_append, List.append_assoc, List.nil_append, List.cons.injEq] at h ⊢
  obtain ⟨rfl, h⟩ := h
  refine List.cons_prefix_cons.2 ⟨rfl, ?_⟩
  rcases prefix_total h with ⟨u, rfl⟩ | ⟨u, rfl⟩
  · rw [List.append_assoc] at h
    have h := List.append_cancel_left h
    cases u with
    | nil => simp
    | cons d u =>
      obtain ⟨rfl, -⟩ := List.cons.inj h
      exact ⟨u ++ [c], by simp⟩
  · rw [List.append_assoc] at h
    have h := List.append_cancel_left h
    cases u with
    | nil => simp
    | cons d u =>
      obtain ⟨rfl, -⟩ := List.cons.inj h
      exact absurd (by simp) hc

/-- **Two pairs with the same join.** -/
theorem join_eq (hc : c ∉ w) (h : a ++ fence c w ++ b = a' ++ fence c w ++ b') :
    (a = a' ∧ b = b') ∨ a ++ fence c w <+: a' ++ [c] ∨ a' ++ fence c w <+: a ++ [c] := by
  rw [List.append_assoc, List.append_assoc] at h
  rcases prefix_total h with ⟨x, hx⟩ | ⟨x, hx⟩
  · cases x with
    | nil =>
      rw [List.append_nil] at hx
      subst hx
      exact Or.inl ⟨rfl, List.append_cancel_left (List.append_cancel_left h)⟩
    | cons d x =>
      rw [← hx, List.append_assoc] at h
      have hp := fence_prefix hc (List.cons_ne_nil d x) (List.append_cancel_left h)
      refine Or.inr (Or.inl ?_)
      rw [← hx, List.append_assoc]
      exact (List.prefix_append_right_inj a).2 hp
  · cases x with
    | nil =>
      rw [List.append_nil] at hx
      subst hx
      exact Or.inl ⟨rfl, List.append_cancel_left (List.append_cancel_left h)⟩
    | cons d x =>
      rw [← hx, List.append_assoc] at h
      have hp := fence_prefix hc (List.cons_ne_nil d x) (List.append_cancel_left h).symm
      refine Or.inr (Or.inr ?_)
      rw [← hx, List.append_assoc]
      exact (List.prefix_append_right_inj a').2 hp

/-- A first word that goes on as the other and the separator do is not the other. -/
theorem ne_of_fence_prefix (h : a ++ fence c w <+: a' ++ [c]) : a ≠ a' := by
  rintro rfl
  have := ((List.prefix_append_right_inj a).1 h).length_le
  simp [fence] at this

theorem exists_join_eq (h : a ++ fence c w <+: a' ++ [c]) :
    ∃ b b', a ++ fence c w ++ b = a' ++ fence c w ++ b' := by
  obtain ⟨u, hu⟩ := h
  refine ⟨u ++ w ++ [c], [], ?_⟩
  calc a ++ fence c w ++ (u ++ w ++ [c]) = (a ++ fence c w ++ u) ++ w ++ [c] := by simp
    _ = (a' ++ [c]) ++ w ++ [c] := by rw [hu]
    _ = a' ++ fence c w ++ [] := by simp [fence]

/-- **The joins are injective exactly if neither first word goes on as the other.** -/
theorem join_injective_iff (hc : c ∉ w) :
    (∀ b b', a ++ fence c w ++ b = a' ++ fence c w ++ b' → a = a' ∧ b = b') ↔
      ¬ a ++ fence c w <+: a' ++ [c] ∧ ¬ a' ++ fence c w <+: a ++ [c] := by
  constructor
  · refine fun h => ⟨fun hp => ?_, fun hp => ?_⟩
    · obtain ⟨b, b', hb⟩ := exists_join_eq hp
      exact ne_of_fence_prefix hp (h b b' hb).1
    · obtain ⟨b, b', hb⟩ := exists_join_eq hp
      exact ne_of_fence_prefix hp (h b' b hb.symm).1.symm
  · rintro ⟨h₁, h₂⟩ b b' hb
    rcases join_eq hc hb with h | h | h
    · exact h
    · exact absurd h h₁
    · exact absurd h h₂

/-- The same for a separator of one letter. -/
theorem join_single_injective_iff :
    (∀ b b', a ++ c :: b = a' ++ c :: b' → a = a' ∧ b = b') ↔
      ¬ a ++ [c] <+: a' ∧ ¬ a' ++ [c] <+: a := by
  have collide : ∀ {x x' : List α}, x ++ [c] <+: x' → ∃ y y', x ++ c :: y = x' ++ c :: y' := by
    rintro x x' ⟨u, rfl⟩
    exact ⟨u ++ [c], [], by simp⟩
  have differ : ∀ {x x' : List α}, x ++ [c] <+: x' → x ≠ x' := by
    rintro x x' h rfl
    have hlen := h.length_le
    rw [List.length_append, List.length_singleton] at hlen
    omega
  constructor
  · refine fun h => ⟨fun hp => ?_, fun hp => ?_⟩
    · obtain ⟨b, b', hb⟩ := collide hp
      exact differ hp (h b b' hb).1
    · obtain ⟨b, b', hb⟩ := collide hp
      exact differ hp (h b' b hb.symm).1.symm
  · rintro ⟨h₁, h₂⟩ b b' hb
    have step : ∀ {x x' y y' : List α}, ¬ x ++ [c] <+: x' → x <+: x' → x ++ c :: y = x' ++ c :: y' →
        x = x' ∧ y = y' := by
      rintro x x' y y' hne ⟨u, rfl⟩ he
      rw [List.append_assoc] at he
      have he := List.append_cancel_left he
      cases u with
      | nil => exact ⟨(List.append_nil x).symm, List.cons.inj he |>.2⟩
      | cons d u =>
        obtain ⟨rfl, -⟩ := List.cons.inj he
        exact absurd ⟨u, by simp⟩ hne
    rcases prefix_total hb with hp | hp
    · exact step h₁ hp hb
    · obtain ⟨rfl, rfl⟩ := step h₂ hp hb.symm
      exact ⟨rfl, rfl⟩

/-! ## Occurrences -/

/-- **An occurrence of the separator does not go across a `c`.** -/
theorem infix_at (hc : c ∉ w) :
    fence c w <:+: a ++ c :: b ↔ fence c w <:+: a ++ [c] ∨ fence c w <:+: c :: b := by
  constructor
  · rintro ⟨x, y, h⟩
    rw [List.append_assoc] at h
    rcases prefix_total h with ⟨u, hu⟩ | ⟨u, hu⟩
    · -- the occurrence begins in `a` or at the `c`
      rw [← hu, List.append_assoc] at h
      have h := List.append_cancel_left h
      cases u with
      | nil => exact Or.inr ⟨[], y, h⟩
      | cons d u =>
        have hp := fence_prefix hc (List.cons_ne_nil d u) h
        obtain ⟨v, hv⟩ := hp
        exact Or.inl ⟨x, v, by rw [List.append_assoc, hv, ← hu]; simp⟩
    · rw [← hu, List.append_assoc] at h
      exact Or.inr ⟨u, y, by rw [List.append_assoc]; exact List.append_cancel_left h⟩
  · rintro (h | h)
    · exact h.trans ⟨[], b, by simp⟩
    · exact h.trans (List.suffix_append a (c :: b)).isInfix

/-- Texts that do not contain the separator can be read off their join. -/
theorem intercalate_injective {c : Char} {l l' : List String} (hl : ∀ s ∈ l, c ∉ s.toList)
    (hl' : ∀ s ∈ l', c ∉ s.toList) (hne : l ≠ []) (hne' : l' ≠ [])
    (h : (String.singleton c).intercalate l = (String.singleton c).intercalate l') : l = l' := by
  have hsplit : ∀ l : List String, (∀ s ∈ l, c ∉ s.toList) → l ≠ [] →
      ((String.singleton c).intercalate l).toList.splitOn c = l.map String.toList := by
    intro l hl hne
    rw [String.toList_intercalate, String.toList_singleton]
    refine List.splitOn_intercalate c ?_ (by simpa using hne)
    intro w hw
    obtain ⟨s, hs, rfl⟩ := List.mem_map.1 hw
    exact hl s hs
  have hmap : l.map String.toList = l'.map String.toList := by
    rw [← hsplit l hl hne, h, hsplit l' hl' hne']
  exact List.map_injective_iff.2 (fun _ _ => String.toList_inj.1) hmap

end Text
