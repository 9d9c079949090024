/-
  The best items of a list, one for each key, and the first of them in an order.

  * `Best`: one item of each key, with the highest score of its key; `best_bests`: a pass with a
    dictionary finds them;
  * `Top`: items in their order, such that what is left out has its key among them or is no
    better than any of them; `Best.top`: the first of the best items, once they are sorted.
-/
import TracciaRuntime.Py.Dict
import Mathlib.Order.Lattice

namespace Listing

open Py

section
variable {A K S : Type} [LinearOrder S] (key : A → K) (score : A → S)

/-- `out` has one item of each key of `l`, and none of its key is better. -/
structure Best (l out : List A) : Prop where
  mem : ∀ a ∈ out, a ∈ l
  nodup : (out.map key).Nodup
  best : ∀ a ∈ l, ∃ b ∈ out, key b = key a ∧ score a ≤ score b

/-- `out` is sorted, and what it leaves out of `l` has its key in it, or is no better than any
    of it. -/
structure Top (before : A → A → Bool) (limit : Nat) (l out : List A) : Prop where
  mem : ∀ a ∈ out, a ∈ l
  nodup : (out.map key).Nodup
  sorted : out.Pairwise fun a b => before a b = true
  short : out.length ≤ limit
  complete : ∀ a ∈ l, (∃ b ∈ out, key b = key a ∧ score a ≤ score b) ∨
    out.length = limit ∧ ∀ b ∈ out, score a ≤ score b

/-! ## One pass -/

variable [DecidableEq K]

/-- The item, if it is the first of its key or better than those before. -/
def keep (d : Dict K A) (a : A) : Dict K A :=
  match d.get (key a) with
  | none => d.set (key a) a
  | some b => if score b < score a then d.set (key a) a else d

def bests (l : List A) : List A := (l.foldl (keep key score) []).values

/-- The dictionary after the items of `l`. -/
structure Kept (l : List A) (d : Dict K A) : Prop where
  nodup : d.keys.Nodup
  mem : ∀ k a, d.get k = some a → a ∈ l ∧ key a = k
  best : ∀ a ∈ l, ∃ b, d.get (key a) = some b ∧ score a ≤ score b

variable {key score} {l l' out : List A} {d : Dict K A}

theorem Kept.set (h : Kept key score l d) {a : A}
    (ha : ∀ b, d.get (key a) = some b → score b ≤ score a) :
    Kept key score (l ++ [a]) (d.set (key a) a) where
  nodup := Dict.nodup_keys_set _ _ h.nodup
  mem k b hb := by
    rw [Dict.get_set] at hb
    split at hb
    · rename_i hk
      cases hb
      exact ⟨List.mem_append_right _ (List.mem_singleton_self _), hk.symm⟩
    · obtain ⟨hmem, hkey⟩ := h.mem k b hb
      exact ⟨List.mem_append_left _ hmem, hkey⟩
  best b hb := by
    rw [Dict.get_set]
    rcases List.mem_append.1 hb with hb | hb
    · obtain ⟨c, hc, hle⟩ := h.best b hb
      split
      · rename_i hk
        rw [hk] at hc
        exact ⟨a, rfl, hle.trans (ha c hc)⟩
      · exact ⟨c, hc, hle⟩
    · rw [List.mem_singleton.1 hb, if_pos rfl]
      exact ⟨a, rfl, le_refl _⟩

/-- One item. -/
theorem Kept.keep (h : Kept key score l d) (a : A) :
    Kept key score (l ++ [a]) (keep key score d a) := by
  unfold Listing.keep
  split
  · rename_i hnone
    refine h.set fun b hb => ?_
    rw [hnone] at hb
    cases hb
  · rename_i b hb
    split
    · rename_i hlt
      refine h.set fun c hc => ?_
      rw [hb] at hc
      cases hc
      exact hlt.le
    · rename_i hlt
      refine ⟨h.nodup, fun k c hc => ?_, fun c hc => ?_⟩
      · obtain ⟨hmem, hkey⟩ := h.mem k c hc
        exact ⟨List.mem_append_left _ hmem, hkey⟩
      · rcases List.mem_append.1 hc with hc | hc
        · exact h.best c hc
        · rw [List.mem_singleton.1 hc]
          exact ⟨b, hb, not_lt.1 hlt⟩

theorem Kept.foldl (h : Kept key score l d) (l' : List A) :
    Kept key score (l ++ l') (l'.foldl (Listing.keep key score) d) := by
  induction l' generalizing l d with
  | nil => simpa using h
  | cons a l' ih => simpa using ih (h.keep a)

theorem Kept.values (h : Kept key score l d) : Best key score l d.values := by
  have hget : ∀ a ∈ d.values, ∃ k, d.get k = some a := fun a ha => by
    obtain ⟨i, hi, rfl⟩ := List.mem_map.1 ha
    exact ⟨i.1, Dict.get_of_mem h.nodup hi⟩
  refine ⟨fun a ha => ?_, ?_, fun a ha => ?_⟩
  · obtain ⟨k, hk⟩ := hget a ha
    exact (h.mem k a hk).1
  · have hkeys : d.values.map key = d.keys := by
      unfold Dict.values Dict.keys
      rw [List.map_map]
      exact List.map_congr_left fun i hi => (h.mem i.1 i.2 (Dict.get_of_mem h.nodup hi)).2
    rw [hkeys]
    exact h.nodup
  · obtain ⟨b, hb, hle⟩ := h.best a ha
    exact ⟨b, List.mem_map_of_mem (f := (·.2)) (Dict.mem_of_get hb), (h.mem _ b hb).2, hle⟩

/-- The pass finds the best items. -/
theorem best_bests (key : A → K) (score : A → S) (l : List A) :
    Best key score l (bests key score l) := by
  have hnil : Kept key score [] ([] : Dict K A) :=
    ⟨List.nodup_nil, fun k a h => by (cases h), fun a h => by (cases h)⟩
  exact (hnil.foldl l).values

/-! ## The first items -/

omit [DecidableEq K] in
/-- The first of the best items, in an order that goes by the scores. -/
theorem Best.top (h : Best key score l out) {before : A → A → Bool}
    (htrans : ∀ a b c, before a b = true → before b c = true → before a c = true)
    (htotal : ∀ a b, (before a b || before b a) = true)
    (hscore : ∀ a b, before a b = true → score b ≤ score a) (limit : Nat) :
    Top key score before limit l ((out.mergeSort before).take limit) := by
  have hperm : (out.mergeSort before).Perm out := List.mergeSort_perm out before
  have hsorted : (out.mergeSort before).Pairwise fun a b => before a b = true :=
    List.pairwise_mergeSort htrans htotal out
  have hnodup : ((out.mergeSort before).map key).Nodup := (hperm.map key).nodup_iff.2 h.nodup
  refine ⟨fun a ha => h.mem a (hperm.mem_iff.1 (List.mem_of_mem_take ha)), ?_,
    hsorted.sublist (List.take_sublist _ _), List.length_take_le _ _, fun a ha => ?_⟩
  · rw [List.map_take]
    exact hnodup.sublist (List.take_sublist _ _)
  · obtain ⟨b, hb, hkey, hle⟩ := h.best a ha
    have hsplit := List.take_append_drop limit (out.mergeSort before)
    rw [← hperm.mem_iff, ← hsplit] at hb
    rcases List.mem_append.1 hb with hb | hb
    · exact .inl ⟨b, hb, hkey, hle⟩
    · right
      have hlong : limit < (out.mergeSort before).length := by
        by_contra hshort
        rw [List.drop_eq_nil_of_le (Nat.le_of_not_lt hshort)] at hb
        cases hb
      rw [← hsplit] at hsorted
      refine ⟨by rw [List.length_take]; omega, fun c hc => ?_⟩
      exact hle.trans (hscore c b ((List.pairwise_append.1 hsorted).2.2 c hc b hb))

end

end Listing
